import Redbit.Coin.Address

/-!
# Asset names (`ergo` and `cardano`, `block_provider.rs`; `redbit`, `codec.rs`)

The providers put the bytes of a token id and of an asset name into the column `AssetName`, whose
codec is `Utf8`: the bytes are shown as the text that they encode.  Both blocks are taken as the
libraries decode them.

`assetNames_readBack_iff` says which blocks have names that are shown and read back: those whose
token ids and asset names are UTF-8. -/

namespace Redbit.Coin

/-! ### The codec -/

/-- `Utf8::serialize_as`. -/
def Utf8.serializeAs (source : Bytes) : Except String String :=
  match String.fromUTF8? source.toByteArray with
  | some s => .ok s
  | none => .error "Bytes cannot be UTF-8 encoded"

/-- `Utf8::deserialize_as`. -/
def Utf8.deserializeAs (s : String) : Except String Bytes := .ok (asBytes s)

/-- The bytes are shown, and the text is read back as them. -/
def Utf8.ReadsBack (b : Bytes) : Prop := ∃ text, Utf8.serializeAs b = .ok text ∧
    Utf8.deserializeAs text = .ok b

/-- The bytes are the encoding of some letters. -/
def Utf8.Encoding (b : Bytes) : Prop :=
  ∃ letters : List Char, b = letters.flatMap String.utf8EncodeChar

lemma Utf8.encoding_iff {b : Bytes} : Utf8.Encoding b ↔ b.toByteArray.IsValidUTF8 := by
  constructor
  · rintro ⟨letters, rfl⟩
    exact ⟨letters, rfl⟩
  · rintro ⟨letters, hletters⟩
    refine ⟨letters, ?_⟩
    have hdata := congrArg (fun a => a.data.toList) hletters
    simpa [List.utf8Encode] using hdata

/-- The codec shows and reads back exactly the encodings. -/
lemma Utf8.readsBack_iff {b : Bytes} : Utf8.ReadsBack b ↔ Utf8.Encoding b := by
  rw [Utf8.encoding_iff]
  unfold Utf8.ReadsBack Utf8.serializeAs Utf8.deserializeAs String.fromUTF8?
  by_cases hvalid : b.toByteArray.IsValidUTF8
  · rw [dif_pos hvalid]
    refine iff_of_true ⟨_, rfl, ?_⟩ hvalid
    simp [asBytes, String.fromUTF8]
  · rw [dif_neg hvalid]
    refine iff_of_false ?_ hvalid
    rintro ⟨text, htext, -⟩
    cases htext

/-- Names that are taken over from the chain are shown and read back exactly if those on the chain
are encodings. -/
lemma Utf8.forall_readsBack_iff {α β : Type*} {assets : List α} {raw : List β} {name : α → Bytes}
    {rawName : β → Bytes} (h : assets.map name = raw.map rawName) :
    (∀ a ∈ assets, Utf8.ReadsBack (name a)) ↔ ∀ r ∈ raw, Utf8.Encoding (rawName r) := by
  calc (∀ a ∈ assets, Utf8.ReadsBack (name a))
    _ ↔ ∀ n ∈ assets.map name, Utf8.Encoding n := by
      simp only [Utf8.readsBack_iff, List.forall_mem_map]
    _ ↔ ∀ r ∈ raw, Utf8.Encoding (rawName r) := by rw [h, List.forall_mem_map]

/-- `AssetType`. -/
inductive AssetType
  | mint
  | transfer
  | burn

def AssetType.toU8 : AssetType → UInt8
  | .mint => 0
  | .transfer => 1
  | .burn => 2

/-- What is made of an element without its number is made of the elements. -/
lemma map_zipIdx_eq {α β : Type*} {f : α × ℕ → β} {h : α → β} (hf : ∀ a i, f (a, i) = h a)
    (l : List α) : l.zipIdx.map f = l.map h := by
  calc l.zipIdx.map f
    _ = l.zipIdx.map (h ∘ Prod.fst) := List.map_congr_left fun p _ => hf p.1 p.2
    _ = l.map h := by rw [← List.map_map, List.zipIdx_map_fst]

/-- Numbering the elements does not change what is collected from them. -/
lemma flatMap_zipIdx {α β γ : Type*} {f : α × ℕ → β} {g : β → List γ} {h : α → List γ}
    (hgf : ∀ a i, g (f (a, i)) = h a) (l : List α) : (l.zipIdx.map f).flatMap g = l.flatMap h := by
  rw [List.flatMap_def, List.map_map, map_zipIdx_eq hgf, ← List.flatMap_def]

/-! ### Ergo -/

namespace Ergo

/-- `Token`. -/
structure Token where
  tokenId : Hash
  amount : UInt64

/-- The address of a tree, with what `encode_address_as_bytes` gives; a `P2S` address has the bytes
of its tree. -/
inductive TreeAddress
  | p2s (sigmaBytes encoded : Bytes)
  | other (encoded : Bytes)

def TreeAddress.encoded : TreeAddress → Bytes
  | .p2s _ encoded => encoded
  | .other encoded => encoded

/-- `ErgoBox`, with what the library makes of its tree. -/
structure ErgoBox where
  boxId : Hash
  value : UInt64
  templateBytes : Option Bytes
  recreatedAddress : Option TreeAddress
  sigmaBytes : Option Bytes
  tokens : Option (List Token)

structure ErgoTransaction where
  id : Hash
  inputs : List Hash
  outputs : List ErgoBox

structure FullBlock where
  id : Hash
  parentId : Hash
  height : UInt32
  timestamp : UInt64
  transactions : List ErgoTransaction

/-- `UtxoPointer`: an asset of an output. -/
structure UtxoPointer where
  parent : TransactionPointer
  index : UInt8

structure Asset where
  id : UtxoPointer
  name : Bytes
  amount : UInt64
  assetAction : UInt8

structure Utxo where
  id : TransactionPointer
  assets : List Asset
  address : Bytes
  amount : UInt64
  boxId : Hash
  tree : Bytes
  treeTemplate : Bytes

/-- `Transaction`; its inputs and the outputs that they spend are filled in later. -/
structure Transaction where
  id : BlockPointer
  hash : Hash
  utxos : List Utxo
  inputRefs : List Hash

structure BlockHeader where
  height : UInt32
  timestamp : UInt32
  hash : Hash
  prevHash : Hash
  weight : UInt32

structure Block where
  height : UInt32
  header : BlockHeader
  transactions : List Transaction

/-- The asset of a token; `newTokenId` is the id of the first output. -/
def processToken (newTokenId : Hash) (utxoPointer : TransactionPointer) (token : Token)
    (index : ℕ) : Asset :=
  let action := if newTokenId = token.tokenId then AssetType.mint else AssetType.transfer
  { id := ⟨utxoPointer, UInt8.ofNat index⟩, name := token.tokenId.toList, amount := token.amount,
    assetAction := action.toU8 }

def processOutput (newTokenId : Hash) (txPointer : BlockPointer) (out : ErgoBox)
    (outIndex : ℕ) : Utxo :=
  let ergoTree :=
    match out.recreatedAddress with
    | some (.p2s sigmaBytes _) => some sigmaBytes
    | _ => out.sigmaBytes
  let utxoPointer : TransactionPointer := ⟨txPointer, UInt16.ofNat outIndex⟩
  let assets := (out.tokens.getD []).zipIdx.map fun (token, index) =>
    processToken newTokenId utxoPointer token index
  { id := utxoPointer, assets := assets, address := (out.recreatedAddress.map (·.encoded)).getD [],
    amount := out.value, boxId := out.boxId, tree := ergoTree.getD [],
    treeTemplate := out.templateBytes.getD [] }

/-- `process_outputs`. -/
def processOutputs (outs : List ErgoBox) (txPointer : BlockPointer) : ℕ × List Utxo :=
  match outs with
  | [] => (0, [])
  | first :: _ =>
    let resultOuts := outs.zipIdx.map fun (out, outIndex) =>
      processOutput first.boxId txPointer out outIndex
    ((resultOuts.map (·.assets.length)).sum + resultOuts.length, resultOuts)

def processTx (height : UInt32) (tx : ErgoTransaction) (txIndex : ℕ) : Transaction :=
  let txId : BlockPointer := ⟨height, UInt16.ofNat txIndex⟩
  { id := txId, hash := tx.id, utxos := (processOutputs tx.outputs txId).2, inputRefs := tx.inputs }

/-- What `process_block_pure` makes of a decoded block. -/
def processBlock (b : FullBlock) : Block :=
  let blockWeight := 6 + (b.transactions.zipIdx.map fun (tx, txIndex) =>
    (processOutputs tx.outputs ⟨b.height, UInt16.ofNat txIndex⟩).1 + tx.inputs.length + 1).sum
  { height := b.height
    header :=
      { height := b.height, timestamp := (b.timestamp / 1000).toUInt32, hash := b.id,
        prevHash := b.parentId, weight := UInt32.ofNat blockWeight }
    transactions := b.transactions.zipIdx.map fun (tx, txIndex) => processTx b.height tx txIndex }

/-- `process_block_pure`, from what the library decodes. -/
def processBlockPure (decoded : Except String FullBlock) : Except String Block :=
  match decoded with
  | .error e => .error s!"Failed to parse block CBOR: {e}"
  | .ok b => .ok (processBlock b)

/-- The assets of a block. -/
def Block.assets (block : Block) : List Asset := block.transactions.flatMap fun tx =>
    tx.utxos.flatMap (·.assets)

/-- The tokens of a block. -/
def FullBlock.tokens (b : FullBlock) : List Token :=
  b.transactions.flatMap fun tx => tx.outputs.flatMap fun out => out.tokens.getD []

lemma names_processOutputs (outs : List ErgoBox) (txPointer : BlockPointer) :
    ((processOutputs outs txPointer).2.flatMap fun utxo => utxo.assets.map (·.name)) =
      outs.flatMap fun out => (out.tokens.getD []).map (·.tokenId.toList) := by
  cases outs with
  | nil => rfl
  | cons first outs =>
    simp only [processOutputs]
    refine flatMap_zipIdx (fun out outIndex => ?_) (first :: outs)
    simp only [processOutput, List.map_map]
    exact map_zipIdx_eq (fun _ _ => rfl) (out.tokens.getD [])

/-- The names of the assets are the ids of the tokens. -/
lemma names_processBlock (b : FullBlock) :
    (processBlock b).assets.map (·.name) = b.tokens.map (·.tokenId.toList) := by
  simp only [Block.assets, FullBlock.tokens, List.map_flatMap, processBlock]
  refine flatMap_zipIdx (fun tx txIndex => ?_) b.transactions
  exact names_processOutputs tx.outputs _

end Ergo

/-! ### Cardano -/

namespace Cardano

/-- An asset of a policy, as the library gives it. -/
structure RawAsset where
  name : Bytes
  anyCoin : Int
  isMint : Bool

structure PolicyAssets where
  policy : Bytes
  assets : List RawAsset

/-- `MultiEraOutput`; a script is given with its encoding. -/
structure RawOutput where
  address : Option Bytes
  scriptRef : Option (Except String Bytes)
  coin : UInt64
  assets : List PolicyAssets

structure RawTx where
  hash : Hash
  inputs : List (Hash × UInt64)
  outputs : List RawOutput

/-- `MultiEraBlock`, with the clock time of its slot. -/
structure MultiEraBlock where
  isEpochBoundary : Bool
  number : UInt64
  hash : Hash
  previousHash : Option Hash
  slot : UInt64
  wallclock : UInt64
  txs : List RawTx

/-- `UtxoPointer`: an asset of an output. -/
structure UtxoPointer where
  parent : TransactionPointer
  index : UInt16

structure Asset where
  id : UtxoPointer
  amount : UInt64
  name : Bytes
  policyId : Vector UInt8 28
  assetAction : UInt8

structure Utxo where
  id : TransactionPointer
  amount : UInt64
  address : Bytes
  scriptHash : Bytes
  assets : List Asset

/-- `Transaction`; its inputs and the outputs that they spend are filled in later. -/
structure Transaction where
  id : BlockPointer
  hash : Hash
  utxos : List Utxo
  inputRefs : List InputRef

structure BlockHeader where
  height : UInt32
  timestamp : UInt32
  slot : UInt32
  hash : Hash
  prevHash : Hash
  weight : UInt32

structure Block where
  height : UInt32
  header : BlockHeader
  transactions : List Transaction

/-- `try_into` of the policy's bytes. -/
def policyId (policy : Bytes) : Option (Vector UInt8 28) :=
  if h : policy.length = 28 then some ⟨policy.toArray, by rw [List.size_toArray, h]⟩ else none

/-- The assets of an output in their order; a policy whose id is not 28 bytes long is skipped. -/
def listAssets (policies : List PolicyAssets) : List (Vector UInt8 28 × RawAsset) :=
  policies.flatMap fun p =>
    match policyId p.policy with
    | some pid => p.assets.map fun asset => (pid, asset)
    | none => []

def processAsset (utxoPointer : TransactionPointer) (pid : Vector UInt8 28) (asset : RawAsset)
    (idx : ℕ) : Asset :=
  let action :=
    if asset.isMint then AssetType.mint else if asset.anyCoin < 0 then AssetType.burn
      else AssetType.transfer
  { id := ⟨utxoPointer, UInt16.ofNat idx⟩, amount := UInt64.ofNat asset.anyCoin.natAbs,
    name := asset.name, policyId := pid, assetAction := action.toU8 }

def processOutput (txPointer : BlockPointer) (out : RawOutput) (outIndex : ℕ) : Utxo :=
  let utxoPointer : TransactionPointer := ⟨txPointer, UInt16.ofNat outIndex⟩
  { id := utxoPointer, amount := out.coin, address := out.address.getD [],
    scriptHash := (out.scriptRef.bind (·.toOption)).getD []
    assets := (listAssets out.assets).zipIdx.map fun ((pid, asset), idx) =>
      processAsset utxoPointer pid asset idx }

/-- `process_outputs`. -/
def processOutputs (outs : List RawOutput) (txPointer : BlockPointer) : ℕ × List Utxo :=
  let resultOuts := outs.zipIdx.map fun (out, outIndex) => processOutput txPointer out outIndex
  ((resultOuts.map (·.assets.length)).sum + resultOuts.length, resultOuts)

/-- `process_inputs`. -/
def processInputs (ins : List (Hash × UInt64)) : List InputRef :=
  ins.map fun (txHash, index) => ⟨txHash, index.toUInt16⟩

def processTx (height : UInt32) (tx : RawTx) (txIndex : ℕ) : Transaction :=
  let txId : BlockPointer := ⟨height, UInt16.ofNat txIndex⟩
  { id := txId, hash := tx.hash, utxos := (processOutputs tx.outputs txId).2,
    inputRefs := processInputs tx.inputs }

/-- What `process_block_pure` makes of a decoded block. -/
def processBlock (b : MultiEraBlock) : Block :=
  let height := b.number.toUInt32
  let blockWeight := 25 + (b.txs.zipIdx.map fun (tx, txIndex) =>
    (processOutputs tx.outputs ⟨height, UInt16.ofNat txIndex⟩).1 +
      (processInputs tx.inputs).length + 1).sum
  { height := height
    header :=
      { height := height, timestamp := b.wallclock.toUInt32, slot := b.slot.toUInt32, hash := b.hash,
        prevHash := b.previousHash.getD (Vector.replicate 32 0), weight := UInt32.ofNat blockWeight }
    transactions := b.txs.zipIdx.map fun (tx, txIndex) => processTx height tx txIndex }

/-- `process_block_pure`, from what the library decodes. -/
def processBlockPure (decoded : Except String MultiEraBlock) : Except String Block :=
  match decoded with
  | .error e => .error s!"Cardano pallas traverse error: {e}"
  | .ok b =>
    if b.isEpochBoundary then .error s!"Skipping Byron epoch boundary block {b.number}"
    else .ok (processBlock b)

/-- The assets of a block. -/
def Block.assets (block : Block) : List Asset := block.transactions.flatMap fun tx =>
    tx.utxos.flatMap (·.assets)

/-- The assets of a block as they are on the chain, with a policy of 28 bytes. -/
def MultiEraBlock.rawAssets (b : MultiEraBlock) : List RawAsset :=
  b.txs.flatMap fun tx => tx.outputs.flatMap fun out =>
    (out.assets.filter fun p => p.policy.length = 28).flatMap (·.assets)

lemma map_listAssets (policies : List PolicyAssets) :
    (listAssets policies).map (·.2) = (policies.filter fun p => p.policy.length = 28).flatMap
      (·.assets) := by
  induction policies with
  | nil => rfl
  | cons p policies ih =>
    rw [listAssets, List.flatMap_cons, List.map_append]
    change _ ++ (listAssets policies).map (·.2) = _
    rw [ih]
    by_cases hp : p.policy.length = 28
    · simp [policyId, hp, Function.comp_def]
    · simp [policyId, hp]

lemma names_processOutput (txPointer : BlockPointer) (out : RawOutput) (outIndex : ℕ) :
    (processOutput txPointer out outIndex).assets.map (·.name) =
      ((out.assets.filter fun p => p.policy.length = 28).flatMap (·.assets)).map (·.name) := by
  rw [← map_listAssets]
  simp only [processOutput, List.map_map]
  exact map_zipIdx_eq (fun _ _ => rfl) (listAssets out.assets)

/-- The names of the assets are the names on the chain. -/
lemma names_processBlock (b : MultiEraBlock) :
    (processBlock b).assets.map (·.name) = b.rawAssets.map (·.name) := by
  simp only [Block.assets, MultiEraBlock.rawAssets, List.map_flatMap, processBlock]
  refine flatMap_zipIdx (fun tx txIndex => ?_) b.txs
  simp only [processTx, processOutputs]
  refine flatMap_zipIdx (fun out outIndex => ?_) tx.outputs
  rw [names_processOutput, List.map_flatMap]

end Cardano

/-- **Asset names.**  Every name of a block that a provider accepts is shown and read back exactly
if every token id of an Ergo block, and every asset name of a Cardano block, is UTF-8. -/
theorem assetNames_readBack_iff (ergo : Except String Ergo.FullBlock)
    (cardano : Except String Cardano.MultiEraBlock) :
    (∀ block, Ergo.processBlockPure ergo = .ok block → ∃ raw, ergo = .ok raw ∧
      ((∀ asset ∈ block.assets, Utf8.ReadsBack asset.name) ↔
        ∀ token ∈ raw.tokens, Utf8.Encoding token.tokenId.toList)) ∧
    ∀ block, Cardano.processBlockPure cardano = .ok block → ∃ raw, cardano = .ok raw ∧
      ((∀ asset ∈ block.assets, Utf8.ReadsBack asset.name) ↔
        ∀ asset ∈ raw.rawAssets, Utf8.Encoding asset.name) := by
  constructor
  · intro block hblock
    cases ergo with
    | error e => cases hblock
    | ok raw =>
      cases hblock
      refine ⟨raw, rfl, ?_⟩
      exact Utf8.forall_readsBack_iff (Ergo.names_processBlock raw)
  · intro block hblock
    cases cardano with
    | error e => cases hblock
    | ok raw =>
      simp only [Cardano.processBlockPure] at hblock
      split_ifs at hblock
      cases hblock
      refine ⟨raw, rfl, ?_⟩
      exact Utf8.forall_readsBack_iff (Cardano.names_processBlock raw)

/-- An Ergo block with one output that holds a token. -/
def Ergo.tokenBlock (tokenId : Hash) : Ergo.FullBlock :=
  { id := Vector.replicate 32 1, parentId := Vector.replicate 32 2, height := 500000,
    timestamp := 1622505600000
    transactions :=
      [{ id := Vector.replicate 32 3, inputs := [Vector.replicate 32 4]
         outputs :=
          [{ boxId := Vector.replicate 32 5, value := 1000000, templateBytes := none,
             recreatedAddress := none, sigmaBytes := none, tokens := some [⟨tokenId, 1⟩] }] }] }

/-- A Cardano block with one output that holds an asset. -/
def Cardano.assetBlock (name : Bytes) : Cardano.MultiEraBlock :=
  { isEpochBoundary := false, number := 8000000, hash := Vector.replicate 32 1, previousHash := none,
    slot := 80000000, wallclock := 1671000000
    txs :=
      [{ hash := Vector.replicate 32 2, inputs := []
         outputs :=
          [{ address := none, scriptRef := none, coin := 1000000,
             assets := [⟨List.replicate 28 7, [⟨name, 1, false⟩]⟩] }] }] }

theorem assetNames_readBack_iff_ascii :
    (∀ asset ∈ (Ergo.processBlock (Ergo.tokenBlock (Vector.replicate 32 0x61))).assets,
      Utf8.ReadsBack asset.name) ∧
      ∀ asset ∈ (Cardano.processBlock (Cardano.assetBlock [0x61])).assets,
        Utf8.ReadsBack asset.name := by
  obtain ⟨hergo, hcardano⟩ :=
    assetNames_readBack_iff (.ok (Ergo.tokenBlock (Vector.replicate 32 0x61)))
      (.ok (Cardano.assetBlock [0x61]))
  constructor
  · obtain ⟨raw, hraw, hiff⟩ := hergo _ rfl
    cases hraw
    refine hiff.mpr fun token htoken => ?_
    cases List.mem_singleton.mp htoken
    exact ⟨List.replicate 32 'a', by decide⟩
  · obtain ⟨raw, hraw, hiff⟩ := hcardano _ rfl
    cases hraw
    refine hiff.mpr fun asset hasset => ?_
    cases List.mem_singleton.mp hasset
    exact ⟨['a'], by decide⟩

/-- The id of a token on the chain. -/
def sigUsd : Hash :=
  #v[0x03, 0xfa, 0xf2, 0xcb, 0x32, 0x9f, 0x2e, 0x90, 0xd6, 0xd2, 0x3b, 0x58, 0xd9, 0x1b, 0xbb, 0x6c,
    0x04, 0x6a, 0xa1, 0x43, 0x26, 0x1c, 0xc2, 0x1f, 0x52, 0xfb, 0xe2, 0x82, 0x4b, 0xfc, 0xbf, 0x04]

/-- The name of an asset that begins with a label of four bytes. -/
def labelledName : Bytes := [0x00, 0x0d, 0xe1, 0x40, 0x61]

/-- Neither the token nor the labelled asset has a text. -/
theorem sigUsd_not_readsBack :
    ¬ (∀ asset ∈ (Ergo.processBlock (Ergo.tokenBlock sigUsd)).assets, Utf8.ReadsBack asset.name) ∧
      ¬ ∀ asset ∈ (Cardano.processBlock (Cardano.assetBlock labelledName)).assets,
        Utf8.ReadsBack asset.name := by
  constructor
  · intro h
    have hname := h (Ergo.processToken (Vector.replicate 32 5) ⟨⟨500000, 0⟩, 0⟩ ⟨sigUsd, 1⟩ 0)
      (List.mem_singleton.mpr rfl)
    rw [Utf8.readsBack_iff, Utf8.encoding_iff] at hname
    exact absurd hname (by decide +kernel)
  · intro h
    have hname := h (Cardano.processAsset ⟨⟨8000000, 0⟩, 0⟩ (Vector.replicate 28 7)
      ⟨labelledName, 1, false⟩ 0) (List.mem_singleton.mpr rfl)
    rw [Utf8.readsBack_iff, Utf8.encoding_iff] at hname
    exact absurd hname (by decide +kernel)

end Redbit.Coin
