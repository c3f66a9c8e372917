import Mathlib.Data.List.Nodup
import Mathlib.Data.List.Basic
import Mathlib.Order.Basic
import Mathlib.Algebra.Order.Ring.Nat

/-!
# The ids of a block (`btc`, `bch` and `ltc`, `block_provider.rs`)

The three providers turn a decoded block into the entities of the store in the same way; they differ
in the address of a script, which is a parameter here.  Decoding and hashing are done by the chain's
library: a decoded transaction comes with its id, a decoded header with the hash of the block.

A transaction, an output and the output that an input spends are addressed by 16-bit positions, cast
from wider ones. `ownIds_iff` says for which blocks every part keeps an id of its own. -/

namespace Redbit.Coin

/-- The bytes of a `Vec<u8>`. -/
abbrev Bytes := List UInt8

/-- A hash of 32 bytes. -/
abbrev Hash := Vector UInt8 32

/-! ### The decoded block -/

/-- `OutPoint`. -/
@[ext]
structure OutPoint where
  txid : Hash
  vout : UInt32
  deriving DecidableEq

/-- `TxIn`, as far as it is read. -/
structure TxIn where
  previousOutput : OutPoint

/-- `TxOut`. -/
structure TxOut where
  value : UInt64
  scriptPubkey : Bytes

/-- A transaction with what `compute_txid` gives. -/
structure RawTransaction where
  txid : Hash
  input : List TxIn
  output : List TxOut

/-- A header with what `block_hash` gives. -/
structure RawHeader where
  time : UInt32
  blockHash : Hash
  prevBlockhash : Hash
  merkleRoot : Hash

structure RawBlock where
  header : RawHeader
  txdata : List RawTransaction

/-- `BtcCBOR`, `BchCBOR`, `LtcCBOR`. -/
structure Cbor where
  height : UInt32
  raw : Bytes

/-! ### The entities (`model_v1.rs`) -/

/-- `BlockPointer`: a transaction of a block. -/
structure BlockPointer where
  parent : UInt32
  index : UInt16
  deriving DecidableEq

/-- `TransactionPointer`: an output of a transaction. -/
structure TransactionPointer where
  parent : BlockPointer
  index : UInt16
  deriving DecidableEq

structure InputRef where
  txHash : Hash
  index : UInt16
  deriving DecidableEq

structure Utxo where
  id : TransactionPointer
  amount : UInt64
  scriptHash : Bytes
  address : Bytes

structure Input where
  id : TransactionPointer
  utxoPointer : TransactionPointer

structure Transaction where
  id : BlockPointer
  hash : Hash
  utxos : List Utxo
  inputs : List Input
  inputRefs : List InputRef
  inputUtxos : List Utxo

structure Header where
  height : UInt32
  timestamp : UInt32
  hash : Hash
  prevHash : Hash
  merkleRoot : Hash
  weight : UInt32

structure Block where
  height : UInt32
  header : Header
  transactions : List Transaction

/-! ### Processing -/

section Process

variable (spkToAddressBytesOrTag : Bytes → Bytes)

/-- The reference to the output that an input spends. -/
def inputRef (input : TxIn) : InputRef :=
  ⟨input.previousOutput.txid, input.previousOutput.vout.toUInt16⟩

def processInputs (ins : List TxIn) : List InputRef := ins.map inputRef

def processOutputs (outs : List TxOut) (txPointer : BlockPointer) : ℕ × List Utxo :=
  let resultOuts := outs.zipIdx.map fun (out, outIndex) =>
    { id := ⟨txPointer, UInt16.ofNat outIndex⟩, amount := out.value, scriptHash := out.scriptPubkey,
      address := spkToAddressBytesOrTag out.scriptPubkey }
  (resultOuts.length, resultOuts)

def processTx (height : UInt32) (txIndex : UInt16) (tx : RawTransaction) : Transaction :=
  let txPointer : BlockPointer := ⟨height, txIndex⟩
  { id := txPointer, hash := tx.txid,
    utxos := (processOutputs spkToAddressBytesOrTag tx.output txPointer).2, inputs := [], inputRefs := processInputs tx.input, inputUtxos := [] }

/-- What `process_block_pure` makes of a decoded block. -/
def processBlock (height : UInt32) (block : RawBlock) : Block :=
  let blockWeight := 6 + (block.txdata.map fun tx => tx.input.length + tx.output.length + 1).sum
  { height := height
    header :=
      { height := height, timestamp := block.header.time, hash := block.header.blockHash,
        prevHash := block.header.prevBlockhash, merkleRoot := block.header.merkleRoot,
        weight := UInt32.ofNat blockWeight }
    transactions := block.txdata.zipIdx.map fun (tx, txIndex) =>
      processTx spkToAddressBytesOrTag height (UInt16.ofNat txIndex) tx }

/-- `process_block_pure`, with the library's decoder. -/
def processBlockPure (deserialize : Bytes → Except String RawBlock) (cbor : Cbor) :
    Except String Block :=
  match deserialize cbor.raw with
  | .error e => .error s!"Failed to deser CBOR: {e}"
  | .ok block => .ok (processBlock spkToAddressBytesOrTag cbor.height block)

end Process

/-! ### An id for every part -/

/-- Every transaction and output has an id of its own, from which its position is read back, and
inputs that refer to the same output spend the same one. -/
structure OwnIds (raw : RawBlock) (block : Block) : Prop where
  txIds : (block.transactions.map (·.id)).Nodup
  utxoIds : ((block.transactions.flatMap (·.utxos)).map (·.id)).Nodup
  txPosition : ∀ (i : ℕ) (tx : Transaction), block.transactions[i]? = some tx → tx.id.index.toNat = i
  utxoPosition : ∀ (i : ℕ) (tx : Transaction) (j : ℕ) (utxo : Utxo),
    block.transactions[i]? = some tx → tx.utxos[j]? = some utxo → utxo.id.parent.index.toNat = i ∧
      utxo.id.index.toNat = j
  spends : ∀ p ∈ (raw.txdata.flatMap (·.input)).zip (block.transactions.flatMap (·.inputRefs)),
    ∀ q ∈ (raw.txdata.flatMap (·.input)).zip (block.transactions.flatMap (·.inputRefs)),
      p.2 = q.2 → p.1.previousOutput = q.1.previousOutput

/-- The positions of the block fit in 16 bits, and no two inputs spend outputs of one transaction
that lie a multiple of 65536 apart. -/
structure Small (raw : RawBlock) : Prop where
  txs : raw.txdata.length ≤ 2 ^ 16
  outputs : ∀ tx ∈ raw.txdata, tx.output.length ≤ 2 ^ 16
  inputs : ∀ a ∈ raw.txdata.flatMap (·.input), ∀ b ∈ raw.txdata.flatMap (·.input),
    a.previousOutput.txid = b.previousOutput.txid →
      a.previousOutput.vout.toNat % 2 ^ 16 = b.previousOutput.vout.toNat % 2 ^ 16 →
        a.previousOutput.vout = b.previousOutput.vout

section OwnIds

variable {spkToAddressBytesOrTag : Bytes → Bytes} {height : UInt32} {raw : RawBlock}

lemma toNat_ofNat_eq {i : ℕ} : (UInt16.ofNat i).toNat = i ↔ i < 2 ^ 16 := by
  rw [UInt16.toNat_ofNat']
  omega

lemma ofNat_inj {i j : ℕ} (hi : i < 2 ^ 16) (hj : j < 2 ^ 16)
    (h : UInt16.ofNat i = UInt16.ofNat j) : i = j := by
  rw [← toNat_ofNat_eq.mpr hi, ← toNat_ofNat_eq.mpr hj, h]

lemma getElem?_transactions (i : ℕ) :
    (processBlock spkToAddressBytesOrTag height raw).transactions[i]? =
      raw.txdata[i]?.map (processTx spkToAddressBytesOrTag height (UInt16.ofNat i)) := by
  simp only [processBlock, List.getElem?_map, List.getElem?_zipIdx, Nat.zero_add, Option.map_map]
  rfl

lemma getElem?_utxos (txIndex : UInt16) (tx : RawTransaction) (j : ℕ) :
    (processTx spkToAddressBytesOrTag height txIndex tx).utxos[j]? =
      tx.output[j]?.map fun out => ⟨⟨⟨height, txIndex⟩, UInt16.ofNat j⟩, out.value, out.scriptPubkey,
        spkToAddressBytesOrTag out.scriptPubkey⟩ := by
  simp only [processTx, processOutputs, List.getElem?_map, List.getElem?_zipIdx, Nat.zero_add,
    Option.map_map]
  rfl

/-- The ids of the transactions are the numbers of their positions, cast. -/
lemma txIds_eq : (processBlock spkToAddressBytesOrTag height raw).transactions.map (·.id) =
    (List.range raw.txdata.length).map fun i => ⟨height, UInt16.ofNat i⟩ := by
  apply List.ext_getElem?
  intro i
  rw [List.getElem?_map, getElem?_transactions, List.getElem?_map, Option.map_map]
  by_cases hi : i < raw.txdata.length
  · simp [hi, processTx]
  · simp [Nat.not_lt.mp hi]

lemma utxoIds_eq (txIndex : UInt16) (tx : RawTransaction) :
    (processTx spkToAddressBytesOrTag height txIndex tx).utxos.map (·.id) =
      (List.range tx.output.length).map fun j => ⟨⟨height, txIndex⟩, UInt16.ofNat j⟩ := by
  apply List.ext_getElem?
  intro j
  rw [List.getElem?_map, getElem?_utxos, List.getElem?_map, Option.map_map]
  by_cases hj : j < tx.output.length
  · simp [hj]
  · simp [Nat.not_lt.mp hj]

lemma inputRefs_eq :
    (processBlock spkToAddressBytesOrTag height raw).transactions.flatMap (·.inputRefs) =
      (raw.txdata.flatMap (·.input)).map inputRef := by
  rw [List.map_flatMap, processBlock, List.flatMap_map]
  conv_rhs => rw [← List.zipIdx_map_fst 0 raw.txdata, List.flatMap_map]
  rfl

/-- The inputs with their references. -/
lemma zip_inputRefs : (raw.txdata.flatMap (·.input)).zip
    ((processBlock spkToAddressBytesOrTag height raw).transactions.flatMap (·.inputRefs)) =
      (raw.txdata.flatMap (·.input)).map fun input => (input, inputRef input) := by
  rw [inputRefs_eq]
  conv_lhs => rw [← List.map_id (raw.txdata.flatMap (·.input)), List.map_map]
  rw [List.zip_map']
  rfl

lemma inputRef_eq_iff {a b : TxIn} : inputRef a = inputRef b ↔
    a.previousOutput.txid = b.previousOutput.txid ∧
      a.previousOutput.vout.toNat % 2 ^ 16 = b.previousOutput.vout.toNat % 2 ^ 16 := by
  unfold inputRef
  rw [InputRef.mk.injEq, ← UInt16.toNat_inj, UInt32.toNat_toUInt16, UInt32.toNat_toUInt16]

/-- The position of a transaction is read back from its id. -/
lemma txPosition_of_lt {i : ℕ} {tx : Transaction} (hlen : raw.txdata.length ≤ 2 ^ 16)
    (h : (processBlock spkToAddressBytesOrTag height raw).transactions[i]? = some tx) :
    tx.id.index.toNat = i := by
  rw [getElem?_transactions] at h
  obtain ⟨rtx, hrtx, rfl⟩ := Option.map_eq_some_iff.mp h
  obtain ⟨hi, -⟩ := List.getElem?_eq_some_iff.mp hrtx
  exact toNat_ofNat_eq.mpr (by omega)

/-- An output names its transaction. -/
lemma parent_of_mem_utxos {txIndex : UInt16} {tx : RawTransaction} {utxo : Utxo}
    (h : utxo ∈ (processTx spkToAddressBytesOrTag height txIndex tx).utxos) :
    utxo.id.parent = ⟨height, txIndex⟩ := by
  obtain ⟨j, hj⟩ := List.mem_iff_getElem?.mp h
  rw [getElem?_utxos] at hj
  obtain ⟨out, -, rfl⟩ := Option.map_eq_some_iff.mp hj
  rfl

lemma nodup_txIds (hlen : raw.txdata.length ≤ 2 ^ 16) :
    ((processBlock spkToAddressBytesOrTag height raw).transactions.map (·.id)).Nodup := by
  rw [txIds_eq]
  refine List.Nodup.map_on ?_ List.nodup_range
  intro i hi j hj heq
  rw [List.mem_range] at hi hj
  exact ofNat_inj (by omega) (by omega) (BlockPointer.mk.inj heq).2

/-- Within 16 bits every part keeps its own id. -/
lemma ownIds_of_small (h : Small raw) :
    OwnIds raw (processBlock spkToAddressBytesOrTag height raw) := by
  constructor
  case txIds => exact nodup_txIds h.txs
  case utxoIds =>
    have htxs : (processBlock spkToAddressBytesOrTag height raw).transactions.Pairwise fun a b =>
        a.id ≠ b.id :=
      List.pairwise_map.mp (nodup_txIds h.txs)
    rw [List.map_flatMap, List.nodup_flatMap]
    refine ⟨?_, ?_⟩
    · intro tx htx
      obtain ⟨i, hi⟩ := List.mem_iff_getElem?.mp htx
      rw [getElem?_transactions] at hi
      obtain ⟨rtx, hrtx, rfl⟩ := Option.map_eq_some_iff.mp hi
      have hout := h.outputs rtx (List.mem_of_getElem? hrtx)
      rw [utxoIds_eq]
      refine List.Nodup.map_on ?_ List.nodup_range
      intro j hj k hk heq
      rw [List.mem_range] at hj hk
      exact ofNat_inj (by omega) (by omega) (TransactionPointer.mk.inj heq).2
    · -- outputs of different transactions differ in the transaction
      refine htxs.imp_of_mem ?_
      intro a b ha hb hne id hida hidb
      obtain ⟨i, hi⟩ := List.mem_iff_getElem?.mp ha
      obtain ⟨j, hj⟩ := List.mem_iff_getElem?.mp hb
      rw [getElem?_transactions] at hi hj
      obtain ⟨ra, -, rfl⟩ := Option.map_eq_some_iff.mp hi
      obtain ⟨rb, -, rfl⟩ := Option.map_eq_some_iff.mp hj
      obtain ⟨u, hu, rfl⟩ := List.mem_map.mp hida
      obtain ⟨v, hv, huv⟩ := List.mem_map.mp hidb
      apply hne
      calc (⟨height, UInt16.ofNat i⟩ : BlockPointer) = u.id.parent := (parent_of_mem_utxos hu).symm
        _ = v.id.parent := by rw [huv]
        _ = ⟨height, UInt16.ofNat j⟩ := parent_of_mem_utxos hv
  case txPosition => exact fun i tx htx => txPosition_of_lt h.txs htx
  case utxoPosition =>
    intro i tx j utxo htx hutxo
    rw [getElem?_transactions] at htx
    obtain ⟨rtx, hrtx, rfl⟩ := Option.map_eq_some_iff.mp htx
    rw [getElem?_utxos] at hutxo
    obtain ⟨out, hout, rfl⟩ := Option.map_eq_some_iff.mp hutxo
    obtain ⟨hi, -⟩ := List.getElem?_eq_some_iff.mp hrtx
    obtain ⟨hj, -⟩ := List.getElem?_eq_some_iff.mp hout
    have htxs := h.txs
    have houts := h.outputs rtx (List.mem_of_getElem? hrtx)
    exact ⟨toNat_ofNat_eq.mpr (by omega), toNat_ofNat_eq.mpr (by omega)⟩
  case spends =>
    rw [zip_inputRefs]
    intro p hp q hq heq
    obtain ⟨a, ha, rfl⟩ := List.mem_map.mp hp
    obtain ⟨b, hb, rfl⟩ := List.mem_map.mp hq
    obtain ⟨htxid, hvout⟩ := inputRef_eq_iff.mp heq
    exact OutPoint.ext htxid (h.inputs a ha b hb htxid hvout)

/-- The positions tell that they fit. -/
lemma small_of_ownIds (h : OwnIds raw (processBlock spkToAddressBytesOrTag height raw)) :
    Small raw := by
  constructor
  case txs =>
    by_contra hlong
    have hget : raw.txdata[2 ^ 16]? = some raw.txdata[2 ^ 16] := List.getElem?_eq_getElem (by omega)
    have hpos := h.txPosition (2 ^ 16) _ (by rw [getElem?_transactions, hget]; rfl)
    exact absurd (toNat_ofNat_eq.mp hpos) (by omega)
  case outputs =>
    intro tx htx
    obtain ⟨i, hi⟩ := List.mem_iff_getElem?.mp htx
    by_contra hlong
    have hget : tx.output[2 ^ 16]? = some tx.output[2 ^ 16] := List.getElem?_eq_getElem (by omega)
    have hpos := h.utxoPosition i _ (2 ^ 16) _ (by rw [getElem?_transactions, hi]; rfl)
      (by rw [getElem?_utxos, hget]; rfl)
    exact absurd (toNat_ofNat_eq.mp hpos.2) (by omega)
  case inputs =>
    intro a ha b hb htxid hvout
    have hspends := h.spends
    rw [zip_inputRefs] at hspends
    have hprev := hspends _ (List.mem_map_of_mem ha) _ (List.mem_map_of_mem hb)
      (inputRef_eq_iff.mpr ⟨htxid, hvout⟩)
    exact congrArg OutPoint.vout hprev

end OwnIds

/-- **The ids of a block.**  A block that decodes is processed, and every part of it keeps an id of
its own exactly if its positions fit in 16 bits. -/
theorem ownIds_iff (spkToAddressBytesOrTag : Bytes → Bytes)
    {deserialize : Bytes → Except String RawBlock} {cbor : Cbor} {raw : RawBlock}
    (h : deserialize cbor.raw = .ok raw) :
    ∃ block, processBlockPure spkToAddressBytesOrTag deserialize cbor = .ok block ∧
      (OwnIds raw block ↔ Small raw) := by
  refine ⟨processBlock spkToAddressBytesOrTag cbor.height raw, ?_, small_of_ownIds, ownIds_of_small⟩
  rw [processBlockPure, h]

/-- The hash of a header of zeros. -/
def zeroHeaderHash : Hash :=
  #v[75, 231, 87, 14, 143, 112, 235, 9, 54, 64, 200, 70, 130, 116, 186, 117, 151, 69, 167, 170, 43,
    125, 37, 171, 30, 4, 33, 178, 89, 132, 80, 20]

/-- A header of zeros. -/
def zeroHeader : RawHeader := ⟨0, zeroHeaderHash, Vector.replicate 32 0, Vector.replicate 32 0⟩

/-- A transaction with a coinbase input and an empty output. -/
def coinbaseTx : RawTransaction :=
  { txid := #v[218, 195, 162, 43, 8, 115, 204, 73, 197, 16, 248, 27, 183, 27, 137, 118,
      211, 111, 47, 108, 129, 133, 98, 186, 250, 175, 45, 238, 182, 217, 125, 122]
    input := [⟨⟨Vector.replicate 32 0, 0xffffffff⟩⟩]
    output := [⟨0, []⟩] }

/-- A transaction that spends two outputs of another, and has two outputs. -/
def spendingTx : RawTransaction :=
  { txid := #v[49, 16, 222, 174, 221, 240, 188, 147, 169, 36, 127, 160, 63, 8, 93, 220,
      100, 154, 220, 219, 189, 208, 205, 179, 28, 15, 224, 116, 55, 81, 55, 250]
    input := [⟨⟨Vector.replicate 32 0x11, 0⟩⟩, ⟨⟨Vector.replicate 32 0x11, 1⟩⟩]
    output := [⟨1, []⟩, ⟨2, []⟩] }

/-- A block with a coinbase transaction and one that spends two outputs. -/
def spendingBlock : RawBlock := ⟨zeroHeader, [coinbaseTx, spendingTx]⟩

/-- The bytes of an input with an empty script. -/
def inputBytes (txid : Bytes) (vout : Bytes) : Bytes := txid ++ vout ++ [0] ++ List.replicate 4 0

/-- Those of an output with an empty script. -/
def outputBytes (value : UInt8) : Bytes := value :: List.replicate 7 0 ++ [0]

/-- The bytes of the block. -/
def spendingBytes : Bytes :=
  List.replicate 80 0 ++ [2] ++
    (List.replicate 4 0 ++ [1] ++ inputBytes (List.replicate 32 0) [255, 255, 255, 255] ++ [1] ++
      outputBytes 0 ++ List.replicate 4 0) ++
    (List.replicate 4 0 ++ [2] ++ inputBytes (List.replicate 32 0x11) [0, 0, 0, 0] ++
      inputBytes (List.replicate 32 0x11) [1, 0, 0, 0] ++ [2] ++ outputBytes 1 ++ outputBytes 2 ++
        List.replicate 4 0)

theorem ownIds_iff_spending :
    let deserialize : Bytes → Except String RawBlock := fun b =>
      if b = spendingBytes then .ok spendingBlock else .error "unexpected end of file"
    ∃ block, processBlockPure (fun _ => [0xff]) deserialize ⟨0, spendingBytes⟩ = .ok block ∧
      OwnIds spendingBlock block := by
  intro deserialize
  have hraw : deserialize (Cbor.mk 0 spendingBytes).raw = .ok spendingBlock := if_pos rfl
  obtain ⟨block, hblock, hiff⟩ := ownIds_iff (fun _ => [0xff]) hraw
  exact ⟨block, hblock, hiff.mpr ⟨by decide, by decide, by decide⟩⟩

/-- One transaction that spends the outputs 0 and 65536 of another. -/
def farOutputsBlock : RawBlock :=
  { header := zeroHeader
    txdata :=
      [{ txid := #v[143, 159, 19, 79, 1, 116, 15, 181, 232, 243, 17, 136, 142, 181, 79, 122,
          116, 136, 89, 54, 216, 247, 84, 154, 123, 57, 103, 105, 50, 102, 135, 41]
         input := [⟨⟨Vector.replicate 32 0x11, 0⟩⟩, ⟨⟨Vector.replicate 32 0x11, 65536⟩⟩]
         output := [⟨0, []⟩] }] }

/-- Both inputs refer to the output 0. -/
theorem farOutputs_not_ownIds : ¬ OwnIds farOutputsBlock
    (processBlock (fun _ => [0xff]) 0 farOutputsBlock) := by
  intro h
  have hsmall := small_of_ownIds h
  have heq := hsmall.inputs ⟨⟨Vector.replicate 32 0x11, 0⟩⟩ (by simp [farOutputsBlock])
    ⟨⟨Vector.replicate 32 0x11, 65536⟩⟩ (by simp [farOutputsBlock]) rfl (by decide)
  exact absurd heq (by decide)

end Redbit.Coin
