import Redbit.Coin.Address

/-!
# Bitcoin addresses (`btc`, `block_provider.rs` and `codec.rs`)

The provider classifies a script with the `bitcoin` crate and stores the address of every output,
also of those that have none; the codec writes bech32 text with the `bech32` crate and reads it with
the `bitcoin` crate.

`address_readsBack_iff` says which scripts have an address that is shown and read back: a tag that
stands for no address is stored all the same, and cannot be shown. -/

namespace Redbit.Coin.Btc

/-- The calls into the `bitcoin` crate. -/
structure Library where
  isP2pkh : Bytes → Bool
  isP2sh : Bytes → Bool
  isWitnessProgram : Bytes → Bool
  isOpReturn : Bytes → Bool
  firstOpcode : Bytes → Option UInt8
  /-- `WitnessVersion::try_from` of an opcode. -/
  versionOfOpcode : UInt8 → Except String WitnessVersion
  /-- `WitnessVersion::try_from` of a number. -/
  versionOfNum : UInt8 → Except String WitnessVersion
  Address : Type
  fromStr : String → Except String Address
  witnessProgram : Address → Option (WitnessVersion × Bytes)

/-- The provider's side. -/
def scripts (lib : Library) : Scripts where
  p2pkhVersion := 0x00
  p2shVersion := 0x05
  isP2pkh := lib.isP2pkh
  isP2sh := lib.isP2sh
  isWitnessProgram := lib.isWitnessProgram
  isOpReturn := lib.isOpReturn
  witnessVersion b := do
    let opcode ← lib.firstOpcode b
    return (lib.versionOfOpcode opcode).toOption

/-- `spk_to_address_bytes_or_tag`. -/
def spkToAddressBytesOrTag (lib : Library) (spk : Bytes) :
    Option Bytes := (scripts lib).spkToAddressBytesOrTag spk

/-- `looks_bech32_addr`. -/
def looksBech32Addr (s : String) : Bool :=
  hasPrefixIcase s (asBytes "bc1") || hasPrefixIcase s (asBytes "tb1") ||
    hasPrefixIcase s (asBytes "bcrt1")

/-- `encode_tagged_segwit`. -/
def encodeTaggedSegwit (lib : Library) (segwit : Segwit) (src : Bytes) : Except String String :=
  let ver := src.getD 1 0
  let prog := src.drop 2
  if ver > 16 then .error "invalid segwit version"
  else if prog.length ≠ 20 ∧ prog.length ≠ 32 then .error "invalid segwit program length"
  else
    match lib.versionOfNum ver with
    | .error e => .error s!"WitnessVersion error: {e}"
    | .ok wv =>
      match segwit.encode "bc" (Fe32.ofVersion wv) prog with
      | .error e => .error s!"Bech32 encode error: {e}"
      | .ok enc => .ok enc

/-- The bech32 branch of `deserialize_as`. -/
def parseBech32 (lib : Library) (s : String) : Except String Bytes :=
  match lib.fromStr s with
  | .error e => .error s!"Bech32 parse failed: {e}"
  | .ok a =>
    match lib.witnessProgram a with
    | none => .error "expected segwit witness program"
    | some (wv, prog) =>
      if prog.length ≠ 20 ∧ prog.length ≠ 32 then .error "invalid segwit program length"
      else .ok (tagSegwit :: wv.1 :: prog)

/-- `BaseOrBech`. -/
def baseOrBech (lib : Library) (segwit : Segwit) (bs58 : Bs58) : BaseOrBech where
  bs58 := bs58
  p2pkhVersion := 0x00
  p2shVersion := 0x05
  looksBech32Addr := looksBech32Addr
  encodeTaggedSegwit := encodeTaggedSegwit lib segwit
  parseBech32 := parseBech32 lib
  unknownVersion v := s!"21 bytes but unknown legacy version {hexByte v} (expected 0x00 or 0x05)"
  unsupportedLayout len :=
    s!"unsupported address-bytes layout len={len} (expected [TAG,ver,program] or [ver,payload20])"
  badPayload len := s!"Base58 payload must be 21 bytes (ver+20), got {len}"
  invalidAddress s := s!"Invalid Bitcoin address: {s} (neither Bech32 nor Base58Check)"

/-- What is relied on of the crates, besides `Bs58.Inverse`: the forms of a script, the versions,
the letters of the two legacy versions, and that the `bitcoin` crate reads the bech32 text of a
program. -/
structure Lawful (lib : Library) (segwit : Segwit) (bs58 : Bs58) : Prop where
  forms : (scripts lib).Lawful
  versionOfNum_eq : ∀ wv : WitnessVersion, lib.versionOfNum wv.1 = .ok wv
  letter_p2pkh : bs58.Letter 0x00 "1"
  letter_p2sh : bs58.Letter 0x05 "3"
  writes : segwit.Writes "bc"
  reads : ∀ (wv : WitnessVersion) (prog : Bytes) (t : String), ProgramLength prog →
    segwit.encode "bc" (Fe32.ofVersion wv) prog = .ok t →
    ∃ a, lib.fromStr t = .ok a ∧ lib.witnessProgram a = some (wv, prog)

section

variable {lib : Library} {segwit : Segwit} {bs58 : Bs58}

/-! ### Segwit -/

lemma encodeTaggedSegwit_ok (law : Lawful lib segwit bs58) (wv : WitnessVersion) {prog : Bytes}
    (hprog : ProgramLength prog) :
    ∃ rest, segwit.encode "bc" (Fe32.ofVersion wv) prog = .ok ("bc" ++ "1" ++ rest) ∧
      encodeTaggedSegwit lib segwit (tagSegwit :: wv.1 :: prog) = .ok ("bc" ++ "1" ++ rest) := by
  obtain ⟨rest, hrest⟩ := law.writes wv prog hprog
  have hver : ¬ wv.1 > 16 := UInt8.not_lt.mpr wv.2
  refine ⟨rest, hrest, ?_⟩
  simp only [encodeTaggedSegwit, List.getD_cons_succ, List.getD_cons_zero, List.drop_succ_cons,
    List.drop_zero]
  rw [if_neg hver, if_neg (programLength_iff.mp hprog), law.versionOfNum_eq]
  dsimp only
  rw [hrest]

lemma parseBech32_ok (law : Lawful lib segwit bs58) {wv : WitnessVersion} {prog : Bytes} {t : String}
    (hprog : ProgramLength prog) (ht : segwit.encode "bc" (Fe32.ofVersion wv) prog = .ok t) :
    parseBech32 lib t = .ok (tagSegwit :: wv.1 :: prog) := by
  obtain ⟨a, ha, hwp⟩ := law.reads wv prog t hprog ht
  rw [parseBech32, ha]
  dsimp only
  rw [hwp]
  exact if_neg (programLength_iff.mp hprog)

/-- What the bech32 branch reads is a program with its version. -/
lemma parseBech32_cases {t : String} {b : Bytes} (h : parseBech32 lib t = .ok b) :
    ∃ (wv : WitnessVersion) (prog : Bytes), ProgramLength prog ∧ b = tagSegwit :: wv.1 :: prog := by
  unfold parseBech32 at h
  split at h
  · cases h
  · split at h
    · cases h
    · rename_i wv prog _
      split_ifs at h with hlen
      cases h
      exact ⟨wv, prog, programLength_iff.mpr hlen, rfl⟩

lemma readsBack_segwit (law : Lawful lib segwit bs58) (wv : WitnessVersion) {prog : Bytes}
    (hprog : ProgramLength prog) :
    (baseOrBech lib segwit bs58).ReadsBack (tagSegwit :: wv.1 :: prog) := by
  obtain ⟨rest, hencode, htagged⟩ := encodeTaggedSegwit_ok law wv hprog
  refine ⟨"bc" ++ "1" ++ rest, ?_, ?_⟩
  · rw [BaseOrBech.serializeAs_segwit hprog.ne_nil]
    exact htagged
  · have hlooks : looksBech32Addr ("bc" ++ "1" ++ rest) = true := by
      have h := hasPrefixIcase_append ("bc" ++ "1") rest
      simp only [looksBech32Addr, Bool.or_eq_true]
      exact .inl (.inl h)
    exact (if_pos hlooks).trans (parseBech32_ok law hprog hencode)

/-! ### Legacy -/

/-- A text that begins with a digit does not look like bech32. -/
lemma not_looks_of_letter {x : UInt8} {s : String} {rest : Bytes} (hs : asBytes s = x :: rest)
    (hb : asciiEqIcase x 0x62 = false) (ht : asciiEqIcase x 0x74 = false) :
    looksBech32Addr s = false := by
  have hbc : hasPrefixIcase s (asBytes "bc1") = false :=
    hasPrefixIcase_cons_ne (p := [0x63, 0x31]) hs hb
  have htb : hasPrefixIcase s (asBytes "tb1") = false :=
    hasPrefixIcase_cons_ne (p := [0x62, 0x31]) hs ht
  have hbcrt : hasPrefixIcase s (asBytes "bcrt1") = false :=
    hasPrefixIcase_cons_ne (p := [0x63, 0x72, 0x74, 0x31]) hs hb
  rw [looksBech32Addr, hbc, htb, hbcrt]
  rfl

lemma not_looks_legacy (law : Lawful lib segwit bs58) {v : UInt8} {h : Bytes}
    (hv : v = 0x00 ∨ v = 0x05) (hlen : h.length = 20) :
    looksBech32Addr (bs58.encodeCheck (v :: h)) = false := by
  rcases hv with rfl | rfl
  · obtain ⟨rest, hrest⟩ := law.letter_p2pkh h hlen
    rw [hrest]
    exact not_looks_of_letter (asBytes_append "1" rest) (by decide) (by decide)
  · obtain ⟨rest, hrest⟩ := law.letter_p2sh h hlen
    rw [hrest]
    exact not_looks_of_letter (asBytes_append "3" rest) (by decide) (by decide)

lemma ne_tagSegwit {v : UInt8} (hv : v = 0x00 ∨ v = 0x05) : v ≠ tagSegwit := by
  rcases hv with rfl | rfl <;> decide

lemma readsBack_legacy (inv : bs58.Inverse) (law : Lawful lib segwit bs58) {v : UInt8} {h : Bytes}
    (hv : v = 0x00 ∨ v = 0x05) (hlen : h.length = 20) :
    (baseOrBech lib segwit bs58).ReadsBack (v :: h) :=
  ⟨bs58.encodeCheck (v :: h), BaseOrBech.serializeAs_legacy (ne_tagSegwit hv) hv hlen,
    BaseOrBech.deserializeAs_legacy inv hv hlen (not_looks_legacy law hv hlen)⟩

/-! ### Every address -/

lemma readsBack_payload (inv : bs58.Inverse) (law : Lawful lib segwit bs58) {b : Bytes}
    (hb : Payload 0x00 0x05 b) :
    (baseOrBech lib segwit bs58).ReadsBack b := by
  cases hb with
  | legacy hv hlen => exact readsBack_legacy inv law hv hlen
  | segwit wv hprog => exact readsBack_segwit law wv hprog

/-- What is read is the bytes of an address. -/
lemma payload_of_deserializeAs {text : String} {b : Bytes}
    (hb : (baseOrBech lib segwit bs58).deserializeAs text = .ok b) : Payload 0x00 0x05 b := by
  rcases BaseOrBech.deserializeAs_cases hb with ⟨-, hparse⟩ | ⟨-, -, v, h, rfl, hv, hlen⟩
  · obtain ⟨wv, prog, hprog, rfl⟩ := parseBech32_cases hparse
    exact .segwit wv hprog
  · exact .legacy hv hlen

end

/-- **Bitcoin addresses.**  The bytes stored for a script are shown and read back exactly if the
script pays to an address.  Bytes that were read from a text are always shown. -/
theorem address_readsBack_iff {lib : Library} {segwit : Segwit} {bs58 : Bs58} (inv : bs58.Inverse)
    (law : Lawful lib segwit bs58) :
    (∀ s : Bytes, ∃ b, spkToAddressBytesOrTag lib s = some b ∧
      ((baseOrBech lib segwit bs58).ReadsBack b ↔ (scripts lib).PaysToAddress s)) ∧
    ∀ (text : String) (b : Bytes), (baseOrBech lib segwit bs58).deserializeAs text = .ok b →
      ∃ text', (baseOrBech lib segwit bs58).serializeAs b = .ok text' := by
  constructor
  · intro s
    obtain ⟨b, hb, hcases⟩ := (scripts lib).spk_cases law.forms s
    refine ⟨b, hb, ?_⟩
    rcases hcases with ⟨hpays, hpayload⟩ | ⟨hpays, htag⟩
    · exact iff_of_true (readsBack_payload inv law hpayload) hpays
    · refine iff_of_false ?_ hpays
      rcases htag with rfl | rfl
      · exact BaseOrBech.not_readsBack_tag _
      · exact BaseOrBech.not_readsBack_tag _
  · intro text b hb
    obtain ⟨text', htext', -⟩ := readsBack_payload inv law (payload_of_deserializeAs hb)
    exact ⟨text', htext'⟩

/-! ### A key hash and a data output -/

/-- The library on scripts as it is, and on texts as `plainSegwit` writes them. -/
def sampleLibrary : Library where
  isP2pkh := keyHashForm
  isP2sh := scriptHashForm
  isWitnessProgram := witnessForm
  isOpReturn := dataForm
  firstOpcode := List.head?
  versionOfOpcode op := (opcodeVersion op).elim (.error "malformed witness version opcode") .ok
  versionOfNum n := if h : n ≤ 16 then .ok ⟨n, h⟩ else .error "invalid witness script version"
  Address := WitnessVersion × Bytes
  fromStr s :=
    match plainBytes "bc" s with
    | v :: prog => if h : v ≤ 16 then .ok (⟨v, h⟩, prog) else .error "invalid witness version"
    | [] => .error "missing witness version"
  witnessProgram := some

/-- The key hash of `1MNr16FTvjhTAw9GBNxhfirmPt9KzSvgMw`. -/
def keyHash : Bytes := [223, 132, 39, 194, 199, 207, 230, 124, 122, 59, 19, 94, 236, 169, 21, 206,
    203, 208, 177, 205]

def sampleBs58 : Bs58 := tableBs58 (0x00 :: keyHash) "1MNr16FTvjhTAw9GBNxhfirmPt9KzSvgMw"

lemma sampleBs58_inverse : sampleBs58.Inverse := tableBs58_inverse ⟨'M', by decide, by decide⟩

lemma sample_lawful : Lawful sampleLibrary (plainSegwit "bc") sampleBs58 := by
  constructor
  case forms => exact lawful_of_forms rfl rfl rfl fun _ _ => rfl
  case versionOfNum_eq => exact fun wv => dif_pos wv.2
  case letter_p2pkh =>
    exact tableBs58_letter 0x00 '1' "MNr16FTvjhTAw9GBNxhfirmPt9KzSvgMw" (fun _ => rfl)
      fun _ => by decide
  case letter_p2sh => exact tableBs58_letter 0x05 '3' "" (fun _ => rfl) fun h => absurd h (by decide)
  case writes => exact plainSegwit_writes "bc"
  case reads =>
    intro wv prog t _ ht
    cases ht
    refine ⟨(wv, prog), ?_, rfl⟩
    have hback := plainBytes_plainText "bc" (wv.1 :: prog)
    simp only [sampleLibrary, Fe32.ofVersion, hback]
    exact dif_pos wv.2

/-- The script that pays to the key hash. -/
def keyHashScript : Bytes := [0x76, 0xa9, 0x14] ++ keyHash ++ [0x88, 0xac]

theorem address_readsBack_iff_keyHash :
    ∃ b, spkToAddressBytesOrTag sampleLibrary keyHashScript = some b ∧
      (baseOrBech sampleLibrary (plainSegwit "bc") sampleBs58).ReadsBack b := by
  obtain ⟨b, hb, hiff⟩ := (address_readsBack_iff sampleBs58_inverse sample_lawful).1 keyHashScript
  exact ⟨b, hb, hiff.mpr (.inl (by decide))⟩

/-- A data output, `OP_RETURN` with three bytes, is stored as a tag that has no text. -/
theorem opReturn_not_readsBack :
    spkToAddressBytesOrTag sampleLibrary [0x6a, 3, 1, 2, 3] = some [tagOpReturn] ∧
      ¬ (baseOrBech sampleLibrary (plainSegwit "bc") sampleBs58).ReadsBack [tagOpReturn] :=
  ⟨by decide, BaseOrBech.not_readsBack_tag tagOpReturn⟩

end Redbit.Coin.Btc
