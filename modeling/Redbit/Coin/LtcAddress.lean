import Redbit.Coin.Address

/-!
# Litecoin addresses (`ltc`, `block_provider.rs` and `codec.rs`)

The versions are 0x30 and 0x32, bech32 text stands behind `ltc`, and it is written and read with the
`bech32` crate.  Two things differ from the Bitcoin codec: the version of a program is written if it
is 0 or 1 and read if it is at most 16, and the letter of version 0x30 is the one that bech32 text
begins with.

`payload_readsBack_iff` says which addresses are shown and read back.
-/

namespace Redbit.Coin.Ltc

/-- The calls into the library of the chain. -/
structure Library where
  isP2pkh : Bytes → Bool
  isP2sh : Bytes → Bool
  isWitnessProgram : Bytes → Bool
  isOpReturn : Bytes → Bool
  witnessVersion : Bytes → Option WitnessVersion

/-- The provider's side. -/
def scripts (lib : Library) : Scripts where
  p2pkhVersion := 0x30
  p2shVersion := 0x32
  isP2pkh := lib.isP2pkh
  isP2sh := lib.isP2sh
  isWitnessProgram := lib.isWitnessProgram
  isOpReturn := lib.isOpReturn
  witnessVersion b := some (lib.witnessVersion b)

/-- `spk_to_address_bytes_or_tag`. -/
def spkToAddressBytesOrTag (lib : Library) (spk : Bytes) :
    Option Bytes := (scripts lib).spkToAddressBytesOrTag spk

/-- `looks_bech32_addr`. -/
def looksBech32Addr (s : String) : Bool := hasPrefixIcase s (asBytes "ltc1") ||
    hasPrefixIcase s (asBytes "tltc1")

/-- The versions that `encode_tagged_segwit` supports. -/
def segwitVersion (ver : UInt8) : Except String Fe32 :=
  if ver = 0 then .ok ⟨0, by decide⟩
  else if ver = 1 then .ok ⟨1, by decide⟩
  else .error s!"unsupported segwit version {ver}"

/-- `encode_tagged_segwit`. -/
def encodeTaggedSegwit (segwit : Segwit) (src : Bytes) : Except String String :=
  let ver := src.getD 1 0
  let prog := src.drop 2
  if prog.length ≠ 20 ∧ prog.length ≠ 32 then .error "invalid segwit program length"
  else
    match segwitVersion ver with
    | .error e => .error e
    | .ok version =>
      match segwit.encode "ltc" version prog with
      | .error e => .error s!"Bech32 encode error: {e}"
      | .ok enc => .ok enc

/-- The bech32 branch of `deserialize_as`. -/
def parseBech32 (segwit : Segwit) (s : String) : Except String Bytes :=
  match segwit.decode s with
  | .error e => .error s!"Bech32 parse failed: {e}"
  | .ok (_, ver, prog) =>
    if prog.length ≠ 20 ∧ prog.length ≠ 32 then .error "invalid segwit program length"
    else if ver.1 ≤ 16 then .ok (tagSegwit :: ver.1 :: prog)
    else .error "invalid segwit version (expected 0-16)"

/-- `BaseOrBech`. -/
def baseOrBech (segwit : Segwit) (bs58 : Bs58) : BaseOrBech where
  bs58 := bs58
  p2pkhVersion := 0x30
  p2shVersion := 0x32
  looksBech32Addr := looksBech32Addr
  encodeTaggedSegwit := encodeTaggedSegwit segwit
  parseBech32 := parseBech32 segwit
  unknownVersion v :=
    s!"21 bytes but unknown Litecoin legacy version {hexByte v} (expected 0x30 or 0x32)"
  unsupportedLayout len :=
    s!"unsupported address-bytes layout len={len} (expected [TAG,ver,program] or [ltc_ver,payload20])"
  badPayload len := s!"Litecoin Base58 payload must be 21 bytes and version 0x30/0x32, got len {len}"
  invalidAddress s := s!"Invalid Litecoin address: {s} (neither Bech32 nor Base58Check)"

/-- What is relied on of the crates, besides `Bs58.Inverse`: the forms of a script, the letters of
the two legacy versions, and that the bech32 text of a program is read as it. -/
structure Lawful (lib : Library) (segwit : Segwit) (bs58 : Bs58) : Prop where
  forms : (scripts lib).Lawful
  letter_p2pkh : bs58.Letter 0x30 "L"
  letter_p2sh : bs58.Letter 0x32 "M"
  writes : segwit.Writes "ltc"
  reads : ∀ (wv : WitnessVersion) (prog : Bytes) (t : String), ProgramLength prog →
    segwit.encode "ltc" (Fe32.ofVersion wv) prog = .ok t →
      segwit.decode t = .ok ("ltc", Fe32.ofVersion wv, prog)

/-- The address is written, and in a text of its own kind: the version of a program is 0 or 1, and
the text of a key hash does not begin like bech32. -/
structure Clear (bs58 : Bs58) (b : Bytes) : Prop where
  version : b.head? = some tagSegwit → b.getD 1 0 ≤ 1
  text : b.head? = some 0x30 → hasPrefixIcase (bs58.encodeCheck b) (asBytes "ltc1") = false

/-- The text is the bech32 text of a program whose version is not 0 or 1. -/
def LaterVersion (segwit : Segwit) (text : String) : Prop :=
  looksBech32Addr text = true ∧ ∃ hrp ver prog, segwit.decode text = .ok (hrp, ver, prog) ∧ 1 < ver.1

section

variable {lib : Library} {segwit : Segwit} {bs58 : Bs58}

/-! ### Segwit -/

lemma segwitVersion_of_le (wv : WitnessVersion) (h : wv.1 ≤ 1) :
    segwitVersion wv.1 = .ok (Fe32.ofVersion wv) := by
  obtain ⟨v, hv⟩ := wv
  have hcases : v = 0 ∨ v = 1 := by
    rw [UInt8.le_iff_toNat_le] at h
    rw [← UInt8.toNat_inj, ← UInt8.toNat_inj]
    simp only [UInt8.reduceToNat] at h ⊢
    omega
  rcases hcases with rfl | rfl <;> rfl

lemma segwitVersion_of_lt {ver : UInt8} (h : 1 < ver) :
    segwitVersion ver = .error s!"unsupported segwit version {ver}" := by
  have h0 : ver ≠ 0 := by
    rintro rfl
    exact absurd h (by decide)
  have h1 : ver ≠ 1 := by
    rintro rfl
    exact absurd h (by decide)
  rw [segwitVersion, if_neg h0, if_neg h1]

lemma encodeTaggedSegwit_eq {ver : UInt8} {prog : Bytes} (hprog : ProgramLength prog) :
    encodeTaggedSegwit segwit (tagSegwit :: ver :: prog) =
      match segwitVersion ver with
      | .error e => .error e
      | .ok version =>
        match segwit.encode "ltc" version prog with
        | .error e => .error s!"Bech32 encode error: {e}"
        | .ok enc => .ok enc := by
  simp only [encodeTaggedSegwit, List.getD_cons_succ, List.getD_cons_zero, List.drop_succ_cons,
    List.drop_zero]
  exact if_neg (programLength_iff.mp hprog)

lemma parseBech32_ok (law : Lawful lib segwit bs58) {wv : WitnessVersion} {prog : Bytes} {t : String}
    (hprog : ProgramLength prog) (ht : segwit.encode "ltc" (Fe32.ofVersion wv) prog = .ok t) :
    parseBech32 segwit t = .ok (tagSegwit :: wv.1 :: prog) := by
  rw [parseBech32, law.reads wv prog t hprog ht]
  dsimp only
  rw [if_neg (programLength_iff.mp hprog)]
  exact if_pos wv.2

/-- What the bech32 branch reads is a program with its version. -/
lemma parseBech32_cases {t : String} {b : Bytes} (h : parseBech32 segwit t = .ok b) :
    ∃ hrp ver prog, segwit.decode t = .ok (hrp, ver, prog) ∧ ver.1 ≤ 16 ∧ ProgramLength prog ∧
      b = tagSegwit :: ver.1 :: prog := by
  unfold parseBech32 at h
  split at h
  · cases h
  · rename_i hrp ver prog hdec
    split_ifs at h with hlen hver
    cases h
    exact ⟨hrp, ver, prog, hdec, hver, programLength_iff.mpr hlen, rfl⟩

/-- A program is shown and read back exactly if its version is 0 or 1. -/
lemma readsBack_segwit_iff (law : Lawful lib segwit bs58) (wv : WitnessVersion) {prog : Bytes}
    (hprog : ProgramLength prog) :
    (baseOrBech segwit bs58).ReadsBack (tagSegwit :: wv.1 :: prog) ↔ wv.1 ≤ 1 := by
  have hser : (baseOrBech segwit bs58).serializeAs (tagSegwit :: wv.1 :: prog) =
      encodeTaggedSegwit segwit (tagSegwit :: wv.1 :: prog) :=
        BaseOrBech.serializeAs_segwit hprog.ne_nil
  rw [encodeTaggedSegwit_eq hprog] at hser
  constructor
  · rintro ⟨text, htext, -⟩
    by_contra hlt
    rw [hser, segwitVersion_of_lt (UInt8.not_le.mp hlt)] at htext
    cases htext
  · intro hle
    obtain ⟨rest, hrest⟩ := law.writes wv prog hprog
    rw [segwitVersion_of_le wv hle] at hser
    dsimp only at hser
    rw [hrest] at hser
    have hlooks : looksBech32Addr ("ltc" ++ "1" ++ rest) = true := by
      have h := hasPrefixIcase_append ("ltc" ++ "1") rest
      simp only [looksBech32Addr, Bool.or_eq_true]
      exact .inl h
    exact ⟨"ltc" ++ "1" ++ rest, hser, (if_pos hlooks).trans (parseBech32_ok law hprog hrest)⟩

/-! ### Legacy -/

lemma ne_tagSegwit {v : UInt8} (hv : v = 0x30 ∨ v = 0x32) : v ≠ tagSegwit := by
  rcases hv with rfl | rfl <;> decide

/-- Legacy bytes are shown, and read back exactly if their text does not look like bech32. -/
lemma readsBack_legacy_iff (inv : bs58.Inverse) {v : UInt8} {h : Bytes} (hv : v = 0x30 ∨ v = 0x32)
    (hlen : h.length = 20) :
    (baseOrBech segwit bs58).ReadsBack (v :: h) ↔
      looksBech32Addr (bs58.encodeCheck (v :: h)) = false := by
  have hser : (baseOrBech segwit bs58).serializeAs (v :: h) = .ok (bs58.encodeCheck (v :: h)) :=
    BaseOrBech.serializeAs_legacy (ne_tagSegwit hv) hv hlen
  constructor
  · rintro ⟨text, htext, hback⟩
    rw [hser] at htext
    cases htext
    rcases BaseOrBech.deserializeAs_cases hback with ⟨-, hparse⟩ | ⟨hlooks, -⟩
    · -- the bech32 branch gives the segwit tag, which is not a legacy version
      obtain ⟨-, ver, prog, -, -, -, heq⟩ := parseBech32_cases hparse
      exact absurd (List.cons.inj heq).1 (ne_tagSegwit hv)
    · exact hlooks
  · intro hlooks
    exact ⟨_, hser, BaseOrBech.deserializeAs_legacy inv hv hlen hlooks⟩

/-- By its letter, only the text of a key hash can look like bech32, and only like `ltc1`. -/
lemma looks_legacy (law : Lawful lib segwit bs58) {v : UInt8} {h : Bytes} (hv : v = 0x30 ∨ v = 0x32)
    (hlen : h.length = 20) :
    looksBech32Addr (bs58.encodeCheck (v :: h)) = false ↔
      (v = 0x30 → hasPrefixIcase (bs58.encodeCheck (v :: h)) (asBytes "ltc1") = false) := by
  rcases hv with rfl | rfl
  · obtain ⟨rest, hrest⟩ := law.letter_p2pkh h hlen
    have htltc : hasPrefixIcase (bs58.encodeCheck (0x30 :: h)) (asBytes "tltc1") = false := by
      rw [hrest]
      exact hasPrefixIcase_cons_ne (p := [0x6c, 0x74, 0x63, 0x31]) (asBytes_append "L" rest)
        (by decide)
    simp [looksBech32Addr, htltc]
  · obtain ⟨rest, hrest⟩ := law.letter_p2sh h hlen
    have hltc : hasPrefixIcase (bs58.encodeCheck (0x32 :: h)) (asBytes "ltc1") = false := by
      rw [hrest]
      exact hasPrefixIcase_cons_ne (p := [0x74, 0x63, 0x31]) (asBytes_append "M" rest) (by decide)
    have htltc : hasPrefixIcase (bs58.encodeCheck (0x32 :: h)) (asBytes "tltc1") = false := by
      rw [hrest]
      exact hasPrefixIcase_cons_ne (p := [0x6c, 0x74, 0x63, 0x31]) (asBytes_append "M" rest)
        (by decide)
    simp [looksBech32Addr, hltc, htltc]

/-! ### Every address -/

lemma readsBack_iff_clear (inv : bs58.Inverse) (law : Lawful lib segwit bs58) {b : Bytes}
    (hb : Payload 0x30 0x32 b) :
    (baseOrBech segwit bs58).ReadsBack b ↔ Clear bs58 b := by
  cases hb with
  | @legacy v h hv hlen =>
    rw [readsBack_legacy_iff inv hv hlen, looks_legacy law hv hlen]
    constructor
    · intro htext
      exact ⟨fun htag => absurd (Option.some.inj htag) (ne_tagSegwit hv), fun hhead =>
        htext (Option.some.inj hhead)⟩
    · intro hclear hv30
      exact hclear.text (congrArg some hv30)
  | segwit wv hprog =>
    rw [readsBack_segwit_iff law wv hprog]
    constructor
    · intro hle
      exact ⟨fun _ => hle, fun hhead => absurd (Option.some.inj hhead)
        (show tagSegwit ≠ 0x30 by decide)⟩
    · intro hclear
      exact hclear.version rfl

/-- What is read from a text is read back exactly if the text is not one of a later version. -/
lemma readsBack_deserialized_iff (inv : bs58.Inverse) (law : Lawful lib segwit bs58) {text : String}
    {b : Bytes} (hb : (baseOrBech segwit bs58).deserializeAs text = .ok b) :
    (baseOrBech segwit bs58).ReadsBack b ↔ ¬ LaterVersion segwit text := by
  rcases BaseOrBech.deserializeAs_cases hb with ⟨hlooks, hparse⟩ | ⟨hlooks, hdec, v, h, rfl, hv, hlen⟩
  · obtain ⟨hrp, ver, prog, hdec, hver, hprog, rfl⟩ := parseBech32_cases hparse
    rw [readsBack_segwit_iff law ⟨ver.1, hver⟩ hprog]
    constructor
    · rintro hle ⟨-, hrp', ver', prog', hdec', hlt⟩
      rw [hdec] at hdec'
      cases hdec'
      exact absurd hlt (UInt8.not_lt.mpr hle)
    · intro hnot
      by_contra hlt
      exact hnot ⟨hlooks, hrp, ver, prog, hdec, UInt8.not_le.mp hlt⟩
  · -- the text of legacy bytes is the one that was read
    have htext : bs58.encodeCheck (v :: h) = text := inv.encode_decode text (v :: h) hdec
    rw [readsBack_legacy_iff inv hv hlen, htext]
    refine iff_of_true hlooks ?_
    rintro ⟨hlooks', -⟩
    exact absurd (hlooks.symm.trans hlooks') (by decide)

end

/-- **Litecoin addresses.**  What is stored for a script is the bytes of an address or a tag.  The
bytes of an address are shown and read back exactly if they are `Clear`; those that were read from a
text, exactly if it is not the text of a later witness version. -/
theorem payload_readsBack_iff {lib : Library} {segwit : Segwit} {bs58 : Bs58} (inv : bs58.Inverse)
    (law : Lawful lib segwit bs58) :
    (∀ s : Bytes, ∃ b, spkToAddressBytesOrTag lib s = some b ∧
      (Payload 0x30 0x32 b ∨ b = [tagOpReturn] ∨ b = [tagNonAddr])) ∧
    (∀ b : Bytes, Payload 0x30 0x32 b → ((baseOrBech segwit bs58).ReadsBack b ↔ Clear bs58 b)) ∧
    ∀ (text : String) (b : Bytes), (baseOrBech segwit bs58).deserializeAs text = .ok b →
      ((baseOrBech segwit bs58).ReadsBack b ↔ ¬ LaterVersion segwit text) := by
  refine ⟨?_, fun b hb => readsBack_iff_clear inv law hb, fun text b hb =>
    readsBack_deserialized_iff inv law hb⟩
  intro s
  obtain ⟨b, hb, hcases⟩ := (scripts lib).spk_cases law.forms s
  refine ⟨b, hb, ?_⟩
  rcases hcases with ⟨-, hpayload⟩ | ⟨-, htag⟩
  · exact .inl hpayload
  · exact .inr htag

/-! ### Three addresses -/

/-- The library on scripts as it is. -/
def sampleLibrary : Library where
  isP2pkh := keyHashForm
  isP2sh := scriptHashForm
  isWitnessProgram := witnessForm
  isOpReturn := dataForm
  witnessVersion b := b.head?.bind opcodeVersion

/-- The crates with one line of Base58Check, for a key hash. -/
lemma sample_lawful {h : Bytes} {text : String} (rest : String) (htext : text = "L" ++ rest) :
    Lawful sampleLibrary (plainSegwit "ltc") (tableBs58 (0x30 :: h) text) := by
  constructor
  case forms => exact lawful_of_forms rfl rfl rfl fun _ _ => rfl
  case letter_p2pkh => exact tableBs58_letter 0x30 'L' rest (fun _ => rfl) fun _ => htext
  case letter_p2sh =>
    exact tableBs58_letter 0x32 'M' "" (fun _ => rfl) fun h => absurd (Option.some.inj h) (by decide)
  case writes => exact plainSegwit_writes "ltc"
  case reads =>
    intro wv prog t _ ht
    cases ht
    have hback := plainBytes_plainText "ltc" (wv.1 :: prog)
    simp only [plainSegwit, Fe32.ofVersion, hback]
    exact dif_pos (Fe32.ofVersion wv).2

/-- The key hash of the codec's own test. -/
def keyHash : Bytes := List.replicate 20 0x11

def sampleBs58 : Bs58 := tableBs58 (0x30 :: keyHash) "LLnCCHbSzfwWquEdaS5TF2Yt7uz5Qb1SZ1"

theorem payload_readsBack_iff_keyHash :
    (baseOrBech (plainSegwit "ltc") sampleBs58).ReadsBack (0x30 :: keyHash) := by
  have inv : sampleBs58.Inverse := tableBs58_inverse ⟨'n', by decide, by decide⟩
  have law : Lawful sampleLibrary (plainSegwit "ltc") sampleBs58 :=
    sample_lawful "LnCCHbSzfwWquEdaS5TF2Yt7uz5Qb1SZ1" (by decide)
  refine ((payload_readsBack_iff inv law).2.1 _ (.legacy (.inl rfl) rfl)).mpr ?_
  exact ⟨fun htag => absurd htag (by decide), fun _ => by decide⟩

/-- A key hash whose text begins with `LTC1`. -/
def ltcHash : Bytes := [87, 98, 117, 173, 164, 173, 192, 170, 117, 207, 173, 89, 225, 106, 153, 230,
    57, 208, 165, 76]

def ltcBs58 : Bs58 := tableBs58 (0x30 :: ltcHash) "LTC11111111111111111111111119Hbev3"

/-- A script that pays to a program of version 2. -/
def version2Script : Bytes := [0x52, 0x20] ++ List.replicate 32 0x11

/-- A program of version 2 is not shown, and the text of a key hash is not read back. -/
theorem later_not_readsBack :
    (spkToAddressBytesOrTag sampleLibrary version2Script =
      some (tagSegwit :: 2 :: List.replicate 32 0x11) ∧
      ¬ (baseOrBech (plainSegwit "ltc") ltcBs58).ReadsBack
        (tagSegwit :: 2 :: List.replicate 32 0x11)) ∧
    spkToAddressBytesOrTag sampleLibrary ([0x76, 0xa9, 0x14] ++ ltcHash ++ [0x88, 0xac]) =
      some (0x30 :: ltcHash) ∧
      ¬ (baseOrBech (plainSegwit "ltc") ltcBs58).ReadsBack (0x30 :: ltcHash) := by
  have inv : ltcBs58.Inverse := tableBs58_inverse ⟨'T', by decide, by decide⟩
  have law : Lawful sampleLibrary (plainSegwit "ltc") ltcBs58 :=
    sample_lawful "TC11111111111111111111111119Hbev3" (by decide)
  refine ⟨⟨by decide, ?_⟩, by decide, ?_⟩
  · rw [readsBack_segwit_iff law ⟨2, by decide⟩ (.inr (List.length_replicate ..))]
    decide
  · rw [readsBack_iff_clear inv law (.legacy (.inl rfl) rfl)]
    intro hclear
    exact absurd (hclear.text rfl) (by decide)

end Redbit.Coin.Ltc
