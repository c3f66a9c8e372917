import Redbit.Coin.BlockIds

/-!
# Address bytes and address text (`btc` and `ltc`, `block_provider.rs` and `codec.rs`)

An output's address is stored as bytes: a version and the 20 bytes of a hash, the segwit tag with a
witness version and a program, or a tag alone for a script that is no address.  The codec
`BaseOrBech` shows the first form as Base58Check text and the second as bech32 text; a text is read
by the way it begins.

The two chains do this alike.  What they differ in is kept in `Scripts` (the versions, the calls
into the chain's library) and in `BaseOrBech` (the versions, the beginnings, the bech32 branches,
the texts of errors).  The crates `bs58` and `bech32` are parameters, with what is relied on as
`Bs58.Inverse`, `Bs58.Letter` and `Segwit.Writes`.
-/

namespace Redbit.Coin

/-! ### Bytes and texts -/

/-- `as_bytes` of a text. -/
def asBytes (s : String) : Bytes := s.toByteArray.data.toList

lemma asBytes_append (s t : String) : asBytes (s ++ t) = asBytes s ++ asBytes t := by
  simp [asBytes, String.toByteArray_append]

/-- `&b[i..j]`; `none` where it panics. -/
def slice (b : Bytes) (i j : ℕ) : Option Bytes :=
  if i ≤ j ∧ j ≤ b.length then some ((b.take j).drop i) else none

lemma slice_eq_some {b : Bytes} {i j : ℕ} (hij : i ≤ j) (hj : j ≤ b.length) :
    ∃ c, slice b i j = some c ∧ c.length = j - i := by
  refine ⟨(b.take j).drop i, if_pos ⟨hij, hj⟩, ?_⟩
  rw [List.length_drop, List.length_take]
  omega

/-- `0x{v:02x}`. -/
def hexByte (v : UInt8) : String :=
  "0x" ++ String.ofList [Nat.digitChar (v.toNat / 16), Nat.digitChar (v.toNat % 16)]

/-- `ascii_eq_icase`. -/
def asciiEqIcase (a b : UInt8) : Bool := a == b || (a ^^^ 0x20) == b

/-- `has_prefix_icase`. -/
def hasPrefixIcase (s : String) (p : Bytes) : Bool :=
  let b := asBytes s
  if b.length < p.length then false else (b.zip p).all fun (x, y) => asciiEqIcase x y

lemma all_zip_icase_self (p : Bytes) : (p.zip p).all (fun (x, y) => asciiEqIcase x y) = true := by
  induction p with
  | nil => rfl
  | cons x p ih =>
    rw [List.zip_cons_cons, List.all_cons, ih]
    simp [asciiEqIcase]

/-- A text has its own beginning. -/
lemma hasPrefixIcase_append (s rest : String) : hasPrefixIcase (s ++ rest) (asBytes s) = true := by
  have hlen : ¬ (asBytes s ++ asBytes rest).length < (asBytes s).length := by
    rw [List.length_append]
    omega
  simp only [hasPrefixIcase, asBytes_append]
  rw [if_neg hlen, ← List.append_nil (asBytes s), List.append_assoc, List.zip_append rfl,
    List.all_append]
  simpa using all_zip_icase_self (asBytes s)

/-- The first letters have to agree. -/
lemma hasPrefixIcase_cons_ne {s : String} {x y : UInt8} {b p : Bytes} (hs : asBytes s = x :: b)
    (hne : asciiEqIcase x y = false) : hasPrefixIcase s (y :: p) = false := by
  simp only [hasPrefixIcase, hs]
  split
  · rfl
  · simp [hne]

/-! ### The crates `bs58` and `bech32` -/

/-- `bs58::encode(b).with_check()` and `bs58::decode(s).with_check(None)`. -/
structure Bs58 where
  encodeCheck : Bytes → String
  decodeCheck : String → Option Bytes

/-- Base58Check texts and payloads give each other back. -/
structure Bs58.Inverse (bs58 : Bs58) : Prop where
  decode_encode : ∀ b, bs58.decodeCheck (bs58.encodeCheck b) = some b
  encode_decode : ∀ t b, bs58.decodeCheck t = some b → bs58.encodeCheck b = t

/-- The texts of a version and 20 bytes begin with its letter. -/
def Bs58.Letter (bs58 : Bs58) (version : UInt8) (letter : String) : Prop :=
  ∀ h : Bytes, h.length = 20 → ∃ rest, bs58.encodeCheck (version :: h) = letter ++ rest

/-- A field element of bech32. -/
abbrev Fe32 := {v : UInt8 // v < 32}

/-- A witness version. -/
abbrev WitnessVersion := {v : UInt8 // v ≤ 16}

/-- `Fe32::from` of a witness version. -/
def Fe32.ofVersion (wv : WitnessVersion) : Fe32 :=
  ⟨wv.1, UInt8.lt_of_le_of_lt wv.2 (show (16 : UInt8) < 32 by decide)⟩

/-- `segwit::encode` and `segwit::decode`: the text in front, the version and the program. -/
structure Segwit where
  encode : String → Fe32 → Bytes → Except String String
  decode : String → Except String (String × Fe32 × Bytes)

/-- The lengths of a program that both codecs take. -/
def ProgramLength (prog : Bytes) : Prop := prog.length = 20 ∨ prog.length = 32

instance (prog : Bytes) : Decidable (ProgramLength prog) := inferInstanceAs (Decidable (_ ∨ _))

/-- The check of both codecs. -/
lemma programLength_iff {prog : Bytes} :
    ProgramLength prog ↔ ¬ (prog.length ≠ 20 ∧ prog.length ≠ 32) := by
  unfold ProgramLength
  omega

lemma ProgramLength.ne_nil {prog : Bytes} (h : ProgramLength prog) : prog ≠ [] := by
  rintro rfl
  exact absurd h (by decide)

/-- A program of 20 or 32 bytes is written, behind the text in front and a `1`. -/
def Segwit.Writes (segwit : Segwit) (hrp : String) : Prop :=
  ∀ (wv : WitnessVersion) (prog : Bytes), ProgramLength prog →
    ∃ rest, segwit.encode hrp (Fe32.ofVersion wv) prog = .ok (hrp ++ "1" ++ rest)

/-! ### The address of a script -/

/-- `TAG_SEGWIT`. -/
def tagSegwit : UInt8 := 0xB0

/-- `TAG_OP_RETURN`. -/
def tagOpReturn : UInt8 := 0xF0

/-- `TAG_NON_ADDR`. -/
def tagNonAddr : UInt8 := 0xFF

/-- What the providers differ in: the versions, and the library's questions to a script.
`witnessVersion` is the version of a witness program; its outer `none` is a panic. -/
structure Scripts where
  p2pkhVersion : UInt8
  p2shVersion : UInt8
  isP2pkh : Bytes → Bool
  isP2sh : Bytes → Bool
  isWitnessProgram : Bytes → Bool
  isOpReturn : Bytes → Bool
  witnessVersion : Bytes → Option (Option WitnessVersion)

/-- `spk_to_address_bytes_or_tag`; `none` where it panics. -/
def Scripts.spkToAddressBytesOrTag (scripts : Scripts) (b : Bytes) : Option Bytes :=
  if scripts.isP2pkh b then do
    let h ← slice b 3 23
    return scripts.p2pkhVersion :: h
  else if scripts.isP2sh b then do
    let h ← slice b 2 22
    return scripts.p2shVersion :: h
  else if scripts.isWitnessProgram b then do
    match ← scripts.witnessVersion b with
    | some wv =>
      let prog ← slice b 2 b.length
      return if ProgramLength prog then tagSegwit :: wv.1 :: prog else [tagNonAddr]
    | none => return [tagNonAddr]
  else if scripts.isOpReturn b then some [tagOpReturn]
  else some [tagNonAddr]

/-- What is relied on of the library: the lengths of the forms, and that a witness program has a
first opcode. -/
structure Scripts.Lawful (scripts : Scripts) : Prop where
  length_p2pkh : ∀ s, scripts.isP2pkh s = true → s.length = 25
  length_p2sh : ∀ s, scripts.isP2sh s = true → s.length = 23
  length_witnessProgram : ∀ s, scripts.isWitnessProgram s = true → 4 ≤ s.length
  witnessVersion_isSome : ∀ s, scripts.isWitnessProgram s = true → (scripts.witnessVersion s).isSome

/-- The script pays to an address: to a key hash, to a script hash, or to a witness program of a
known version that is 20 or 32 bytes long. -/
def Scripts.PaysToAddress (scripts : Scripts) (s : Bytes) : Prop :=
  scripts.isP2pkh s = true ∨ scripts.isP2sh s = true ∨
    (scripts.isWitnessProgram s = true ∧ (∃ wv, scripts.witnessVersion s = some (some wv)) ∧
      ProgramLength (s.drop 2))

/-- The bytes of an address. -/
inductive Payload (p2pkhVersion p2shVersion : UInt8) : Bytes → Prop
  | legacy {v : UInt8} {h : Bytes} : v = p2pkhVersion ∨ v = p2shVersion → h.length = 20 →
      Payload p2pkhVersion p2shVersion (v :: h)
  | segwit (wv : WitnessVersion) {prog : Bytes} : ProgramLength prog →
      Payload p2pkhVersion p2shVersion (tagSegwit :: wv.1 :: prog)

/-- A script that is neither of the legacy forms pays to an address as a witness program only. -/
lemma Scripts.paysToAddress_iff {scripts : Scripts} {s : Bytes} (hpkh : ¬ scripts.isP2pkh s = true)
    (hsh : ¬ scripts.isP2sh s = true) : scripts.PaysToAddress s ↔ scripts.isWitnessProgram s = true ∧
      (∃ wv, scripts.witnessVersion s = some (some wv)) ∧ ProgramLength (s.drop 2) := by
  unfold Scripts.PaysToAddress
  tauto

/-- A witness program is stored as an address or as a tag. -/
lemma Scripts.spk_witness {scripts : Scripts} (law : scripts.Lawful) {s : Bytes}
    (hpkh : ¬ scripts.isP2pkh s = true) (hsh : ¬ scripts.isP2sh s = true)
    (hwit : scripts.isWitnessProgram s = true) : ∃ b, scripts.spkToAddressBytesOrTag s = some b ∧
      ((scripts.PaysToAddress s ∧ Payload scripts.p2pkhVersion scripts.p2shVersion b) ∨
        (¬ scripts.PaysToAddress s ∧ b = [tagNonAddr])) := by
  have hlen := law.length_witnessProgram s hwit
  have hslice : slice s 2 s.length = some (s.drop 2) := by
    rw [slice, if_pos ⟨by omega, Nat.le_refl _⟩, List.take_length]
  obtain ⟨version, hversion⟩ := Option.isSome_iff_exists.mp (law.witnessVersion_isSome s hwit)
  rw [Scripts.spkToAddressBytesOrTag, if_neg hpkh, if_neg hsh, if_pos hwit, hversion,
    Scripts.paysToAddress_iff hpkh hsh, hversion]
  cases version with
  | none =>
    refine ⟨[tagNonAddr], rfl, .inr ⟨?_, rfl⟩⟩
    rintro ⟨-, ⟨wv, h⟩, -⟩
    cases h
  | some wv =>
    by_cases hprog : ProgramLength (s.drop 2)
    · exact ⟨tagSegwit :: wv.1 :: s.drop 2, by simp [hslice, hprog],
        .inl ⟨⟨hwit, ⟨wv, rfl⟩, hprog⟩, .segwit wv hprog⟩⟩
    · exact ⟨[tagNonAddr], by simp [hslice, hprog], .inr ⟨fun h => hprog h.2.2, rfl⟩⟩

/-- A script that pays to an address is stored as one, any other as a tag. -/
lemma Scripts.spk_cases {scripts : Scripts} (law : scripts.Lawful) (s : Bytes) :
    ∃ b, scripts.spkToAddressBytesOrTag s = some b ∧
      ((scripts.PaysToAddress s ∧ Payload scripts.p2pkhVersion scripts.p2shVersion b) ∨
        (¬ scripts.PaysToAddress s ∧ (b = [tagOpReturn] ∨ b = [tagNonAddr]))) := by
  by_cases hpkh : scripts.isP2pkh s = true
  · have hlen := law.length_p2pkh s hpkh
    obtain ⟨h, hslice, hh⟩ := slice_eq_some (b := s) (i := 3) (j := 23) (by omega) (by omega)
    refine ⟨scripts.p2pkhVersion :: h, ?_, .inl ⟨.inl hpkh, .legacy (.inl rfl) (by omega)⟩⟩
    rw [Scripts.spkToAddressBytesOrTag, if_pos hpkh, hslice]
    rfl
  by_cases hsh : scripts.isP2sh s = true
  · have hlen := law.length_p2sh s hsh
    obtain ⟨h, hslice, hh⟩ := slice_eq_some (b := s) (i := 2) (j := 22) (by omega) (by omega)
    refine ⟨scripts.p2shVersion :: h, ?_, .inl ⟨.inr (.inl hsh), .legacy (.inr rfl) (by omega)⟩⟩
    rw [Scripts.spkToAddressBytesOrTag, if_neg hpkh, if_pos hsh, hslice]
    rfl
  by_cases hwit : scripts.isWitnessProgram s = true
  · obtain ⟨b, hb, hcases⟩ := Scripts.spk_witness law hpkh hsh hwit
    exact ⟨b, hb, hcases.imp_right fun h => ⟨h.1, .inr h.2⟩⟩
  · have hnot : ¬ scripts.PaysToAddress s := by
      rw [Scripts.paysToAddress_iff hpkh hsh]
      exact fun h => hwit h.1
    rw [Scripts.spkToAddressBytesOrTag, if_neg hpkh, if_neg hsh, if_neg hwit]
    split
    · exact ⟨[tagOpReturn], rfl, .inr ⟨hnot, .inl rfl⟩⟩
    · exact ⟨[tagNonAddr], rfl, .inr ⟨hnot, .inr rfl⟩⟩

/-! ### The codec -/

/-- What the codecs differ in: the versions, the beginnings that look like bech32, the bech32 branch
of writing and of reading, and the texts of errors. -/
structure BaseOrBech where
  bs58 : Bs58
  p2pkhVersion : UInt8
  p2shVersion : UInt8
  looksBech32Addr : String → Bool
  encodeTaggedSegwit : Bytes → Except String String
  parseBech32 : String → Except String Bytes
  unknownVersion : UInt8 → String
  unsupportedLayout : ℕ → String
  badPayload : ℕ → String
  invalidAddress : String → String

namespace BaseOrBech

variable (codec : BaseOrBech)

/-- `base58_serialize`. -/
def base58Serialize (src : Bytes) : Except String String :=
  match src.head? with
  | some v =>
    if v = codec.p2pkhVersion ∨ v = codec.p2shVersion then .ok (codec.bs58.encodeCheck src)
    else .error (codec.unknownVersion v)
  | none => .error "internal error: entered unreachable code"

/-- `serialize_as`. -/
def serializeAs (source : Bytes) : Except String String :=
  if source.length ≥ 3 ∧ source.head? = some tagSegwit then codec.encodeTaggedSegwit source
  else if source.length = 21 then codec.base58Serialize source
  else .error (codec.unsupportedLayout source.length)

/-- `deserialize_as`. -/
def deserializeAs (s : String) : Except String Bytes :=
  if codec.looksBech32Addr s then codec.parseBech32 s
  else
    match codec.bs58.decodeCheck s with
    | some vec =>
      if vec.length = 21 ∧ (vec.head? = some codec.p2pkhVersion ∨
        vec.head? = some codec.p2shVersion) then .ok vec
      else .error (codec.badPayload vec.length)
    | none => .error (codec.invalidAddress s)

/-- The bytes are shown, and the text is read back as them. -/
def ReadsBack (b : Bytes) : Prop := ∃ text, codec.serializeAs b = .ok text ∧
    codec.deserializeAs text = .ok b

variable {codec}

lemma serializeAs_segwit {ver : UInt8} {prog : Bytes} (h : prog ≠ []) :
    codec.serializeAs (tagSegwit :: ver :: prog) = codec.encodeTaggedSegwit
      (tagSegwit :: ver :: prog) := by
  have hpos := List.length_pos_of_ne_nil h
  rw [serializeAs, if_pos]
  refine ⟨?_, rfl⟩
  simp only [List.length_cons]
  omega

lemma serializeAs_legacy {v : UInt8} {h : Bytes} (htag : v ≠ tagSegwit)
    (hv : v = codec.p2pkhVersion ∨ v = codec.p2shVersion) (hlen : h.length = 20) :
    codec.serializeAs (v :: h) = .ok (codec.bs58.encodeCheck (v :: h)) := by
  rw [serializeAs, if_neg, if_pos (by simp [hlen]), base58Serialize]
  · exact if_pos hv
  · rintro ⟨-, hhead⟩
    exact htag (Option.some.inj hhead)

/-- A tag alone is not shown. -/
lemma serializeAs_tag (t : UInt8) : codec.serializeAs [t] = .error (codec.unsupportedLayout 1) := by
  rw [serializeAs, if_neg, if_neg]
  · rfl
  · simp
  · simp

lemma not_readsBack_tag (t : UInt8) : ¬ codec.ReadsBack [t] := by
  rintro ⟨text, htext, -⟩
  rw [serializeAs_tag] at htext
  cases htext

/-- A text that does not look like bech32 is read as Base58Check. -/
lemma deserializeAs_legacy (inv : codec.bs58.Inverse) {v : UInt8} {h : Bytes}
    (hv : v = codec.p2pkhVersion ∨ v = codec.p2shVersion) (hlen : h.length = 20)
    (hlooks : codec.looksBech32Addr (codec.bs58.encodeCheck (v :: h)) = false) :
    codec.deserializeAs (codec.bs58.encodeCheck (v :: h)) = .ok (v :: h) := by
  rw [deserializeAs, hlooks, inv.decode_encode]
  have hcond : (v :: h).length = 21 ∧
      ((v :: h).head? = some codec.p2pkhVersion ∨ (v :: h).head? = some codec.p2shVersion) :=
    ⟨by simp [hlen], by simpa using hv⟩
  simp only [Bool.false_eq_true, if_false]
  exact if_pos hcond

/-- What is read: the bytes of the bech32 branch, or the payload of the text. -/
lemma deserializeAs_cases {text : String} {b : Bytes} (hb : codec.deserializeAs text = .ok b) :
    (codec.looksBech32Addr text = true ∧ codec.parseBech32 text = .ok b) ∨
      (codec.looksBech32Addr text = false ∧ codec.bs58.decodeCheck text = some b ∧
        ∃ v h, b = v :: h ∧ (v = codec.p2pkhVersion ∨ v = codec.p2shVersion) ∧ h.length = 20) := by
  rw [deserializeAs] at hb
  cases hlooks : codec.looksBech32Addr text with
  | true =>
    rw [hlooks, if_pos rfl] at hb
    exact .inl ⟨rfl, hb⟩
  | false =>
    rw [hlooks, if_neg Bool.false_ne_true] at hb
    refine .inr ⟨rfl, ?_⟩
    cases hdec : codec.bs58.decodeCheck text with
    | none =>
      rw [hdec] at hb
      cases hb
    | some vec =>
      rw [hdec] at hb
      dsimp only at hb
      split_ifs at hb with hcond
      cases hb
      obtain ⟨hlen, hhead⟩ := hcond
      obtain ⟨v, h, rfl⟩ := List.exists_cons_of_length_eq_add_one hlen
      refine ⟨rfl, v, h, rfl, by simpa using hhead, by simpa using hlen⟩

end BaseOrBech

/-! ### Sample crates

The forms of a script as they are; Base58Check by a table of one real line, and outside of it, like
bech32, by one letter for each byte. -/

/-- `OP_DUP OP_HASH160 <20> <hash> OP_EQUALVERIFY OP_CHECKSIG`. -/
def keyHashForm (b : Bytes) : Bool := b.length = 25 ∧ b.take 3 = [0x76, 0xa9, 0x14] ∧
    b.drop 23 = [0x88, 0xac]

/-- `OP_HASH160 <20> <hash> OP_EQUAL`. -/
def scriptHashForm (b : Bytes) : Bool := b.length = 23 ∧ b.take 2 = [0xa9, 0x14] ∧ b.drop 22 = [0x87]

/-- `OP_{ver} <pushlen> <program>`. -/
def witnessForm (b : Bytes) : Bool :=
  4 ≤ b.length ∧ b.length ≤ 42 ∧ (b.getD 0 0 = 0 ∨ (0x51 ≤ b.getD 0 0 ∧ b.getD 0 0 ≤ 0x60)) ∧
    (b.getD 1 0).toNat = b.length - 2

/-- `OP_RETURN`. -/
def dataForm (b : Bytes) : Bool := b.head? = some 0x6a

/-- The version of `OP_{ver}`. -/
def opcodeVersion (op : UInt8) : Option WitnessVersion :=
  if op = 0 then some ⟨0, by decide⟩
  else if 0x51 ≤ op then
    if h : op - 0x50 ≤ 16 then some ⟨op - 0x50, h⟩ else none
  else none

lemma lawful_of_forms {scripts : Scripts} (hkey : scripts.isP2pkh = keyHashForm)
    (hscript : scripts.isP2sh = scriptHashForm) (hwitness : scripts.isWitnessProgram = witnessForm)
    (hversion : ∀ op s, (scripts.witnessVersion (op :: s)).isSome) : scripts.Lawful := by
  have hlong : ∀ s, scripts.isWitnessProgram s = true → 4 ≤ s.length := by
    intro s hs
    rw [hwitness] at hs
    exact (of_decide_eq_true hs).1
  constructor
  case length_p2pkh =>
    intro s hs
    rw [hkey] at hs
    exact (of_decide_eq_true hs).1
  case length_p2sh =>
    intro s hs
    rw [hscript] at hs
    exact (of_decide_eq_true hs).1
  case length_witnessProgram => exact hlong
  case witnessVersion_isSome =>
    intro s hs
    cases s with
    | nil => exact absurd (hlong [] hs) (by decide)
    | cons op s => exact hversion op s

/-- A letter for a byte, outside of ASCII. -/
def byteLetter (u : UInt8) : Char := Char.ofNat (u.toNat + 256)

/-- The byte of a letter. -/
def letterByte (c : Char) : UInt8 := UInt8.ofNat (c.toNat - 256)

lemma toNat_byteLetter (u : UInt8) : (byteLetter u).toNat = u.toNat + 256 := by
  have hu := u.toNat_lt
  have hvalid : (u.toNat + 256).isValidChar := .inl (by omega)
  rw [byteLetter, Char.ofNat, dif_pos hvalid]
  rfl

lemma letterByte_byteLetter (u : UInt8) : letterByte (byteLetter u) = u := by
  rw [letterByte, toNat_byteLetter, Nat.add_sub_cancel, UInt8.ofNat_toNat]

lemma map_letterByte (b : Bytes) : (b.map byteLetter).map letterByte = b := by
  rw [List.map_map]
  exact (List.map_congr_left fun u _ => letterByte_byteLetter u).trans (List.map_id b)

/-- The letter that the versions of the two chains begin with. -/
def versionLetter : Bytes → Char
  | 0x00 :: _ => '1'
  | 0x05 :: _ => '3'
  | 0x30 :: _ => 'L'
  | 0x32 :: _ => 'M'
  | _ => '?'

/-- The text of a payload: the line `payload`, `text` of the table, or letters. -/
def tableEncode (payload : Bytes) (text : String) (b : Bytes) : String :=
  if b = payload then text else String.ofList (versionLetter b :: b.map byteLetter)

/-- The only payload that can have a text. -/
def tableGuess (payload : Bytes) (text s : String) : Bytes :=
  if s = text then payload else s.toList.tail.map letterByte

/-- Base58Check with one line of a table. -/
def tableBs58 (payload : Bytes) (text : String) : Bs58 where
  encodeCheck := tableEncode payload text
  decodeCheck s :=
    let b := tableGuess payload text s
    if tableEncode payload text b = s then some b else none

/-- The letters of a payload are not ASCII, so that they are not the text of the table. -/
lemma tableGuess_encode {payload : Bytes} {text : String}
    (htext : ∃ c ∈ text.toList.tail, c.toNat < 256) (b : Bytes) :
    tableGuess payload text (tableEncode payload text b) = b := by
  unfold tableEncode tableGuess
  by_cases hb : b = payload
  · rw [if_pos hb, if_pos rfl, hb]
  · rw [if_neg hb, if_neg, String.toList_ofList, List.tail_cons, map_letterByte]
    rintro rfl
    obtain ⟨c, hc, hlt⟩ := htext
    rw [String.toList_ofList, List.tail_cons] at hc
    obtain ⟨u, -, rfl⟩ := List.mem_map.mp hc
    rw [toNat_byteLetter] at hlt
    omega

lemma tableBs58_inverse {payload : Bytes} {text : String}
    (htext : ∃ c ∈ text.toList.tail, c.toNat < 256) :
    (tableBs58 payload text).Inverse := by
  constructor
  case decode_encode =>
    intro b
    simp only [tableBs58, tableGuess_encode htext, if_true]
  case encode_decode =>
    intro t b hb
    simp only [tableBs58] at hb ⊢
    split_ifs at hb with hguess
    cases hb
    exact hguess

lemma tableBs58_letter {payload : Bytes} {text : String} (version : UInt8) (letter : Char)
    (rest : String) (hletter : ∀ h, versionLetter (version :: h) = letter)
    (htext : payload.head? = some version → text = String.singleton letter ++ rest) :
    (tableBs58 payload text).Letter version (String.singleton letter) := by
  intro h _
  by_cases hp : version :: h = payload
  · refine ⟨rest, ?_⟩
    rw [← htext (by rw [← hp]; rfl)]
    exact if_pos hp
  · refine ⟨String.ofList ((version :: h).map byteLetter), ?_⟩
    refine (if_neg hp).trans ?_
    rw [hletter h, ← String.toList_inj]
    simp

/-- Bech32 without a checksum. -/
def plainText (hrp : String) (b : Bytes) : String := hrp ++ "1" ++ String.ofList (b.map byteLetter)

/-- The bytes of a text behind the text in front. -/
def plainBytes (hrp s : String) : Bytes := (s.toList.drop (hrp.length + 1)).map letterByte

lemma plainBytes_plainText (hrp : String) (b : Bytes) : plainBytes hrp (plainText hrp b) = b := by
  have hdrop : (plainText hrp b).toList.drop (hrp.length + 1) = b.map byteLetter := by
    simp only [plainText, String.toList_append, String.toList_ofList]
    exact List.drop_left' (by simp [String.length_toList])
  rw [plainBytes, hdrop, map_letterByte]

/-- `segwit` on texts without a checksum; only the texts behind `hrp` are read. -/
def plainSegwit (hrp : String) : Segwit where
  encode hrp ver prog := .ok (plainText hrp (ver.1 :: prog))
  decode s :=
    match plainBytes hrp s with
    | v :: prog => if h : v < 32 then .ok (hrp, ⟨v, h⟩, prog) else .error "invalid witness version"
    | [] => .error "missing witness version"

lemma plainSegwit_writes (hrp : String) : (plainSegwit hrp).Writes hrp :=
  fun wv prog _ => ⟨String.ofList ((wv.1 :: prog).map byteLetter), rfl⟩

end Redbit.Coin
