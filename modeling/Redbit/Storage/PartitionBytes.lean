import Mathlib.Data.Nat.Digits.Lemmas
import Redbit.Lib.Codec
import Redbit.Lib.Residue
import Redbit.Storage.Sharding

/-!
# The shard of a key (`partitioning.rs`)

`partition_bytes_le` reads the bytes of a key as a number, the least significant first, and takes
the remainder by the number of shards.  It works in `u128` and reduces the power of 256 and the sum
at every byte, chunk by chunk if need be.  Sums and products are checked here: an overflow is a
panic, as it is with overflow checks.

* `leModFoldChunk_eq_ok` — below `m` nothing overflows, and the fold is the one of the sharded columns;
* `leModFoldChunk_flatten` — the chunks do not matter;
* `partitionBytesLe_eq_ok` — the shard is the number of the bytes modulo `n`;
* `partitionBytesLe_two_pow` — for `2 ^ k` shards only the bytes with the lowest `k` bits matter;
* `BytesPartitioner.partitionKey_eq_bucketOne` — the readers and the routers of a sharded column use
this shard.
-/

namespace Redbit.Storage.U128

open Redbit.Lib

variable {K V : Type}

/-! ### The functions -/

/-- The loop body of `le_mod_fold_chunk`, on `p` and `a`. -/
def leModFoldByte (m : ℕ) (powAcc : ℕ × ℕ) (b : UInt8) : Except Panic (ℕ × ℕ) := do
  let (p, a) := powAcc
  let a ← remWord (← addWord 128 a (← mulWord 128 b.toNat p)) m
  let p ← remWord (← mulWord 128 p 256) m
  return (p, a)

/-- `le_mod_fold_chunk`: what `pow` and `acc` are afterwards. -/
def leModFoldChunk (m : ℕ) (powAcc : ℕ × ℕ) (chunk : List UInt8) : Except Panic (ℕ × ℕ) :=
  if m = 1 then .ok powAcc else chunk.foldlM (leModFoldByte m) powAcc

/-- `partition_bytes_le`; the cast of the result is the one to a `usize` of 64 bits. -/
def partitionBytesLe (n : ℕ) (bytes : List UInt8) : Except Panic ℕ :=
  if n = 1 then .ok 0
  else do
    let (_, acc) ← leModFoldChunk n (1, 0) bytes
    let r ← remWord acc n
    return r % 2 ^ 64

/-- `partition_key_redb`, for keys with the bytes `asBytes`. -/
def partitionKeyRedb (asBytes : K → List UInt8) (n : ℕ) (key : K) : Except Panic ℕ :=
  if 0 < n then partitionBytesLe n (asBytes key) else .error (.assertFailed "shard count must be > 0")

/-- `BytesPartitioner`: a `usize` that its constructor has checked. -/
structure BytesPartitioner where
  n : ℕ
  pos : 0 < n
  isUsize : n < 2 ^ 64

/-- `BytesPartitioner::new`. -/
def BytesPartitioner.new (n : ℕ) (isUsize : n < 2 ^ 64) : Except Panic BytesPartitioner :=
  if pos : 0 < n then .ok ⟨n, pos, isUsize⟩ else .error (.assertFailed "shard count must be > 0")

/-- `BytesPartitioner::partition_key`. -/
def BytesPartitioner.partitionKey (self : BytesPartitioner) (asBytes : K → List UInt8) (key : K) :
    Except Panic ℕ :=
  partitionKeyRedb asBytes self.n key

instance (self : BytesPartitioner) : NeZero self.n := ⟨self.pos.ne'⟩

/-! ### Nothing overflows -/

/-- The power and the sum are reduced. -/
def Reduced (m : ℕ) (powAcc : ℕ × ℕ) : Prop := powAcc.1 < m ∧ powAcc.2 < m

/-- One byte: with both numbers below `m` the largest intermediate value is below `256 * m`. -/
lemma leModFoldByte_eq_ok {m : ℕ} (hm : m < 2 ^ 64) {powAcc : ℕ × ℕ} (h : Reduced m powAcc)
    (b : UInt8) : leModFoldByte m powAcc b = .ok (residueStep 256 m powAcc b.toNat) := by
  obtain ⟨p, a⟩ := powAcc
  obtain ⟨hp, ha⟩ := h
  dsimp only at hp ha
  obtain ⟨hprod, hsum, hshift⟩ := residueStep_fits hp ha b.toNat_lt
  have hm0 : m ≠ 0 := by omega
  have hmul : mulWord 128 b.toNat p = .ok (b.toNat * p) := mulWord_eq_ok (by omega)
  have hadd : addWord 128 a (b.toNat * p) = .ok (a + b.toNat * p) := addWord_eq_ok (by omega)
  have hmul256 : mulWord 128 p 256 = .ok (p * 256) := mulWord_eq_ok (by omega)
  dsimp only [leModFoldByte]
  rw [hmul, hmul256]
  dsimp only [bind, Except.bind]
  rw [hadd]
  dsimp only
  rw [remWord_eq_ok hm0, remWord_eq_ok hm0]
  rfl

/-- A chunk: from reduced numbers on nothing overflows, and the numbers are those of the unbounded
fold. -/
theorem leModFoldChunk_eq_ok {m : ℕ} (hm1 : m ≠ 1) (hm : m < 2 ^ 64) {powAcc : ℕ × ℕ}
    (h : Reduced m powAcc) (chunk : List UInt8) :
    leModFoldChunk m powAcc chunk = .ok (Storage.leModFoldChunk m powAcc chunk) := by
  rw [leModFoldChunk, if_neg hm1]
  apply foldlM_eq_ok (fun s (b : UInt8) => residueStep 256 m s b.toNat) (Reduced m)
  · intro s b hs
    exact leModFoldByte_eq_ok hm hs b
  · intro s b hs
    exact residueStep_lt (Nat.zero_lt_of_lt hs.1) 256 s b.toNat
  · exact h

/-! ### The closed form -/

/-- The number that the bytes spell, byte by byte. -/
lemma ofLeBytes_eq_sum (bytes : List UInt8) :
    ofLeBytes bytes = (bytes.mapIdx fun i b => b.toNat * 256 ^ i).sum := by
  have hmap : (bytes.map UInt8.toNat).mapIdx (fun i d => d * 256 ^ i) = bytes.mapIdx fun i b =>
      b.toNat * 256 ^ i := by
    apply List.ext_getElem
    · simp
    · intro i h1 h2
      simp
  rw [ofLeBytes, Nat.ofDigits_eq_sum_mapIdx, hmap]

/-- The sum after all bytes, of which only the residue is the number. -/
lemma leModFoldChunk_mod (m : ℕ) (bytes : List UInt8) :
    (Storage.leModFoldChunk m (1, 0) bytes).2 % m = ofLeBytes bytes % m := by
  have hfold : Storage.leModFoldChunk m (1, 0) bytes =
      (bytes.map UInt8.toNat).foldl (residueStep 256 m) (1, 0) := by
    rw [List.foldl_map]
    rfl
  have hmod := foldl_residueStep_modEq 256 m (1, 0) (bytes.map UInt8.toNat)
  rw [← hfold, Nat.zero_add, Nat.one_mul] at hmod
  exact hmod

/-- The fold over all bytes, from the power 1 and the sum 0. -/
lemma leModFoldChunk_start {n : ℕ} (hpos : 0 < n) (hn : n < 2 ^ 64) (bytes : List UInt8) :
    ∃ powAcc, leModFoldChunk n (1, 0) bytes = .ok powAcc ∧ powAcc.2 % n = ofLeBytes bytes % n := by
  by_cases hn1 : n = 1
  · refine ⟨(1, 0), if_pos hn1, ?_⟩
    rw [hn1, Nat.mod_one, Nat.mod_one]
  · have hstart : Reduced n (1, 0) := ⟨by omega, hpos⟩
    exact ⟨_, leModFoldChunk_eq_ok hn1 hn hstart bytes, leModFoldChunk_mod n bytes⟩

/-- The shard of the sharded columns is the number of the bytes modulo `n`. -/
theorem val_partitionBytesLe (n : ℕ) [NeZero n] (bytes : List UInt8) :
    (Storage.partitionBytesLe n bytes : ℕ) = ofLeBytes bytes % n := by
  by_cases hn1 : n = 1
  · subst hn1
    rw [Nat.mod_one]
    omega
  · rw [Storage.partitionBytesLe, if_neg hn1, Fin.val_ofNat, leModFoldChunk_mod]

/-- **The shard of a byte string.** -/
theorem partitionBytesLe_eq_ok {n : ℕ} (hpos : 0 < n) (hn : n < 2 ^ 64) (bytes : List UInt8) :
    partitionBytesLe n bytes = .ok (ofLeBytes bytes % n) := by
  by_cases hn1 : n = 1
  · rw [partitionBytesLe, if_pos hn1, hn1, Nat.mod_one]
  · obtain ⟨powAcc, hfold, hmod⟩ := leModFoldChunk_start hpos hn bytes
    have hlt : ofLeBytes bytes % n < 2 ^ 64 := lt_trans (Nat.mod_lt _ hpos) hn
    rw [partitionBytesLe, if_neg hn1, hfold]
    dsimp only [bind, Except.bind]
    rw [remWord_eq_ok hpos.ne', hmod]
    dsimp only [pure, Except.pure]
    rw [Nat.mod_eq_of_lt hlt]

/-! ### Chunks and low bytes -/

/-- **Any split into chunks** gives what the whole gives, from any state on. -/
theorem leModFoldChunk_flatten (m : ℕ) (powAcc : ℕ × ℕ) (chunks : List (List UInt8)) :
    chunks.foldlM (leModFoldChunk m) powAcc = leModFoldChunk m powAcc chunks.flatten := by
  by_cases hm1 : m = 1
  · -- a modulus of one leaves both numbers alone, in every chunk
    have hskip : ∀ chunk, leModFoldChunk m powAcc chunk = .ok powAcc := fun _ => if_pos hm1
    rw [hskip]
    induction chunks with
    | nil => rfl
    | cons chunk chunks ih =>
      rw [List.foldlM_cons, hskip]
      exact ih
  · have hrun : leModFoldChunk m = fun s chunk => chunk.foldlM (leModFoldByte m) s := by
      funext s chunk
      rw [leModFoldChunk, if_neg hm1]
    rw [hrun]
    exact foldlM_flatten (leModFoldByte m) powAcc chunks

/-- Modulo `2 ^ k` only the lowest `k` bits count, so only the bytes that hold them. -/
lemma ofLeBytes_mod_two_pow (k : ℕ) (bytes : List UInt8) :
    ofLeBytes bytes % 2 ^ k = ofLeBytes (bytes.take ((k + 7) / 8)) % 2 ^ k := by
  have hdvd : 2 ^ k ∣ 256 ^ ((k + 7) / 8) := by
    have hbyte : 256 = 2 ^ 8 := rfl
    rw [hbyte, ← pow_mul]
    apply pow_dvd_pow
    omega
  rw [ofLeBytes, ofLeBytes, List.map_take]
  exact ofDigits_mod_take hdvd (by omega) (toNat_digits_lt bytes)

/-- **Powers of two.**  The shard depends on the low bytes only. -/
theorem partitionBytesLe_two_pow {k : ℕ} (hk : 2 ^ k < 2 ^ 64) {bytes bytes' : List UInt8}
    (h : bytes'.take ((k + 7) / 8) = bytes.take ((k + 7) / 8)) :
    partitionBytesLe (2 ^ k) bytes' = partitionBytesLe (2 ^ k) bytes := by
  have hpos : 0 < 2 ^ k := Nat.two_pow_pos k
  rw [partitionBytesLe_eq_ok hpos hk, partitionBytesLe_eq_ok hpos hk, ofLeBytes_mod_two_pow k bytes',
    ofLeBytes_mod_two_pow k bytes, h]

/-! ### Keys -/

section Keys

variable (asBytes : K → List UInt8)

theorem partitionKeyRedb_eq_ok {n : ℕ} (hpos : 0 < n) (hn : n < 2 ^ 64) (key : K) :
    partitionKeyRedb asBytes n key = .ok (ofLeBytes (asBytes key) % n) := by
  rw [partitionKeyRedb, if_pos hpos, partitionBytesLe_eq_ok hpos hn]

/-- A partitioner that its constructor returned never panics. -/
theorem BytesPartitioner.partitionKey_of_new {n : ℕ} {hn : n < 2 ^ 64} {self : BytesPartitioner}
    (hnew : BytesPartitioner.new n hn = .ok self) (key : K) :
    self.partitionKey asBytes key = .ok (ofLeBytes (asBytes key) % n) := by
  by_cases hpos : 0 < n
  · rw [BytesPartitioner.new, dif_pos hpos] at hnew
    cases hnew
    exact partitionKeyRedb_eq_ok asBytes hpos hn key
  · rw [BytesPartitioner.new, dif_neg hpos] at hnew
    cases hnew

/-- **Readers and routers** of a sharded column look for a key in the shard that the partitioner
computes. -/
theorem BytesPartitioner.partitionKey_eq_bucketOne (self : BytesPartitioner) (key : K) (v : V) :
    self.partitionKey asBytes key =
      .ok ((Partitioning.ofKeyBytes self.n asBytes : Partitioning K V self.n).bucketOne key
        v : ℕ) := by
  have hval : (Storage.partitionBytesLe self.n (asBytes key) : ℕ) = ofLeBytes (asBytes key) % self.n :=
    val_partitionBytesLe self.n (asBytes key)
  rw [BytesPartitioner.partitionKey, partitionKeyRedb_eq_ok asBytes self.pos self.isUsize, ← hval]
  rfl

end Keys

/-- **Key partitioning is the little-endian residue.**  Nothing overflows or panics on the way,
chunks do not matter, and for `2 ^ k` shards only the low bytes do. -/
theorem keyPartitioning_leResidue {n : ℕ} (hpos : 1 ≤ n) (hn : n < 2 ^ 64) (bytes : List UInt8) :
    partitionBytesLe n bytes = .ok ((bytes.mapIdx fun i b => b.toNat * 256 ^ i).sum % n) ∧
      (∀ r, partitionBytesLe n bytes = .ok r → r < n) ∧
      (∀ (asBytes : K → List UInt8) (key : K), asBytes key = bytes →
        partitionKeyRedb asBytes n key = partitionBytesLe n bytes) ∧
      (∃ powAcc, leModFoldChunk n (1, 0) bytes = .ok powAcc ∧
        powAcc.2 % n = (bytes.mapIdx fun i b => b.toNat * 256 ^ i).sum % n) ∧
      (∀ chunks : List (List UInt8), chunks.flatten = bytes → ∀ powAcc,
        chunks.foldlM (leModFoldChunk n) powAcc = leModFoldChunk n powAcc bytes) ∧
      ∀ k, n = 2 ^ k → ∀ bytes' : List UInt8, bytes'.take ((k + 7) / 8) = bytes.take ((k + 7) / 8) →
        partitionBytesLe n bytes' = partitionBytesLe n bytes := by
  have hok := partitionBytesLe_eq_ok hpos hn bytes
  rw [← ofLeBytes_eq_sum]
  refine ⟨hok, ?_, ?_, leModFoldChunk_start hpos hn bytes, ?_, ?_⟩
  · intro r hr
    rw [hok] at hr
    cases hr
    exact Nat.mod_lt _ hpos
  · rintro asBytes key rfl
    rw [partitionKeyRedb_eq_ok asBytes hpos hn, hok]
  · rintro chunks rfl powAcc
    exact leModFoldChunk_flatten n powAcc chunks
  · rintro k rfl bytes' hlow
    exact partitionBytesLe_two_pow hn hlow

/-- 4096 shards are told apart by the two low bytes of `0xff1234`. -/
theorem keyPartitioning_leResidue_4096 :
    partitionBytesLe 4096 [0x34, 0x12, 0xff] = .ok 0x234 ∧
      [[0x34], [0x12, 0xff]].foldlM (leModFoldChunk 4096) (1, 0) =
        leModFoldChunk 4096 (1, 0) [0x34, 0x12, 0xff] ∧
      partitionBytesLe 4096 [0x34, 0x12] = partitionBytesLe 4096 [0x34, 0x12, 0xff] := by
  obtain ⟨hval, -, -, -, hchunks, hlow⟩ :=
    keyPartitioning_leResidue (K := Unit) (n := 4096) (by decide) (by decide) [0x34, 0x12, 0xff]
  exact ⟨hval.trans rfl, hchunks [[0x34], [0x12, 0xff]] rfl (1, 0), hlow 12 rfl [0x34, 0x12] rfl⟩

end Redbit.Storage.U128
