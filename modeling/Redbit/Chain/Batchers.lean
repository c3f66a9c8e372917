import Redbit.Lib.Table

/-!
# The buffers of the sync pipeline (`size_batcher.rs`, `weight_batcher.rs`, `reorder_buffer.rs`)

Three buffers sit between the fetched blocks and the persisted batches.  The first and the last one
cut a stream into batches and keep its order (`SizeBatcher.push_spec`,
`WeightBatcher.pushWith_spec`); the one in the middle puts the blocks in the order of their heights
(`ReorderBuffer.Holds.insert`).
-/

namespace Redbit.Chain

open Redbit.Lib

/-- `usize::saturating_add`. -/
def saturatingAdd (a b : ℕ) : ℕ := min (a + b) (2 ^ 64 - 1)

/-! ### Batches by size -/

/-- `SizeBatcher`: an immediate one keeps nothing. -/
structure SizeBatcher (T : Type) where
  byteLimit : ℕ
  buf : List T
  bytes : ℕ
  immediate : Bool
  immediate_nil : immediate = true → buf = []

namespace SizeBatcher

variable {T : Type}

/-- `SizeBatcher::new`. -/
def new (byteLimit : ℕ) (immediate : Bool) :
    SizeBatcher T := ⟨byteLimit, [], 0, immediate, fun _ => rfl⟩

/-- `SizeBatcher::from_kb`. -/
def fromKb (kbLimit : ℕ) (immediate : Bool) : SizeBatcher T := new (kbLimit * 1024) immediate

/-- `SizeBatcher::push`. -/
def push (size : T → ℕ) (s : SizeBatcher T) (item : T) : Option (List T) × SizeBatcher T :=
  if h : s.immediate = true then (some [item], s)
  else
    let projected := saturatingAdd s.bytes (size item)
    if s.byteLimit < projected then
      if s.buf = [] then (some [item], s)
      else
        (some s.buf,
          { s with buf := [item], bytes := size item, immediate_nil := fun hi => absurd hi h })
    else
      (none,
        { s with buf := s.buf ++ [item], bytes := projected, immediate_nil := fun hi => absurd hi h })

/-- `SizeBatcher::take_all`. -/
def takeAll (s : SizeBatcher T) : Option (List T) × SizeBatcher T :=
  if s.immediate ∨ s.buf = [] then (none, s)
  else (some s.buf, { s with buf := [], bytes := 0, immediate_nil := fun _ => rfl })

/-- What comes out, followed by what stays, is what was there, followed by the item. -/
lemma push_spec (size : T → ℕ) (s : SizeBatcher T) (item : T) :
    (s.push size item).1.toList.flatten ++ (s.push size item).2.buf = s.buf ++ [item] := by
  unfold push
  split
  · rename_i hi
    simp [s.immediate_nil hi]
  · simp only
    split
    · split
      · rename_i hnil
        simp [hnil]
      · simp
    · simp

lemma takeAll_spec (s : SizeBatcher T) :
    s.takeAll.1.toList.flatten = s.buf ∧ s.takeAll.2.buf = [] := by
  unfold takeAll
  split
  · rename_i h
    have hnil : s.buf = [] := h.elim s.immediate_nil id
    simp [hnil]
  · simp

end SizeBatcher

/-! ### Batches by weight -/

/-- The durabilities the pipeline uses. -/
inductive Durability where
  | none
  | immediate
  deriving DecidableEq

/-- `WeightBatcher`: an immediate one keeps nothing. -/
structure WeightBatcher (T : Type) where
  buf : List T
  weight : ℕ
  minWeight : ℕ
  cap : ℕ
  mode : Durability
  immediate_nil : mode = .immediate → buf = []

namespace WeightBatcher

variable {T : Type}

/-- `WeightBatcher::new`. -/
def new (minWeight cap : ℕ) (mode : Durability) :
    WeightBatcher T := ⟨[], 0, minWeight, cap, mode, fun _ => rfl⟩

/-- `WeightBatcher::take_inner`. -/
def takeInner (s : WeightBatcher T) : List T × WeightBatcher T :=
  (s.buf, { s with buf := [], weight := 0, immediate_nil := fun _ => rfl })

/-- `WeightBatcher::push_with`. -/
def pushWith (weightOf : T → ℕ) (s : WeightBatcher T) (item : T) : Option (List T) × WeightBatcher T :=
  match h : s.mode with
  | .immediate => (some [item], s)
  | .none =>
    let s : WeightBatcher T := { s with
      weight := saturatingAdd s.weight (weightOf item)
      buf := s.buf ++ [item]
      immediate_nil := fun hi => by rw [h] at hi; cases hi }
    if s.minWeight ≤ s.weight ∨ s.cap ≤ s.buf.length then (some s.takeInner.1, s.takeInner.2)
    else (none, s)

/-- `WeightBatcher::flush`. -/
def flush (s : WeightBatcher T) : Option (List T) × WeightBatcher T :=
  match s.mode with
  | .immediate => (none, s)
  | .none => if s.buf = [] then (none, s) else (some s.takeInner.1, s.takeInner.2)

lemma pushWith_spec (weightOf : T → ℕ) (s : WeightBatcher T) (item : T) :
    (s.pushWith weightOf item).1.toList.flatten ++ (s.pushWith weightOf item).2.buf = s.buf ++
    [item] := by
  unfold pushWith
  split
  · rename_i hm
    simp [s.immediate_nil hm]
  · simp only
    split <;> simp [takeInner]

lemma flush_spec (s : WeightBatcher T) : s.flush.1.toList.flatten = s.buf ∧ s.flush.2.buf = [] := by
  unfold flush
  split
  · rename_i hm
    simp [s.immediate_nil hm]
  · split
    · rename_i hnil
      simp [hnil]
    · simp [takeInner]

end WeightBatcher

/-! ### The order of the heights -/

/-- `ReorderBuffer`. -/
structure ReorderBuffer (T : Type) where
  nextHeight : ℕ
  pending : Table ℕ T
  maxBufferHint : ℕ
  maxSeen : Option ℕ
  droppedTooLow : ℕ

namespace ReorderBuffer

variable {T : Type}

/-- `ReorderBuffer::new`. -/
def new (startLowerBound maxBufferHint : ℕ) : ReorderBuffer T :=
  ⟨startLowerBound, Table.empty, maxBufferHint, none, 0⟩

/-- The loop of `insert`, at most `fuel` turns of it: the contiguous blocks from `next` on. -/
def release : ℕ → ℕ → Table ℕ T → List T × ℕ × Table ℕ T
  | 0, next, pending => ([], next, pending)
  | fuel + 1, next, pending =>
    match pending.get next with
    | none => ([], next, pending)
    | some b =>
      let r := release fuel (next + 1) (pending.remove next)
      (b :: r.1, r.2)

/-- `ReorderBuffer::insert`.  There are as many turns of the loop as pending blocks at most. -/
def insert (s : ReorderBuffer T) (height : ℕ) (block : T) : List T × ReorderBuffer T :=
  if height < s.nextHeight then
    ([], { s with droppedTooLow := min (s.droppedTooLow + 1) (2 ^ 32 - 1) })
  else
    let maxSeen :=
      match s.maxSeen with
      | none => some height
      | some ms => if ms < height then some height else some ms
    -- the first block of a height wins
    let pending := if s.pending.get height = none then s.pending.insert height block else s.pending
    let r := release pending.keys.card s.nextHeight pending
    (r.1, { s with nextHeight := r.2.1, pending := r.2.2, maxSeen := maxSeen })

/-- The blocks `r.1` are the contiguous ones from `next` on, and the rest `r.2.2` has none at the
height `r.2.1` where they stop. -/
structure Released (next : ℕ) (pending : Table ℕ T) (r : List T × ℕ × Table ℕ T) : Prop where
  stopsAt : r.2.1 = next + r.1.length
  ready : ∀ i, i < r.1.length → r.1[i]? = pending.get (next + i)
  rest : ∀ x, r.2.2.get x = if next ≤ x ∧ x < r.2.1 then none else pending.get x
  stop : r.2.2.get r.2.1 = none

lemma released_nil {next : ℕ} {pending : Table ℕ T} (h : pending.get next = none) :
    Released next pending ([], next, pending) := by
  refine ⟨rfl, fun i hi => absurd hi (by simp), fun x => ?_, h⟩
  rw [if_neg]
  simp only
  omega

lemma Released.cons {next : ℕ} {pending : Table ℕ T} {b : T} {r : List T × ℕ × Table ℕ T}
    (hb : pending.get next = some b) (h : Released (next + 1) (pending.remove next) r) :
    Released next pending (b :: r.1, r.2) := by
  have hnext := h.stopsAt
  refine ⟨?_, fun i hi => ?_, fun x => ?_, h.stop⟩
  · rw [List.length_cons]
    simp only
    omega
  · cases i with
    | zero => exact hb.symm
    | succ i =>
      have hready := h.ready i (by simpa using hi)
      rw [Table.get_remove, if_neg (by omega)] at hready
      rw [List.getElem?_cons_succ, hready]
      congr 1
      omega
  · simp only
    rw [h.rest, Table.get_remove]
    by_cases hx : x = next
    · subst hx
      simp
      omega
    · by_cases hlt : x < r.2.1
      · simp only [hlt, hx, and_true, if_false]
        refine if_congr ?_ rfl rfl
        omega
      · simp [hlt, hx]

/-- **The loop of `insert`.**  It has turns enough to take all the contiguous blocks out. -/
lemma release_spec {fuel next : ℕ} {pending : Table ℕ T} (hf : pending.keys.card ≤ fuel) :
    Released next pending (release fuel next pending) := by
  induction fuel generalizing next pending with
  | zero =>
    refine released_nil (Option.eq_none_iff_forall_ne_some.mpr fun b hb => ?_)
    have hempty : pending.keys = ∅ := Finset.card_eq_zero.mp (by omega)
    have hmem := Table.mem_keys.mpr ⟨b, hb⟩
    rw [hempty] at hmem
    simp at hmem
  | succ fuel ih =>
    unfold release
    cases hn : pending.get next with
    | none => exact released_nil hn
    | some b =>
      refine Released.cons hn (ih ?_)
      rw [Table.keys_remove, Finset.card_erase_of_mem (Table.mem_keys.mpr ⟨b, hn⟩)]
      omega

/-- The state of the buffer after the blocks `received`, of which `emitted` have come out. -/
structure Holds (height : T → ℕ) (start : ℕ) (received emitted : List T)
    (s : ReorderBuffer T) : Prop where
  order : emitted.map height = List.range' start emitted.length
  next : s.nextHeight = start + emitted.length
  keyed : ∀ h b, s.pending.get h = some b → height b = h ∧ s.nextHeight < h
  mem : ∀ b, b ∈ received ↔ b ∈ emitted ∨ s.pending.get (height b) = some b

section Holds

variable {height : T → ℕ} {start : ℕ} {received emitted : List T} {s : ReorderBuffer T}

lemma holds_new (maxBufferHint : ℕ) :
    Holds height start [] [] (new start maxBufferHint : ReorderBuffer T) :=
  ⟨rfl, rfl, by simp [new], by simp [new]⟩

lemma Holds.height_lt (h : Holds height start received emitted s) {b : T} (hb : b ∈ emitted) :
    start ≤ height b ∧ height b < s.nextHeight := by
  have hm : height b ∈ emitted.map height := List.mem_map.mpr ⟨b, hb, rfl⟩
  rw [h.order, List.mem_range'_1] at hm
  rw [h.next]
  exact hm

lemma Holds.exists_of_lt (h : Holds height start received emitted s) {x : ℕ} (hs : start ≤ x)
    (hx : x < s.nextHeight) : ∃ b ∈ emitted, height b = x := by
  rw [← List.mem_map, h.order, List.mem_range'_1, ← h.next]
  exact ⟨hs, hx⟩

/-- A block of a new height is not below the next one. -/
lemma Holds.le_of_new (h : Holds height start received emitted s) {b : T} (hs : start ≤ height b)
    (hb : height b ∉ received.map height) : s.nextHeight ≤ height b := by
  by_contra hlt
  obtain ⟨c, hc, hcb⟩ := h.exists_of_lt hs (not_le.mp hlt)
  exact hb (List.mem_map.mpr ⟨c, (h.mem c).mpr (Or.inl hc), hcb⟩)

/-- Nothing is pending at a new height. -/
lemma Holds.vacant_of_new (h : Holds height start received emitted s) {b : T}
    (hb : height b ∉ received.map height) : s.pending.get (height b) = none := by
  by_contra hsome
  obtain ⟨c, hc⟩ := Option.ne_none_iff_exists'.mp hsome
  have hcb := (h.keyed _ c hc).1
  refine hb (List.mem_map.mpr ⟨c, (h.mem c).mpr (Or.inr ?_), hcb⟩)
  rw [hcb, hc]

/-- The pending blocks before the loop. -/
lemma pending_insert_iff {pending : Table ℕ T} {b : T}
    (hvacant : pending.get (height b) = none) (c : T) :
    (pending.insert (height b) b).get (height c) = some c ↔
      c = b ∨ pending.get (height c) = some c := by
  rw [Table.get_insert]
  by_cases hcb : height c = height b
  · rw [if_pos hcb, hcb, hvacant]
    simp [eq_comm]
  · rw [if_neg hcb]
    refine ⟨Or.inr, fun hc => hc.resolve_left ?_⟩
    rintro rfl
    exact hcb rfl

/-- The blocks before the loop are under their heights, and none is below the next one. -/
lemma Holds.keyed_insert (h : Holds height start received emitted s) {b : T}
    (hge : s.nextHeight ≤ height b) (x : ℕ) (c : T)
    (hc : (s.pending.insert (height b) b).get x = some c) : height c = x ∧ s.nextHeight ≤ x := by
  rw [Table.get_insert] at hc
  split at hc
  · rename_i hx
    obtain rfl := Option.some.inj hc
    exact ⟨hx.symm, hx ▸ hge⟩
  · exact ⟨(h.keyed x c hc).1, (h.keyed x c hc).2.le⟩

section Released

variable {next : ℕ} {pending : Table ℕ T} {r : List T × ℕ × Table ℕ T}

lemma Released.height_of_ready (hr : Released next pending r)
    (hkey : ∀ x c, pending.get x = some c → height c = x ∧ next ≤ x) {i : ℕ} {c : T}
    (hc : r.1[i]? = some c) : height c = next + i := by
  have hi := (List.getElem?_eq_some_iff.mp hc).1
  exact (hkey _ _ ((hr.ready i hi).symm.trans hc)).1

/-- The blocks that come out have the heights from `next` on. -/
lemma Released.map_height (hr : Released next pending r)
    (hkey : ∀ x c, pending.get x = some c → height c = x ∧ next ≤ x) :
    r.1.map height = List.range' next r.1.length := by
  refine List.ext_getElem (by simp) fun i hi _ => ?_
  rw [List.getElem_map, List.getElem_range', one_mul]
  exact hr.height_of_ready hkey (List.getElem?_eq_getElem (by simpa using hi))

/-- The blocks that stay are above the height where the loop stops. -/
lemma Released.keyed (hr : Released next pending r)
    (hkey : ∀ x c, pending.get x = some c → height c = x ∧ next ≤ x) {x : ℕ} {c : T}
    (hc : r.2.2.get x = some c) : height c = x ∧ r.2.1 < x := by
  have hx := hr.rest x
  rw [hc] at hx
  split at hx
  · cases hx
  · rename_i hout
    obtain ⟨hcx, hle⟩ := hkey x c hx.symm
    have hne : x ≠ r.2.1 := by
      rintro rfl
      rw [hr.stop] at hc
      cases hc
    exact ⟨hcx, by omega⟩

/-- What was pending before the loop is ready now, or pending still. -/
lemma Released.pending_iff (hr : Released next pending r)
    (hkey : ∀ x c, pending.get x = some c → height c = x ∧ next ≤ x) (c : T) :
    pending.get (height c) = some c ↔ c ∈ r.1 ∨ r.2.2.get (height c) = some c := by
  have hstops := hr.stopsAt
  rw [hr.rest]
  by_cases hin : next ≤ height c ∧ height c < r.2.1
  · rw [if_pos hin]
    simp only [reduceCtorEq, or_false]
    have hi : height c - next < r.1.length := by omega
    have hc := hr.ready _ hi
    rw [show next + (height c - next) = height c by omega] at hc
    rw [← hc]
    constructor
    · exact fun heq => List.mem_of_getElem? heq
    · intro hm
      obtain ⟨j, hj⟩ := List.mem_iff_getElem?.mp hm
      have := hr.height_of_ready hkey hj
      rw [← hj]
      congr 1
      omega
  · rw [if_neg hin]
    refine ⟨Or.inr, fun hc => hc.resolve_left fun hm => hin ?_⟩
    obtain ⟨j, hj⟩ := List.mem_iff_getElem?.mp hm
    have := hr.height_of_ready hkey hj
    have := (List.getElem?_eq_some_iff.mp hj).1
    omega

end Released

/-- **One block.**  A block of a new height keeps the buffer right. -/
theorem Holds.insert (h : Holds height start received emitted s) {b : T} (hs : start ≤ height b)
    (hb : height b ∉ received.map height) :
    Holds height start (received ++ [b]) (emitted ++ (s.insert (height b) b).1)
      (s.insert (height b) b).2 := by
  have hge := h.le_of_new hs hb
  have hvacant := h.vacant_of_new hb
  have hkey := h.keyed_insert hge
  unfold ReorderBuffer.insert
  rw [if_neg (not_lt.mpr hge), if_pos hvacant]
  simp only
  have hr : Released s.nextHeight (s.pending.insert (height b) b)
    (release (s.pending.insert (height b) b).keys.card
      s.nextHeight (s.pending.insert (height b) b)) := release_spec le_rfl
  refine ⟨?_, ?_, fun x c hc => hr.keyed hkey hc, fun c => ?_⟩
  · rw [List.map_append, h.order, hr.map_height hkey, h.next, List.length_append, List.range'_append_1]
  · rw [List.length_append, ← Nat.add_assoc, ← h.next]
    exact hr.stopsAt
  · rw [List.mem_append, List.mem_append, List.mem_singleton, h.mem, or_assoc, or_assoc,
      ← hr.pending_iff hkey, pending_insert_iff hvacant]
    exact or_congr_right or_comm

/-- When everything has been received, everything has come out, in order. -/
theorem Holds.complete (h : Holds height start received emitted s) {blocks : List T}
    (hperm : received.Perm blocks) (hblocks : blocks.map height = List.range' start blocks.length) :
    emitted = blocks := by
  have hinj : ∀ a ∈ blocks, ∀ b ∈ blocks, height a = height b → a = b := by
    have hnd : (blocks.map height).Nodup := by
      rw [hblocks]
      exact List.nodup_range'
    exact fun a ha b hb => List.inj_on_of_nodup_map hnd ha hb
  have hsub : ∀ b ∈ emitted, b ∈ blocks := fun b hb => hperm.mem_iff.mp ((h.mem b).mpr (Or.inl hb))
  have hlen : emitted.length = blocks.length := by
    refine le_antisymm ?_ (not_lt.mp fun hlt => ?_)
    · have hnd : emitted.Nodup := by
        refine List.Nodup.of_map height ?_
        rw [h.order]
        exact List.nodup_range'
      exact (hnd.subperm hsub).length_le
    · -- the next height is the one of a block, which is then pending
      have hm : s.nextHeight ∈ blocks.map height := by
        rw [hblocks, List.mem_range'_1, h.next]
        omega
      obtain ⟨b, hb, hbn⟩ := List.mem_map.mp hm
      rcases (h.mem b).mp (hperm.mem_iff.mpr hb) with he | hp
      · have := (h.height_lt he).2
        omega
      · have := (h.keyed _ b hp).2
        omega
  refine List.ext_getElem hlen fun i hi hi' =>
    hinj _ (hsub _ (List.getElem_mem hi)) _ (List.getElem_mem hi') ?_
  have he := congrArg (fun l => l[i]?) h.order
  have hb := congrArg (fun l => l[i]?) hblocks
  simp only [List.getElem?_map, List.getElem?_eq_getElem hi, List.getElem?_eq_getElem hi',
    Option.map_some] at he hb
  rw [hlen, ← hb] at he
  exact Option.some.inj he

end Holds

end ReorderBuffer

end Redbit.Chain
