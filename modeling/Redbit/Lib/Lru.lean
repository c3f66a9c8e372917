import Mathlib.Data.Finset.Card
import Mathlib.Data.List.Dedup
import Mathlib.Data.Finset.Dedup
import Mathlib.Data.List.Nodup

/-!
# Least-recently-used caches

`LruCache` is a bounded map that evicts the key used longest ago.  The entries are kept most recent
first; that the keys are distinct and that the capacity is respected are fields, so no other cache can
be built.

* `LruCache.peek` — the pure read, which every property of the contents is stated with;
* `LruCache.peek_get`, `LruCache.peek_put`, `LruCache.peek_pop` — what the three operations do to it;
* `mem_touchAll_iff` — the eviction law: a key used once is still held exactly as long as fewer
distinct other keys than the capacity have been used since.

A cache that may be switched off is an `Option (LruCache C U)`; its capacity is then `0`.
-/

namespace Redbit.Lib

/-- A cache of at most `cap` entries, the most recently used first. -/
structure LruCache (C U : Type*) where
  cap : ℕ
  entries : List (C × U)
  nodup : (entries.map Prod.fst).Nodup
  le_cap : entries.length ≤ cap
  cap_pos : 0 < cap

namespace LruCache

variable {C U : Type*}

/-- The empty cache. -/
def new (cap : ℕ) (h : 0 < cap) : LruCache C U := ⟨cap, [], by simp, by simp, h⟩

/-- The keys held, most recent first. -/
def keys (c : LruCache C U) : List C := c.entries.map Prod.fst

variable [DecidableEq C]

/-- The entries of other keys than `k`. -/
def others (k : C) (es : List (C × U)) : List (C × U) := es.filter fun e => e.1 ≠ k

lemma nodup_others {k : C} {es : List (C × U)} (h : (es.map Prod.fst).Nodup) :
    (((others k es)).map Prod.fst).Nodup :=
  h.sublist ((List.filter_sublist).map _)

lemma notMem_others (k : C) (es : List (C × U)) : k ∉ (others k es).map Prod.fst := by
  simp [others]

lemma length_others_le (k : C) (es : List (C × U)) : (others k es).length ≤ es.length :=
  List.length_filter_le ..

lemma length_others_lt {k : C} {es : List (C × U)} (h : k ∈ es.map Prod.fst) :
    (others k es).length < es.length := by
  obtain ⟨e, he, rfl⟩ := List.mem_map.mp h
  exact List.length_filter_lt_length_iff_exists.mpr ⟨e, he, by simp⟩

/-- The value held under `k`; the order of use stays as it is. -/
def peek (c : LruCache C U) (k : C) : Option U := (c.entries.find? fun e => e.1 = k).map Prod.snd

lemma peek_eq_some {c : LruCache C U} {k : C} {u : U} : c.peek k = some u ↔ (k, u) ∈ c.entries := by
  unfold peek
  rw [Option.map_eq_some_iff]
  constructor
  · rintro ⟨⟨k', u'⟩, h, rfl⟩
    have := List.find?_some h
    obtain rfl : k' = k := by simpa using this
    exact List.mem_of_find?_eq_some h
  · intro h
    cases hf : c.entries.find? fun e => e.1 = k with
    | none =>
      have := List.find?_eq_none.mp hf _ h
      simp at this
    | some e =>
      refine ⟨e, rfl, ?_⟩
      have he := List.mem_of_find?_eq_some hf
      have hk : e.1 = k := by simpa using List.find?_some hf
      -- two entries of one key are one entry, by `nodup`
      have := List.inj_on_of_nodup_map c.nodup he h hk
      rw [this]

lemma peek_congr {c c' : LruCache C U} {k : C} (h : ∀ u, (k, u) ∈ c.entries ↔ (k, u) ∈ c'.entries) :
    c.peek k = c'.peek k := by
  refine Option.ext fun u => ?_
  rw [peek_eq_some, peek_eq_some, h]

lemma peek_eq_none {c : LruCache C U} {k : C} : c.peek k = none ↔ k ∉ c.keys := by
  constructor
  · intro h hk
    obtain ⟨⟨k', u⟩, he, rfl⟩ := List.mem_map.mp hk
    rw [peek_eq_some.mpr he] at h
    cases h
  · intro h
    cases hp : c.peek k with
    | none => rfl
    | some u => exact absurd (List.mem_map.mpr ⟨_, peek_eq_some.mp hp, rfl⟩) h

@[simp] lemma peek_new (cap : ℕ) (h : 0 < cap) (k : C) :
    (new cap h : LruCache C U).peek k = none := rfl

/-- Puts the entry of `k` first, as the most recently used, and drops the last entry if the capacity
would be exceeded. -/
def front (c : LruCache C U) (k : C) (u : U) : LruCache C U where
  cap := c.cap
  entries := ((k, u) :: others k c.entries).take c.cap
  nodup := by
    refine List.Nodup.sublist ((List.take_sublist _ _).map _) ?_
    exact List.nodup_cons.mpr ⟨notMem_others k _, nodup_others c.nodup⟩
  le_cap := by simp
  cap_pos := c.cap_pos

lemma entries_front (c : LruCache C U) (k : C) (u : U) :
    (c.front k u).entries = ((k, u) :: others k c.entries).take c.cap := rfl

/-- Reads `k` and marks it as the most recently used. -/
def get (c : LruCache C U) (k : C) : Option U × LruCache C U :=
  match c.peek k with
  | some u => (some u, c.front k u)
  | none => (none, c)

/-- Writes `k`; a full cache loses the entry used longest ago. -/
def put (c : LruCache C U) (k : C) (u : U) : LruCache C U := c.front k u

/-- Removes the entry of `k`. -/
def pop (c : LruCache C U) (k : C) : LruCache C U where
  cap := c.cap
  entries := others k c.entries
  nodup := nodup_others c.nodup
  le_cap := (length_others_le k _).trans c.le_cap
  cap_pos := c.cap_pos

lemma keys_front (c : LruCache C U) (k : C) (u : U) :
    (c.front k u).keys = (k :: c.keys.filter fun x => x ≠ k).take c.cap := by
  unfold keys front others
  rw [List.map_take, List.map_cons, List.filter_map]
  rfl

lemma peek_front_self (c : LruCache C U) (k : C) (u : U) : (c.front k u).peek k = some u := by
  rw [peek_eq_some]
  obtain ⟨n, hn⟩ := Nat.exists_eq_succ_of_ne_zero c.cap_pos.ne'
  rw [entries_front, hn, List.take_succ_cons]
  exact List.mem_cons_self

lemma peek_of_peek_front {c : LruCache C U} {k k' : C} {u u' : U} (hne : k' ≠ k)
    (h : (c.front k u).peek k' = some u') : c.peek k' = some u' := by
  rw [peek_eq_some] at h ⊢
  have := List.mem_of_mem_take h
  rcases List.mem_cons.mp this with heq | hm
  · exact absurd (congrArg Prod.fst heq) hne
  · exact List.mem_of_mem_filter hm

/-- Marking an entry that is there does not change what is held. -/
lemma peek_front_of_peek {c : LruCache C U} {k : C} {u : U} (h : c.peek k = some u) (k' : C) :
    (c.front k u).peek k' = c.peek k' := by
  by_cases hk : k' = k
  · subst hk
    rw [peek_front_self, h]
  · have hmem := peek_eq_some.mp h
    have hlen : ((k, u) :: others k c.entries).length ≤ c.cap :=
      (length_others_lt (List.mem_map.mpr ⟨_, hmem, rfl⟩)).trans_le c.le_cap
    refine peek_congr fun u' => ?_
    rw [entries_front, List.take_of_length_le hlen, List.mem_cons, Prod.mk.injEq]
    simp [others, hk]

@[simp] lemma get_fst (c : LruCache C U) (k : C) : (c.get k).1 = c.peek k := by
  unfold get
  split <;> simp_all

/-- A read changes the order of use only. -/
@[simp] lemma peek_get (c : LruCache C U) (k k' : C) : (c.get k).2.peek k' = c.peek k' := by
  unfold get
  split
  · rename_i u hu
    exact peek_front_of_peek hu k'
  · rfl

lemma peek_put_self (c : LruCache C U) (k : C) (u : U) : (c.put k u).peek k = some u :=
  peek_front_self c k u

lemma peek_put {c : LruCache C U} {k k' : C} {u u' : U} (h : (c.put k u).peek k' = some u') :
    (k' = k ∧ u' = u) ∨ (k' ≠ k ∧ c.peek k' = some u') := by
  by_cases hk : k' = k
  · subst hk
    rw [peek_put_self] at h
    exact Or.inl ⟨rfl, (Option.some.inj h).symm⟩
  · exact Or.inr ⟨hk, peek_of_peek_front hk h⟩

lemma peek_pop (c : LruCache C U) (k k' : C) :
    (c.pop k).peek k' = if k' = k then none else c.peek k' := by
  by_cases hk : k' = k
  · subst hk
    rw [if_pos rfl, peek_eq_none]
    exact notMem_others k' _
  · rw [if_neg hk]
    refine peek_congr fun u' => ?_
    simp [pop, others, hk]

end LruCache

/-! ### The eviction law -/

section Touch

variable {C : Type*} [DecidableEq C]

/-- The keys of a cache of capacity `cap` after `k` is used: `k` first, the last one dropped if there
are too many. -/
def touch (cap : ℕ) (ks : List C) (k : C) : List C := (k :: ks.filter fun x => x ≠ k).take cap

/-- The keys after a list of uses. -/
def touchAll (cap : ℕ) (ks : List C) (used : List C) : List C := used.foldl (touch cap) ks

lemma touchAll_append (cap : ℕ) (ks used used' : List C) :
    touchAll cap ks (used ++ used') = touchAll cap (touchAll cap ks used) used' :=
  List.foldl_append ..

lemma mem_of_mem_touch {cap : ℕ} {ks : List C} {k x : C} (hx : x ≠ k) (h : x ∈ touch cap ks k) :
    x ∈ ks := by
  rcases List.mem_cons.mp (List.mem_of_mem_take h) with rfl | hm
  · exact absurd rfl hx
  · exact List.mem_of_mem_filter hm

lemma mem_touchAll_of_notMem {cap : ℕ} {ks used : List C} {x : C} (hx : x ∉ used)
    (h : x ∈ touchAll cap ks used) : x ∈ ks := by
  induction used generalizing ks with
  | nil => exact h
  | cons k used ih =>
    rw [List.mem_cons, not_or] at hx
    exact mem_of_mem_touch hx.1 (ih hx.2 h)

/-- Where `x` stands after it was used and then the keys `mid`: behind exactly the keys of `mid`, or
dropped because there are too many of them. -/
lemma touchAll_position (cap : ℕ) (hcap : 0 < cap) (ks : List C) (x : C) (mid : List C)
    (hx : x ∉ mid) :
    (∃ pre post, touchAll cap (touch cap ks x) mid = pre ++ x :: post ∧ pre.Nodup ∧
      pre.toFinset = mid.toFinset ∧ mid.toFinset.card < cap) ∨
    (x ∉ touchAll cap (touch cap ks x) mid ∧ cap ≤ mid.toFinset.card) := by
  -- induction from the last use: each use of another key moves `x` back by at most one place
  induction mid using List.reverseRecOn with
  | nil =>
    left
    obtain ⟨n, rfl⟩ := Nat.exists_eq_succ_of_ne_zero hcap.ne'
    exact ⟨[], _, rfl, List.nodup_nil, rfl, by simp⟩
  | append_singleton mid y ih =>
    rw [List.mem_append, List.mem_singleton, not_or] at hx
    obtain ⟨hxm, hxy⟩ := hx
    have hset : (mid ++ [y]).toFinset = insert y mid.toFinset := by
      ext z
      simp
    rw [touchAll_append]
    show (∃ pre post, touch cap (touchAll cap (touch cap ks x) mid) y = _ ∧ _) ∨
      (x ∉ touch cap (touchAll cap (touch cap ks x) mid) y ∧ _)
    rw [hset]
    rcases ih hxm with ⟨pre, post, hks, hnd, hpre, hlt⟩ | ⟨hout, hle⟩
    · rw [hks]
      set pre' := y :: pre.filter fun z => z ≠ y with hpre'
      have hnd' : pre'.Nodup := List.nodup_cons.mpr ⟨by simp, hnd.filter _⟩
      have hset' : pre'.toFinset = insert y mid.toFinset := by
        ext z
        rw [← hpre]
        by_cases hz : z = y <;> simp [hpre', hz]
      have hcard : pre'.length = (insert y mid.toFinset).card := by
        rw [← hset', List.toFinset_card_of_nodup hnd']
      have htouch : touch cap (pre ++ x :: post) y =
          (pre' ++ x :: post.filter fun z => z ≠ y).take cap := by
        unfold touch
        simp [hpre', List.filter_append, hxy]
      rw [htouch]
      by_cases hc : pre'.length < cap
      · left
        obtain ⟨n, hn⟩ := Nat.exists_eq_add_of_lt hc
        refine ⟨pre', (post.filter fun z => z ≠ y).take n, ?_, hnd', hset', hcard ▸ hc⟩
        rw [List.take_append, hn, List.take_of_length_le (by omega),
          show pre'.length + n + 1 - pre'.length = n + 1 by omega, List.take_succ_cons]
      · right
        refine ⟨fun hmem => ?_, by omega⟩
        rw [List.take_append_of_le_length (by omega)] at hmem
        have := List.mem_of_mem_take hmem
        rw [← List.mem_toFinset, hset', Finset.mem_insert, List.mem_toFinset] at this
        exact this.elim hxy hxm
    · right
      refine ⟨fun hmem => hout (mem_of_mem_touch hxy hmem), hle.trans ?_⟩
      exact Finset.card_le_card (Finset.subset_insert _ _)

/-- **The eviction law.**  A key that was used, and then only the keys `mid`, is still held iff
`mid` has fewer distinct keys than the capacity. -/
theorem mem_touchAll_iff (cap : ℕ) (ks : List C) (x : C) (mid : List C) (hx : x ∉ mid) :
    x ∈ touchAll cap ks (x :: mid) ↔ mid.toFinset.card < cap := by
  show x ∈ touchAll cap (touch cap ks x) mid ↔ _
  rcases Nat.eq_zero_or_pos cap with rfl | hcap
  · refine ⟨fun h => ?_, fun h => absurd h (Nat.not_lt_zero _)⟩
    have := mem_touchAll_of_notMem hx h
    simp [touch] at this
  · rcases touchAll_position cap hcap ks x mid hx with ⟨pre, post, hks, -, -, hlt⟩ | ⟨hout, hle⟩
    · rw [hks]
      simp [hlt]
    · simp [hout, hle]

end Touch

/-! ### A cache that may be switched off -/

section OptCache

variable {C U : Type*} [DecidableEq C]

/-- Whether there is a cache, and of which capacity. -/
structure LruSetting where
  lruCapacity : Option ℕ
  pos : ∀ cap, lruCapacity = some cap → 0 < cap

/-- A capacity below `1` switches the cache off. -/
def LruSetting.new (lruCapacity : ℕ) : LruSetting where
  lruCapacity := if lruCapacity < 1 then none else some lruCapacity
  pos := by
    intro cap h
    split at h
    · cases h
    · obtain rfl := Option.some.inj h
      omega

/-- A new cache of the setting. -/
def LruSetting.newCache (f : LruSetting) : Option (LruCache C U) :=
  f.lruCapacity.pmap (fun cap h => LruCache.new cap h) f.pos

/-- The read of a cache that may be switched off. -/
def cacheGet (c : Option (LruCache C U)) (k : C) : Option U × Option (LruCache C U) :=
  match c with
  | some c => ((c.get k).1, some (c.get k).2)
  | none => (none, none)

/-- The write of a cache that may be switched off. -/
def cachePut (c : Option (LruCache C U)) (k : C) (u : U) : Option (LruCache C U) :=
  c.map fun c => c.put k u

/-- The removal from a cache that may be switched off. -/
def cachePop (c : Option (LruCache C U)) (k : C) : Option (LruCache C U) := c.map fun c => c.pop k

/-- The contents of a cache that may be switched off. -/
def cachePeek (c : Option (LruCache C U)) (k : C) : Option U := c.bind fun c => c.peek k

/-- The capacity of a cache that may be switched off. -/
def cacheCap (c : Option (LruCache C U)) : ℕ := c.elim 0 LruCache.cap

/-- The keys of a cache that may be switched off. -/
def cacheKeys (c : Option (LruCache C U)) : List C := c.elim [] LruCache.keys

@[simp] lemma cachePeek_newCache (f : LruSetting) (k : C) :
    cachePeek (f.newCache : Option (LruCache C U)) k = none := by
  unfold cachePeek
  rw [Option.bind_eq_none_iff]
  intro c hc
  obtain ⟨cap, hcap, -, rfl⟩ := Option.pmap_eq_some_iff.mp hc
  rfl

@[simp] lemma cacheGet_fst (c : Option (LruCache C U)) (k : C) : (cacheGet c k).1 = cachePeek c k := by
  cases c with
  | none => rfl
  | some c => exact c.get_fst k

@[simp] lemma cachePeek_cacheGet (c : Option (LruCache C U)) (k k' : C) :
    cachePeek (cacheGet c k).2 k' = cachePeek c k' := by
  cases c with
  | none => rfl
  | some c => exact c.peek_get k k'

lemma cachePeek_cachePut {c : Option (LruCache C U)} {k k' : C} {u u' : U}
    (h : cachePeek (cachePut c k u) k' = some u') :
    (k' = k ∧ u' = u) ∨ (k' ≠ k ∧ cachePeek c k' = some u') := by
  cases c with
  | none => cases h
  | some c => exact LruCache.peek_put h

lemma cachePeek_cachePop (c : Option (LruCache C U)) (k k' : C) :
    cachePeek (cachePop c k) k' = if k' = k then none else cachePeek c k' := by
  cases c with
  | none => simp [cachePeek, cachePop]
  | some c => exact c.peek_pop k k'

lemma cachePeek_eq_none {c : Option (LruCache C U)} {k : C} :
    cachePeek c k = none ↔ k ∉ cacheKeys c := by
  cases c with
  | none => simp [cachePeek, cacheKeys]
  | some c => exact LruCache.peek_eq_none

@[simp] lemma cacheCap_cachePut (c : Option (LruCache C U)) (k : C) (u : U) :
    cacheCap (cachePut c k u) = cacheCap c := by
  cases c <;> rfl

@[simp] lemma cacheCap_cacheGet (c : Option (LruCache C U)) (k : C) :
    cacheCap (cacheGet c k).2 = cacheCap c := by
  cases c with
  | none => rfl
  | some c =>
    show (c.get k).2.cap = c.cap
    unfold LruCache.get
    split <;> rfl

lemma cacheKeys_cachePut (c : Option (LruCache C U)) (k : C) (u : U) :
    cacheKeys (cachePut c k u) = touch (cacheCap c) (cacheKeys c) k := by
  cases c with
  | none => rfl
  | some c => exact c.keys_front k u

lemma cacheKeys_cacheGet {c : Option (LruCache C U)} {k : C} {u : U} (h : cachePeek c k = some u) :
    cacheKeys (cacheGet c k).2 = touch (cacheCap c) (cacheKeys c) k := by
  cases c with
  | none => cases h
  | some c =>
    have hp : c.peek k = some u := h
    show (c.get k).2.keys = _
    unfold LruCache.get
    rw [hp]
    exact c.keys_front k u

lemma cacheGet_snd_of_none {c : Option (LruCache C U)} {k : C} (h : cachePeek c k = none) :
    (cacheGet c k).2 = c := by
  cases c with
  | none => rfl
  | some c =>
    have hp : c.peek k = none := h
    show some (c.get k).2 = some c
    unfold LruCache.get
    rw [hp]

end OptCache

end Redbit.Lib
