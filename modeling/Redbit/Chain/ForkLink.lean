import Redbit.Chain.Syncer
import Mathlib.Data.List.Chain

/-!
# What linking keeps

`Ends` says how the walk back from a block ends: it joins the stored chain, the direct parent cannot be
fetched and the block is skipped, or it is cut further back, where an ancestor was fetched and the
parent of that ancestor cannot be.  In the last case `chain_link` drops the ancestor but keeps its
descendants, and the lowest of them is stored without its parent.

`Broken db x` says that the stored block at height `x` has no stored parent.  One block of a batch
repairs every break from the start of its chain on, and adds the one of a cut walk
(`broken_linkOne`); over a batch this gives the exact condition under which the stored chain stays
linked (`persistOrLink_linked_iff`).
-/

set_option linter.unusedSectionVars false

namespace Redbit.Chain

open Redbit.Lib

variable {H B E : Type} [DecidableEq H]

/-! ### The stored chain -/

/-- Every row is stored under its height. -/
def Keyed (db : Db H B) : Prop := ∀ h b, db.get h = some b → b.header.height = h

/-- The parent of `b` is stored at the height below. -/
def HasParent (db : Db H B) (b : Block H B) : Prop :=
  ∃ a, db.get (b.header.height - 1) = some a ∧ a.header.hash = b.header.prevHash

/-- Every stored block above height `1` has its parent stored below it. -/
def Linked (db : Db H B) : Prop := ∀ h b, db.get h = some b → 2 ≤ h → HasParent db b

/-- The stored block at height `x` has no stored parent. -/
def Broken (db : Db H B) (x : ℕ) : Prop := 2 ≤ x ∧ ∃ b, db.get x = some b ∧ ¬ HasParent db b

lemma linked_iff {db : Db H B} : Linked db ↔ ∀ x, ¬ Broken db x := by
  constructor
  · rintro h x ⟨hx, b, hb, hno⟩
    exact hno (h x b hb hx)
  · intro h x b hb hx
    by_contra hno
    exact h x ⟨hx, b, hb, hno⟩

lemma mem_getHeaderByHash {db : Db H B} {hash : H} {hd : Header H} :
    hd ∈ getHeaderByHash db hash ↔ ∃ h b, db.get h = some b ∧ b.header = hd ∧ hd.hash = hash := by
  unfold getHeaderByHash
  rw [List.mem_filterMap]
  constructor
  · rintro ⟨h, -, hh⟩
    obtain ⟨b, hb, hif⟩ := Option.bind_eq_some_iff.mp hh
    split at hif
    · rename_i hhash
      obtain rfl := Option.some.inj hif
      exact ⟨h, b, hb, rfl, hhash⟩
    · cases hif
  · rintro ⟨h, b, hb, rfl, hhash⟩
    refine ⟨h, ?_, ?_⟩
    · rw [Finset.mem_sort, Table.mem_keys]
      exact ⟨b, hb⟩
    · rw [hb, Option.bind_some, if_pos hhash]

/-! ### How a walk ends -/

/-- The end of the walk back from a block, with the height of the lowest block that is stored. -/
inductive Ending where
  | skipped
  | joined (lo : ℕ)
  | cut (lo : ℕ)
  deriving DecidableEq

/-- The walk back from a block over the stored headers and the provider. -/
inductive Ends (db : Db H B) (provider : Provider H B E) : Block H B → Ending → Prop
  | genesis {b} : b.header.height = 1 → Ends db provider b (.joined 1)
  | stored {b prevHeader rest} : b.header.height ≠ 1 →
      getHeaderByHash db b.header.prevHash = prevHeader :: rest →
      prevHeader.height = b.header.height - 1 → Ends db provider b (.joined b.header.height)
  | unknown {b} : b.header.height ≠ 1 → getHeaderByHash db b.header.prevHash = [] →
      provider b.header.prevHash = .ok none → Ends db provider b .skipped
  | dropped {b parent} : b.header.height ≠ 1 → getHeaderByHash db b.header.prevHash = [] →
      provider b.header.prevHash = .ok (some parent) → Ends db provider parent .skipped →
      Ends db provider b (.cut b.header.height)
  | fetched {b parent e} : b.header.height ≠ 1 → getHeaderByHash db b.header.prevHash = [] →
      provider b.header.prevHash = .ok (some parent) → Ends db provider parent e → e ≠ .skipped →
      Ends db provider b e

/-- A walk has one end. -/
lemma Ends.unique {db : Db H B} {provider : Provider H B E} {b : Block H B} {e e' : Ending}
    (h : Ends db provider b e) (h' : Ends db provider b e') : e = e' := by
  induction h generalizing e' with
  | genesis h1 => cases h' <;> simp_all
  | stored h1 hs hp => cases h' <;> simp_all
  | unknown h1 hs hp => cases h' <;> simp_all
  | dropped h1 hs hp _ ih =>
    cases h' with
    | genesis h1' => exact absurd h1' h1
    | stored _ hs' => simp [hs] at hs'
    | unknown _ _ hp' => simp [hp] at hp'
    | dropped => rfl
    | fetched _ _ hp' he hne =>
      obtain rfl : _ = _ := by simpa [hp] using hp'
      exact absurd (ih he).symm hne
  | fetched h1 hs hp _ hne ih =>
    cases h' with
    | genesis h1' => exact absurd h1' h1
    | stored _ hs' => simp [hs] at hs'
    | unknown _ _ hp' => simp [hp] at hp'
    | dropped _ _ hp' he =>
      obtain rfl : _ = _ := by simpa [hp] using hp'
      exact absurd (ih he) hne
    | fetched _ _ hp' he _ =>
      obtain rfl : _ = _ := by simpa [hp] using hp'
      exact ih he

/-! ### The provider -/

/-- The blocks whose parents may be asked for: those of the batch, and their fetched ancestors. -/
inductive Asked (provider : Provider H B E) (blocks : List (Block H B)) : Block H B → Prop
  | batch {b} : b ∈ blocks → Asked provider blocks b
  | parent {b parent} : Asked provider blocks b → b.header.height ≠ 1 →
      provider b.header.prevHash = .ok (some parent) → Asked provider blocks parent

/-- The contract of the provider: a block it returns has the hash that was asked for, and the height
below the child's. -/
def Contract (provider : Provider H B E) (blocks : List (Block H B)) : Prop :=
  ∀ b parent, Asked provider blocks b → b.header.height ≠ 1 →
    provider b.header.prevHash = .ok (some parent) →
    parent.header.hash = b.header.prevHash ∧ parent.header.height + 1 = b.header.height

section Walk

variable {provider : Provider H B E} {blocks : List (Block H B)} {db : Db H B} {b : Block H B}

/-- The recursion ends: the heights of the ancestors go down. -/
theorem chainLink_returns (hp : Contract provider blocks) {fuel : ℕ} (hb : Asked provider blocks b)
    (h1 : 1 ≤ b.header.height) (hf : b.header.height ≤ fuel) :
    chainLink db provider fuel b ≠ .error .fuel := by
  induction fuel generalizing b with
  | zero => omega
  | succ fuel ih =>
    unfold chainLink
    simp only
    split
    · simp
    · rename_i hne
      split
      · split <;> simp
      · split
        · simp
        · simp
        · rename_i parent hpar
          have hheight := (hp b parent hb hne hpar).2
          have := ih (hb.parent hne hpar) (by omega) (by omega)
          split <;> simp_all

/-- `b` follows `a` in a chain of blocks. -/
def Follows (a b : Block H B) : Prop := b.header.height = a.header.height + 1 ∧
    a.header.hash = b.header.prevHash

/-- What the returned blocks are. -/
inductive Found (db : Db H B) (b : Block H B) : List (Block H B) → Ending → Prop
  | skipped : Found db b [] .skipped
  | joined {first rest} : (first :: rest).IsChain Follows → (first :: rest).getLast? = some b →
      (first.header.height = 1 ∨ HasParent db first) →
        Found db b (first :: rest) (.joined first.header.height)
  | cut {first rest} : (first :: rest).IsChain Follows → (first :: rest).getLast? = some b →
      2 ≤ first.header.height → getHeaderByHash db first.header.prevHash = [] →
      Found db b (first :: rest) (.cut first.header.height)

/-- A chain that ends in the parent goes on with the block. -/
lemma Found.concat {a : Block H B} {chain : List (Block H B)} {e : Ending} (h : Found db a chain e)
    (hne : e ≠ .skipped) (hab : Follows a b) : Found db b (chain ++ [b]) e := by
  have hchain : ∀ {first rest}, (first :: rest : List (Block H B)).IsChain Follows →
      (first :: rest).getLast? = some a → (first :: (rest ++ [b])).IsChain Follows := by
    intro first rest hc hl
    rw [← List.cons_append, List.isChain_append]
    refine ⟨hc, List.isChain_singleton _, fun x hx y hy => ?_⟩
    rw [hl] at hx
    obtain rfl := Option.some.inj hx
    obtain rfl : b = y := by simpa using hy
    exact hab
  have hlast : ∀ {first : Block H B} {rest}, (first :: (rest ++ [b])).getLast? = some b := by
    intro first rest
    rw [← List.cons_append, List.getLast?_append]
    rfl
  cases h with
  | skipped => exact absurd rfl hne
  | joined hc hl ha => exact .joined (hchain hc hl) hlast ha
  | cut hc hl h2 ha => exact .cut (hchain hc hl) hlast h2 ha

/-- **The walk.**  The blocks that `chain_link` returns are the ones between the end of the walk and
the block. -/
theorem chainLink_found (hp : Contract provider blocks) (hk : Keyed db) {fuel : ℕ}
    {chain : List (Block H B)} (hb : Asked provider blocks b) (h1 : 1 ≤ b.header.height)
    (h : chainLink db provider fuel b = .ok chain) :
    ∃ e, Ends db provider b e ∧ Found db b chain e := by
  induction fuel generalizing b chain with
  | zero => cases h
  | succ fuel ih =>
    unfold chainLink at h
    simp only at h
    split at h
    · rename_i hone
      cases h
      refine ⟨.joined 1, .genesis hone, ?_⟩
      rw [← hone]
      exact .joined (List.isChain_singleton _) rfl (Or.inl hone)
    · rename_i hne
      split at h
      · rename_i prevHeader rest hhd
        split at h
        · rename_i hprev
          cases h
          refine ⟨_, .stored hne hhd hprev, .joined (List.isChain_singleton _) rfl (Or.inr ?_)⟩
          obtain ⟨x, a, ha, rfl, hhash⟩ := mem_getHeaderByHash.mp (hhd ▸ List.mem_cons_self)
          exact ⟨a, by rw [← hprev, hk x a ha, ha], hhash⟩
        · cases h
      · rename_i hhd
        split at h
        · cases h
        · rename_i hnone
          cases h
          exact ⟨.skipped, .unknown hne hhd hnone, .skipped⟩
        · rename_i parent hpar
          obtain ⟨hhash, hheight⟩ := hp b parent hb hne hpar
          split at h
          · cases h
          · rename_i fork hfork
            cases h
            obtain ⟨e, hends, hfound⟩ := ih (hb.parent hne hpar) (by omega) hfork
            by_cases he : e = .skipped
            · subst he
              -- the parent is dropped: its own parent cannot be fetched
              obtain rfl : fork = [] := by
                cases hfound
                rfl
              refine ⟨_, .dropped hne hhd hpar hends, ?_⟩
              exact .cut (List.isChain_singleton _) rfl (by omega) hhd
            · exact ⟨e, .fetched hne hhd hpar hends he, hfound.concat he ⟨hheight.symm, hhash⟩⟩

end Walk

/-! ### Chains of blocks -/

section Chains

variable {first : Block H B} {rest : List (Block H B)}

lemma heights_eq_range (h : (first :: rest).IsChain Follows) :
    (first :: rest).map (fun c => c.header.height) = List.range' first.header.height
      (rest.length + 1) := by
  induction rest generalizing first with
  | nil => rfl
  | cons second rest ih =>
    rw [List.isChain_cons_cons] at h
    rw [List.map_cons, ih h.2, h.1.1, List.length_cons, ← List.range'_succ]

lemma height_last (h : (first :: rest).IsChain Follows) {b : Block H B}
    (hl : (first :: rest).getLast? = some b) :
    b.header.height = first.header.height + rest.length := by
  induction rest generalizing first with
  | nil =>
    obtain rfl : first = b := by simpa using hl
    rfl
  | cons second rest ih =>
    rw [List.isChain_cons_cons] at h
    rw [List.getLast?_cons_cons] at hl
    rw [ih h.2 hl, h.1.1, List.length_cons]
    omega

lemma mem_heights (h : (first :: rest).IsChain Follows) {x : ℕ} :
    (∃ c ∈ first :: rest, c.header.height = x) ↔
      first.header.height ≤ x ∧ x ≤ first.header.height + rest.length := by
  rw [← List.mem_map, heights_eq_range h, List.mem_range'_1]
  omega

lemma nodup_heights (h : (first :: rest).IsChain Follows) :
    ((first :: rest).map fun c => c.header.height).Nodup := by
  rw [heights_eq_range h]
  exact List.nodup_range'

lemma exists_pred (h : (first :: rest).IsChain Follows) {c : Block H B} (hc : c ∈ rest) :
    ∃ a ∈ first :: rest, Follows a c := by
  induction rest generalizing first with
  | nil => simp at hc
  | cons second rest ih =>
    rw [List.isChain_cons_cons] at h
    rcases List.mem_cons.mp hc with rfl | hc
    · exact ⟨first, List.mem_cons_self, h.1⟩
    · obtain ⟨a, ha, hac⟩ := ih h.2 hc
      exact ⟨a, List.mem_cons_of_mem _ ha, hac⟩

end Chains

/-! ### Storing a chain -/

/-- The rows of the heights of `chain` are replaced. -/
def Replaces (db : Db H B) (chain : List (Block H B)) (db' : Db H B) : Prop :=
  (∀ c ∈ chain, db'.get c.header.height = some c) ∧
    ∀ x, (∀ c ∈ chain, c.header.height ≠ x) → db'.get x = db.get x

section Store

variable {db db' : Db H B} {chain : List (Block H B)}

lemma replaces_storeBlocks (hnd : (chain.map fun c => c.header.height).Nodup) :
    Replaces db chain (storeBlocks db chain) := by
  unfold storeBlocks
  refine ⟨fun c hc => ?_, fun x hx => ?_⟩
  · have hmem : (c.header.height, c) ∈ chain.map fun b => (b.header.height, b) :=
      List.mem_map.mpr ⟨c, hc, rfl⟩
    refine Table.get_insertAll_of_mem ?_ hmem db
    rwa [List.map_map]
  · refine Table.get_insertAll_of_notMem ?_ db
    rintro kv hkv
    obtain ⟨c, hc, rfl⟩ := List.mem_map.mp hkv
    exact hx c hc

lemma get_foldl_remove {x : ℕ} (hx : ∀ c ∈ chain, c.header.height ≠ x) :
    (chain.foldl (fun (db : Db H B) c => db.remove c.header.height) db).get x = db.get x := by
  induction chain generalizing db with
  | nil => rfl
  | cons c chain ih =>
    rw [List.foldl_cons, ih fun c' hc' => hx c' (List.mem_cons_of_mem _ hc'), Table.get_remove,
      if_neg (hx c List.mem_cons_self).symm]

lemma replaces_updateBlocks (hnd : (chain.map fun c => c.header.height).Nodup) :
    Replaces db chain (updateBlocks db chain) := by
  have h : Replaces (chain.foldl (fun db c => db.remove c.header.height) db) chain _ :=
    replaces_storeBlocks hnd
  exact ⟨h.1, fun x hx => (h.2 x hx).trans (get_foldl_remove hx)⟩

/-- What one turn of the loop does. -/
lemma linkOne_cases {provider : Provider H B E} {b : Block H B} (h : linkOne provider db b = .ok db') :
    ∃ chain, chainLink db provider (b.header.height + 1) b = .ok chain ∧
      (chain = [] → db' = db) ∧
      ((chain.map fun c => c.header.height).Nodup → chain ≠ [] → Replaces db chain db') := by
  unfold linkOne at h
  split at h
  · cases h
  · rename_i hc
    cases h
    exact ⟨[], hc, fun _ => rfl, fun _ hne => absurd rfl hne⟩
  · rename_i c hc
    cases h
    exact ⟨[c], hc, fun h => absurd h (by simp), fun hnd _ => replaces_storeBlocks hnd⟩
  · rename_i chain hne _ hc
    cases h
    exact ⟨chain, hc, fun h => absurd h hne, fun hnd _ => replaces_updateBlocks hnd⟩

end Store

section Replace

variable {db db' : Db H B} {first b : Block H B} {rest : List (Block H B)}

lemma Replaces.keyed (h : Replaces db (first :: rest) db') (hk : Keyed db) : Keyed db' := by
  intro x c hc
  by_cases hx : ∃ c ∈ first :: rest, c.header.height = x
  · obtain ⟨c', hc', rfl⟩ := hx
    rw [h.1 c' hc'] at hc
    rw [Option.some.inj hc]
  · push Not at hx
    rw [h.2 x hx] at hc
    exact hk x c hc

/-- **Storing a chain.**  What was broken below the chain stays so, and the first block of the chain is
broken if its parent is not stored. -/
lemma Replaces.broken_iff (h : Replaces db (first :: rest) db') (hk : Keyed db)
    (hc : (first :: rest).IsChain Follows) (hl : (first :: rest).getLast? = some b)
    (htop : ∀ x c, db.get x = some c → x < b.header.height) (x : ℕ) :
    Broken db' x ↔ (x < first.header.height ∧ Broken db x) ∨
      (x = first.header.height ∧ 2 ≤ x ∧ ¬ HasParent db first) := by
  have hlast := height_last hc hl
  have hold : ∀ y, y < first.header.height → db'.get y = db.get y := by
    intro y hy
    refine h.2 y fun c hcm hcy => ?_
    have := (mem_heights hc).mp ⟨c, hcm, hcy⟩
    omega
  rcases lt_trichotomy x first.header.height with hlt | heq | hgt
  · -- below the chain nothing changes
    have hparent : ∀ c, db.get x = some c → 2 ≤ x → (HasParent db' c ↔ HasParent db c) := by
      intro c hcx h2
      unfold HasParent
      rw [hk x c hcx, hold (x - 1) (by omega)]
    have hne : x ≠ first.header.height := by omega
    simp only [hlt, hne, true_and, false_and, or_false]
    unfold Broken
    rw [hold x hlt]
    refine and_congr_right fun h2 => exists_congr fun c => and_congr_right fun hcx => ?_
    rw [hparent c hcx h2]
  · -- the row of the first block of the chain
    subst heq
    simp only [lt_irrefl, false_and, true_and, false_or]
    unfold Broken
    refine and_congr_right fun h2 => ?_
    have hparent : HasParent db' first ↔ HasParent db first := by
      unfold HasParent
      rw [hold (first.header.height - 1) (by omega)]
    rw [h.1 first List.mem_cons_self]
    simp [hparent]
  · -- inside the chain the parent is the block before, and above it there is nothing
    have hne : x ≠ first.header.height := by omega
    simp only [not_lt.mpr hgt.le, hne, false_and, or_self, iff_false]
    rintro ⟨h2, c, hcx, hno⟩
    by_cases hx : x ≤ first.header.height + rest.length
    · obtain ⟨c', hc', rfl⟩ := (mem_heights hc).mpr ⟨hgt.le, hx⟩
      rw [h.1 c' hc'] at hcx
      obtain rfl := Option.some.inj hcx
      have hrest : c' ∈ rest := by
        rcases List.mem_cons.mp hc' with rfl | hr
        · exact absurd rfl hne
        · exact hr
      obtain ⟨a, ha, hac⟩ := exists_pred hc hrest
      refine hno ⟨a, ?_, hac.2⟩
      rw [hac.1, Nat.add_sub_cancel]
      exact h.1 a ha
    · have hout : ∀ c ∈ first :: rest, c.header.height ≠ x := by
        intro c hcm hcy
        have := (mem_heights hc).mp ⟨c, hcm, hcy⟩
        omega
      rw [h.2 x hout] at hcx
      have := htop x c hcx
      omega

/-- No row is above the last block of the chain. -/
lemma Replaces.top (h : Replaces db (first :: rest) db') (hc : (first :: rest).IsChain Follows)
    (hl : (first :: rest).getLast? = some b) (htop : ∀ x c, db.get x = some c → x < b.header.height)
    {x : ℕ} {c : Block H B} (hcx : db'.get x = some c) : x ≤ b.header.height := by
  by_contra hlt
  have hlast := height_last hc hl
  have hout : ∀ c ∈ first :: rest, c.header.height ≠ x := by
    intro c hcm hcy
    have := (mem_heights hc).mp ⟨c, hcm, hcy⟩
    omega
  rw [h.2 x hout] at hcx
  have := htop x c hcx
  omega

end Replace

/-! ### One block -/

/-- The break at height `x` is left alone by a walk with this end. -/
def Ending.Spares (x : ℕ) : Ending → Prop
  | .skipped => True
  | .joined lo => x < lo
  | .cut lo => x < lo

section Step

variable {provider : Provider H B E} {blocks : List (Block H B)} {db db' : Db H B} {b : Block H B}

/-- **One block of the batch.** -/
theorem broken_linkOne (hp : Contract provider blocks) (hk : Keyed db) (hb : b ∈ blocks)
    (h1 : 1 ≤ b.header.height) (htop : ∀ x c, db.get x = some c → x < b.header.height)
    (h : linkOne provider db b = .ok db') :
    Keyed db' ∧ (∀ x c, db'.get x = some c → x ≤ b.header.height) ∧
      ∃ e, Ends db provider b e ∧ ∀ x, Broken db' x ↔ (e.Spares x ∧ Broken db x) ∨ e = .cut x := by
  obtain ⟨chain, hlink, hnil, hrep⟩ := linkOne_cases h
  obtain ⟨e, hends, hfound⟩ := chainLink_found hp hk (.batch hb) h1 hlink
  cases hfound with
  | skipped =>
    rw [hnil rfl]
    refine ⟨hk, fun x c hc => (htop x c hc).le, _, hends, fun x => ?_⟩
    simp [Ending.Spares]
  | @joined first rest hc hl hpar =>
    have hr := hrep (nodup_heights hc) (by simp)
    refine ⟨hr.keyed hk, fun x c hcx => hr.top hc hl htop hcx, _, hends, fun x => ?_⟩
    rw [hr.broken_iff hk hc hl htop]
    have hfirst : ¬ (x = first.header.height ∧ 2 ≤ x ∧ ¬ HasParent db first) := by
      rintro ⟨rfl, h2, hno⟩
      rcases hpar with hone | hpar
      · omega
      · exact hno hpar
    simp [Ending.Spares, hfirst]
  | @cut first rest hc hl h2 hnone =>
    have hr := hrep (nodup_heights hc) (by simp)
    refine ⟨hr.keyed hk, fun x c hcx => hr.top hc hl htop hcx, _, hends, fun x => ?_⟩
    rw [hr.broken_iff hk hc hl htop]
    have hno : ¬ HasParent db first := by
      rintro ⟨a, ha, hhash⟩
      have hmem := mem_getHeaderByHash.mpr ⟨_, a, ha, rfl, hhash⟩
      rw [hnone] at hmem
      simp at hmem
    have hfirst : (x = first.header.height ∧ 2 ≤ x ∧ ¬ HasParent db first) ↔
        Ending.cut first.header.height = .cut x := by
      rw [Ending.cut.injEq]
      constructor
      · exact fun h => h.1.symm
      · rintro rfl
        exact ⟨rfl, h2, hno⟩
    rw [hfirst]
    rfl

end Step

/-! ### The batch -/

lemma linkAll_concat {provider : Provider H B E} {db db' : Db H B} {p : List (Block H B)}
    {b : Block H B} : linkAll provider db (p ++ [b]) = .ok db' ↔
      ∃ s, linkAll provider db p = .ok s ∧ linkOne provider s b = .ok db' := by
  induction p generalizing db with
  | nil =>
    unfold linkAll
    cases h : linkOne provider db b <;> simp [linkAll, h]
  | cons c p ih =>
    rw [List.cons_append, linkAll, linkAll]
    cases h : linkOne provider db c with
    | error f => simp
    | ok s => exact ih

/-- After the blocks `p` of the batch and the block `b`, a later block is linked by a chain that
starts at the height `x` or below. -/
def RepairedLater (provider : Provider H B E) (db : Db H B) (blocks p : List (Block H B))
    (b : Block H B) (x : ℕ) : Prop :=
  ∃ q c s e, p ++ [b] <+: q ∧ q ++ [c] <+: blocks ∧ linkAll provider db q = .ok s ∧
    Ends s provider c e ∧ ¬ e.Spares x

/-- The heights at which some walk of the batch was cut, and that no later block has repaired. -/
def LeftBroken (provider : Provider H B E) (db : Db H B) (blocks : List (Block H B)) (x : ℕ) : Prop :=
  ∃ p b s, p ++ [b] <+: blocks ∧ linkAll provider db p = .ok s ∧ Ends s provider b (.cut x) ∧
    ¬ RepairedLater provider db blocks p b x

section Batch

variable {provider : Provider H B E} {blocks : List (Block H B)} {db : Db H B}

/-- One more block: the breaks that it spares stay, and its own may come. -/
lemma leftBroken_concat {p : List (Block H B)} {b : Block H B} {s : Db H B} {e : Ending}
    (hs : linkAll provider db p = .ok s) (he : Ends s provider b e) (x : ℕ) :
    LeftBroken provider db (p ++ [b]) x ↔ (e.Spares x ∧ LeftBroken provider db p x) ∨ e = .cut x := by
  constructor
  · rintro ⟨p', c, s', hpre, hs', hcut, hno⟩
    rcases List.prefix_concat_iff.mp hpre with heq | hpre
    · obtain ⟨rfl, rfl⟩ := List.append_singleton_inj.mp heq
      obtain rfl : s' = s := by simpa [hs] using hs'.symm
      exact Or.inr (he.unique hcut)
    · refine Or.inl ⟨?_, p', c, s', hpre, hs', hcut, fun hrep => hno ?_⟩
      · by_contra hsp
        exact hno ⟨p, b, s, e, hpre, List.prefix_rfl, hs, he, hsp⟩
      · obtain ⟨q, c', s'', e', hq, hqp, hrest⟩ := hrep
        exact ⟨q, c', s'', e', hq, hqp.trans (List.prefix_append _ _), hrest⟩
  · rintro (⟨hsp, p', c, s', hpre, hs', hcut, hno⟩ | rfl)
    · refine ⟨p', c, s', hpre.trans (List.prefix_append _ _), hs', hcut, ?_⟩
      rintro ⟨q, c', s'', e', hq, hqp, hs'', he', hns⟩
      rcases List.prefix_concat_iff.mp hqp with heq | hqp
      · obtain ⟨rfl, rfl⟩ := List.append_singleton_inj.mp heq
        obtain rfl : s'' = s := by simpa [hs] using hs''.symm
        rw [he'.unique he] at hns
        exact hns hsp
      · exact hno ⟨q, c', s'', e', hq, hqp, hs'', he', hns⟩
    · refine ⟨p, b, s, List.prefix_rfl, hs, he, ?_⟩
      rintro ⟨q, c', s'', e', hq, hqp, -⟩
      have := hq.length_le
      have := hqp.length_le
      simp only [List.length_append, List.length_singleton] at *
      omega

/-- **The loop.**  After the blocks `p` of the batch the stored chain is broken exactly at the
heights of the cut walks that were not repaired. -/
theorem broken_linkAll (hp : Contract provider blocks) (hk : Keyed db) {T : ℕ}
    (htop : ∀ x c, db.get x = some c → x ≤ T) (hlinked : Linked db)
    (hheights : blocks.map (fun b => b.header.height) = List.range' (T + 1) blocks.length)
    {p : List (Block H B)} (hpre : p <+: blocks) {s : Db H B} (hs : linkAll provider db p = .ok s) :
    Keyed s ∧ (∀ x c, s.get x = some c → x ≤ T + p.length) ∧
      ∀ x, Broken s x ↔ LeftBroken provider db p x := by
  induction p using List.reverseRecOn generalizing s with
  | nil =>
    cases hs
    refine ⟨hk, htop, fun x => iff_of_false (linked_iff.mp hlinked x) ?_⟩
    rintro ⟨p, b, s, hpre, -⟩
    simp at hpre
  | append_singleton p b ih =>
    obtain ⟨s₀, hs₀, hone⟩ := linkAll_concat.mp hs
    obtain ⟨hk₀, htop₀, hbroken₀⟩ := ih ((List.prefix_append _ _).trans hpre) hs₀
    have hb : b ∈ blocks := hpre.subset (by simp)
    have hheight : b.header.height = T + 1 + p.length := by
      obtain ⟨q, rfl⟩ := hpre
      have := congrArg (fun l => l[p.length]?) hheights
      simpa using this
    obtain ⟨hk', htop', e, he, hbroken⟩ := broken_linkOne hp hk₀ hb (by omega)
      (fun x c hc => by have := htop₀ x c hc; omega) hone
    refine ⟨hk', fun x c hc => ?_, fun x => ?_⟩
    · have := htop' x c hc
      rw [List.length_append, List.length_singleton]
      omega
    · rw [hbroken, leftBroken_concat hs₀ he, hbroken₀]

/-- **The stored chain stays linked exactly when every walk that is cut behind a fetched ancestor is
made good by a later block of the batch.** -/
theorem persistOrLink_linked_iff (T forkDetectionHeight : ℕ) (hp : Contract provider blocks)
    (hk : Keyed db) (hrows : ∀ x, (∃ c, db.get x = some c) ↔ 1 ≤ x ∧ x ≤ T) (hlinked : Linked db)
    (hheights : blocks.map (fun b => b.header.height) = List.range' (T + 1) blocks.length)
    (hfork : ∀ b, blocks.getLast? = some b → forkDetectionHeight < b.header.height)
    {db' : Db H B} (h : persistOrLink db blocks forkDetectionHeight provider = .ok db') :
    Linked db' ↔ ∀ p b s x, p ++ [b] <+: blocks → linkAll provider db p = .ok s →
      Ends s provider b (.cut x) → RepairedLater provider db blocks p b x := by
  have hlink : linkAll provider db blocks = .ok db' := by
    unfold persistOrLink at h
    split at h
    · rename_i hnil
      rw [List.getLast?_eq_none_iff] at hnil
      subst hnil
      exact h
    · rename_i b hb
      rwa [if_neg (not_le.mpr (hfork b hb))] at h
  have htop : ∀ x c, db.get x = some c → x ≤ T := fun x c hc => ((hrows x).mp ⟨c, hc⟩).2
  have hbroken := (broken_linkAll hp hk htop hlinked hheights List.prefix_rfl hlink).2.2
  rw [linked_iff]
  constructor
  · intro hall p b s x hpre hs hcut
    by_contra hno
    exact hall x ((hbroken x).mpr ⟨p, b, s, hpre, hs, hcut, hno⟩)
  · intro hall x hx
    obtain ⟨p, b, s, hpre, hs, hcut, hno⟩ := (hbroken x).mp hx
    exact hno (hall p b s x hpre hs hcut)

end Batch

section Examples

/-- A block without a body. -/
def bare (height hash prevHash : ℕ) : Block ℕ Unit := ⟨⟨height, hash, prevHash⟩, ()⟩

/-- Two stored blocks. -/
def twoStored : Db ℕ Unit := storeBlocks Table.empty [bare 1 1 0, bare 2 2 1]

/-- A node that knows one block, of hash `32` at height `2` with the parent `prevHash`. -/
def oneBlockNode (prevHash : ℕ) : Provider ℕ Unit String := fun hash =>
  .ok (if hash = 32 then some (bare 2 32 prevHash) else none)

lemma get_twoStored (x : ℕ) :
    twoStored.get x = if x = 2 then some (bare 2 2 1) else if x = 1 then some (bare 1 1 0)
      else none := by
  unfold twoStored storeBlocks
  simp [bare, Table.get_insert]

lemma keyed_twoStored : Keyed twoStored := by
  intro x c hc
  rw [get_twoStored] at hc
  split at hc
  · cases hc
    simp_all [bare]
  · split at hc
    · cases hc
      simp_all [bare]
    · cases hc

lemma rows_twoStored (x : ℕ) : (∃ c, twoStored.get x = some c) ↔ 1 ≤ x ∧ x ≤ 2 := by
  rw [get_twoStored]
  split
  · simp_all
  · split
    · simp_all
    · simp
      omega

lemma linked_twoStored : Linked twoStored := by
  intro x c hc h2
  obtain rfl : x = 2 := by
    have := (rows_twoStored x).mp ⟨c, hc⟩
    omega
  rw [get_twoStored] at hc
  cases hc
  exact ⟨bare 1 1 0, by rw [get_twoStored]; rfl, rfl⟩

lemma mem_headers_twoStored {hash : ℕ} {hd : Header ℕ} :
    hd ∈ getHeaderByHash twoStored hash ↔
      (hd = (bare 1 1 0).header ∨ hd = (bare 2 2 1).header) ∧ hd.hash = hash := by
  rw [mem_getHeaderByHash]
  constructor
  · rintro ⟨x, c, hc, rfl, hhash⟩
    refine ⟨?_, hhash⟩
    rw [get_twoStored] at hc
    split at hc
    · cases hc
      exact Or.inr rfl
    · split at hc
      · cases hc
        exact Or.inl rfl
      · cases hc
  · rintro ⟨rfl | rfl, hhash⟩
    · exact ⟨1, bare 1 1 0, by rw [get_twoStored]; rfl, rfl, hhash⟩
    · exact ⟨2, bare 2 2 1, by rw [get_twoStored]; rfl, rfl, hhash⟩

lemma headers_twoStored_unknown (hash : ℕ) (h1 : hash ≠ 1) (h2 : hash ≠ 2) :
    getHeaderByHash twoStored hash = [] := by
  rw [List.eq_nil_iff_forall_not_mem]
  intro hd hmem
  rw [mem_headers_twoStored] at hmem
  rcases hmem with ⟨rfl | rfl, rfl⟩
  · exact h1 rfl
  · exact h2 rfl

lemma headers_twoStored_one : ∃ rest, getHeaderByHash twoStored 1 = (bare 1 1 0).header :: rest := by
  cases h : getHeaderByHash twoStored 1 with
  | nil =>
    have hmem := mem_headers_twoStored.mpr ⟨Or.inl rfl, rfl⟩
    rw [show (bare 1 1 0).header.hash = 1 from rfl, h] at hmem
    simp at hmem
  | cons hd rest =>
    have hmem : hd ∈ getHeaderByHash twoStored 1 := by simp [h]
    rcases mem_headers_twoStored.mp hmem with ⟨rfl | rfl, hhash⟩
    · exact ⟨rest, rfl⟩
    · cases hhash

lemma contract_oneBlockNode {prevHash : ℕ} (h : prevHash ≠ 32) :
    Contract (oneBlockNode prevHash) [bare 3 33 32] := by
  have hasked : ∀ b, Asked (oneBlockNode prevHash) [bare 3 33 32] b →
      b = bare 3 33 32 ∨ b = bare 2 32 prevHash := by
    intro b hb
    induction hb with
    | batch hb => exact Or.inl (by simpa using hb)
    | parent _ _ hpar ih =>
      unfold oneBlockNode at hpar
      split at hpar <;> simp_all
  intro b parent hb _ hpar
  rcases hasked b hb with rfl | rfl
  · unfold oneBlockNode at hpar
    simp only [bare] at hpar
    cases hpar
    exact ⟨rfl, rfl⟩
  · unfold oneBlockNode at hpar
    simp [bare, h] at hpar

/-- The node knows the parent `32` of the new block, but not the parent `31` of that one. -/
theorem persistOrLink_cut :
    Contract (oneBlockNode 31) [bare 3 33 32] ∧ Keyed twoStored ∧ Linked twoStored ∧
      (∀ x, (∃ c, twoStored.get x = some c) ↔ 1 ≤ x ∧ x ≤ 2) ∧
      (∀ x y a b, twoStored.get x = some a → twoStored.get y = some b →
        a.header.hash = b.header.hash → x = y) ∧
      ∃ db', persistOrLink twoStored [bare 3 33 32] 0 (oneBlockNode 31) = .ok db' ∧ ¬ Linked db' := by
  refine ⟨contract_oneBlockNode (by decide), keyed_twoStored, linked_twoStored, rows_twoStored, ?_,
    storeBlocks twoStored [bare 3 33 32], ?_, fun h => ?_⟩
  · intro x y a b ha hb hhash
    rw [get_twoStored] at ha hb
    split_ifs at ha hb <;> cases ha <;> cases hb <;> simp_all [bare]
  · have h32 := headers_twoStored_unknown 32 (by decide) (by decide)
    have h31 := headers_twoStored_unknown 31 (by decide) (by decide)
    simp [persistOrLink, linkAll, linkOne, chainLink, bare, oneBlockNode, h32, h31]
  obtain ⟨a, ha, hhash⟩ := h 3 (bare 3 33 32) (by decide) (by decide)
  have hrow : (storeBlocks twoStored [bare 3 33 32]).get 2 = some (bare 2 2 1) := by decide
  obtain rfl : bare 2 2 1 = a := Option.some.inj (hrow.symm.trans ha)
  exact absurd hhash (by decide)

/-- A fork of depth one whose first block is linked with the stored block `1`. -/
theorem persistOrLink_fork :
    ∃ db', persistOrLink twoStored [bare 3 33 32] 0 (oneBlockNode 1) = .ok db' ∧ Linked db' := by
  have h32 := headers_twoStored_unknown 32 (by decide) (by decide)
  obtain ⟨rest, h1⟩ := headers_twoStored_one
  have hok : persistOrLink twoStored [bare 3 33 32] 0 (oneBlockNode 1) =
      .ok (updateBlocks twoStored [bare 2 32 1, bare 3 33 32]) := by
    simp [persistOrLink, linkAll, linkOne, chainLink, bare, oneBlockNode, h32, h1]
  refine ⟨_, hok, ?_⟩
  refine (persistOrLink_linked_iff 2 0 (contract_oneBlockNode (by decide)) keyed_twoStored
    rows_twoStored linked_twoStored (by decide) (by simp [bare]) hok).mpr ?_
  intro p b s x hpre hs hcut
  -- the only walk joins the stored chain at height `1`
  obtain ⟨rfl, rfl⟩ : p = [] ∧ b = bare 3 33 32 := by
    cases p with
    | nil => simpa using hpre
    | cons c p => simpa using hpre.length_le
  cases hs
  have hjoined : Ends twoStored (oneBlockNode 1) (bare 3 33 32) (.joined 2) := by
    refine .fetched (by decide) h32 rfl ?_ (by simp)
    exact .stored (by decide) h1 rfl
  exact absurd (hcut.unique hjoined) (by simp)

end Examples

end Redbit.Chain
