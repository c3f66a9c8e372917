import Redbit.Lib.Codec
import Redbit.Entity.EntityStore

/-!
# Pointers and their keys (`pk/root_impls.rs`, `pk/pointer_impls.rs`, `impl_binary_codec!`)

A root pointer is one index; a child pointer is the pointer of its parent with an index behind it.
The type of each index is one of the unsigned integers, chosen level by level.  A pointer is stored
as the bytes of its parent followed by the little-endian bytes of its index, and the key order of
the tables is the derived order of the decoded pointers, not the order of the bytes.

* `Pointer.fromLeBytes_asLeBytes`, `Pointer.asLeBytes_of_fromLeBytes` — the two directions of the
codec;
* `Pointer.cmp_eq_compare` — the derived order is the order of the `Key` of the pointer;
* `binary_codec` — lengths, round trips, key order, distinct keys and contiguous children.
-/

namespace Redbit.Entity

open Redbit.Lib

/-! ### Indices -/

/-- The type of an index. -/
inductive IndexType
  | u8
  | u16
  | u32
  | u64
  deriving DecidableEq, Repr

namespace IndexType

/-- `std::mem::size_of`, in bytes. -/
def sizeOf : IndexType → ℕ
  | u8 => 1
  | u16 => 2
  | u32 => 4
  | u64 => 8

/-- The integers of the type. -/
abbrev Value (t : IndexType) : Type := Fin (256 ^ t.sizeOf)

/-- `to_le_bytes`. -/
def toLeBytes {t : IndexType} (v : t.Value) : List UInt8 := leBytes t.sizeOf v

/-- `from_le_bytes`; a slice of another length does not convert to the array it takes. -/
def fromLeBytes (t : IndexType) (bytes : List UInt8) : Option t.Value :=
  if h : bytes.length = t.sizeOf then some ⟨ofLeBytes bytes, h ▸ ofLeBytes_lt bytes⟩ else none

@[simp] lemma length_toLeBytes {t : IndexType} (v : t.Value) : (toLeBytes v).length = t.sizeOf :=
  length_leBytes t.sizeOf v

lemma fromLeBytes_toLeBytes {t : IndexType} (v : t.Value) : fromLeBytes t (toLeBytes v) = some v := by
  rw [fromLeBytes, dif_pos (length_toLeBytes v)]
  exact congrArg some (Fin.ext (ofLeBytes_leBytes v.isLt))

lemma toLeBytes_of_fromLeBytes {t : IndexType} {bytes : List UInt8} (h : bytes.length = t.sizeOf) :
    ∃ v, fromLeBytes t bytes = some v ∧ toLeBytes v = bytes := by
  refine ⟨⟨ofLeBytes bytes, h ▸ ofLeBytes_lt bytes⟩, dif_pos h, ?_⟩
  show leBytes t.sizeOf (ofLeBytes bytes) = bytes
  rw [← h, leBytes_ofLeBytes]

end IndexType

/-! ### Pointers -/

/-- The type of a pointer: the index types from the root down. -/
inductive PointerType
  | root (index : IndexType)
  | child (parent : PointerType) (index : IndexType)
  deriving DecidableEq, Repr

namespace PointerType

/-- `BinaryCodec::size`. -/
def size : PointerType → ℕ
  | root t => t.sizeOf
  | child P t => P.size + t.sizeOf

/-- `depth`. -/
def depth : PointerType → ℕ
  | root _ => 0
  | child P _ => P.depth + 1

end PointerType

/-- A pointer of type `T`. -/
inductive Pointer : PointerType → Type
  | root {t : IndexType} (index : t.Value) : Pointer (.root t)
  | child {P : PointerType} {t : IndexType} (parent : Pointer P) (index : t.Value) :
      Pointer (.child P t)
  deriving DecidableEq

namespace Pointer

variable {T : PointerType}

/-- `BinaryCodec::as_le_bytes`. -/
def asLeBytes : {T : PointerType} → Pointer T → List UInt8
  | _, root index => IndexType.toLeBytes index
  | _, child parent index => parent.asLeBytes ++ IndexType.toLeBytes index

/-- `BinaryCodec::from_le_bytes`; `none` is the panic on an invalid byte length. -/
def fromLeBytes : (T : PointerType) → List UInt8 → Option (Pointer T)
  | .root t, bytes => (t.fromLeBytes bytes).map root
  | .child P t, bytes =>
    if bytes.length = P.size + t.sizeOf then do
      let parent ← fromLeBytes P (bytes.take P.size)
      let index ← t.fromLeBytes (bytes.drop P.size)
      some (child parent index)
    else none

/-- The derived `Ord::cmp`: the fields in the order of their declaration, the parent before the
index. -/
def cmp : {T : PointerType} → Pointer T → Pointer T → Ordering
  | _, root i, root j => compare i.val j.val
  | _, child p i, child q j => (cmp p q).then (compare i.val j.val)

/-- `redb::Key::compare`: both slices are decoded. -/
def keyCompare (T : PointerType) (data1 data2 : List UInt8) : Option Ordering := do
  let a ← fromLeBytes T data1
  let b ← fromLeBytes T data2
  some (a.cmp b)

/-- The key that the tables of the entity are ordered by. -/
def toKey : {T : PointerType} → Pointer T → Key T.depth
  | _, root index => Key.root index.val
  | _, child parent index => Key.fromParent parent.toKey index.val

/-! ### The codec -/

@[simp] lemma length_asLeBytes (p : Pointer T) : p.asLeBytes.length = T.size := by
  induction p with
  | root index => exact IndexType.length_toLeBytes index
  | child parent index ih =>
    rw [asLeBytes, List.length_append, ih, IndexType.length_toLeBytes]
    rfl

lemma fromLeBytes_asLeBytes (p : Pointer T) : fromLeBytes T p.asLeBytes = some p := by
  induction p with
  | root index => rw [asLeBytes, fromLeBytes, IndexType.fromLeBytes_toLeBytes, Option.map_some]
  | @child P t parent index ih =>
    have htake : (asLeBytes (child parent index)).take P.size = parent.asLeBytes :=
      List.take_left' (length_asLeBytes parent)
    have hdrop : (asLeBytes (child parent index)).drop P.size = IndexType.toLeBytes index :=
      List.drop_left' (length_asLeBytes parent)
    have hlen : (asLeBytes (child parent index)).length = P.size + t.sizeOf :=
      length_asLeBytes (child parent index)
    rw [fromLeBytes, if_pos hlen, htake, hdrop, ih, IndexType.fromLeBytes_toLeBytes]
    rfl

/-- Every byte string of the right length is the encoding of the pointer it decodes to. -/
lemma asLeBytes_of_fromLeBytes : ∀ {T : PointerType} {bytes : List UInt8}, bytes.length = T.size →
    ∃ p, fromLeBytes T bytes = some p ∧ p.asLeBytes = bytes
  | .root t, bytes, h => by
    obtain ⟨v, hv, hb⟩ := IndexType.toLeBytes_of_fromLeBytes (t := t) h
    exact ⟨root v, by rw [fromLeBytes, hv, Option.map_some], hb⟩
  | .child P t, bytes, h => by
    have hlen : bytes.length = P.size + t.sizeOf := h
    have htake : (bytes.take P.size).length = P.size := List.length_take_of_le (by omega)
    have hdrop : (bytes.drop P.size).length = t.sizeOf := by
      rw [List.length_drop]
      omega
    obtain ⟨parent, hparent, hpb⟩ := asLeBytes_of_fromLeBytes htake
    obtain ⟨index, hindex, hib⟩ := IndexType.toLeBytes_of_fromLeBytes hdrop
    refine ⟨child parent index, ?_, ?_⟩
    · rw [fromLeBytes, if_pos hlen, hparent, hindex]
      rfl
    · rw [asLeBytes, hpb, hib, List.take_append_drop]

lemma asLeBytes_injective : Function.Injective (asLeBytes (T := T)) := by
  intro p q h
  have hp := fromLeBytes_asLeBytes p
  rw [h, fromLeBytes_asLeBytes q] at hp
  exact (Option.some.inj hp).symm

/-! ### The key order -/

lemma toKey_injective : ∀ {T : PointerType}, Function.Injective (toKey (T := T))
  | _, root i, root j, h => congrArg root (Fin.ext h)
  | _, child p i, child q j, h => by
    obtain ⟨hparent, hindex⟩ := Key.fromParent_inj.mp h
    rw [toKey_injective hparent, Fin.ext hindex]

lemma cmp_eq_compare : ∀ {T : PointerType} (p q : Pointer T), p.cmp q = compare p.toKey q.toKey
  | _, root _, root _ => rfl
  | _, child p i, child q j => by
    rw [cmp, cmp_eq_compare p q]
    rfl

lemma keyCompare_asLeBytes (p q : Pointer T) :
    keyCompare T p.asLeBytes q.asLeBytes = some (compare p.toKey q.toKey) := by
  rw [keyCompare, fromLeBytes_asLeBytes, fromLeBytes_asLeBytes, ← cmp_eq_compare]
  rfl

lemma keyCompare_ne_gt {p q : Pointer T} :
    keyCompare T p.asLeBytes q.asLeBytes ≠ some .gt ↔ p.toKey ≤ q.toKey := by
  rw [keyCompare_asLeBytes, ne_eq, Option.some.injEq, compare_gt_iff_gt, not_lt]

/-- A key between two children of one parent is a child of that parent. -/
lemma child_of_between {t : IndexType} {parent : Pointer T} {i j : t.Value} {r : Pointer (.child T t)}
    (hl : (child parent i).toKey ≤ r.toKey) (hr : r.toKey ≤ (child parent j).toKey) :
    ∃ k, r = child parent k := by
  obtain _ | ⟨q, k⟩ := r
  have hle : parent.toKey ≤ q.toKey := Key.parent_le_of_fromParent_le hl
  have hge : q.toKey ≤ parent.toKey := Key.parent_le_of_fromParent_le hr
  exact ⟨k, by rw [toKey_injective (le_antisymm hle hge)]⟩

end Pointer

/-- The binary codec of pointers of any type: an encoding has the length of the type, decoding and
encoding are inverse to each other, encodings compare as the pointers do by parent and then by index
at every level, different pointers have different keys, and the children of one parent stand
together in the key order. -/
theorem binary_codec (T : PointerType) :
    (∀ p : Pointer T, p.asLeBytes.length = T.size ∧ Pointer.fromLeBytes T p.asLeBytes = some p) ∧
    (∀ bytes : List UInt8, bytes.length = T.size →
      ∃ p, Pointer.fromLeBytes T bytes = some p ∧ p.asLeBytes = bytes) ∧
    (∀ p q : Pointer T, Pointer.keyCompare T p.asLeBytes q.asLeBytes =
      some (compare p.toKey q.toKey)) ∧
    (∀ p q : Pointer T, p ≠ q →
      p.asLeBytes ≠ q.asLeBytes ∧ Pointer.keyCompare T p.asLeBytes q.asLeBytes ≠ some .eq) ∧
    (∀ (t : IndexType) (parent : Pointer T) (i j : t.Value) (r : Pointer (.child T t)),
      Pointer.keyCompare (.child T t) (Pointer.child parent i).asLeBytes r.asLeBytes ≠ some .gt →
      Pointer.keyCompare (.child T t) r.asLeBytes (Pointer.child parent j).asLeBytes ≠ some .gt →
      ∃ k, r = .child parent k) := by
  refine ⟨?_, ?_, Pointer.keyCompare_asLeBytes, ?_, ?_⟩
  · intro p
    exact ⟨p.length_asLeBytes, p.fromLeBytes_asLeBytes⟩
  · intro bytes h
    exact Pointer.asLeBytes_of_fromLeBytes h
  · intro p q hne
    refine ⟨Pointer.asLeBytes_injective.ne hne, ?_⟩
    rw [Pointer.keyCompare_asLeBytes, ne_eq, Option.some.injEq, compare_eq_iff_eq]
    exact Pointer.toKey_injective.ne hne
  · intro t parent i j r hl hr
    exact Pointer.child_of_between (Pointer.keyCompare_ne_gt.mp hl) (Pointer.keyCompare_ne_gt.mp hr)

-- 256 comes after 1 in the key order, before it in the order of the bytes
example : (Pointer.root (t := .u16) ⟨256, by decide⟩).asLeBytes = [0, 1] ∧
    Pointer.keyCompare (.root .u16) [0, 1] [1, 0] = some .gt := by
  decide

end Redbit.Entity
