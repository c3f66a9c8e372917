import Redbit.Entity.IndexQuery
import Redbit.Chain.Follow

/-!
# The store of blocks is a database of entities (`entity/chain.rs`)

The macro makes `BlockChain` of a block entity: its header is a one2one child with an index on the
hash, and the functions of the trait read and write the entities.  Whatever else the block has,
columns, dictionaries and children down to any depth, the store does for the syncer what it relies
on (`BlockEntity.lawful`), so all that is proved of the syncer over a list of blocks is proved over
the tables.  `delete` empties every table (`BlockEntity.delete_spec`).
-/

set_option linter.unusedSectionVars false

namespace Redbit.Entity

open Redbit.Lib Redbit.Storage

/-! ### One column, one relationship -/

/-- The child in a field of a one2one relationship. -/
def Multiplicity.theOne {C : Type} : (m : Multiplicity) → m = .oneToOne → m.Field C → C
  | .oneToOne, _, c => c

lemma Multiplicity.children_theOne {C : Type} :
    ∀ {m : Multiplicity} (h : m = .oneToOne) (f : m.Field C),
    m.children f = [m.theOne h f]
  | .oneToOne, _, _ => rfl

/-- The key of an index, in the table of a one2one child. -/
def Multiplicity.keyOf : (m : Multiplicity) → m = .oneToOne → ℕ → Key (m.depth 0)
  | .oneToOne, _, index => Key.root index

lemma Multiplicity.keyOf_le : ∀ {m : Multiplicity} (h : m = .oneToOne) {index : ℕ} {k : Key
    (m.depth 0)},
    m.keyOf h index ≤ k ↔ index ≤ k.index
  | .oneToOne, _, _, _ => Iff.rfl

/-- Keys of one2one children of the root are ordered by their indexes. -/
lemma Multiplicity.key_lt : ∀ {m : Multiplicity}, m = .oneToOne →
    ∀ {k k' : Key (m.depth 0)}, k < k' ↔ k.index < k'.index
  | .oneToOne, _, _, _ => Iff.rfl

/-- A one2one child has the index of its parent. -/
lemma IsChildKey.index_eq {d bits : ℕ} {p : Key d} :
    ∀ {m : Multiplicity} {k : Key (m.depth d)}, m = .oneToOne →
    IsChildKey bits p m k → k.index = p.index
  | .oneToOne, _, _, h => congrArg Key.index h

namespace PlainDef

variable {d : ℕ} {c : PlainDef d} {n : ℕ}

lemma births_of_index (h : c.indexing = .index n) (s : c.tables.State) : c.births s = ∅ := by
  obtain ⟨table, V, order, cacheKey, xxh3, asLeBytes, indexing, hs, lru, used⟩ := c
  obtain rfl : indexing = .index n := h
  rfl

lemma caches_of_index (h : c.indexing = .index n) (s : c.tables.State) (rows : List (Key d × c.V)) :
    c.Caches s rows := by
  obtain ⟨table, V, order, cacheKey, xxh3, asLeBytes, indexing, hs, lru, used⟩ := c
  obtain rfl : indexing = .index n := h
  trivial

lemma indexed_of_index (h : c.indexing = .index n) : c.Indexed := by
  unfold Indexed
  rw [h]
  trivial

end PlainDef

namespace EntityDef

variable {d : ℕ}

/-- The field of a relationship. -/
def fieldOf : {d : ℕ} → (E : EntityDef d) → E.Instance → (j : Fin E.relationships) →
    (E.multiplicityOf j).Field (E.childDef j).Instance
  | _, mk .., e, j => e.relationship j

section Accessors

variable {E : EntityDef d} {t : E.Tables} {es : List E.Instance}

lemma childrenOf_eq (e : E.Instance) (j : Fin E.relationships) :
    E.childrenOf e j = (E.multiplicityOf j).children (E.fieldOf e j) := by
  cases E
  rfl

lemma childTables_storeMany (t : E.Tables) (es : List E.Instance) (j : Fin E.relationships) :
    E.childTables (E.storeMany t es) j =
      (E.childDef j).storeMany (E.childTables t j) (es.flatMap fun e => E.childrenOf e j) := by
  cases E
  rfl

lemma childTables_empty (j : Fin E.relationships) :
    E.childTables E.empty j = (E.childDef j).empty := by
  cases E
  rfl

lemma columnTables_storeMany (t : E.Tables) (es : List E.Instance) (i : Fin E.columns) :
    E.columnTables (E.storeMany t es) i =
      (E.columnDef i).tables.insertRows (E.columnTables t i)
        (es.map fun e => (E.pk e, E.columnValue e i)) := by
  cases E
  rfl

lemma childTables_deleteMany (t : E.Tables) (pks : List (Key d)) (j : Fin E.relationships) :
    ∃ pks', E.childTables (E.deleteMany t pks).2 j =
      ((E.childDef j).deleteMany (E.childTables t j) pks').2 := by
  cases E
  exact ⟨_, rfl⟩

lemma columnTables_deleteMany (t : E.Tables) (pks : List (Key d)) (i : Fin E.columns) :
    E.columnTables (E.deleteMany t pks).2 i =
      ((E.columnDef i).deletes.deleteRows (E.columnTables t i) pks).2 := by
  cases E
  rfl

lemma WellKeyed.child {e : E.Instance} (h : E.WellKeyed e) {j : Fin E.relationships}
    {c : (E.childDef j).Instance} (hc : c ∈ E.childrenOf e j) :
    IsChildKey E.bits (E.pk e) (E.multiplicityOf j) ((E.childDef j).pk c) ∧
      (E.childDef j).WellKeyed c := by
  cases E with
  | mk bits n m order column multiplicity child => exact (h j).2 c hc

/-- The children of instances on top are on top. -/
lemma OnTop.child (htidy : E.Tidy t) (htop : E.OnTop t es) (hkeyed : ∀ e ∈ es, E.WellKeyed e)
    (j : Fin E.relationships) :
    (E.childDef j).OnTop (E.childTables t j) (es.flatMap fun e => E.childrenOf e j) := by
  cases E with
  | mk bits n m order column multiplicity child =>
    exact onTop_children htop.1 htop.2 (htidy.2 j).1 fun e he => hkeyed e he j

/-- The key lists of an index stay exact when instances are stored on top. -/
lemma exact_onTop (htidy : E.Tidy t) (htop : E.OnTop t es) {i : Fin E.columns} {n : ℕ}
    (hi : (E.columnDef i).indexing = .index n) (h : (E.columnDef i).Exact (E.columnTables t i)) :
    (E.columnDef i).Exact (E.columnTables (E.storeMany t es) i) := by
  rw [columnTables_storeMany]
  refine (E.columnDef i).indexes.insertRows (htidy.column i) h ?_ ?_ (PlainDef.caches_of_index hi _ _)
  · rw [List.map_map]
    exact htop.1
  · refine List.forall_mem_map.mpr fun e he => ⟨fun hk => lt_irrefl _ (htop.2 e he _ hk), ?_⟩
    rw [PlainDef.births_of_index hi]
    exact Finset.notMem_empty _

end Accessors

end EntityDef

end Redbit.Entity

namespace Redbit.Chain

open Redbit.Lib Redbit.Entity

/-! ### Block entities -/

/-- The entity under `#[entity]` whose name is `Block`: it has a header, and the header has a hash
with an index. -/
structure BlockEntity where
  E : EntityDef 0
  header : Fin E.relationships
  one2one : E.multiplicityOf header = .oneToOne
  hash : Fin (E.childDef header).columns
  shards : ℕ
  indexed : ((E.childDef header).columnDef hash).indexing = .index shards
  /-- `prev_hash` of the header, which has the type of the hash. -/
  prevHash : (E.childDef header).Instance → ((E.childDef header).columnDef hash).V

namespace BlockEntity

variable (B : BlockEntity)

/-- The type of a hash. -/
abbrev Hash : Type := ((B.E.childDef B.header).columnDef B.hash).V

instance : DecidableEq B.Hash := ((B.E.childDef B.header).columnDef B.hash).order.toDecidableEq

/-- The entity of the headers. -/
abbrev HeaderDef : EntityDef ((B.E.multiplicityOf B.header).depth 0) := B.E.childDef B.header

/-- The tables of the headers. -/
abbrev headers (t : B.E.Tables) : B.HeaderDef.Tables := B.E.childTables t B.header

/-- `header` of `BlockLike`. -/
def headerOf (e : B.E.Instance) : B.HeaderDef.Instance :=
  (B.E.multiplicityOf B.header).theOne B.one2one (B.E.fieldOf e B.header)

/-- `BlockHeaderLike`. -/
def toHeader (c : B.HeaderDef.Instance) : Header B.Hash :=
  ⟨(B.HeaderDef.pk c).index, B.HeaderDef.columnValue c B.hash, B.prevHash c⟩

/-- `BlockLike`. -/
def toBlock (e : B.E.Instance) : Block B.Hash B.E.Instance := ⟨B.toHeader (B.headerOf e), e⟩

-- the text of an error of the entities, and the `AppError::Internal` that a stream makes of one
variable (text : NotFound → String) (internal : NotFound → NotFound)

/-- `From<AppError> for ChainError`. -/
def fromAppError (e : NotFound) : ChainError := .app (text e)

/-- An item of a stream of headers. -/
def headerItem (item : Except NotFound B.HeaderDef.Instance) : Except String (Header B.Hash) :=
  (item.map B.toHeader).mapError text

/-- `validate_chain`. -/
def validateChain (t : B.E.Tables) (validationFromHeight : ℕ) :
    Except ChainError (List (Header B.Hash)) :=
  match B.HeaderDef.last (B.headers t) with
  | .error e => .error (fromAppError text e)
  | .ok none => .ok []
  | .ok (some tipHeader) =>
    let stream := B.HeaderDef.streamRange (B.headers t) internal
      ((B.E.multiplicityOf B.header).keyOf B.one2one validationFromHeight,
        B.HeaderDef.pk tipHeader) none
    match stream.map (B.headerItem text) with
    | [] => .ok []
    | .error e :: _ => .error (.custom ("Stream error: " ++ e))
    | .ok prev :: stream => validateLoop [] prev stream

/-- `impl BlockChainLike for BlockChain`. -/
def chain : BlockChainLike B.E.Tables B.Hash B.E.Instance ChainError where
  getBlock t height := ((B.E.get t (Key.root height)).map (Option.map B.toBlock)).mapError
    (fromAppError text)
  getLastHeader t := ((B.HeaderDef.last (B.headers t)).map (Option.map B.toHeader)).mapError
    (fromAppError text)
  getHeaderByHash t hash :=
    ((B.HeaderDef.getBy (B.headers t) B.hash hash).map (List.map B.toHeader)).mapError
      (fromAppError text)
  storeBlocks t blocks := B.E.storeMany t (blocks.map Block.body)
  updateBlocks t blocks :=
    B.E.storeMany (blocks.foldl (fun t b => (B.E.delete t (B.E.pk b.body)).2) t)
      (blocks.map Block.body)
  validateChain := B.validateChain text internal

/-- `delete` of `BlockChain`. -/
def delete (t : B.E.Tables) : Except NotFound B.E.Tables :=
  match B.HeaderDef.last (B.headers t) with
  | .error e => .error e
  | .ok none => .ok t
  | .ok (some tipHeader) =>
    .ok (B.E.deleteMany t ((List.range (B.toHeader tipHeader).height.succ).map Key.root)).2

/-! ### What the tables hold -/

variable {B}

/-- The block is the one of its body, whose children have their keys under it. -/
def Proper (B : BlockEntity) (b : Block B.Hash B.E.Instance) : Prop :=
  b = B.toBlock b.body ∧ B.E.WellKeyed b.body

/-- The instances of the blocks. -/
def instances (blocks : List (Block B.Hash B.E.Instance)) (k : Key 0) : Option B.E.Instance :=
  (blockAt blocks k.index).map Block.body

/-- The tables are those of the map `m`, and the hashes are listed as they are read. -/
structure Maps (B : BlockEntity) (t : B.E.Tables) (m : Key 0 → Option B.E.Instance) : Prop where
  mapped : B.E.Mapped t m
  below : B.E.Below t
  exact : (B.HeaderDef.columnDef B.hash).Exact (B.HeaderDef.columnTables (B.headers t) B.hash)

/-- The tables are those of the blocks. -/
structure Stores (B : BlockEntity) (t : B.E.Tables)
    (blocks : List (Block B.Hash B.E.Instance)) : Prop where
  heights : Heights blocks
  proper : ∀ b ∈ blocks, B.Proper b
  maps : B.Maps t (instances blocks)

section Maps

variable {t : B.E.Tables} {m : Key 0 → Option B.E.Instance}

lemma Maps.deleteMany (h : B.Maps t m) (pks : List (Key 0)) :
    B.Maps (B.E.deleteMany t pks).2 (B.E.mapOp m (.deleteMany pks)) where
  mapped := h.mapped.deleteMany pks
  below := h.below.deleteMany pks
  exact := by
    obtain ⟨pks', hpks'⟩ := EntityDef.childTables_deleteMany t pks B.header
    rw [headers, hpks', EntityDef.columnTables_deleteMany]
    exact (B.HeaderDef.columnDef B.hash).indexes.deleteRows h.exact pks'

/-- One delete after the other. -/
lemma Maps.deleteEach (h : B.Maps t m) (pks : List (Key 0)) :
    B.Maps (pks.foldl (fun t pk => (B.E.delete t pk).2) t) (B.E.mapOp m (.deleteMany pks)) := by
  induction pks using List.reverseRecOn with
  | nil =>
    have hm : B.E.mapOp m (.deleteMany []) = m := by
      funext k
      show (if k ∈ [] then none else m k) = m k
      exact if_neg List.not_mem_nil
    rwa [hm]
  | append_singleton pks pk ih =>
    have hm : B.E.mapOp m (.deleteMany (pks ++ [pk])) =
        B.E.mapOp (B.E.mapOp m (.deleteMany pks)) (.deleteMany [pk]) := by
      funext k
      show (if k ∈ pks ++ [pk] then none else m k) =
        if k ∈ [pk] then none else if k ∈ pks then none else m k
      by_cases hk : k ∈ pks
      · simp [hk]
      · simp [hk]
    rw [List.foldl_append, hm]
    show B.Maps (B.E.delete _ pk).2 _
    rw [EntityDef.delete_eq_deleteMany]
    exact ih.deleteMany [pk]

/-- One transaction of stores on top. -/
lemma Maps.storeMany (h : B.Maps t m) {es : List B.E.Instance} (htops : B.E.Tops t (.storeMany es)) :
    B.Maps (B.E.storeMany t es) (B.E.mapOp m (.storeMany es)) := by
  have htidy := h.mapped.tidy
  obtain ⟨hfits, hbelow⟩ := EntityDef.fits_of_tops htidy h.below htops
  refine ⟨h.mapped.storeMany hfits, hbelow, ?_⟩
  rw [headers, EntityDef.childTables_storeMany]
  exact EntityDef.exact_onTop (h.mapped.readable.child B.header).tidy
    (htops.1.child htidy htops.2 B.header) B.indexed h.exact

end Maps

section Stores

variable {t : B.E.Tables} {blocks old new : List (Block B.Hash B.E.Instance)}

lemma stores_empty (B : BlockEntity) : B.Stores B.E.empty [] where
  heights := rfl
  proper b hb := absurd hb List.not_mem_nil
  maps := by
    have hnone : (instances (B := B) []) = fun _ => none := by
      funext k
      unfold instances blockAt
      split <;> rfl
    have hchild : B.headers B.E.empty = B.HeaderDef.empty := EntityDef.childTables_empty B.header
    rw [hnone]
    refine ⟨B.E.mapped_empty, B.E.below_empty, ?_⟩
    rw [hchild]
    exact B.HeaderDef.exact_empty.column B.hash

lemma childrenOf_header (e : B.E.Instance) : B.E.childrenOf e B.header = [B.headerOf e] := by
  rw [EntityDef.childrenOf_eq, Multiplicity.children_theOne B.one2one]
  rfl

lemma headerOf_mem (e : B.E.Instance) : B.headerOf e ∈ B.E.childrenOf e B.header := by
  rw [childrenOf_header]
  exact List.mem_singleton_self _

/-- The height of a block is its key. -/
lemma Proper.pk_eq {b : Block B.Hash B.E.Instance} (h : B.Proper b) :
    B.E.pk b.body = Key.root b.header.height := by
  have hindex := (h.2.child (headerOf_mem b.body)).1.index_eq B.one2one
  rw [h.1]
  exact hindex.symm

lemma Proper.header_eq {b : Block B.Hash B.E.Instance} (h : B.Proper b) :
    B.toHeader (B.headerOf b.body) = b.header :=
  (congrArg Block.header h.1).symm

lemma instances_eq_some (hheights : Heights blocks) {k : Key 0} {e : B.E.Instance} :
    instances blocks k = some e ↔ ∃ b ∈ blocks, b.header.height = k.index ∧ b.body = e := by
  unfold instances
  rw [Option.map_eq_some_iff]
  constructor
  · rintro ⟨b, hb, rfl⟩
    obtain ⟨hheight, hmem⟩ := hheights.of_blockAt hb
    exact ⟨b, hmem, hheight, rfl⟩
  · rintro ⟨b, hb, hheight, rfl⟩
    exact ⟨b, hheight ▸ hheights.mem_iff.mp hb, rfl⟩

/-! ### Storing and deleting blocks -/

/-- The keys of blocks are their heights. -/
lemma map_pk (hproper : ∀ b ∈ new, B.Proper b) :
    (new.map Block.body).map B.E.pk = new.map fun b => Key.root b.header.height := by
  rw [List.map_map]
  exact List.map_congr_left fun b hb => (hproper b hb).pk_eq

/-- The instances with the new blocks on top. -/
lemma mapOp_storeMany (hheights : Heights (blocks ++ new)) (hproper : ∀ b ∈ new, B.Proper b) :
    B.E.mapOp (instances blocks) (.storeMany (new.map Block.body)) = instances (blocks ++ new) := by
  have hkeys : ((new.map Block.body).map fun e => (B.E.pk e, e)).map Prod.fst =
      (new.map fun b => Key.root b.header.height) := by
    rw [List.map_map, ← map_pk hproper]
    rfl
  funext k
  show putAll (instances blocks) ((new.map Block.body).map fun e => (B.E.pk e, e)) k = _
  by_cases hk : k ∈ new.map fun b => Key.root b.header.height
  · obtain ⟨b, hb, rfl⟩ := List.mem_map.mp hk
    have hrow : (Key.root b.header.height, b.body) ∈ (new.map Block.body).map fun e => (B.E.pk e, e) :=
      List.mem_map.mpr ⟨b.body, List.mem_map_of_mem hb, by rw [(hproper b hb).pk_eq]⟩
    rw [putAll_of_mem (hkeys ▸ hheights.append_right_sorted.imp ne_of_lt) hrow]
    exact ((instances_eq_some hheights).mpr ⟨b, List.mem_append_right _ hb, rfl, rfl⟩).symm
  · rw [putAll_of_notMem (hkeys ▸ hk)]
    refine Option.ext fun e => ?_
    rw [instances_eq_some hheights.append_left, instances_eq_some hheights]
    refine exists_congr fun b => and_congr_left fun hb => ?_
    rw [List.mem_append]
    exact (or_iff_left fun hnew => hk (List.mem_map.mpr ⟨b, hnew, hb.1⟩)).symm

lemma Stores.tops (h : B.Stores t blocks) (hheights : Heights (blocks ++ new))
    (hproper : ∀ b ∈ new, B.Proper b) : B.E.Tops t (.storeMany (new.map Block.body)) := by
  refine ⟨⟨?_, List.forall_mem_map.mpr fun b hb k hk => ?_⟩, List.forall_mem_map.mpr fun b hb =>
    (hproper b hb).2⟩
  · rw [map_pk hproper]
    exact hheights.append_right_sorted
  · obtain ⟨e, he⟩ := Option.ne_none_iff_exists'.mp (h.maps.mapped.mem_keys.mp hk)
    obtain ⟨c, hc, hck, -⟩ := (instances_eq_some h.heights).mp he
    rw [(hproper b hb).pk_eq]
    show k.index < b.header.height
    rw [← hck]
    have hall := hheights.sorted
    rw [List.map_append] at hall
    exact (List.pairwise_append.mp hall).2.2 _ (List.mem_map_of_mem hc) _ (List.mem_map_of_mem hb)

/-- The instances without the blocks whose keys are deleted. -/
lemma mapOp_deleteMany (hheights : Heights (blocks ++ old)) {pks : List (Key 0)}
    (hkept : ∀ b ∈ blocks, Key.root b.header.height ∉ pks)
    (hgone : ∀ b ∈ old, Key.root b.header.height ∈ pks) :
    B.E.mapOp (instances (blocks ++ old)) (.deleteMany pks) = instances blocks := by
  funext k
  show (if k ∈ pks then none else instances (blocks ++ old) k) = instances blocks k
  refine Option.ext fun e => ?_
  rw [instances_eq_some hheights.append_left]
  split
  · rename_i hk
    refine iff_of_false (by simp) ?_
    rintro ⟨b, hb, hbk, -⟩
    exact hkept b hb (show Key.root b.header.height ∈ pks from hbk.symm ▸ hk)
  · rename_i hk
    rw [instances_eq_some hheights]
    refine exists_congr fun b => and_congr_left fun hb => ?_
    rw [List.mem_append]
    refine or_iff_left fun hold => hk ?_
    have hmem := hgone b hold
    rwa [hb.1] at hmem

lemma Stores.storeMany (h : B.Stores t blocks) (hheights : Heights (blocks ++ new))
    (hproper : ∀ b ∈ new, B.Proper b) :
    B.Stores (B.E.storeMany t (new.map Block.body)) (blocks ++ new) where
  heights := hheights
  proper b hb := (List.mem_append.mp hb).elim (h.proper b) (hproper b)
  maps := mapOp_storeMany hheights hproper ▸ h.maps.storeMany (h.tops hheights hproper)

/-- The keys of deleted blocks. -/
lemma Stores.deleteMany (h : B.Stores t (blocks ++ old)) (pks : List (Key 0))
    (hkept : ∀ b ∈ blocks, Key.root b.header.height ∉ pks)
    (hgone : ∀ b ∈ old, Key.root b.header.height ∈ pks) : B.Stores (B.E.deleteMany t pks).2 blocks ∧
      B.Stores (pks.foldl (fun t pk => (B.E.delete t pk).2) t) blocks := by
  have hm := mapOp_deleteMany h.heights hkept hgone
  have hproper : ∀ b ∈ blocks, B.Proper b := fun b hb => h.proper b (List.mem_append_left _ hb)
  exact ⟨⟨h.heights.append_left, hproper, hm ▸ h.maps.deleteMany pks⟩,
    ⟨h.heights.append_left, hproper, hm ▸ h.maps.deleteEach pks⟩⟩

/-- The blocks that are replaced are above those that stay, and are not more than the new ones. -/
lemma Stores.updateBlocks (h : B.Stores t (blocks ++ old)) (hheights : Heights (blocks ++ new))
    (hle : old.length ≤ new.length) (hproper : ∀ b ∈ new, B.Proper b) :
    B.Stores (new.foldl (fun t b => (B.E.delete t (B.E.pk b.body)).2) t) blocks := by
  have hpks : ∀ {b}, b ∈ new → Key.root b.header.height ∈ (new.map Block.body).map B.E.pk := by
    intro b hb
    rw [map_pk hproper]
    exact List.mem_map_of_mem hb
  have hgone := (h.deleteMany ((new.map Block.body).map B.E.pk) (fun b hb hk => ?_) fun b hb => ?_).2
  · rwa [List.foldl_map, List.foldl_map] at hgone
  · rw [map_pk hproper] at hk
    obtain ⟨c, hc, hck⟩ := List.mem_map.mp hk
    have hall := hheights.sorted
    rw [List.map_append] at hall
    exact ((List.pairwise_append.mp hall).2.2 _ (List.mem_map_of_mem hb) _
      (List.mem_map_of_mem hc)).ne' hck
  · -- a new block has the height
    obtain ⟨hlt, hat⟩ := h.heights.right.mp hb
    have hle' := (blockAt_ne_none.mp (hat ▸ Option.some_ne_none b)).2
    obtain ⟨c, hc⟩ := Option.ne_none_iff_exists'.mp (blockAt_ne_none.mpr
      ⟨Nat.one_le_of_lt hlt, hle'.trans (by simpa using hle : _ ≤ (blocks ++ new).length)⟩)
    obtain ⟨hck, -⟩ := hheights.of_blockAt hc
    rw [← hck]
    refine hpks (hheights.right.mpr ⟨hck ▸ hlt, ?_⟩)
    rw [hck, hc]

/-! ### Reading blocks -/

/-- A block is read by its height. -/
lemma Stores.get (h : B.Stores t blocks) {b : Block B.Hash B.E.Instance} (hb : b ∈ blocks) :
    B.E.get t (B.E.pk b.body) = .ok (some b.body) := by
  rw [h.maps.mapped.get, (h.proper b hb).pk_eq]
  exact congrArg Except.ok ((instances_eq_some h.heights).mpr ⟨b, hb, rfl, rfl⟩)

/-- A stored header is that of a stored block. -/
lemma Stores.header_iff (h : B.Stores t blocks) {c : B.HeaderDef.Instance} :
    B.HeaderDef.get (B.headers t) (B.HeaderDef.pk c) = .ok (some c) ↔
      ∃ b ∈ blocks, B.headerOf b.body = c := by
  constructor
  · intro hc
    obtain ⟨e, he, hmem, -⟩ := h.maps.mapped.readable.parent hc
    rw [h.maps.mapped.get] at he
    obtain ⟨b, hb, -, rfl⟩ := (instances_eq_some h.heights).mp (Except.ok.inj he)
    rw [childrenOf_header, List.mem_singleton] at hmem
    exact ⟨b, hb, hmem.symm⟩
  · rintro ⟨b, hb, rfl⟩
    exact (EntityDef.childrenOf_compose (EntityDef.get_eq_some.mp (h.get hb)).2
      (headerOf_mem b.body)).1

/-- The stored headers are those of the blocks. -/
lemma Stores.composed (h : B.Stores t blocks) :
    B.HeaderDef.Composed (B.headers t) ((B.HeaderDef.keys (B.headers t)).sort (· ≤ ·))
      (blocks.map fun b => B.headerOf b.body) := by
  have hchild := h.maps.mapped.readable.child B.header
  have hstored : ∀ c ∈ blocks.map fun b => B.headerOf b.body, _ := fun c hc =>
    EntityDef.get_eq_some.mp (h.header_iff.mpr (List.mem_map.mp hc))
  refine ⟨(sort_eq_iff.mpr ⟨?_, fun k => ?_⟩).symm, fun c hc => (hstored c hc).2⟩
  · -- the headers have the keys of their blocks
    rw [List.map_map, List.pairwise_map]
    have hlt : blocks.Pairwise fun b b' => b.header.height < b'.header.height :=
      List.pairwise_map.mp h.heights.sorted
    refine hlt.imp_of_mem fun {b b'} hb hb' hlt => ?_
    refine IsChildKey.lt ?_ ((h.proper b hb).2.child (headerOf_mem b.body)).1
      ((h.proper b' hb').2.child (headerOf_mem b'.body)).1
    rw [(h.proper b hb).pk_eq, (h.proper b' hb').pk_eq]
    exact hlt
  · constructor
    · intro hk
      obtain ⟨c, hc, rfl⟩ := List.mem_map.mp hk
      exact (hstored c hc).1
    · intro hk
      obtain ⟨c, hc⟩ := hchild.read k hk
      obtain rfl := EntityDef.pk_compose hc
      exact List.mem_map_of_mem (List.mem_map.mpr
        (h.header_iff.mp (EntityDef.get_eq_some.mpr ⟨hk, hc⟩)))

lemma Stores.last (h : B.Stores t blocks) :
    B.HeaderDef.last (B.headers t) = .ok (blocks.getLast?.map fun b => B.headerOf b.body) := by
  rw [(EntityDef.readsList_of_composed h.composed).last, List.getLast?_map]

/-- The headers of a range are those of the blocks below the last one. -/
lemma Stores.streamRange (h : B.Stores t blocks) (internal : NotFound → NotFound)
    {tip : Block B.Hash B.E.Instance} (htip : blocks.getLast? = some tip) (fromHeight : ℕ) :
    (B.HeaderDef.streamRange (B.headers t) internal
      ((B.E.multiplicityOf B.header).keyOf B.one2one fromHeight,
        B.HeaderDef.pk (B.headerOf tip.body)) none) =
      (blocks.dropLast.filter fun b => fromHeight ≤ b.header.height).map fun b =>
        .ok (B.headerOf b.body) := by
  have hheight : ∀ b ∈ blocks, (B.HeaderDef.pk (B.headerOf b.body)).index = b.header.height :=
    fun b hb => congrArg Header.height (h.proper b hb).header_eq
  unfold EntityDef.streamRange
  rw [EntityDef.sort_filter, (h.composed.filter _).stream_items, List.filter_map,
    ← h.heights.filter_range htip, List.map_map]
  refine congrArg _ (List.filter_congr fun b hb => ?_)
  rw [Function.comp_apply, decide_eq_decide, Multiplicity.keyOf_le, Multiplicity.key_lt B.one2one,
    hheight b hb, hheight tip (List.mem_of_getLast? htip)]

lemma Stores.validateChain (h : B.Stores t blocks) (text : NotFound → String)
    (internal : NotFound → NotFound) (fromHeight : ℕ) : B.validateChain text internal t fromHeight =
      .ok (unlinked ((blocks.dropLast.filter fun b => fromHeight ≤ b.header.height).map
        Block.header)) := by
  unfold BlockEntity.validateChain
  rw [h.last]
  cases hlast : blocks.getLast? with
  | none =>
    obtain rfl := List.getLast?_eq_none_iff.mp hlast
    rfl
  | some tip =>
    have hitems : ((blocks.dropLast.filter fun b => fromHeight ≤ b.header.height).map fun b =>
        Except.ok (B.headerOf b.body)).map (B.headerItem text) =
          ((blocks.dropLast.filter fun b => fromHeight ≤ b.header.height).map Block.header).map
          .ok := by
      rw [List.map_map, List.map_map]
      refine List.map_congr_left fun b hb => ?_
      exact congrArg Except.ok (h.proper b
        (List.mem_of_mem_dropLast (List.mem_of_mem_filter hb))).header_eq
    simp only [Option.map_some]
    rw [h.streamRange internal hlast, hitems]
    generalize (blocks.dropLast.filter fun b => fromHeight ≤ b.header.height).map
      Block.header = headers
    cases headers with
    | nil => rfl
    | cons prev headers => exact validateLoop_eq [] prev headers

end Stores

/-- **The database is a store of blocks.**  The empty one holds none, and whatever else the block
entity has, the functions of `BlockChain` do for the syncer what it relies on. -/
theorem lawful (B : BlockEntity) (text : NotFound → String) (internal : NotFound → NotFound) :
    B.Stores B.E.empty [] ∧ (B.chain text internal).Lawful B.Proper B.Stores := by
  refine ⟨stores_empty B, ?_⟩
  refine { heights := fun h => h.heights, getBlock := ?_, getLastHeader := ?_,
           getHeaderByHash := ?_, storeBlocks := ?_, updateBlocks := ?_, validateChain := fun h => h.validateChain text internal }
  · intro t blocks h height
    have hget : (blockAt blocks height).map (B.toBlock ∘ Block.body) = blockAt blocks height := by
      cases hb : blockAt blocks height with
      | none => rfl
      | some b => exact congrArg some (h.proper b (h.heights.of_blockAt hb).2).1.symm
    show ((B.E.get t (Key.root height)).map _).mapError _ = _
    rw [h.maps.mapped.get, ← hget, ← Option.map_map]
    rfl
  · intro t blocks h
    have hlast : blocks.getLast?.map (fun b => B.toHeader (B.headerOf b.body)) =
        blocks.getLast?.map Block.header := by
      cases hb : blocks.getLast? with
      | none => rfl
      | some b => exact congrArg some (h.proper b (List.mem_of_getLast? hb)).header_eq
    show ((B.HeaderDef.last (B.headers t)).map _).mapError _ = _
    rw [h.last, ← hlast, ← Function.comp_def B.toHeader, ← Option.map_map]
    rfl
  · intro t blocks h hash
    obtain ⟨es, hes⟩ := (h.maps.mapped.readable.child B.header).readsBy
      (PlainDef.indexed_of_index B.indexed) h.maps.exact hash
    refine ⟨es.map B.toHeader, ?_, fun header => ?_⟩
    · show ((B.HeaderDef.getBy (B.headers t) B.hash hash).map _).mapError _ = _
      rw [hes.getBy]
      rfl
    · rw [List.mem_map]
      constructor
      · rintro ⟨c, hc, rfl⟩
        obtain ⟨hget, hval⟩ := (hes.finds.mem c).mp hc
        obtain ⟨b, hb, rfl⟩ := h.header_iff.mp hget
        exact ⟨b, hb, (h.proper b hb).header_eq.symm, hval⟩
      · rintro ⟨b, hb, rfl, hhash⟩
        refine ⟨B.headerOf b.body, (hes.finds.mem _).mpr ⟨h.header_iff.mpr ⟨b, hb, rfl⟩, ?_⟩,
          (h.proper b hb).header_eq⟩
        rw [← (h.proper b hb).header_eq] at hhash
        exact hhash
  · exact fun h hheights hproper => h.storeMany hheights hproper
  · exact fun h hheights hle hproper =>
      (h.updateBlocks hheights hle hproper).storeMany hheights hproper

/-- No key is stored, and the tables of all columns are empty, in every shard. -/
def NoRows {d : ℕ} (E : EntityDef d) (t : E.Tables) : Prop :=
  E.keys t = ∅ ∧ ∀ i, (E.columnDef i).Blank (E.columnTables t i)

/-- Without keys at the top there are no rows at any level. -/
lemma noRows_of_keys {d : ℕ} {E : EntityDef d} {t : E.Tables} (htidy : E.Tidy t)
    (hkeys : E.keys t = ∅) : E.AllLevels (fun _ E t => NoRows E t) t := by
  induction E with
  | mk bits n m order column multiplicity child ih =>
    replace hkeys : t.keys = ∅ := hkeys
    obtain ⟨hcolumns, hchildren⟩ := htidy
    rw [hkeys] at hcolumns hchildren
    refine ⟨⟨hkeys, fun i => PlainDef.blank_of_tidy (hcolumns i)⟩, fun j => ih j (hchildren j).2 ?_⟩
    refine Finset.eq_empty_of_forall_notMem fun k hk => ?_
    obtain ⟨p, hp, -⟩ := (hchildren j).1 k hk
    exact absurd hp (Finset.notMem_empty p)

/-- **Deleting the chain.**  `delete` reads the height of the last header, and by it takes every
block with all that is under it: at no level is a row left, and the tables are a store of blocks
again, without any. -/
theorem delete_spec (B : BlockEntity) {t : B.E.Tables} {blocks : List (Block B.Hash B.E.Instance)}
    (h : B.Stores t blocks) :
    ∃ t', B.delete t = .ok t' ∧ B.Stores t' [] ∧ B.E.AllLevels (fun _ E t => NoRows E t) t' := by
  have hnone : ∀ {t'}, B.Stores t' [] → B.E.AllLevels (fun _ E t => NoRows E t) t' := fun {t'} h' => by
    refine noRows_of_keys h'.maps.mapped.tidy (Finset.eq_empty_of_forall_notMem fun k hk => ?_)
    obtain ⟨e, he⟩ := Option.ne_none_iff_exists'.mp (h'.maps.mapped.mem_keys.mp hk)
    obtain ⟨b, hb, -⟩ := (instances_eq_some h'.heights).mp he
    exact absurd hb List.not_mem_nil
  unfold delete
  rw [h.last]
  cases hlast : blocks.getLast? with
  | none =>
    obtain rfl := List.getLast?_eq_none_iff.mp hlast
    exact ⟨t, rfl, h, hnone h⟩
  | some tip =>
    have hall : B.Stores t ([] ++ blocks) := h
    have hgone := (hall.deleteMany ((List.range (B.toHeader (B.headerOf tip.body)).height.succ).map
      Key.root) (fun b hb => absurd hb List.not_mem_nil) fun b hb => ?_).1
    · exact ⟨_, rfl, hgone, hnone hgone⟩
    · -- no block is above the last one
      rw [(h.proper tip (List.mem_of_getLast? hlast)).header_eq]
      refine List.mem_map_of_mem (List.mem_range.mpr (Nat.lt_succ_of_le ?_))
      have hlen := (blockAt_ne_none.mp (h.heights.mem_iff.mp hb ▸ Option.some_ne_none b)).2
      rw [List.getLast?_eq_getElem?] at hlast
      have htip := heights_iff.mp h.heights _ tip hlast
      omega

end BlockEntity

/-! ### A chain of bare headers -/

lemma shards_hash : (IndexingType.index 2).shards ≠ 0 := two_ne_zero

lemma shards_prevHash : (IndexingType.off 1).shards ≠ 0 := one_ne_zero

/-- The hash of a header, with an index on two shards. -/
def hashColumn : PlainDef 0 where
  table := "header_hash_by_height"
  V := ℕ
  order := inferInstance
  cacheKey := inferInstance
  xxh3 := id
  asLeBytes _ := []
  indexing := .index 2
  shards_ne_zero := shards_hash
  lruCapacity := 1
  used := false

/-- The hash that it follows, without one. -/
def prevHashColumn : PlainDef 0 where
  table := "header_prev_hash_by_height"
  V := ℕ
  order := inferInstance
  cacheKey := inferInstance
  xxh3 := id
  asLeBytes _ := []
  indexing := .off 1
  shards_ne_zero := shards_prevHash
  lruCapacity := 0
  used := false

/-- Headers with both. -/
def linkedHeaderDef : EntityDef 0 :=
  .mk 32 2 0 (.columnsFirst 2 0) ![hashColumn, prevHashColumn] Fin.elim0 fun j => j.elim0

/-- Blocks with a header and nothing else. -/
def bareBlockDef : EntityDef 0 := .mk 32 0 1 (.columnsFirst 0 1) Fin.elim0 (fun _ => .oneToOne)
    fun _ => linkedHeaderDef

/-- The relationship of the blocks. -/
def bareHeader : Fin bareBlockDef.relationships := (⟨0, Nat.one_pos⟩ : Fin 1)

/-- The columns of the headers. -/
def headerHash : Fin (bareBlockDef.childDef bareHeader).columns := (0 : Fin 2)

/-- The second one. -/
def headerPrevHash : Fin (bareBlockDef.childDef bareHeader).columns := (1 : Fin 2)

lemma one2one_bareHeader : bareBlockDef.multiplicityOf bareHeader = .oneToOne := rfl

lemma indexed_headerHash : ((bareBlockDef.childDef bareHeader).columnDef headerHash).indexing =
    .index 2 := rfl

/-- Both hashes have the same type. -/
def bareBlocks : BlockEntity where
  E := bareBlockDef
  header := bareHeader
  one2one := one2one_bareHeader
  hash := headerHash
  shards := 2
  indexed := indexed_headerHash
  prevHash c := (bareBlockDef.childDef bareHeader).columnValue c headerPrevHash

/-- A block at a height. -/
def bareBlock (height hash prevHash : ℕ) : Block bareBlocks.Hash bareBlocks.E.Instance :=
  bareBlocks.toBlock ⟨Key.root height, fun i => i.elim0,
    fun _ => (⟨Key.root height, Fin.cons hash (Fin.cons prevHash fun i => i.elim0), fun j => j.elim0⟩ :
      linkedHeaderDef.Instance)⟩

lemma proper_bareBlock (height hash prevHash : ℕ) :
    bareBlocks.Proper (bareBlock height hash prevHash) := by
  refine ⟨rfl, fun j => ⟨List.pairwise_singleton _ _, fun c hc => ?_⟩⟩
  obtain rfl := List.mem_singleton.mp hc
  exact ⟨rfl, fun j => j.elim0⟩

/-- Two blocks. -/
def twoBlocks : List (Block bareBlocks.Hash bareBlocks.E.Instance) :=
  [bareBlock 1 7 0, bareBlock 2 8 7]

lemma stores_twoBlocks :
    bareBlocks.Stores (bareBlocks.E.storeMany bareBlocks.E.empty (twoBlocks.map Block.body))
      twoBlocks :=
  (BlockEntity.stores_empty bareBlocks).storeMany rfl fun b hb => by
    rcases List.mem_pair.mp hb with rfl | rfl <;> exact proper_bareBlock _ _ _

/-- Both blocks go. -/
theorem delete_spec_twoBlocks :
    ∃ t', bareBlocks.delete (bareBlocks.E.storeMany bareBlocks.E.empty (twoBlocks.map Block.body)) =
      .ok t' ∧
      bareBlocks.Stores t' [] ∧ bareBlocks.E.AllLevels (fun _ E t => BlockEntity.NoRows E t) t' :=
  bareBlocks.delete_spec stores_twoBlocks

end Redbit.Chain
