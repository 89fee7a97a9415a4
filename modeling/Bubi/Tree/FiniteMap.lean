import Bubi.Tree.Insertion

/-!
# A tree is a finite map

Runs of `add_item` and `update_given_item` from a new tree, which is fully loaded and
never reads its store. Every run that adds only new indexes and updates only present
ones computes the map from indexes to the items last written, and every lookup reads
this map.
-/

namespace Bubi

open Bubi.Core

/-- A call that changes a tree. -/
inductive Change where
  | addItem (item : RadixMerkleTreeLeaf) (isTransaction : Bool)
  | updateGivenItem (item : RadixMerkleTreeLeaf) (isTransaction : Bool)
  deriving DecidableEq

namespace Change

/-- The written item. -/
def item : Change → RadixMerkleTreeLeaf
  | addItem item _ => item
  | updateGivenItem item _ => item

/-- Whether the change writes a transaction leaf. -/
def isTransaction : Change → Bool
  | addItem _ isTransaction => isTransaction
  | updateGivenItem _ isTransaction => isTransaction

/-- The written index. -/
def index (o : Change) : Uint256 := o.item.index

end Change

/-- The items of a tree by their indexes. -/
abbrev Contents := Uint256 → Option RadixMerkleTreeLeaf

namespace Contents

/-- No item. -/
def none : Contents := fun _ => Option.none

/-- The items after a change. -/
def write (m : Contents) (o : Change) : Contents := Function.update m o.index (some o.item)

@[simp] theorem write_self (m : Contents) (o : Change) : m.write o o.index = some o.item :=
  Function.update_self ..

theorem write_of_ne (m : Contents) {o : Change} {k : Uint256} (hk : k ≠ o.index) :
    m.write o k = m k :=
  Function.update_of_ne hk ..

/-- A change may add a new index and update a present one. -/
def Permits (m : Contents) : Change → Prop
  | .addItem item _ => m item.index = Option.none
  | .updateGivenItem item _ => m item.index ≠ Option.none

instance (m : Contents) (o : Change) : Decidable (m.Permits o) :=
  match o with
  | .addItem item _ => inferInstanceAs (Decidable (m item.index = Option.none))
  | .updateGivenItem item _ => inferInstanceAs (Decidable (m item.index ≠ Option.none))

/-- Every change of a run is permitted where it is made. -/
def PermitsAll : Contents → List Change → Prop
  | _, [] => True
  | m, o :: os => m.Permits o ∧ PermitsAll (m.write o) os

instance decidablePermitsAll : (m : Contents) → (os : List Change) → Decidable (m.PermitsAll os)
  | _, [] => isTrue trivial
  | m, o :: os =>
    have := decidablePermitsAll (m.write o) os
    inferInstanceAs (Decidable (m.Permits o ∧ PermitsAll (m.write o) os))

/-- The items last written by a run on an empty tree. -/
def written (os : List Change) : Contents := os.foldl write none

end Contents

namespace RadixMerkleTree

/-- One change of a tree over its store. -/
def change (sha : Bytes → Uint256) (s : Database × RadixMerkleTreeNode) :
    Change → Except Fault (Database × RadixMerkleTreeNode)
  | .addItem item isTransaction => addItem sha s.1 s.2 item isTransaction
  | .updateGivenItem item isTransaction => updateGivenItem sha s.1 s.2 item isTransaction

/-- A run of changes. -/
def run (sha : Bytes → Uint256) (s : Database × RadixMerkleTreeNode) (os : List Change) :
    Except Fault (Database × RadixMerkleTreeNode) :=
  os.foldlM (change sha) s

/-- `get_hash` after a run on a new tree. -/
def hashAfter (sha : Bytes → Uint256) (db : Database) (isTransactionTree : Bool)
    (os : List Change) : Except Fault Uint256 := do
  let s ← run sha (db, new sha isTransactionTree) os
  getHash s.2

end RadixMerkleTree

namespace MerkleTrie

variable (sha : Bytes → Uint256)

/-- One change of a trie. -/
def change (t : MerkleTrie) : Change → Except Fault MerkleTrie
  | .addItem item isTransaction => add sha item isTransaction 0 t
  | .updateGivenItem item isTransaction => update sha item isTransaction 0 t >>= fun r => .ok r.1

/-- A run of changes. -/
def run (t : MerkleTrie) (os : List Change) : Except Fault MerkleTrie := os.foldlM (change sha) t

/-- One change without the assertions. -/
def changed (t : MerkleTrie) : Change → MerkleTrie
  | .addItem item isTransaction => inserted item isTransaction 0 t
  | .updateGivenItem item isTransaction => replaced sha item isTransaction 0 t

/-- The strings that a change digests. -/
def changeStrings (t : MerkleTrie) : Change → List Bytes
  | .addItem item isTransaction => addStrings sha item isTransaction 0 t
  | .updateGivenItem item isTransaction => updateStrings sha item isTransaction 0 t

/-- The strings that a run digests, with those of its last trie. -/
def runStrings : MerkleTrie → List Change → List Bytes
  | t, [] => strings sha t
  | t, o :: os => changeStrings sha t o ++ runStrings (changed sha t o) os

/-- The items that a trie holds. -/
def contents (t : MerkleTrie) : Contents := fun hash =>
  (t.find radix LeafNode.key hash 0).map LeafNode.item

/-- What every change keeps: a sound trie with an inner root and cached leaf hashes. -/
structure Valid (t : MerkleTrie) : Prop where
  rooted : ∃ a c, t = .inner a c
  sound : Sound [] t
  cached : Cached sha t

variable {sha}

section Embedded

/-- A step from a fully loaded tree stays fully loaded and leaves the store. -/
theorem Moves.of_embed {db db' : Database} {n' : RadixMerkleTreeNode} {t t' : MerkleTrie}
    (h : Moves sha db (embed sha t) t db' n' t') : db' = db ∧ n' = embed sha t' := by
  have hpend : pending sha n' t' = [] := by
    have hsub := h.sub
    rw [pending_embed] at hsub
    exact List.subset_nil.mp hsub
  refine ⟨funext fun k => h.kept k fun x hx => ?_, h.resolves.eq_embed hpend⟩
  rw [pending_embed] at hx
  cases hx

theorem new_eq (isTransactionTree : Bool) :
    RadixMerkleTree.new sha isTransactionTree = embed sha (new isTransactionTree) := by
  have hdata :
      NodeData.ofFlag sha isTransactionTree = innerData sha isTransactionTree Trie.bare := by
    simp only [NodeData.ofFlag, innerData, innerFields, digest, innerInput, mask_bare,
      Trie.bare_apply]
    rfl
  rw [RadixMerkleTree.new, hdata]
  rfl

variable {db : Database} {t : MerkleTrie}

/-- On a fully loaded tree a refined operation is the trie operation itself. -/
theorem Refines.eq_embed {x : Except Fault (Database × RadixMerkleTreeNode)}
    {y : Except Fault MerkleTrie} (h : Refines sha db (embed sha t) t x y) :
    x = y >>= fun t' => .ok (db, embed sha t') := by
  cases h with
  | @ok s t' hs =>
    obtain ⟨db', n'⟩ := s
    obtain ⟨rfl, rfl⟩ := hs.2.of_embed
    rfl
  | error e => rfl

theorem change_refines {n : RadixMerkleTreeNode} (h : Resolves sha db n t) (hl : Loaded n)
    (hn : (pending sha n t).Nodup) (o : Change) :
    Refines sha db n t (RadixMerkleTree.change sha (db, n) o) (change sha t o) := by
  cases o with
  | addItem item isTransaction => exact addItem_refines h hl hn item isTransaction
  | updateGivenItem item isTransaction => exact updateGivenItem_refines h hl hn item isTransaction

theorem nodup_embed : (pending sha (embed sha t) t).Nodup := by
  rw [pending_embed]
  exact List.nodup_nil

theorem change_embed (ht : t.isEmpty = false) (o : Change) :
    RadixMerkleTree.change sha (db, embed sha t) o =
      change sha t o >>= fun t' => .ok (db, embed sha t') :=
  (change_refines (resolves_embed db t) (loaded_embed ht) nodup_embed o).eq_embed

theorem lookup_embed (ht : t.isEmpty = false) {α : Type}
    (found : RadixMerkleTreeLeaf → Except Fault α) (hash : Uint256) :
    RadixMerkleTree.lookup sha found db (embed sha t) hash =
      lookup found hash t >>= fun r => .ok (db, embed sha t, r) := by
  have h := lookup_rel (resolves_embed db t) (loaded_embed ht) (@nodup_embed sha t) found hash
  revert h
  generalize RadixMerkleTree.lookup sha found db (embed sha t) hash = x
  generalize lookup found hash t = y
  intro h
  cases h with
  | @ok w r hw =>
    obtain ⟨db', n', r'⟩ := w
    obtain ⟨rfl, _, hmoves⟩ := hw
    obtain ⟨rfl, rfl⟩ := hmoves.of_embed
    rfl
  | error e => rfl

/-- A change leaves a node in place of the root. -/
theorem isEmpty_of_change (ht : t.isEmpty = false) {t' : MerkleTrie} {o : Change}
    (h : change sha t o = .ok t') : t'.isEmpty = false := by
  have hr := change_refines (resolves_embed (fun _ => none) t) (loaded_embed ht)
    (@nodup_embed sha t) o
  rw [h] at hr
  obtain ⟨s, _, hload, hmoves⟩ := hr.exists_left
  exact hmoves.resolves.isEmpty_eq hload

/-- A run on a fully loaded tree is the run on its trie. -/
theorem run_embed (ht : t.isEmpty = false) (os : List Change) :
    RadixMerkleTree.run sha (db, embed sha t) os =
      run sha t os >>= fun t' => .ok (db, embed sha t') := by
  induction os generalizing t with
  | nil => rfl
  | cons o os ih =>
    rw [RadixMerkleTree.run, run, List.foldlM_cons, List.foldlM_cons, change_embed ht, bind_assoc,
      bind_assoc]
    cases hch : change sha t o with
    | error f => rfl
    | ok t' => exact ih (isEmpty_of_change ht hch)

end Embedded

section Valid

variable {t : MerkleTrie}

theorem Valid.isEmpty_eq (h : Valid sha t) : t.isEmpty = false := by
  obtain ⟨a, c, rfl⟩ := h.rooted
  rfl

theorem valid_new (isTransactionTree : Bool) : Valid sha (new isTransactionTree) where
  rooted := ⟨isTransactionTree, Trie.bare, rfl⟩
  sound := sound_new isTransactionTree
  cached := by
    rintro l ⟨_, hl⟩
    exact hl.elim

theorem indexes_new (isTransactionTree : Bool) : indexes (new isTransactionTree) = ∅ := by
  refine Set.eq_empty_of_forall_notMem ?_
  rintro _ ⟨l, ⟨_, hl⟩, _⟩
  exact hl.elim

/-- An index is absent from the contents exactly when no leaf has it. -/
theorem Valid.contents_eq_none (h : Valid sha t) {k : Uint256} :
    contents t k = none ↔ ∀ l ∈ t, l.key ≠ k := by
  rw [contents, Option.map_eq_none_iff, Option.eq_none_iff_forall_ne_some]
  constructor
  · intro hn l hl hk
    exact hn l ((h.sound.placed.find_eq_some_iff).mpr ⟨hl, hk⟩)
  · intro hn l hl
    obtain ⟨hmem, hk⟩ := (h.sound.placed.find_eq_some_iff).mp hl
    exact hn l hmem hk

/-- The indexes in the contents are those of the leaves. -/
theorem Valid.contents_ne_none {t : MerkleTrie} (h : Valid sha t) {k : Uint256} :
    contents t k ≠ none ↔ ∃ l ∈ t, l.key = k := by
  rw [Ne, h.contents_eq_none]
  push Not
  rfl

theorem Valid.contents_key {t : MerkleTrie} (h : Valid sha t) {l : LeafNode} (hl : l ∈ t) :
    contents t l.key = some l.item := by
  have hfind := (h.sound.placed.find_eq_some_iff).mpr ⟨hl, rfl⟩
  exact congrArg (Option.map LeafNode.item) hfind

/-- Leaves of one index are one leaf. -/
theorem Valid.eq_of_key {t : MerkleTrie} (h : Valid sha t) {l l' : LeafNode} (hl : l ∈ t)
    (hl' : l' ∈ t) (hk : l.key = l'.key) : l = l' := by
  have hfind := (h.sound.placed.find_eq_some_iff).mpr ⟨hl, hk⟩
  have hfind' := (h.sound.placed.find_eq_some_iff).mpr ⟨hl', rfl⟩
  exact Option.some.inj (hfind.symm.trans hfind')

/-- An index is present in the contents exactly when the walk finds its leaf. -/
theorem exists_find_of_contents {k : Uint256} (h : contents t k ≠ none) :
    ∃ l, t.find radix LeafNode.key k 0 = some l := by
  rw [contents, Ne, Option.map_eq_none_iff] at h
  exact Option.ne_none_iff_exists'.mp h

theorem Valid.changed (h : Valid sha t) {o : Change} (ho : (contents t).Permits o) :
    Valid sha (changed sha t o) := by
  have hrooted : ∃ a c, MerkleTrie.changed sha t o = .inner a c := by
    obtain ⟨a, c, rfl⟩ := h.rooted
    cases o <;> exact ⟨a, _, rfl⟩
  cases o with
  | addItem item isTransaction =>
    have hnew := h.contents_eq_none.mp ho
    refine ⟨hrooted, h.sound.insert rfl hnew, fun l hl => ?_⟩
    rcases (h.sound.mem_inserted isTransaction hnew).mp hl with rfl | ⟨hl, _⟩ | ⟨l', _, rfl⟩
    · exact Or.inl rfl
    · exact h.cached l hl
    · exact Or.inl rfl
  | updateGivenItem item isTransaction =>
    obtain ⟨l, hl⟩ := exists_find_of_contents ho
    refine ⟨hrooted, h.sound.modify hl, fun l' hl' => ?_⟩
    rcases (h.sound.mem_replaced sha isTransaction hl).mp hl' with rfl | ⟨hl', _⟩
    · exact Or.inr rfl
    · exact h.cached l' hl'

/-- A permitted change writes its item and leaves every other index. -/
theorem Valid.contents_changed (h : Valid sha t) {o : Change} (ho : (contents t).Permits o) :
    contents (MerkleTrie.changed sha t o) = (contents t).write o := by
  funext k
  by_cases hk : k = o.index
  · rw [hk, Contents.write_self]
    cases o with
    | addItem item isTransaction =>
      have hfind := h.sound.find_inserted isTransaction
        (h.contents_eq_none.mp ho) item.index
      rw [if_pos rfl] at hfind
      exact congrArg (Option.map LeafNode.item) hfind
    | updateGivenItem item isTransaction =>
      obtain ⟨l, hl⟩ := exists_find_of_contents ho
      have hfind := h.sound.find_replaced sha isTransaction hl item.index
      rw [if_pos rfl] at hfind
      exact congrArg (Option.map LeafNode.item) hfind
  · rw [Contents.write_of_ne _ hk]
    cases o with
    | addItem item isTransaction =>
      have hfind := h.sound.find_inserted isTransaction
        (h.contents_eq_none.mp ho) k
      rw [if_neg (show k ≠ item.index from hk)] at hfind
      refine (congrArg (Option.map LeafNode.item) hfind).trans ?_
      split
      · exact Option.map_map ..
      · rfl
    | updateGivenItem item isTransaction =>
      obtain ⟨l, hl⟩ := exists_find_of_contents ho
      have hfind := h.sound.find_replaced sha isTransaction hl k
      rw [if_neg (show k ≠ item.index from hk)] at hfind
      exact congrArg (Option.map LeafNode.item) hfind

/-- The indexes after a permitted change. -/
theorem Valid.indexes_changed (h : Valid sha t) {o : Change} (ho : (contents t).Permits o)
    {K : Set Uint256} (hK : indexes t ⊆ K) (hk : o.index ∈ K) :
    indexes (MerkleTrie.changed sha t o) ⊆ K := by
  rintro _ ⟨l, hl, rfl⟩
  cases o with
  | addItem item isTransaction =>
    rcases (h.sound.mem_inserted isTransaction (h.contents_eq_none.mp ho)).mp hl with
      rfl | ⟨hl, _⟩ | ⟨l', hl', rfl⟩
    · exact hk
    · exact hK ⟨l, hl, rfl⟩
    · exact hK ⟨l', Trie.mem_of_reach hl', rfl⟩
  | updateGivenItem item isTransaction =>
    obtain ⟨l', hl'⟩ := exists_find_of_contents ho
    rcases (h.sound.mem_replaced sha isTransaction hl').mp hl with rfl | ⟨hl, _⟩
    · exact hk
    · exact hK ⟨l, hl, rfl⟩

/-- A permitted change computes its trie. -/
theorem Valid.change_computes (h : Valid sha t) {o : Change} (ho : (contents t).Permits o) :
    Computes sha (indexes t) (changeStrings sha t o) (change sha t o)
      (MerkleTrie.changed sha t o) := by
  cases o with
  | addItem item isTransaction =>
    have hadd := @add_computes sha item isTransaction [] t h.sound h.cached (radix.under_nil _)
      (h.contents_eq_none.mp ho)
    exact hadd.mono displacedIndex_subset (List.Subset.refl _)
  | updateGivenItem item isTransaction =>
    obtain ⟨l, hl⟩ := exists_find_of_contents ho
    obtain ⟨flag, hup⟩ : ∃ flag, Computes sha (indexes t) (updateStrings sha item isTransaction 0 t)
        (update sha item isTransaction 0 t) (replaced sha item isTransaction 0 t, flag) :=
      ⟨_, update_computes h.sound hl⟩
    rcases hup with hok | ⟨herr, hcf⟩
    · refine Or.inl ?_
      rw [change, hok]
      rfl
    · refine Or.inr ⟨?_, hcf⟩
      rw [change, herr]
      rfl

/-- A change that is not permitted stops at the assertion on its index. -/
theorem Valid.change_refused (h : Valid sha t) {o : Change} (ho : ¬ (contents t).Permits o) :
    change sha t o = .error .assertion := by
  cases o with
  | addItem item isTransaction =>
    obtain ⟨l, hl⟩ := exists_find_of_contents ho
    exact add_present h.sound hl
  | updateGivenItem item isTransaction =>
    have hnone : t.find radix LeafNode.key item.index 0 = none :=
      Option.map_eq_none_iff.mp (not_not.mp ho)
    have hup : update sha item isTransaction 0 t = .error .assertion :=
      update_absent h.sound hnone
    rw [change, hup, error_bind]

/-- A change that returns was permitted and computed its trie. -/
theorem Valid.change_ok (h : Valid sha t) {o : Change} {t' : MerkleTrie}
    (hch : change sha t o = .ok t') :
    (contents t).Permits o ∧ t' = MerkleTrie.changed sha t o := by
  by_cases ho : (contents t).Permits o
  · rcases h.change_computes ho with hok | ⟨herr, _⟩
    · exact ⟨ho, Except.ok.inj (hch.symm.trans hok)⟩
    · rw [herr] at hch
      cases hch
  · rw [h.change_refused ho] at hch
    cases hch

/-- A run of permitted changes computes its trie. -/
theorem Valid.run_computes (h : Valid sha t) {os : List Change} (ho : (contents t).PermitsAll os)
    {K : Set Uint256} (hK : indexes t ⊆ K) (hos : ∀ o ∈ os, o.index ∈ K) :
    Computes sha K (runStrings sha t os) (run sha t os) (os.foldl (MerkleTrie.changed sha) t) := by
  induction os generalizing t with
  | nil => exact Or.inl rfl
  | cons o os ih =>
    obtain ⟨ho, hrest⟩ := ho
    rw [← h.contents_changed ho] at hrest
    rw [run, List.foldlM_cons, List.foldl_cons]
    rcases (h.change_computes ho).mono hK (List.subset_append_left _ _) with hok | ⟨herr, hcf⟩
    · rw [hok, ok_bind]
      have hrec := ih (h.changed ho) hrest (h.indexes_changed ho hK (hos o List.mem_cons_self))
        fun x hx => hos x (List.mem_cons_of_mem o hx)
      exact hrec.mono subset_rfl (List.subset_append_right _ _)
    · rw [herr, error_bind]
      exact Or.inr ⟨rfl, hcf⟩

/-- A run of permitted changes writes its items, and no other index. -/
theorem Valid.foldl_changed (h : Valid sha t) {os : List Change} (ho : (contents t).PermitsAll os)
    {K : Set Uint256} (hK : indexes t ⊆ K) (hos : ∀ o ∈ os, o.index ∈ K) :
    Valid sha (os.foldl (MerkleTrie.changed sha) t) ∧
      contents (os.foldl (MerkleTrie.changed sha) t) = os.foldl Contents.write (contents t) ∧
      indexes (os.foldl (MerkleTrie.changed sha) t) ⊆ K := by
  induction os generalizing t with
  | nil => exact ⟨h, rfl, hK⟩
  | cons o os ih =>
    obtain ⟨ho, hrest⟩ := ho
    have hrec := ih (h.changed ho) (by rwa [h.contents_changed ho])
      (h.indexes_changed ho hK (hos o List.mem_cons_self))
      fun x hx => hos x (List.mem_cons_of_mem o hx)
    rwa [h.contents_changed ho] at hrec

/-- The trie after a run of permitted changes on a new tree. -/
theorem valid_foldl_new (sha : Bytes → Uint256) (isTransactionTree : Bool) {os : List Change}
    (ho : Contents.none.PermitsAll os) :
    Valid sha (os.foldl (MerkleTrie.changed sha) (new isTransactionTree)) ∧
      contents (os.foldl (MerkleTrie.changed sha) (new isTransactionTree)) = Contents.written os ∧
      indexes (os.foldl (MerkleTrie.changed sha) (new isTransactionTree)) ⊆
        {k | k ∈ os.map Change.index} := by
  refine (valid_new isTransactionTree).foldl_changed ho ?_ fun o ho => List.mem_map_of_mem ho
  rw [indexes_new]
  exact Set.empty_subset _

/-- A run on a new tree that returns leaves the fully loaded tree of a valid trie with the
items that it wrote. -/
theorem exists_of_run_new {db : Database} {isTransactionTree : Bool} {os : List Change}
    {s : Database × RadixMerkleTreeNode}
    (h : RadixMerkleTree.run sha (db, RadixMerkleTree.new sha isTransactionTree) os = .ok s) :
    ∃ t, s = (db, embed sha t) ∧ Valid sha t ∧ contents t = Contents.written os := by
  refine @run_simulation _ _ _ _ (RadixMerkleTree.change sha) Contents.write
    (fun s m => ∃ t, s = (db, embed sha t) ∧ Valid sha t ∧ contents t = m) ?_ os _ s _
    ⟨new isTransactionTree, ?_, valid_new isTransactionTree, rfl⟩ h
  · rintro _ o s' m ⟨t, rfl, hvalid, rfl⟩ hch
    rw [change_embed hvalid.isEmpty_eq] at hch
    obtain ⟨t', ht', hs'⟩ := bind_eq_ok.mp hch
    obtain ⟨ho, rfl⟩ := hvalid.change_ok ht'
    exact ⟨_, (Except.ok.inj hs').symm, hvalid.changed ho, hvalid.contents_changed ho⟩
  · rw [new_eq]

/-- A lookup in a fully loaded valid tree reads its contents. -/
theorem Valid.lookup_embed (h : Valid sha t) (db : Database) {α : Type}
    (found : RadixMerkleTreeLeaf → Except Fault α) (hash : Uint256) :
    RadixMerkleTree.lookup sha found db (embed sha t) hash = match contents t hash with
      | none => .ok (db, embed sha t, none)
      | some item => found item >>= fun v => .ok (db, embed sha t, some v) := by
  rw [MerkleTrie.lookup_embed h.isEmpty_eq, h.sound.lookup_eq, contents]
  cases t.find radix LeafNode.key hash 0 with
  | none => rfl
  | some l =>
    change (some <$> found l.item >>= _) = found l.item >>= _
    cases found l.item with
    | error f => rfl
    | ok v => rfl

end Valid

end MerkleTrie

namespace RadixMerkleTree

/-- Every lookup of a tree reads the given items, and none loads a node. -/
structure Represents (sha : Bytes → Uint256) (db : Database) (root : RadixMerkleTreeNode)
    (m : Contents) : Prop where
  hasItem : ∀ hash, hasItem sha db root hash = .ok (db, root, (m hash).isSome)
  peekItem : ∀ hash, peekItem sha db root hash = .ok (db, root, m hash)
  getEntry : ∀ {α : Type} (unserializer : Bytes → Except Fault α) (hash : Uint256),
    getEntry sha unserializer db root hash = match m hash with
      | none => .ok (db, root, none)
      | some item => unserializer item.data >>= fun v => .ok (db, root, some v)

end RadixMerkleTree

namespace MerkleTrie

/-- A fully loaded valid tree represents the contents of its trie. -/
theorem Valid.represents {sha : Bytes → Uint256} {t : MerkleTrie} (h : Valid sha t)
    (db : Database) :
    RadixMerkleTree.Represents sha db (embed sha t) (contents t) where
  hasItem := by
    intro hash
    rw [RadixMerkleTree.hasItem, h.lookup_embed]
    cases contents t hash <;> rfl
  peekItem := by
    intro hash
    rw [RadixMerkleTree.peekItem, h.lookup_embed]
    cases contents t hash <;> rfl
  getEntry := by
    intro α unserializer hash
    rw [RadixMerkleTree.getEntry, h.lookup_embed]

/-- A change leaves the lookups of every other index. -/
theorem Valid.lookup_change {sha : Bytes → Uint256} {t : MerkleTrie} (h : Valid sha t)
    {db : Database} {o : Change} {s : Database × RadixMerkleTreeNode}
    (hch : RadixMerkleTree.change sha (db, embed sha t) o = .ok s) {hash : Uint256}
    (hne : hash ≠ o.index) {α : Type} (found : RadixMerkleTreeLeaf → Except Fault α) :
    (RadixMerkleTree.lookup sha found s.1 s.2 hash).map (fun r => r.2.2) =
      (RadixMerkleTree.lookup sha found db (embed sha t) hash).map fun r => r.2.2 := by
  rw [change_embed h.isEmpty_eq] at hch
  obtain ⟨t', ht', hs⟩ := bind_eq_ok.mp hch
  cases hs
  obtain ⟨ho, rfl⟩ := h.change_ok ht'
  rw [(h.changed ho).lookup_embed, h.lookup_embed,
    h.contents_changed ho, Contents.write_of_ne _ hne]
  cases contents t hash with
  | none => rfl
  | some item =>
    change (found item >>= _).map _ = (found item >>= _).map _
    cases found item <;> rfl

end MerkleTrie

namespace Contents

/-- The indexes that a permitted run has written are those that it has added. -/
theorem foldl_write_isSome {m : Contents} {os : List Change} (h : m.PermitsAll os) (k : Uint256) :
    (os.foldl write m k).isSome = true ↔ (m k).isSome = true ∨
      ∃ item isTransaction, Change.addItem item isTransaction ∈ os ∧ item.index = k := by
  induction os generalizing m with
  | nil => simp
  | cons o os ih =>
    obtain ⟨ho, hrest⟩ := h
    rw [List.foldl_cons, ih hrest]
    have hwrite : (m.write o k).isSome = true ↔ k = o.index ∨ (m k).isSome = true := by
      by_cases hk : k = o.index
      · simp [hk]
      · simp [write_of_ne m hk, hk]
    rw [hwrite]
    cases o with
    | addItem item isTransaction =>
      constructor
      · rintro ((hk | hm) | ⟨item', isTransaction', hmem, hk⟩)
        · exact Or.inr ⟨item, isTransaction, List.mem_cons_self, hk.symm⟩
        · exact Or.inl hm
        · exact Or.inr ⟨item', isTransaction', List.mem_cons_of_mem _ hmem, hk⟩
      · rintro (hm | ⟨item', isTransaction', hmem, hk⟩)
        · exact Or.inl (Or.inr hm)
        · rcases List.mem_cons.mp hmem with heq | hmem
          · cases heq
            exact Or.inl (Or.inl hk.symm)
          · exact Or.inr ⟨item', isTransaction', hmem, hk⟩
    | updateGivenItem item isTransaction =>
      constructor
      · rintro ((hk | hm) | ⟨item', isTransaction', hmem, hk⟩)
        · exact Or.inl (by rw [hk]; exact Option.isSome_iff_ne_none.mpr ho)
        · exact Or.inl hm
        · exact Or.inr ⟨item', isTransaction', List.mem_cons_of_mem _ hmem, hk⟩
      · rintro (hm | ⟨item', isTransaction', hmem, hk⟩)
        · exact Or.inl (Or.inr hm)
        · rcases List.mem_cons.mp hmem with heq | hmem
          · cases heq
          · exact Or.inr ⟨item', isTransaction', hmem, hk⟩

/-- A run leaves the indexes that it does not write. -/
theorem foldl_write_of_ne {os : List Change} {k : Uint256} (h : ∀ o ∈ os, k ≠ o.index)
    (m : Contents) : os.foldl write m k = m k := by
  induction os generalizing m with
  | nil => rfl
  | cons o os ih =>
    rw [List.foldl_cons, ih fun x hx => h x (List.mem_cons_of_mem o hx),
      write_of_ne m (h o List.mem_cons_self)]

/-- Runs that agree on the indexes that they write end with the same items. -/
theorem written_ext {os os' : List Change}
    (h : ∀ k ∈ (os ++ os').map Change.index, written os k = written os' k) :
    written os = written os' := by
  funext k
  by_cases hk : k ∈ (os ++ os').map Change.index
  · exact h k hk
  · have hne : ∀ o ∈ os ++ os', k ≠ o.index := fun o ho he =>
      hk (List.mem_map.mpr ⟨o, ho, he.symm⟩)
    rw [written, written, foldl_write_of_ne fun o ho => hne o (List.mem_append_left _ ho),
      foldl_write_of_ne fun o ho => hne o (List.mem_append_right _ ho)]

end Contents

/-- A new tree under any run of additions of new indexes and updates of present ones is the
map of the items last written: `has_item`, `peek_item`, `get_account_entry` and
`get_transaction_entry` read it, and a further change of one index leaves the lookups of
every other. The only run that does not return stops at the assertion that a rebuilt node
changed its hash, and then two strings digested by this run share a digest, or one of
their digests is zero or an index. -/
theorem radixMerkleTree_refines_map (sha : Bytes → Uint256) (db : Database)
    (isTransactionTree : Bool) (os : List Change) (hos : Contents.none.PermitsAll os) :
    (∃ root,
      RadixMerkleTree.run sha (db, RadixMerkleTree.new sha isTransactionTree) os = .ok (db, root) ∧
      RadixMerkleTree.Represents sha db root (Contents.written os) ∧
      (∀ hash, (Contents.written os hash).isSome = true ↔
        ∃ item isTransaction, Change.addItem item isTransaction ∈ os ∧ item.index = hash) ∧
      ∀ o s, RadixMerkleTree.change sha (db, root) o = .ok s →
        ∀ hash ≠ o.index, ∀ (α : Type) (found : RadixMerkleTreeLeaf → Except Fault α),
          (RadixMerkleTree.lookup sha found s.1 s.2 hash).map (fun r => r.2.2) =
            (RadixMerkleTree.lookup sha found db root hash).map fun r => r.2.2) ∨
    (RadixMerkleTree.run sha (db, RadixMerkleTree.new sha isTransactionTree) os =
        .error .unchanged ∧
      ¬ CollisionFree sha {k | k ∈ os.map Change.index}
        {s | s ∈ MerkleTrie.runStrings sha (MerkleTrie.new isTransactionTree) os}) := by
  have hvalid := @MerkleTrie.valid_new sha isTransactionTree
  rw [MerkleTrie.new_eq, MerkleTrie.run_embed (t := MerkleTrie.new isTransactionTree) rfl]
  rcases hvalid.run_computes (K := {k | k ∈ os.map Change.index}) hos
    (by rw [MerkleTrie.indexes_new]; exact Set.empty_subset _)
    (fun o ho => List.mem_map_of_mem ho) with hok | ⟨herr, hcf⟩
  · refine Or.inl ?_
    obtain ⟨hvalid', hcontents, _⟩ := MerkleTrie.valid_foldl_new sha isTransactionTree hos
    refine ⟨_, by rw [hok]; rfl, ?_, fun hash => ?_, fun o s hch hash hne α found => ?_⟩
    · rw [← hcontents]
      exact hvalid'.represents db
    · rw [Contents.written, Contents.foldl_write_isSome hos]
      simp [Contents.none]
    · exact hvalid'.lookup_change hch hne found
  · refine Or.inr ⟨?_, hcf⟩
    rw [herr]
    rfl

/-- A run that adds an account, updates it and adds a second account under the same first
digits. -/
def sampleRun : List Change :=
  [.addItem (.ofByte (Uint256.ofNat (0x1234 * 2 ^ 240)) 1) false,
    .updateGivenItem (.ofByte (Uint256.ofNat (0x1234 * 2 ^ 240)) 2) false,
    .addItem (.ofByte (Uint256.ofNat (0x1256 * 2 ^ 240)) 3) false]

theorem sampleRun_refines_map :
    ∃ root, RadixMerkleTree.run checksum (fun _ => none, RadixMerkleTree.new checksum false)
        sampleRun = .ok (fun _ => none, root) ∧
      RadixMerkleTree.Represents checksum (fun _ => none) root (Contents.written sampleRun) := by
  have hok : (RadixMerkleTree.run checksum (fun _ => none, RadixMerkleTree.new checksum false)
      sampleRun).isOk = true := by decide +kernel
  rcases radixMerkleTree_refines_map checksum (fun _ => none) false sampleRun (by decide) with
    ⟨root, hrun, hmap, _⟩ | ⟨herr, _⟩
  · exact ⟨root, hrun, hmap⟩
  · rw [herr] at hok
    cases hok

end Bubi
