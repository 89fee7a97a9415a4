import Bubi.Tree.Refinement

/-!
# Backup

`backup_to_database` walks the loaded nodes breadth first and writes each under its
hash. The walk reaches every loaded node once; together with the nodes still in the
store they are all nodes of the tree. If no two nodes share a hash, the store holds the
whole tree afterwards.
-/

namespace Bubi

open Bubi.Core

namespace RadixMerkleTree

/-- The records of the loaded nodes below a pointer. -/
def reached : RadixMerkleTreeNode → List NodeData
  | .null => []
  | .node d children =>
    d :: if d.isInner then (List.finRange 16).flatMap fun i => reached (children i) else []

/-- The records of the loaded nodes strictly below a pointer. -/
def below : RadixMerkleTreeNode → List NodeData
  | .null => []
  | .node d children =>
    if d.isInner then (List.finRange 16).flatMap fun i => reached (children i) else []

theorem mem_loadedChildren {children : Fin 16 → RadixMerkleTreeNode} {n : RadixMerkleTreeNode}
    (h : n ∈ loadedChildren children) : ∃ d cs, n = .node d cs := by
  cases n with
  | null => simp [loadedChildren, isLoaded] at h
  | node d cs => exact ⟨d, cs, rfl⟩

/-- Null pointers contribute nothing. -/
theorem flatMap_loadedChildren {α : Type} (f : RadixMerkleTreeNode → List α) (hf : f .null = [])
    (children : Fin 16 → RadixMerkleTreeNode) :
    (loadedChildren children).flatMap f = (List.finRange 16).flatMap fun i => f (children i) := by
  have hlist : ∀ l : List RadixMerkleTreeNode,
      (l.filter isLoaded).flatMap f = l.flatMap f := by
    intro l
    induction l with
    | nil => rfl
    | cons n l ih =>
      cases n with
      | null => simp [isLoaded, ih, hf]
      | node d cs => simp [List.filter_cons, isLoaded, ih]
  rw [loadedChildren, hlist, List.flatMap_map]

theorem sum_loadedChildren (children : Fin 16 → RadixMerkleTreeNode) :
    ((loadedChildren children).map size).sum =
      ((List.finRange 16).map fun i => size (children i)).sum := by
  have hlist : ∀ l : List RadixMerkleTreeNode,
      ((l.filter isLoaded).map size).sum = (l.map size).sum := by
    intro l
    induction l with
    | nil => rfl
    | cons n l ih =>
      cases n with
      | null => simp [isLoaded, ih, size]
      | node d cs => simp [List.filter_cons, isLoaded, ih]
  rw [loadedChildren, hlist, List.map_map]
  rfl

/-- The reached records of loaded nodes are their own and those below them. -/
theorem flatMap_reached_perm {l : List RadixMerkleTreeNode} (hl : ∀ n ∈ l, ∃ d cs, n = .node d cs) :
    (l.flatMap reached).Perm (l.filterMap record ++ l.flatMap below) := by
  induction l with
  | nil => exact List.Perm.refl _
  | cons n l ih =>
    obtain ⟨d, cs, rfl⟩ := hl n List.mem_cons_self
    have hrec := ih fun m hm => hl m (List.mem_cons_of_mem _ hm)
    have hhead : reached (.node d cs) = d :: below (.node d cs) := rfl
    have hrecord : (.node d cs :: l).filterMap record = d :: l.filterMap record := rfl
    rw [List.flatMap_cons, List.flatMap_cons, hhead, hrecord, List.cons_append, List.cons_append]
    refine List.Perm.cons d ((List.Perm.append_left _ hrec).trans ?_)
    rw [← List.append_assoc, ← List.append_assoc]
    exact List.Perm.append_right _ List.perm_append_comm

/-- The queue reaches every loaded node below it once. -/
theorem backupLoop_perm {fuel : ℕ} {que : List RadixMerkleTreeNode} {batch : List NodeData}
    (hque : ∀ n ∈ que, ∃ d cs, n = .node d cs) (hfuel : (que.map size).sum ≤ fuel) :
    (backupLoop fuel que batch).Perm (batch ++ que.flatMap below) := by
  induction fuel generalizing que batch with
  | zero =>
    cases que with
    | nil => simp [backupLoop]
    | cons n que =>
      obtain ⟨d, cs, rfl⟩ := hque n List.mem_cons_self
      simp [size] at hfuel
  | succ fuel ih =>
    cases que with
    | nil => simp [backupLoop]
    | cons n que =>
      obtain ⟨d, cs, rfl⟩ := hque n List.mem_cons_self
      have hrest : ∀ m ∈ que, ∃ d cs, m = .node d cs := fun m hm =>
        hque m (List.mem_cons_of_mem _ hm)
      rw [List.map_cons, List.sum_cons, size] at hfuel
      rw [backupLoop, List.flatMap_cons, below]
      cases hinner : d.isInner with
      | false =>
        simp only [Bool.false_eq_true, ite_false, List.nil_append]
        exact ih hrest (by omega)
      | true =>
        simp only [ite_true]
        have hnext : ∀ m ∈ que ++ loadedChildren cs, ∃ d cs, m = .node d cs := by
          intro m hm
          rcases List.mem_append.mp hm with hm | hm
          · exact hrest m hm
          · exact mem_loadedChildren hm
        have hsum : ((que ++ loadedChildren cs).map size).sum ≤ fuel := by
          rw [List.map_append, List.sum_append, sum_loadedChildren]
          omega
        refine (ih hnext hsum).trans ?_
        rw [List.append_assoc, List.flatMap_append, ← flatMap_loadedChildren reached rfl]
        refine List.Perm.append_left batch ?_
        refine (List.Perm.append_left _ List.perm_append_comm).trans ?_
        rw [← List.append_assoc]
        exact List.Perm.append_right _ (flatMap_reached_perm fun m hm => mem_loadedChildren hm).symm

/-- A backup writes the records of exactly the loaded nodes. -/
theorem backupLoop_root_perm (d : NodeData) (children : Fin 16 → RadixMerkleTreeNode) :
    (backupLoop (size (.node d children)) [.node d children] [d]).Perm
      (reached (.node d children)) := by
  refine (backupLoop_perm (fun n hn => ⟨d, children, List.mem_singleton.mp hn⟩) (by simp)).trans ?_
  rw [List.flatMap_singleton]
  exact List.Perm.refl _

end RadixMerkleTree

namespace MerkleTrie

open RadixMerkleTree

variable {sha : Bytes → Uint256} {db db' : Database} {n : RadixMerkleTreeNode} {t : MerkleTrie}

theorem reached_leaf (l : LeafNode) :
    reached (.node l.data RadixMerkleTreeNode.noChildren) = [l.data] := by
  simp [reached, isInner_leaf]

theorem reached_inner (a : Bool) (c : Fin 16 → MerkleTrie)
    (children : Fin 16 → RadixMerkleTreeNode) :
    reached (.node (innerData sha a c) children) =
      innerData sha a c :: (List.finRange 16).flatMap fun i => reached (children i) := by
  simp [reached, isInner_innerData]

/-- The loaded nodes are leaves of the trie and inner nodes over subtries. -/
theorem Resolves.reached_cases (h : Resolves sha db n t) {d : NodeData} (hd : d ∈ reached n) :
    (∃ l ∈ t, d = l.data) ∨ ∃ a c, d = innerData sha a c := by
  induction t generalizing n with
  | empty =>
    rw [show n = .null from h] at hd
    cases hd
  | leaf l =>
    rcases h with rfl | ⟨rfl, _⟩
    · rw [reached_leaf, List.mem_singleton] at hd
      exact Or.inl ⟨l, rfl, hd⟩
    · cases hd
  | inner a c ih =>
    rcases h with ⟨children, rfl, hc⟩ | ⟨rfl, _⟩
    · rw [reached_inner, List.mem_cons, List.mem_flatMap] at hd
      rcases hd with rfl | ⟨i, _, hd⟩
      · exact Or.inr ⟨a, c, rfl⟩
      · exact (ih i (hc i) hd).imp_left fun ⟨l, hl, hleaf⟩ => ⟨l, ⟨i, hl⟩, hleaf⟩
    · cases hd

/-- Loaded nodes have records that decode from their encoding. -/
theorem Resolves.reached_shaped (h : Resolves sha db n t) : ∀ d ∈ reached n, d.Shaped := by
  intro d hd
  rcases h.reached_cases hd with ⟨l, _, rfl⟩ | ⟨a, c, rfl⟩
  · exact shaped_leaf l
  · exact shaped_inner a c

/-- Every leaf of a fully loaded tree is reached. -/
theorem leaf_mem_reached {l : LeafNode} (hl : l ∈ t) : l.data ∈ reached (embed sha t) := by
  induction t with
  | empty => exact hl.elim
  | leaf l' =>
    rw [embed, reached_leaf, Trie.mem_leaf.mp hl]
    exact List.mem_singleton.mpr rfl
  | inner a c ih =>
    obtain ⟨i, hl⟩ := hl
    rw [embed, reached_inner]
    exact List.mem_cons_of_mem _ (List.mem_flatMap.mpr ⟨i, List.mem_finRange i, ih i hl⟩)

/-- The loaded nodes with an item are those of leaves. -/
theorem Resolves.exists_leaf (h : Resolves sha db n t) {d : NodeData} (hd : d ∈ reached n)
    {item : RadixMerkleTreeLeaf} (hitem : d.item = some item) :
    ∃ l ∈ t, d = l.data ∧ l.item = item := by
  rcases h.reached_cases hd with ⟨l, hl, rfl⟩ | ⟨a, c, rfl⟩
  · exact ⟨l, hl, rfl, Option.some.inj hitem⟩
  · cases hitem

/-- The items of a fully loaded tree are those of its leaves. -/
theorem exists_item_embed {item : RadixMerkleTreeLeaf} :
    (∃ d ∈ reached (embed sha t), d.item = some item) ↔ ∃ l ∈ t, item = l.item := by
  constructor
  · rintro ⟨d, hd, hitem⟩
    obtain ⟨l, hl, _, rfl⟩ := (resolves_embed (fun _ => none) t).exists_leaf hd hitem
    exact ⟨l, hl, rfl⟩
  · rintro ⟨l, hl, rfl⟩
    exact ⟨l.data, leaf_mem_reached hl, rfl⟩

/-- The loaded nodes and the pending ones are all nodes. -/
theorem Resolves.hashes_perm (h : Resolves sha db n t) :
    ((reached n).map NodeData.hash ++ pending sha n t).Perm (hashes sha t) := by
  induction t generalizing n with
  | empty =>
    rw [show n = .null from h]
    simp [reached]
  | leaf l =>
    rcases h with rfl | ⟨rfl, _⟩
    · have hhash : l.data.hash = l.hash := rfl
      simp [reached_leaf, pending, hashes, hhash]
    · simp [reached]
  | inner a c ih =>
    rcases h with ⟨children, rfl, hc⟩ | ⟨rfl, _⟩
    · have hroot : (innerData sha a c).hash = digest sha (.inner a c) := rfl
      rw [reached_inner, List.map_cons, List.map_flatMap, pending, hashes, hroot, List.cons_append]
      apply List.Perm.cons
      refine (List.flatMap_append_perm _ _ _).trans ?_
      exact List.Perm.flatMap_left _ fun i _ => ih i (hc i)
    · simp [reached]

/-- A store with the records of the loaded nodes and of the pending ones holds the trie. -/
theorem Resolves.stored (h : Resolves sha db n t) (hreached : ∀ d ∈ reached n, Holds db' d)
    (hpending : ∀ x ∈ pending sha n t, db' x.toString = db x.toString) : Stored sha db' t := by
  induction t generalizing n with
  | empty => trivial
  | leaf l =>
    rcases h with rfl | ⟨rfl, hs⟩
    · exact hreached l.data (by simp [reached_leaf])
    · exact hs.congr hpending
  | inner a c ih =>
    rcases h with ⟨children, rfl, hc⟩ | ⟨rfl, hs⟩
    · rw [reached_inner] at hreached
      refine ⟨hreached _ List.mem_cons_self, fun i => ih i (hc i) ?_ ?_⟩
      · intro d hd
        apply hreached
        exact List.mem_cons_of_mem _ (List.mem_flatMap.mpr ⟨i, List.mem_finRange i, hd⟩)
      · intro x hx
        exact hpending x (mem_pending_node.mpr ⟨i, hx⟩)
    · exact hs.congr hpending

/-- The hashes of a fully loaded tree. -/
theorem reached_embed_perm (sha : Bytes → Uint256) (t : MerkleTrie) :
    ((reached (embed sha t)).map NodeData.hash).Perm (hashes sha t) := by
  have hresolves : Resolves sha (fun _ => none) (embed sha t) t := resolves_embed _ t
  have hperm := hresolves.hashes_perm
  rwa [pending_embed, List.append_nil] at hperm

/-- A loaded inner node carries the digest of its record. -/
theorem Resolves.hash_inner (h : Resolves sha db n t) {d : NodeData} (hd : d ∈ reached n)
    (hinner : d.isInner = true) {x : Bytes} (hx : d.hashInput = .ok x) : d.hash = sha x := by
  rcases h.reached_cases hd with ⟨l, _, rfl⟩ | ⟨a, c, rfl⟩
  · rw [isInner_leaf] at hinner
    cases hinner
  · rw [← Except.ok.inj hx]
    rfl

/-- A backup of a tree whose nodes have distinct hashes stores every loaded record and leaves
the keys of all other nodes. -/
theorem Resolves.backup (h : Resolves sha db n t) (hl : Loaded n) (hn : (hashes sha t).Nodup) :
    ∃ db', backupToDatabase db n = .ok db' ∧ (∀ d ∈ reached n, Holds db' d) ∧
      ∀ k, (∀ d ∈ reached n, d.hash.toString ≠ k) → db' k = db k := by
  cases n with
  | null => exact hl.elim
  | node d children =>
    have hperm := backupLoop_root_perm d children
    have hmem : ∀ e, e ∈ backupLoop (size (.node d children)) [.node d children] [d] ↔
        e ∈ reached (.node d children) := fun e => hperm.mem_iff
    have hshaped := fun e he => h.reached_shaped e ((hmem e).mp he)
    have hnodup := ((h.hashes_perm.nodup_iff).mpr hn).of_append_left
    obtain ⟨db', hdb', hkept⟩ := Database.storeBatch_shaped hshaped db
    refine ⟨db', hdb', fun e he => ?_, fun k hk => hkept k fun e he => hk e ((hmem e).mp he)⟩
    obtain ⟨value, hv⟩ := (h.reached_shaped e he).exists_encode
    refine ⟨value, hv, ?_⟩
    exact Database.storeBatch_mem hshaped (((hperm.map _).nodup_iff).mpr hnodup) hdb'
      ((hmem e).mpr he) hv

/-- A pending node is not loaded elsewhere in a tree with distinct hashes. -/
theorem Resolves.pending_not_reached (h : Resolves sha db n t) (hn : (hashes sha t).Nodup)
    {x : Uint256} (hx : x ∈ pending sha n t) : ∀ d ∈ reached n, d.hash.toString ≠ x.toString := by
  intro d hd heq
  have hdisj := List.disjoint_of_nodup_append ((h.hashes_perm.nodup_iff).mpr hn)
  apply hdisj (List.mem_map_of_mem hd)
  rwa [Uint256.toString_injective heq]

/-- The loaded nodes are nodes of the trie. -/
theorem Resolves.hash_mem (h : Resolves sha db n t) {d : NodeData} (hd : d ∈ reached n) :
    d.hash ∈ hashes sha t :=
  h.hashes_perm.mem_iff.mp (List.mem_append_left _ (List.mem_map_of_mem hd))

/-- A backup stores the whole tree, keeps what the tree resolves to and leaves all keys of
other trees. -/
theorem Resolves.backup_stored (h : Resolves sha db n t) (hl : Loaded n)
    (hn : (hashes sha t).Nodup) :
    ∃ db', backupToDatabase db n = .ok db' ∧ Resolves sha db' n t ∧ Stored sha db' t ∧
      ∀ x ∉ hashes sha t, db' x.toString = db x.toString := by
  obtain ⟨db', hdb', hheld, hkept⟩ := h.backup hl hn
  have hpending : ∀ x ∈ pending sha n t, db' x.toString = db x.toString := fun x hx =>
    hkept _ (h.pending_not_reached hn hx)
  refine ⟨db', hdb', h.congr hpending, h.stored hheld hpending, fun x hx => hkept _ ?_⟩
  intro d hd heq
  apply hx
  rw [← Uint256.toString_injective heq]
  exact h.hash_mem hd

end MerkleTrie

end Bubi
