import Bubi.Tree.MerkleTrie

/-!
# Partly loaded trees and their store

A pointer resolves to a `MerkleTrie` when every branch that is not empty is either
loaded or stored, with all its nodes, under the hash that its parent records. The
pending hashes of a pointer are those of its nodes still in the store. Loading and
changing nodes only ever shrinks them, takes exactly the lost ones out of the store,
and leaves every other key alone.
-/

namespace Bubi

open Bubi.Core

namespace MerkleTrie

variable (sha : Bytes → Uint256)

/-- The hashes of all nodes, the root first. -/
def hashes : MerkleTrie → List Uint256
  | .empty => []
  | .leaf l => [l.hash]
  | .inner a c => digest sha (.inner a c) :: (List.finRange 16).flatMap fun i => hashes (c i)

/-- A record is stored under its hash. -/
def Holds (db : Database) (d : NodeData) : Prop :=
  ∃ value, d.encode = .ok value ∧ db d.hash.toString = some value

/-- Every node is stored under its hash. -/
def Stored (db : Database) : MerkleTrie → Prop
  | .empty => True
  | .leaf l => Holds db l.data
  | .inner a c => Holds db (innerData sha a c) ∧ ∀ i, Stored db (c i)

/-- A pointer and the store behind it resolve to a trie. -/
def Resolves (db : Database) : RadixMerkleTreeNode → MerkleTrie → Prop
  | n, .empty => n = .null
  | n, .leaf l =>
    n = .node l.data RadixMerkleTreeNode.noChildren ∨ (n = .null ∧ Stored sha db (.leaf l))
  | n, .inner a c =>
    (∃ children, n = .node (innerData sha a c) children ∧ ∀ i, Resolves db (children i) (c i)) ∨
      (n = .null ∧ Stored sha db (.inner a c))

/-- The hashes of the nodes that are not loaded. -/
def pending : RadixMerkleTreeNode → MerkleTrie → List Uint256
  | _, .empty => []
  | .null, .leaf l => [l.hash]
  | .node _ _, .leaf _ => []
  | .null, .inner a c => hashes sha (.inner a c)
  | .node _ children, .inner _ c => (List.finRange 16).flatMap fun i => pending (children i) (c i)

/-- The fully loaded tree of a trie. -/
def embed : MerkleTrie → RadixMerkleTreeNode
  | .empty => .null
  | .leaf l => .node l.data RadixMerkleTreeNode.noChildren
  | .inner a c => .node (innerData sha a c) fun i => embed (c i)

variable {sha}

@[simp] theorem pending_null (t : MerkleTrie) : pending sha .null t = hashes sha t := by
  cases t <;> rfl

theorem resolves_null {db : Database} {t : MerkleTrie} :
    Resolves sha db .null t ↔ Stored sha db t := by
  cases t with
  | empty => simp [Resolves, Stored]
  | leaf l => simp [Resolves]
  | inner a c => simp [Resolves]

theorem resolves_embed (db : Database) (t : MerkleTrie) : Resolves sha db (embed sha t) t := by
  induction t with
  | empty => rfl
  | leaf l => exact Or.inl rfl
  | inner a c ih => exact Or.inl ⟨_, rfl, ih⟩

@[simp] theorem pending_embed (t : MerkleTrie) : pending sha (embed sha t) t = [] := by
  induction t with
  | empty => rfl
  | leaf l => rfl
  | inner a c ih =>
    change (List.finRange 16).flatMap (fun i => pending sha (embed sha (c i)) (c i)) = []
    simp [ih]

/-- A pointer without pending nodes is the fully loaded tree. -/
theorem Resolves.eq_embed {db : Database} {n : RadixMerkleTreeNode} {t : MerkleTrie}
    (h : Resolves sha db n t) (hp : pending sha n t = []) : n = embed sha t := by
  induction t generalizing n with
  | empty => exact h
  | leaf l =>
    rcases h with h | ⟨rfl, _⟩
    · exact h
    · cases hp
  | inner a c ih =>
    rcases h with ⟨children, rfl, hc⟩ | ⟨rfl, _⟩
    · have hchild : ∀ i, children i = embed sha (c i) := by
        intro i
        refine ih i (hc i) ?_
        exact List.flatMap_eq_nil_iff.mp hp i (List.mem_finRange i)
      rw [embed]
      exact congrArg _ (funext hchild)
    · cases hp

theorem leafType_ne_inner (b : Bool) : leafType b ≠ .innerNode := by
  cases b <;> decide

theorem shaped_leaf (l : LeafNode) : l.data.Shaped := by
  obtain ⟨hash, flag, isTransaction, item⟩ := l
  cases isTransaction <;> exact ⟨rfl, rfl⟩

theorem shaped_inner (a : Bool) (c : Fin 16 → MerkleTrie) : (innerData sha a c).Shaped := rfl

/-- A fully loaded tree resolves to no other trie. -/
theorem Resolves.eq_of_embed {db : Database} {t t' : MerkleTrie}
    (h : Resolves sha db (embed sha t) t') (hempty : t.isEmpty = t'.isEmpty) : t = t' := by
  induction t generalizing t' with
  | empty => cases t' <;> first | rfl | cases hempty
  | leaf l =>
    cases t' with
    | empty => cases hempty
    | leaf l' =>
      rcases h with h | ⟨h, _⟩
      · rw [embed, RadixMerkleTreeNode.node.injEq] at h
        rw [LeafNode.data_injective h.1]
      · cases h
    | inner a' c' =>
      rcases h with ⟨children, h, _⟩ | ⟨h, _⟩
      · rw [embed, RadixMerkleTreeNode.node.injEq] at h
        exact absurd (congrArg NodeData.type h.1) (leafType_ne_inner l.isTransaction)
      · cases h
  | inner a c ih =>
    cases t' with
    | empty => cases hempty
    | leaf l' =>
      rcases h with h | ⟨h, _⟩
      · rw [embed, RadixMerkleTreeNode.node.injEq] at h
        exact absurd (congrArg NodeData.type h.1).symm (leafType_ne_inner l'.isTransaction)
      · cases h
    | inner a' c' =>
      rcases h with ⟨children, h, hchildren⟩ | ⟨h, _⟩
      · rw [embed, RadixMerkleTreeNode.node.injEq] at h
        obtain ⟨hdata, rfl⟩ := h
        have ha : a = a' := congrArg NodeData.isTransactionTree hdata
        have hc : c = c' := by
          funext i
          refine ih i (hchildren i) ?_
          rw [← @isEmptyBranch_innerData sha a, hdata, isEmptyBranch_innerData]
        rw [ha, hc]
      · cases h

theorem embed_eq_null {t : MerkleTrie} : embed sha t = .null ↔ t.isEmpty = true := by
  cases t <;> simp [embed, Trie.isEmpty]

/-- A fully loaded tree stands for one trie. -/
theorem embed_injective : Function.Injective (embed sha) := by
  intro t t' h
  have hresolves : Resolves sha (fun _ => none) (embed sha t) t' := h ▸ resolves_embed _ t'
  refine hresolves.eq_of_embed ?_
  rw [Bool.eq_iff_iff, ← embed_eq_null, h, embed_eq_null]

/-- The trie that a fully loaded tree stands for. -/
def ofNode : RadixMerkleTreeNode → MerkleTrie
  | .null => .empty
  | .node d children =>
    if d.isInner then .inner d.isTransactionTree fun i => ofNode (children i)
    else
      match d.item with
      | none => .empty
      | some item => .leaf ⟨d.hash, d.isTransactionTree, d.type = .transactionLeaf, item⟩

@[simp] theorem ofNode_embed (t : MerkleTrie) : ofNode (embed sha t) = t := by
  induction t with
  | empty => rfl
  | leaf l =>
    obtain ⟨hash, flag, isTransaction, item⟩ := l
    cases isTransaction <;> rfl
  | inner a c ih =>
    change Trie.inner a (fun i => ofNode (embed sha (c i))) = .inner a c
    exact congrArg _ (funext ih)

/-- A stored record is found by its hash alone. -/
theorem Holds.congr {db db' : Database} {d : NodeData} (h : Holds db d)
    (heq : db' d.hash.toString = db d.hash.toString) : Holds db' d := by
  obtain ⟨value, hv, hdb⟩ := h
  exact ⟨value, hv, heq.trans hdb⟩

/-- Storage of a trie depends only on the keys of its own nodes. -/
theorem Stored.congr {db db' : Database} {t : MerkleTrie} (h : Stored sha db t)
    (heq : ∀ x ∈ hashes sha t, db' x.toString = db x.toString) : Stored sha db' t := by
  induction t with
  | empty => trivial
  | leaf l => exact Holds.congr h (heq _ (by simp [hashes, LeafNode.data]))
  | inner a c ih =>
    refine ⟨h.1.congr (heq _ (by simp [hashes, innerData, innerFields])), fun i => ?_⟩
    refine ih i (h.2 i) fun x hx => heq x ?_
    exact List.mem_cons_of_mem _ (List.mem_flatMap.mpr ⟨i, List.mem_finRange i, hx⟩)

/-- Resolution depends only on the keys of the pending nodes. -/
theorem Resolves.congr {db db' : Database} {n : RadixMerkleTreeNode} {t : MerkleTrie}
    (h : Resolves sha db n t)
    (heq : ∀ x ∈ pending sha n t, db' x.toString = db x.toString) : Resolves sha db' n t := by
  induction t generalizing n with
  | empty => exact h
  | leaf l =>
    rcases h with h | ⟨rfl, hs⟩
    · exact Or.inl h
    · exact Or.inr ⟨rfl, hs.congr heq⟩
  | inner a c ih =>
    rcases h with ⟨children, rfl, hc⟩ | ⟨rfl, hs⟩
    · refine Or.inl ⟨children, rfl, fun i => ih i (hc i) fun x hx => heq x ?_⟩
      exact List.mem_flatMap.mpr ⟨i, List.mem_finRange i, hx⟩
    · exact Or.inr ⟨rfl, hs.congr heq⟩

/-- The pending nodes of a loaded inner node are those of its branches. -/
theorem mem_pending_node {d : NodeData} {children : Fin 16 → RadixMerkleTreeNode} {a : Bool}
    {c : Fin 16 → MerkleTrie} {x : Uint256} :
    x ∈ pending sha (.node d children) (.inner a c) ↔ ∃ i, x ∈ pending sha (children i) (c i) := by
  rw [pending, List.mem_flatMap]
  simp

/-- Branches of a list without repetition have no member in common. -/
theorem branch_eq_of_nodup {f : Fin 16 → List Uint256}
    (h : ((List.finRange 16).flatMap f).Nodup) {i j : Fin 16} {x : Uint256} (hi : x ∈ f i)
    (hj : x ∈ f j) : i = j := by
  by_contra hne
  have hpair := (List.nodup_flatMap.mp h).2
  have : Std.Symm (Function.onFun List.Disjoint f) := ⟨fun _ _ hab => List.Disjoint.symm hab⟩
  exact hpair.forall (List.mem_finRange i) (List.mem_finRange j) hne hi hj

/-- Branches without repetition and without common members form a list without repetition. -/
theorem nodup_flatMap_of {f : Fin 16 → List Uint256} (h : ∀ i, (f i).Nodup)
    (hd : ∀ i j x, x ∈ f i → x ∈ f j → i = j) : ((List.finRange 16).flatMap f).Nodup := by
  rw [List.nodup_flatMap]
  refine ⟨fun i _ => h i, ?_⟩
  refine (List.nodup_finRange 16).imp ?_
  intro i j hij x hi hj
  exact hij (hd i j x hi hj)

/-- A step from one partly loaded tree to another over the same store: pending nodes are
only lost, a lost node's key is deleted, and every other key keeps its value. -/
structure Moves (sha : Bytes → Uint256) (db : Database) (n : RadixMerkleTreeNode)
    (t : MerkleTrie) (db' : Database) (n' : RadixMerkleTreeNode) (t' : MerkleTrie) : Prop extends
    db.Drains (pending sha n t) db' (pending sha n' t') where
  /-- The new pointer resolves to the new trie. -/
  resolves : Resolves sha db' n' t'
  /-- The new pending hashes are again without repetition. -/
  nodup : (pending sha n' t').Nodup

namespace Moves

variable {db db' db'' : Database} {n n' n'' : RadixMerkleTreeNode} {t t' t'' : MerkleTrie}

theorem refl (h : Resolves sha db n t) (hn : (pending sha n t).Nodup) :
    Moves sha db n t db n t where
  toDrains := .refl _ _
  resolves := h
  nodup := hn

theorem trans (h : Moves sha db n t db' n' t') (h' : Moves sha db' n' t' db'' n'' t'') :
    Moves sha db n t db'' n'' t'' where
  toDrains := h.toDrains.trans h'.toDrains
  resolves := h'.resolves
  nodup := h'.nodup

/-- A step that loses no pending node keeps the store. -/
theorem of_loaded (h : Resolves sha db n' t') (hp : pending sha n' t' = pending sha n t)
    (hn : (pending sha n t).Nodup) : Moves sha db n t db n' t' where
  resolves := h
  nodup := hp ▸ hn
  sub := by
    rw [hp]
    exact List.Subset.refl _
  kept := fun _ _ => rfl
  gone := fun _ hx hx' => absurd (hp ▸ hx) hx'

/-- A step below one branch is a step of the whole node. -/
theorem lift {a : Bool} {c : Fin 16 → MerkleTrie} {children : Fin 16 → RadixMerkleTreeNode}
    (hc : ∀ i, Resolves sha db (children i) (c i))
    (hn : (pending sha (.node (innerData sha a c) children) (.inner a c)).Nodup) {b : Fin 16}
    (h : Moves sha db (children b) (c b) db' n' t') :
    Moves sha db (.node (innerData sha a c) children) (.inner a c) db'
      (.node (innerData sha a (Function.update c b t')) (Function.update children b n'))
      (.inner a (Function.update c b t')) := by
  have hself : ∀ {i}, i = b → pending sha (Function.update children b n' i)
      (Function.update c b t' i) = pending sha n' t' := by
    rintro i rfl
    rw [Function.update_self, Function.update_self]
  have hother : ∀ {i}, i ≠ b → pending sha (Function.update children b n' i)
      (Function.update c b t' i) = pending sha (children i) (c i) := by
    intro i hi
    rw [Function.update_of_ne hi, Function.update_of_ne hi]
  -- No branch gains a pending node.
  have hsub : ∀ i, pending sha (Function.update children b n' i) (Function.update c b t' i) ⊆
      pending sha (children i) (c i) := by
    intro i
    by_cases hi : i = b
    · rw [hself hi, hi]
      exact h.sub
    · rw [hother hi]
      exact List.Subset.refl _
  refine ⟨⟨?_, ?_, ?_⟩, Or.inl ⟨_, rfl, fun i => ?_⟩, nodup_flatMap_of (fun i => ?_) ?_⟩
  · intro x hx
    obtain ⟨i, hi⟩ := mem_pending_node.mp hx
    exact mem_pending_node.mpr ⟨i, hsub i hi⟩
  · intro k hk
    refine h.kept k fun x hx hxk => ?_
    obtain ⟨i, hi⟩ := mem_pending_node.mp (hk x (mem_pending_node.mpr ⟨b, hx⟩) hxk)
    have hib := branch_eq_of_nodup hn (hsub i hi) hx
    rwa [hself hib] at hi
  · intro x hx hx'
    obtain ⟨i, hi⟩ := mem_pending_node.mp hx
    have hib : i = b := by
      by_contra hib
      exact hx' (mem_pending_node.mpr ⟨i, by rwa [hother hib]⟩)
    subst hib
    exact h.gone x hi fun hxn => hx' (mem_pending_node.mpr ⟨i, by rwa [hself rfl]⟩)
  · by_cases hi : i = b
    · subst hi
      rw [Function.update_self, Function.update_self]
      exact h.resolves
    · rw [Function.update_of_ne hi, Function.update_of_ne hi]
      refine (hc i).congr fun x hx => h.eq_of_notMem fun hy => ?_
      exact hi (branch_eq_of_nodup hn hx hy)
  · by_cases hi : i = b
    · rw [hself hi]
      exact h.nodup
    · rw [hother hi]
      exact (List.nodup_flatMap.mp hn).1 i (List.mem_finRange i)
  · intro i j x hi hj
    exact branch_eq_of_nodup hn (hsub i hi) (hsub j hj)

/-- Loading a stored node takes exactly its own key out of the store. -/
theorem of_stored (ht : t.isEmpty = false) (hs : Stored sha db t) (hn : (hashes sha t).Nodup) :
    ∃ d children, Database.fetch sha db (digest sha t) =
        .ok (Function.update db (digest sha t).toString none, .node d children) ∧
      Moves sha db .null t (Function.update db (digest sha t).toString none)
        (.node d children) t := by
  cases t with
  | empty => cases ht
  | leaf l =>
    obtain ⟨value, hv, hdb⟩ := hs
    refine ⟨l.data, RadixMerkleTreeNode.noChildren,
      Database.fetch_stored (shaped_leaf l) hv hdb, ⟨?_, ?_, ?_⟩, Or.inl rfl, List.nodup_nil⟩
    · exact List.nil_subset _
    · intro k hk
      refine Function.update_of_ne (fun hkl => ?_) _ _
      exact List.not_mem_nil (hk l.hash (List.mem_singleton.mpr rfl) hkl.symm)
    · intro x hx _
      rw [List.mem_singleton.mp hx]
      exact Function.update_self _ _ _
  | inner a c =>
    obtain ⟨⟨value, hv, hdb⟩, hc⟩ := hs
    obtain ⟨hnot, hrest⟩ := List.nodup_cons.mp hn
    have hpend : pending sha (.node (innerData sha a c) RadixMerkleTreeNode.noChildren)
        (.inner a c) = (List.finRange 16).flatMap fun i => hashes sha (c i) := by
      rw [pending]
      simp only [RadixMerkleTreeNode.noChildren, pending_null]
    refine ⟨innerData sha a c, RadixMerkleTreeNode.noChildren,
      Database.fetch_stored (shaped_inner a c) hv hdb, ⟨?_, ?_, ?_⟩,
      Or.inl ⟨_, rfl, fun i => ?_⟩, ?_⟩
    · rw [hpend]
      exact List.subset_cons_self _ _
    · intro k hk
      refine Function.update_of_ne (fun hkd => ?_) _ _
      have hin := hk (digest sha (.inner a c)) List.mem_cons_self hkd.symm
      rw [hpend] at hin
      exact hnot hin
    · intro x hx hx'
      rw [hpend] at hx'
      rcases List.mem_cons.mp hx with rfl | hx
      · exact Function.update_self _ _ _
      · exact absurd hx hx'
    · refine resolves_null.mpr ((hc i).congr fun x hx => Function.update_of_ne (fun he => ?_) _ _)
      rw [Uint256.toString_injective he] at hx
      exact hnot (List.mem_flatMap.mpr ⟨i, List.mem_finRange i, hx⟩)
    · rwa [hpend]

/-- Descending into a branch that is not empty yields its loaded node. -/
theorem of_descend {a : Bool} {c : Fin 16 → MerkleTrie}
    {children : Fin 16 → RadixMerkleTreeNode} {b : Fin 16}
    (hc : Resolves sha db (children b) (c b)) (hn : (pending sha (children b) (c b)).Nodup)
    (hb : (c b).isEmpty = false) :
    ∃ db' d cs, RadixMerkleTree.descend sha db (innerData sha a c) children b =
        .ok (db', .node d cs) ∧ Moves sha db (children b) (c b) db' (.node d cs) (c b) := by
  rw [RadixMerkleTree.descend]
  cases hnode : children b with
  | null =>
    rw [hnode] at hc hn
    rw [pending_null] at hn
    obtain ⟨d, cs, hfetch, hmoves⟩ := of_stored hb (resolves_null.mp hc) hn
    exact ⟨_, d, cs, hfetch, hmoves⟩
  | node d cs =>
    rw [hnode] at hc hn
    exact ⟨db, d, cs, rfl, refl hc hn⟩

end Moves

end MerkleTrie

end Bubi
