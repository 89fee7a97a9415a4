import Bubi.Tree.Resolution

/-!
# The tree operations refine the trie operations

Each operation on a partly loaded tree does what its pointer-free counterpart does on
the trie that the tree resolves to, fault by fault. The walks are compared along the
trie; the explicit stack is compared with the recursion by showing that an operation
below a stack is the operation on the node at hand followed by `dirty_up`.
-/

namespace Bubi

open Bubi.Core

namespace MerkleTrie

variable {sha : Bytes → Uint256} {db : Database}

/-- A pointer that is not null. -/
def Loaded : RadixMerkleTreeNode → Prop
  | .null => False
  | .node _ _ => True

/-- A loaded pointer resolves to a trie that is not empty and carries its digest. -/
theorem Resolves.hash_eq {d : NodeData} {children : Fin 16 → RadixMerkleTreeNode} {t : MerkleTrie}
    (h : Resolves sha db (.node d children) t) : d.hash = digest sha t ∧ t.isEmpty = false := by
  cases t with
  | empty => cases h
  | leaf l =>
    rcases h with h | ⟨h, _⟩
    · cases h
      exact ⟨rfl, rfl⟩
    · cases h
  | inner a c =>
    rcases h with ⟨cs, h, _⟩ | ⟨h, _⟩
    · cases h
      exact ⟨rfl, rfl⟩
    · cases h

theorem isInner_leaf (l : LeafNode) : l.data.isInner = false := by
  simp [NodeData.isInner, LeafNode.data, leafType_ne_inner]

theorem isInner_innerData (a : Bool) (c : Fin 16 → MerkleTrie) :
    (innerData sha a c).isInner = true := rfl

theorem getHash_of_resolves {n : RadixMerkleTreeNode} {t : MerkleTrie} (hl : Loaded n)
    (h : Resolves sha db n t) : RadixMerkleTree.getHash n = .ok (digest sha t) := by
  cases n with
  | null => exact hl.elim
  | node d children => rw [RadixMerkleTree.getHash, h.hash_eq.1]

theorem Resolves.isEmpty_eq {n : RadixMerkleTreeNode} {t : MerkleTrie}
    (h : Resolves sha db n t) (hl : Loaded n) : t.isEmpty = false := by
  cases n with
  | null => exact hl.elim
  | node d children => exact h.hash_eq.2

/-- The pending nodes of one branch of a loaded node are without repetition. -/
theorem nodup_branch {d : NodeData} {children : Fin 16 → RadixMerkleTreeNode} {a : Bool}
    {c : Fin 16 → MerkleTrie} (hn : (pending sha (.node d children) (.inner a c)).Nodup)
    (b : Fin 16) : (pending sha (children b) (c b)).Nodup :=
  (List.nodup_flatMap.mp hn).1 b (List.mem_finRange b)

/-- A walk finds the leaf that the trie has, and loads nodes on its way. -/
theorem walk_rel (hash : Uint256) {t : MerkleTrie} {d : NodeData}
    {children : Fin 16 → RadixMerkleTreeNode} {fuel depth : ℕ}
    (h : Resolves sha db (.node d children) t) (hn : (pending sha (.node d children) t).Nodup)
    (hfuel : 65 ≤ depth + fuel) (hdepth : depth ≤ 64) :
    Rel (fun w r => w.2.2 = r.map LeafNode.data ∧ Loaded w.2.1 ∧
        Moves sha db (.node d children) t w.1 w.2.1 t)
      (RadixMerkleTree.walk sha hash fuel db (.node d children) depth) (walk hash depth t) := by
  induction t generalizing db d children fuel depth with
  | empty => cases h
  | leaf l =>
    obtain ⟨fuel, rfl⟩ : ∃ m, fuel = m + 1 := ⟨fuel - 1, by omega⟩
    rcases h with h | ⟨h, _⟩
    · cases h
      rw [RadixMerkleTree.walk, isInner_leaf]
      exact .ok ⟨rfl, trivial, Moves.refl (Or.inl rfl) hn⟩
    · cases h
  | inner a c ih =>
    obtain ⟨fuel, rfl⟩ : ∃ m, fuel = m + 1 := ⟨fuel - 1, by omega⟩
    rcases h with ⟨cs, h, hc⟩ | ⟨h, _⟩
    · cases h
      rw [RadixMerkleTree.walk, isInner_innerData, walk]
      rcases Nat.lt_or_ge depth 64 with hlt | hge
      · rw [selectBranch_of_lt hash hlt]
        simp only [ite_true, ok_bind]
        set b := radix.digit hash depth
        rw [isEmptyBranch_innerData]
        cases hb : (c b).isEmpty with
        | true =>
          rw [Trie.isEmpty_iff.mp hb, walk]
          exact .ok ⟨rfl, trivial, Moves.refl (Or.inl ⟨_, rfl, hc⟩) hn⟩
        | false =>
          obtain ⟨db', e, es, hdesc, hmove⟩ :=
            Moves.of_descend (a := a) (hc b) (nodup_branch hn b) hb
          have hrec :=
            @ih b db' e es fuel (depth + 1) hmove.resolves hmove.nodup (by omega) (by omega)
          simp only [Bool.false_eq_true, ite_false, hdesc, ok_bind]
          rw [← bind_pure (walk hash (depth + 1) (c b))]
          refine hrec.bind fun w r hw => .ok ⟨hw.1, trivial, ?_⟩
          have hlift := Moves.lift hc hn (hmove.trans hw.2.2)
          rwa [Function.update_eq_self] at hlift
      · rw [selectBranch_of_ge hash hge]
        exact .error _
    · cases h

/-- Recording a child's digest is recording the digests of the new branching. -/
theorem update_digest (c : Fin 16 → MerkleTrie) (b : Fin 16) (t : MerkleTrie) :
    Function.update (fun i => digest sha (c i)) b (digest sha t) =
      fun i => digest sha (Function.update c b t i) := by
  funext i
  by_cases hi : i = b
  · subst hi
    rw [Function.update_self, Function.update_self]
  · rw [Function.update_of_ne hi, Function.update_of_ne hi]

/-- `set_child` on an inner record with any cached hash rebuilds the inner node. -/
theorem setChild_eq (old : Uint256) (a : Bool) (c : Fin 16 → MerkleTrie)
    (children : Fin 16 → RadixMerkleTreeNode) (child : RadixMerkleTreeNode) (b : Fin 16)
    {t : MerkleTrie} (ht : t.isEmpty = false) :
    RadixMerkleTree.setChild sha (.node (innerFields old a c fun i => digest sha (c i)) children)
        child (digest sha t) b =
      rebuild sha old a c b t >>= fun _ => .ok (.node (innerData sha a (Function.update c b t))
        (Function.update children b child)) := by
  have hset : (innerFields old a c fun i => digest sha (c i)).setChild sha (digest sha t) b =
      (innerFields old a (Function.update c b t)
        fun i => digest sha (Function.update c b t i)).updateHash sha := by
    simp only [NodeData.setChild, innerFields, update_digest, mask_update c b ht]
  have hinput : (innerFields old a (Function.update c b t)
      fun i => digest sha (Function.update c b t i)).hashInput =
        .ok (innerInput a (Function.update c b t) fun i => digest sha (Function.update c b t i)) :=
    rfl
  rw [RadixMerkleTree.setChild, hset, NodeData.updateHash_of_input sha hinput, rebuild]
  change (ite (old = digest sha (.inner a (Function.update c b t))) _ _ >>= _) = _
  by_cases hold : old = digest sha (.inner a (Function.update c b t))
  · rw [if_pos hold, if_pos hold]
    rfl
  · rw [if_neg hold, if_neg hold]
    rfl

/-- A rebuilt node is the branching with its new child. -/
theorem rebuild_bind {α : Type} {old : Uint256} {a : Bool} {c : Fin 16 → MerkleTrie} {b : Fin 16}
    {t : MerkleTrie} (f : MerkleTrie → Except Fault α) :
    rebuild sha old a c b t >>= f =
      rebuild sha old a c b t >>= fun _ => f (.inner a (Function.update c b t)) := by
  rw [rebuild]
  split <;> rfl

/-- Attaching a loaded subtree to a loaded node. -/
theorem embed_update (a : Bool) (c : Fin 16 → MerkleTrie) (b : Fin 16) (t : MerkleTrie) :
    .node (innerData sha a (Function.update c b t))
        (Function.update (fun i => embed sha (c i)) b (embed sha t)) =
      embed sha (.inner a (Function.update c b t)) := by
  rw [embed]
  congr 1
  funext i
  by_cases hi : i = b
  · subst hi
    rw [Function.update_self, Function.update_self]
  · rw [Function.update_of_ne hi, Function.update_of_ne hi]

theorem loaded_embed {t : MerkleTrie} (ht : t.isEmpty = false) : Loaded (embed sha t) := by
  cases t with
  | empty => cases ht
  | leaf l => trivial
  | inner a c => trivial

/-- A leaf turned into an inner node keeps its flag and has no branches yet. -/
theorem makeInner_eq (sha : Bytes → Uint256) (d : NodeData) :
    d.makeInner = innerFields Uint256.zero d.isTransactionTree Trie.bare
      fun i => digest sha (Trie.bare i) := by
  simp only [NodeData.makeInner, innerFields, mask_bare, Trie.bare_apply, digest]
  rfl

theorem newLeaf_eq (sha : Bytes → Uint256) (item : RadixMerkleTreeLeaf) (isTransaction : Bool) :
    RadixMerkleTree.newLeaf item isTransaction =
      embed sha (.leaf (LeafNode.fresh isTransaction item)) := by
  cases isTransaction <;> rfl

/-- A split yields an inner node. -/
theorem exists_inner_of_split {new other : LeafNode} {fuel : ℕ} {a : Bool} {n : ℕ} {t : MerkleTrie}
    (h : split sha new other fuel a n = .ok t) : ∃ c, t = .inner a c := by
  cases fuel with
  | zero => cases h
  | succ fuel =>
    have hrebuild : ∀ {old : Uint256} {c : Fin 16 → MerkleTrie} {b : Fin 16} {s : MerkleTrie},
        rebuild sha old a c b s = .ok t → ∃ c, t = .inner a c := by
      intro old c b s hr
      rw [rebuild] at hr
      split at hr
      · cases hr
      · cases hr
        exact ⟨_, rfl⟩
    rw [split] at h
    obtain ⟨b1, _, h⟩ := bind_eq_ok.mp h
    obtain ⟨b2, _, h⟩ := bind_eq_ok.mp h
    split at h
    · obtain ⟨s, _, h⟩ := bind_eq_ok.mp h
      exact hrebuild h
    · obtain ⟨s, _, h⟩ := bind_eq_ok.mp h
      exact hrebuild h

theorem isEmpty_split {new other : LeafNode} {fuel : ℕ} {a : Bool} {n : ℕ} {t : MerkleTrie}
    (h : split sha new other fuel a n = .ok t) : t.isEmpty = false := by
  obtain ⟨c, rfl⟩ := exists_inner_of_split h
  rfl

/-- `set_child` of a loaded subtree on a loaded node. -/
theorem setChild_embed (old : Uint256) (a : Bool) (c : Fin 16 → MerkleTrie) (b : Fin 16)
    {t : MerkleTrie} (ht : t.isEmpty = false) :
    RadixMerkleTree.setChild sha
        (.node (innerFields old a c fun i => digest sha (c i)) fun i => embed sha (c i))
        (embed sha t) (digest sha t) b =
      rebuild sha old a c b t >>= fun s => .ok (embed sha s) := by
  rw [setChild_eq old a c _ _ b ht, rebuild_bind fun s => .ok (embed sha s), ← embed_update]

/-- `set_child` of a new leaf on a loaded node. -/
theorem setChild_newLeaf (sha : Bytes → Uint256) (old : Uint256) (a : Bool)
    (c : Fin 16 → MerkleTrie) (b : Fin 16) (item : RadixMerkleTreeLeaf) (isTransaction : Bool) :
    RadixMerkleTree.setChild sha
        (.node (innerFields old a c fun i => digest sha (c i)) fun i => embed sha (c i))
        (RadixMerkleTree.newLeaf item isTransaction) item.index b =
      rebuild sha old a c b (.leaf (LeafNode.fresh isTransaction item)) >>=
        fun s => .ok (embed sha s) := by
  rw [newLeaf_eq sha]
  exact setChild_embed old a c b (t := .leaf (LeafNode.fresh isTransaction item)) rfl

/-- `dirty_up` through one more ancestor. -/
theorem dirtyUp_cons {index : Uint256} {old : Uint256} {a : Bool} {c : Fin 16 → MerkleTrie}
    {children : Fin 16 → RadixMerkleTreeNode} {depth : ℕ} {stack : RadixMerkleTree.Stack}
    {child : RadixMerkleTreeNode} {t : MerkleTrie} {b : Fin 16}
    (hb : selectBranch index depth = .ok b) (ht : t.isEmpty = false)
    (hh : RadixMerkleTree.getHash child = .ok (digest sha t)) :
    RadixMerkleTree.dirtyUp sha index
        ((.node (innerFields old a c fun i => digest sha (c i)) children, depth) :: stack) child =
      rebuild sha old a c b t >>= fun _ => RadixMerkleTree.dirtyUp sha index stack
        (.node (innerData sha a (Function.update c b t)) (Function.update children b child)) := by
  rw [RadixMerkleTree.dirtyUp]
  simp only [show (innerFields old a c fun i => digest sha (c i)).isInner = true from rfl, ite_true,
    hb, hh, ok_bind, setChild_eq old a c children child b ht]
  rw [bind_assoc]
  rfl

/-- The split loop, the two new leaves and `dirty_up` build the split of the trie. -/
theorem splitLoop_eq (item other : RadixMerkleTreeLeaf) (isTransaction : Bool) (fuel : ℕ) (a : Bool)
    (depth : ℕ) (stack : RadixMerkleTree.Stack) :
    (do
      let s ← RadixMerkleTree.splitLoop sha item.index other.index fuel
        (innerFields Uint256.zero a Trie.bare fun i => digest sha (Trie.bare i)) depth stack
      let node ← RadixMerkleTree.setChild sha (.node s.1 RadixMerkleTreeNode.noChildren)
        (RadixMerkleTree.newLeaf item isTransaction) item.index s.2.1
      let node ← RadixMerkleTree.setChild sha node
        (RadixMerkleTree.newLeaf other isTransaction) other.index s.2.2.1
      RadixMerkleTree.dirtyUp sha item.index s.2.2.2 node) =
    split sha (LeafNode.fresh isTransaction item) (LeafNode.fresh isTransaction other) fuel a depth
      >>= fun t => RadixMerkleTree.dirtyUp sha item.index stack (embed sha t) := by
  induction fuel generalizing a depth stack with
  | zero => rfl
  | succ fuel ih =>
    rw [RadixMerkleTree.splitLoop, split]
    rcases Nat.lt_or_ge depth 64 with hlt | hge
    · simp only [LeafNode.fresh_key, selectBranch_of_lt _ hlt, ok_bind]
      by_cases hd : radix.digit item.index depth = radix.digit other.index depth
      · rw [if_pos hd, if_pos hd, makeInner_eq sha]
        refine (ih false (depth + 1)
          ((.node (innerFields Uint256.zero a Trie.bare fun i => digest sha (Trie.bare i))
            RadixMerkleTreeNode.noChildren, depth) :: stack)).trans ?_
        rw [bind_assoc]
        cases hs : split sha (LeafNode.fresh isTransaction item)
            (LeafNode.fresh isTransaction other) fuel false (depth + 1) with
        | error f => rfl
        | ok t =>
          have ht := isEmpty_split hs
          have hh := getHash_of_resolves (loaded_embed ht)
            (@resolves_embed sha (fun _ => none) t)
          simp only [ok_bind]
          rw [dirtyUp_cons (selectBranch_of_lt _ hlt) ht hh,
            rebuild_bind fun s => RadixMerkleTree.dirtyUp sha item.index stack (embed sha s),
            ← embed_update]
          rfl
      · rw [if_neg hd, if_neg hd]
        simp only [ok_bind]
        have hfirst := setChild_newLeaf sha Uint256.zero a Trie.bare
          (radix.digit item.index depth) item isTransaction
        have hsecond := setChild_newLeaf sha
          (digest sha (.inner a (Function.update Trie.bare (radix.digit item.index depth)
            (.leaf (LeafNode.fresh isTransaction item))))) a
          (Function.update Trie.bare (radix.digit item.index depth)
            (.leaf (LeafNode.fresh isTransaction item)))
          (radix.digit other.index depth) other isTransaction
        change (RadixMerkleTree.setChild sha (.node _ fun i => embed sha (Trie.bare i)) _ _ _
          >>= _) = _
        rw [hfirst, bind_assoc, bind_assoc, rebuild_bind]
        conv_rhs => rw [rebuild_bind]
        simp only [ok_bind]
        congr 1
        funext _
        change (RadixMerkleTree.setChild sha (.node (innerFields _ _ _ _) _) _ _ _ >>= _) = _
        rw [hsecond, bind_assoc]
        rfl
    · simp only [LeafNode.fresh_key, selectBranch_of_ge _ hge, error_bind]

section Stack

variable {hash : Uint256} {a : Bool} {c : Fin 16 → MerkleTrie}
  {children : Fin 16 → RadixMerkleTreeNode} {fuel depth : ℕ} {stack : RadixMerkleTree.Stack}
  {b : Fin 16}

/-- `get_stack` ends at a leaf. -/
theorem getStackLoop_leaf (l : LeafNode) :
    RadixMerkleTree.getStackLoop sha hash (fuel + 1) db (.node l.data children) depth stack =
      .ok (db, (.node l.data children, depth) :: stack) := by
  rw [RadixMerkleTree.getStackLoop, isInner_leaf]
  rfl

/-- `get_stack` ends at an empty branch. -/
theorem getStackLoop_empty (hsel : selectBranch hash depth = .ok b) (hb : (c b).isEmpty = true) :
    RadixMerkleTree.getStackLoop sha hash (fuel + 1) db (.node (innerData sha a c) children) depth
        stack = .ok (db, (.node (innerData sha a c) children, depth) :: stack) := by
  rw [RadixMerkleTree.getStackLoop, isInner_innerData]
  simp only [ite_true, hsel, ok_bind, isEmptyBranch_innerData, hb]

/-- `get_stack` continues with a descended child. -/
theorem getStackLoop_descend (hsel : selectBranch hash depth = .ok b)
    (hb : (c b).isEmpty = false) {db' : Database} {child : RadixMerkleTreeNode}
    (hdesc : RadixMerkleTree.descend sha db (innerData sha a c) children b = .ok (db', child)) :
    RadixMerkleTree.getStackLoop sha hash (fuel + 1) db (.node (innerData sha a c) children) depth
        stack =
      RadixMerkleTree.getStackLoop sha hash fuel db' child (depth + 1)
        ((.node (innerData sha a c) (Function.update children b child), depth) :: stack) := by
  rw [RadixMerkleTree.getStackLoop, isInner_innerData]
  simp only [ite_true, hsel, ok_bind, isEmptyBranch_innerData, hb, Bool.false_eq_true, ite_false,
    hdesc]

/-- `get_stack` leaves the index behind its last half-byte. -/
theorem getStackLoop_outOfRange (hdepth : 64 ≤ depth) :
    RadixMerkleTree.getStackLoop sha hash (fuel + 1) db (.node (innerData sha a c) children) depth
        stack = .error .outOfRange := by
  rw [RadixMerkleTree.getStackLoop, isInner_innerData]
  simp only [ite_true, selectBranch_of_ge hash hdepth, error_bind]

variable {item : RadixMerkleTreeLeaf} {isTransaction : Bool}

/-- Adding at a leaf splits it. -/
theorem addAtStack_leaf (l : LeafNode) :
    RadixMerkleTree.addAtStack sha item isTransaction
        ((.node l.data RadixMerkleTreeNode.noChildren, depth) :: stack) =
      if item.index = l.key then .error .assertion
      else split sha (LeafNode.fresh isTransaction item) (LeafNode.fresh isTransaction l.item)
        (64 - depth) l.isTransactionTree depth >>=
          fun t => RadixMerkleTree.dirtyUp sha item.index stack (embed sha t) := by
  rw [RadixMerkleTree.addAtStack, isInner_leaf]
  simp only [Bool.false_eq_true, ite_false]
  change (if item.index = l.item.index then _ else _) = _
  rw [makeInner_eq sha l.data]
  exact if_congr Iff.rfl rfl (splitLoop_eq item l.item isTransaction _ _ depth stack)

/-- Adding at an empty branch attaches a new leaf. -/
theorem addAtStack_empty (hsel : selectBranch item.index depth = .ok b)
    (hb : (c b).isEmpty = true) :
    RadixMerkleTree.addAtStack sha item isTransaction
        ((.node (innerData sha a c) children, depth) :: stack) =
      rebuild sha (digest sha (.inner a c)) a c b (.leaf (LeafNode.fresh isTransaction item)) >>=
        fun _ => RadixMerkleTree.dirtyUp sha item.index stack (.node
          (innerData sha a (Function.update c b (.leaf (LeafNode.fresh isTransaction item))))
          (Function.update children b (RadixMerkleTree.newLeaf item isTransaction))) := by
  have hset := @setChild_eq sha (digest sha (.inner a c)) a c children
    (RadixMerkleTree.newLeaf item isTransaction) b (.leaf (LeafNode.fresh isTransaction item)) rfl
  rw [RadixMerkleTree.addAtStack, isInner_innerData]
  simp only [ite_true, hsel, ok_bind, isEmptyBranch_innerData, hb]
  refine (congrArg (· >>= _) hset).trans ?_
  rw [bind_assoc]
  rfl

end Stack

/-- A rebuilt node relates what follows it when its hash changed, and fails otherwise. -/
theorem rel_rebuild_bind {α β : Type} {P : α → β → Prop} {old : Uint256} {a : Bool}
    {c : Fin 16 → MerkleTrie} {b : Fin 16} {t : MerkleTrie} {v : α}
    {f : MerkleTrie → β} (h : P v (f (.inner a (Function.update c b t)))) :
    Rel P (rebuild sha old a c b t >>= fun _ => .ok v)
      (rebuild sha old a c b t >>= fun s => .ok (f s)) := by
  rw [rebuild]
  split
  · exact .error _
  · exact .ok h

/-- A leaf record is digested as its item and type say. -/
theorem hashInput_leaf (l : LeafNode) : l.data.hashInput = .ok l.input := by
  obtain ⟨hash, flag, isTransaction, item⟩ := l
  cases isTransaction with
  | true => simp [NodeData.hashInput, LeafNode.data, leafType, LeafNode.input]
  | false => simp [NodeData.hashInput, LeafNode.data, leafType, LeafNode.input]

/-- `set_item` on a leaf, and whether its hash changed. -/
theorem setItem_leaf (l : LeafNode) (item : RadixMerkleTreeLeaf) (isTransaction : Bool) :
    l.data.setItem sha item (leafType isTransaction) =
      .ok ((l.setItem sha isTransaction item).data,
        decide (l.hash ≠ (l.setItem sha isTransaction item).hash)) := by
  have hinput := hashInput_leaf { l with isTransaction, item }
  have hset : l.data.setItem sha item (leafType isTransaction) =
      NodeData.updateHash sha ({ l with isTransaction, item : LeafNode }).data := rfl
  rw [hset, NodeData.updateHash_of_input sha hinput]
  change ite (l.hash = (l.setItem sha isTransaction item).hash) _ _ = _
  by_cases hh : l.hash = (l.setItem sha isTransaction item).hash
  · rw [if_pos hh, decide_eq_false (not_not.mpr hh)]
    simp only [LeafNode.data, hh]
    rfl
  · rw [if_neg hh, decide_eq_true hh]
    rfl

/-- A branch exchanged for one of the same digest leaves the record of its parent. -/
theorem innerData_update {a : Bool} {c : Fin 16 → MerkleTrie} {b : Fin 16} {t : MerkleTrie}
    (hd : digest sha t = digest sha (c b)) (hb : (c b).isEmpty = false)
    (ht : t.isEmpty = false) : innerData sha a (Function.update c b t) = innerData sha a c := by
  have hhash : (fun i => digest sha (Function.update c b t i)) = fun i => digest sha (c i) := by
    rw [← update_digest, hd, Function.update_eq_self_iff]
  have hmask : mask (Function.update c b t) = mask c := by
    have hself := mask_update c b hb
    rw [Function.update_eq_self] at hself
    rw [mask_update c b ht, ← hself]
  have hinput : ∀ x, innerFields x a (Function.update c b t)
      (fun i => digest sha (Function.update c b t i)) =
        innerFields x a c fun i => digest sha (c i) := by
    intro x
    rw [innerFields, innerFields, hmask, hhash]
  have hdigest : digest sha (.inner a (Function.update c b t)) = digest sha (.inner a c) := by
    rw [digest, digest, innerInput, innerInput, hinput]
  rw [innerData, innerData, hdigest, hinput]

/-- An update that reports no change leaves the digest. -/
theorem digest_of_unchanged {item : RadixMerkleTreeLeaf} {isTransaction : Bool} {n : ℕ}
    {t t' : MerkleTrie} (h : update sha item isTransaction n t = .ok (t', false)) :
    digest sha t' = digest sha t ∧ t.isEmpty = false ∧ t'.isEmpty = false := by
  induction t generalizing n t' with
  | empty => cases h
  | leaf l =>
    rw [update] at h
    split at h
    · simp only [Except.ok.injEq, Prod.mk.injEq, decide_eq_false_iff_not, not_not] at h
      obtain ⟨rfl, hh⟩ := h
      exact ⟨hh.symm, rfl, rfl⟩
    · cases h
  | inner a c ih =>
    rw [update] at h
    obtain ⟨b, _, h⟩ := bind_eq_ok.mp h
    obtain ⟨⟨s, changed⟩, hs, h⟩ := bind_eq_ok.mp h
    cases changed with
    | true =>
      obtain ⟨_, _, h⟩ := bind_eq_ok.mp h
      cases h
    | false =>
      cases h
      obtain ⟨hd, hb, hs⟩ := ih b hs
      exact ⟨congrArg NodeData.hash (innerData_update hd hb hs), rfl, rfl⟩

/-- The ancestors of an updated leaf: rehashed when its hash changed, else as they are. -/
def ascend (sha : Bytes → Uint256) (changed : Bool) (index : Uint256)
    (stack : RadixMerkleTree.Stack) (child : RadixMerkleTreeNode) :
    Except Fault RadixMerkleTreeNode :=
  if changed then RadixMerkleTree.dirtyUp sha index stack child
  else RadixMerkleTree.relink index stack child

/-- The ancestors of a changed node, one of them first. -/
theorem ascend_cons {changed : Bool} {index : Uint256} {p : RadixMerkleTreeNode × ℕ}
    {stack : RadixMerkleTree.Stack} {child : RadixMerkleTreeNode} :
    ascend sha changed index (p :: stack) child =
      ascend sha changed index [p] child >>= ascend sha changed index stack := by
  obtain ⟨n, depth⟩ := p
  cases changed with
  | true =>
    cases n with
    | null => rfl
    | node d children =>
      change RadixMerkleTree.dirtyUp sha index _ child =
        RadixMerkleTree.dirtyUp sha index _ child >>= RadixMerkleTree.dirtyUp sha index stack
      rw [RadixMerkleTree.dirtyUp, RadixMerkleTree.dirtyUp]
      split
      · simp only [RadixMerkleTree.dirtyUp, bind_assoc, ok_bind]
      · rfl
  | false =>
    cases n with
    | null => rfl
    | node d children =>
      change RadixMerkleTree.relink index _ child =
        RadixMerkleTree.relink index _ child >>= RadixMerkleTree.relink index stack
      simp only [RadixMerkleTree.relink, bind_assoc, ok_bind]

/-- An outcome at a node: what became of its trie, and whether its hash changed. -/
abbrev Yields (sha : Bytes → Uint256) (db : Database) (n : RadixMerkleTreeNode) (t : MerkleTrie) :
    Except Fault (Database × RadixMerkleTreeNode × Bool) →
      Except Fault (MerkleTrie × Bool) → Prop :=
  Rel fun p r => p.2.2 = r.2 ∧ Loaded p.2.1 ∧ Moves sha db n t p.1 p.2.1 r.1

/-- An updated branch below its parent: the parent is rebuilt, or kept with its record. -/
theorem rel_ascend {index : Uint256} {a : Bool} {c : Fin 16 → MerkleTrie}
    {children : Fin 16 → RadixMerkleTreeNode} {depth : ℕ} {b : Fin 16} {db' : Database}
    {node child : RadixMerkleTreeNode} {t' : MerkleTrie} {changed : Bool}
    (hsel : selectBranch index depth = .ok b) (hc : ∀ i, Resolves sha db (children i) (c i))
    (hn : (pending sha (.node (innerData sha a c) children) (.inner a c)).Nodup)
    (hb : (c b).isEmpty = false) (hload : Loaded node)
    (hmoves : Moves sha db (children b) (c b) db' node t')
    (hsame : changed = false →
      digest sha t' = digest sha (c b) ∧ (c b).isEmpty = false ∧ t'.isEmpty = false) :
    Yields sha db (.node (innerData sha a c) children) (.inner a c)
      (ascend sha changed index
        [(.node (innerData sha a c) (Function.update children b child), depth)] node >>=
          fun n => .ok (db', n, changed))
      (if changed then do
        let t ← rebuild sha (digest sha (.inner a c)) a c b t'
        .ok (t, true)
      else .ok (.inner a (Function.update c b t'), false)) := by
  have hlift := Moves.lift hc hn hmoves
  cases changed with
  | true =>
    change Rel _ (RadixMerkleTree.dirtyUp sha index _ node >>= _) _
    rw [innerData, dirtyUp_cons hsel (hmoves.resolves.isEmpty_eq hload)
      (getHash_of_resolves hload hmoves.resolves), bind_assoc, if_pos rfl]
    refine rel_rebuild_bind (f := fun s => (s, true)) ?_
    refine ⟨rfl, trivial, ?_⟩
    rw [Function.update_idem]
    exact hlift
  | false =>
    obtain ⟨hd, _, ht'⟩ := hsame rfl
    rw [innerData_update hd hb ht'] at hlift
    change Rel _ (RadixMerkleTree.relink index _ node >>= _) _
    rw [RadixMerkleTree.relink, hsel, if_neg Bool.false_ne_true]
    refine .ok ⟨rfl, trivial, ?_⟩
    rw [Function.update_idem]
    exact hlift

section Factored

variable {index : Uint256} {finish : RadixMerkleTree.Stack → Except Fault RadixMerkleTreeNode}
  {a : Bool} {c : Fin 16 → MerkleTrie} {children : Fin 16 → RadixMerkleTreeNode} {fuel depth : ℕ}
  {b : Fin 16} {spec : Except Fault (MerkleTrie × Bool)}

/-- The descent of `get_stack` and a change at its end, below any stack, are an outcome at
the node at hand and then its ancestors. -/
def Factored (sha : Bytes → Uint256) (index : Uint256)
    (finish : RadixMerkleTree.Stack → Except Fault RadixMerkleTreeNode) (fuel : ℕ) (db : Database)
    (n : RadixMerkleTreeNode) (depth : ℕ) (t : MerkleTrie)
    (spec : Except Fault (MerkleTrie × Bool)) : Prop :=
  ∃ y, Yields sha db n t y spec ∧
    ∀ stack, (do
      let s ← RadixMerkleTree.getStackLoop sha index fuel db n depth stack
      let r ← finish s.2
      Except.ok (s.1, r)) =
    y >>= fun p => ascend sha p.2.2 index stack p.2.1 >>= fun r => .ok (p.1, r)

theorem factored_outOfRange (hdepth : 64 ≤ depth) :
    Factored sha index finish (fuel + 1) db (.node (innerData sha a c) children) depth (.inner a c)
      (.error .outOfRange) := by
  refine ⟨.error .outOfRange, .error _, fun stack => ?_⟩
  simp only [getStackLoop_outOfRange hdepth, error_bind]

/-- A change below a descended child is a change at the child and then at its parent. -/
theorem Factored.descend (hsel : selectBranch index depth = .ok b)
    (hc : ∀ i, Resolves sha db (children i) (c i))
    (hn : (pending sha (.node (innerData sha a c) children) (.inner a c)).Nodup)
    (hb : (c b).isEmpty = false)
    (hsame : ∀ t', spec = .ok (t', false) →
      digest sha t' = digest sha (c b) ∧ (c b).isEmpty = false ∧ t'.isEmpty = false)
    (ih : ∀ db' e es, Resolves sha db' (.node e es) (c b) →
      (pending sha (.node e es) (c b)).Nodup →
        Factored sha index finish fuel db' (.node e es) (depth + 1) (c b) spec) :
    Factored sha index finish (fuel + 1) db (.node (innerData sha a c) children) depth (.inner a c)
      (spec >>= fun r =>
        if r.2 then do
          let t ← rebuild sha (digest sha (.inner a c)) a c b r.1
          .ok (t, true)
        else .ok (.inner a (Function.update c b r.1), false)) := by
  obtain ⟨db', e, es, hdesc, hmove⟩ := Moves.of_descend (a := a) (hc b) (nodup_branch hn b) hb
  obtain ⟨y, hy, hfactor⟩ := ih db' e es hmove.resolves hmove.nodup
  refine ⟨y >>= fun p => ascend sha p.2.2 index
    [(.node (innerData sha a c) (Function.update children b (.node e es)), depth)] p.2.1 >>=
      fun node => .ok (p.1, node, p.2.2), ?_, fun stack => ?_⟩
  · cases hspec : spec with
    | error f =>
      rw [hspec] at hy
      cases hy
      exact .error f
    | ok r =>
      obtain ⟨t', changed⟩ := r
      rw [hspec] at hy
      cases hy with
      | @ok p _ hp =>
        obtain ⟨db'', node, _⟩ := p
        obtain ⟨rfl, hload, hmoves⟩ := hp
        exact rel_ascend hsel hc hn hb hload (hmove.trans hmoves) fun hch => hsame t' (hch ▸ hspec)
  · simp only [getStackLoop_descend hsel hb hdesc]
    rw [hfactor, bind_assoc]
    congr 1
    funext p
    rw [ascend_cons, bind_assoc, bind_assoc]
    simp only [ok_bind]

/-- At the root there are no ancestors. -/
theorem Factored.refines {n : RadixMerkleTreeNode} {t : MerkleTrie}
    (h : Factored sha index finish 65 db n 0 t spec) :
    Rel (fun s t' => Loaded s.2 ∧ Moves sha db n t s.1 s.2 t')
      (do
        let s ← RadixMerkleTree.getStack sha db n index
        let r ← finish s.2
        .ok (s.1, r))
      (spec >>= fun r => .ok r.1) := by
  obtain ⟨y, hy, hfactor⟩ := h
  have hroot := hfactor []
  have hascend : ∀ p : Database × RadixMerkleTreeNode × Bool,
      (ascend sha p.2.2 index [] p.2.1 >>= fun r => Except.ok (p.1, r)) = .ok (p.1, p.2.1) := by
    rintro ⟨_, _, changed⟩
    cases changed <;> rfl
  simp only [hascend] at hroot
  rw [RadixMerkleTree.getStack, hroot]
  exact hy.bind fun p r hp => .ok hp.2

/-- An insertion that ends at a leaf splits it. -/
theorem factored_add_leaf (item : RadixMerkleTreeLeaf) (isTransaction : Bool) (l : LeafNode)
    (hn : (pending sha (.node l.data RadixMerkleTreeNode.noChildren) (.leaf l)).Nodup) :
    Factored sha item.index (RadixMerkleTree.addAtStack sha item isTransaction) (fuel + 1) db
      (.node l.data RadixMerkleTreeNode.noChildren) depth (.leaf l)
      (add sha item isTransaction depth (.leaf l) >>= fun t' => .ok (t', true)) := by
  by_cases hkey : item.index = l.key
  · refine ⟨.error .assertion, ?_, fun stack => ?_⟩
    · rw [add, if_pos hkey]
      exact .error _
    · simp only [getStackLoop_leaf, ok_bind, addAtStack_leaf, if_pos hkey, error_bind]
  · refine ⟨split sha (LeafNode.fresh isTransaction item)
      (LeafNode.fresh isTransaction l.item) (64 - depth) l.isTransactionTree depth >>=
        fun s => .ok (db, embed sha s, true), ?_, fun stack => ?_⟩
    · rw [add, if_neg hkey]
      cases hs : split sha (LeafNode.fresh isTransaction item)
          (LeafNode.fresh isTransaction l.item) (64 - depth) l.isTransactionTree depth with
      | error f => exact .error f
      | ok s =>
        refine .ok ⟨rfl, loaded_embed (isEmpty_split hs), ?_⟩
        exact Moves.of_loaded (resolves_embed db s) (pending_embed s) hn
    · simp only [getStackLoop_leaf, ok_bind, addAtStack_leaf, if_neg hkey, bind_assoc]
      rfl

/-- An insertion that ends at an empty branch puts a leaf there. -/
theorem factored_add_empty (item : RadixMerkleTreeLeaf) (isTransaction : Bool)
    (hsel : selectBranch item.index depth = .ok b) (hb : (c b).isEmpty = true)
    (hc : ∀ i, Resolves sha db (children i) (c i))
    (hn : (pending sha (.node (innerData sha a c) children) (.inner a c)).Nodup) :
    Factored sha item.index (RadixMerkleTree.addAtStack sha item isTransaction) (fuel + 1) db
      (.node (innerData sha a c) children) depth (.inner a c)
      (add sha item isTransaction depth (.inner a c) >>= fun t' => .ok (t', true)) := by
  rw [add, hsel, ok_bind]
  have hcb := Trie.isEmpty_iff.mp hb
  refine ⟨rebuild sha (digest sha (.inner a c)) a c b
    (.leaf (LeafNode.fresh isTransaction item)) >>= fun _ => .ok (db, .node
      (innerData sha a (Function.update c b (.leaf (LeafNode.fresh isTransaction item))))
      (Function.update children b (RadixMerkleTree.newLeaf item isTransaction)), true),
    ?_, fun stack => ?_⟩
  · simp only [ok_bind, hcb, add]
    refine rel_rebuild_bind (f := fun s => (s, true)) ?_
    refine ⟨rfl, trivial, Moves.lift hc hn ?_⟩
    have hnull : children b = .null := by
      have hcb' := hc b
      rwa [hcb] at hcb'
    rw [hnull, hcb, newLeaf_eq sha]
    exact Moves.of_loaded (resolves_embed db _) (pending_embed _) List.nodup_nil
  · simp only [getStackLoop_empty hsel hb, ok_bind, addAtStack_empty hsel hb, bind_assoc]
    rfl

/-- An insertion below any stack. -/
theorem factored_add (item : RadixMerkleTreeLeaf) (isTransaction : Bool) {t : MerkleTrie}
    {d : NodeData} (h : Resolves sha db (.node d children) t)
    (hn : (pending sha (.node d children) t).Nodup) (hfuel : 65 ≤ depth + fuel)
    (hdepth : depth ≤ 64) :
    Factored sha item.index (RadixMerkleTree.addAtStack sha item isTransaction) fuel db
      (.node d children) depth t
      (add sha item isTransaction depth t >>= fun t' => .ok (t', true)) := by
  induction t generalizing db d children fuel depth with
  | empty => cases h
  | leaf l =>
    obtain ⟨fuel, rfl⟩ : ∃ m, fuel = m + 1 := ⟨fuel - 1, by omega⟩
    rcases h with h | ⟨h, _⟩
    · cases h
      exact factored_add_leaf item isTransaction l hn
    · cases h
  | inner a c ih =>
    obtain ⟨fuel, rfl⟩ : ∃ m, fuel = m + 1 := ⟨fuel - 1, by omega⟩
    rcases h with ⟨cs, h, hc⟩ | ⟨h, _⟩
    · cases h
      rcases Nat.lt_or_ge depth 64 with hlt | hge
      · have hsel := selectBranch_of_lt item.index hlt
        set b := radix.digit item.index depth
        cases hb : (c b).isEmpty with
        | true => exact factored_add_empty item isTransaction hsel hb hc hn
        | false =>
          have hchild := @Factored.descend _ db item.index
            (RadixMerkleTree.addAtStack sha item isTransaction) a c children fuel depth b
            (add sha item isTransaction (depth + 1) (c b) >>= fun t' => .ok (t', true))
            hsel hc hn hb
            (fun t' hfalse => by
              obtain ⟨_, _, hpair⟩ := bind_eq_ok.mp hfalse
              cases hpair)
            fun db' e es he hpending =>
              @ih b db' es fuel (depth + 1) e he hpending (by omega) (by omega)
          rw [add, hsel, ok_bind]
          simpa only [bind_assoc, ok_bind, ite_true] using hchild
      · rw [add, selectBranch_of_ge _ hge]
        exact factored_outOfRange hge
    · cases h

/-- Updating at a leaf changes its item when the index is its own. -/
theorem updateAtStack_leaf (l : LeafNode) {item : RadixMerkleTreeLeaf} {isTransaction : Bool}
    {depth : ℕ} {stack : RadixMerkleTree.Stack} :
    RadixMerkleTree.updateAtStack sha item isTransaction
        ((.node l.data RadixMerkleTreeNode.noChildren, depth) :: stack) =
      if l.key = item.index then
        ascend sha (decide (l.hash ≠ (l.setItem sha isTransaction item).hash)) item.index stack
          (embed sha (.leaf (l.setItem sha isTransaction item)))
      else .error .assertion := by
  rw [RadixMerkleTree.updateAtStack, isInner_leaf]
  simp only [Bool.false_eq_true, ite_false]
  change (if l.key = item.index then l.data.setItem sha item (leafType isTransaction) >>= _
    else _) = _
  rw [setItem_leaf]
  rfl

/-- An update below any stack. -/
theorem factored_update (item : RadixMerkleTreeLeaf) (isTransaction : Bool) {t : MerkleTrie}
    {d : NodeData} (h : Resolves sha db (.node d children) t)
    (hn : (pending sha (.node d children) t).Nodup) (hfuel : 65 ≤ depth + fuel)
    (hdepth : depth ≤ 64) :
    Factored sha item.index (RadixMerkleTree.updateAtStack sha item isTransaction) fuel db
      (.node d children) depth t (update sha item isTransaction depth t) := by
  induction t generalizing db d children fuel depth with
  | empty => cases h
  | leaf l =>
    obtain ⟨fuel, rfl⟩ : ∃ m, fuel = m + 1 := ⟨fuel - 1, by omega⟩
    rcases h with h | ⟨h, _⟩
    · cases h
      by_cases hkey : l.key = item.index
      · refine ⟨.ok (db, embed sha (.leaf (l.setItem sha isTransaction item)),
          decide (l.hash ≠ (l.setItem sha isTransaction item).hash)), ?_, fun stack => ?_⟩
        · rw [update, if_pos hkey]
          exact .ok ⟨rfl, trivial, Moves.of_loaded (resolves_embed db _) (pending_embed _) hn⟩
        · simp only [getStackLoop_leaf, ok_bind, updateAtStack_leaf, if_pos hkey]
      · refine ⟨.error .assertion, ?_, fun stack => ?_⟩
        · rw [update, if_neg hkey]
          exact .error _
        · simp only [getStackLoop_leaf, ok_bind, updateAtStack_leaf, if_neg hkey, error_bind]
    · cases h
  | inner a c ih =>
    obtain ⟨fuel, rfl⟩ : ∃ m, fuel = m + 1 := ⟨fuel - 1, by omega⟩
    rcases h with ⟨cs, h, hc⟩ | ⟨h, _⟩
    · cases h
      rcases Nat.lt_or_ge depth 64 with hlt | hge
      · have hsel := selectBranch_of_lt item.index hlt
        set b := radix.digit item.index depth
        rw [update, hsel, ok_bind]
        cases hb : (c b).isEmpty with
        | true =>
          refine ⟨.error .assertion, ?_, fun stack => ?_⟩
          · simp only [Trie.isEmpty_iff.mp hb, update, error_bind]
            exact .error _
          · simp only [getStackLoop_empty hsel hb, ok_bind, RadixMerkleTree.updateAtStack,
              isInner_innerData, ite_true, error_bind]
        | false =>
          exact Factored.descend hsel hc hn hb (fun _ => digest_of_unchanged)
            fun db' e es he hpending =>
              @ih b db' es fuel (depth + 1) e he hpending (by omega) (by omega)
      · rw [update, selectBranch_of_ge _ hge]
        exact factored_outOfRange hge
    · cases h

end Factored

section Operations

variable {n : RadixMerkleTreeNode} {t : MerkleTrie}

/-- A tree operation refines a trie operation. -/
abbrev Refines (sha : Bytes → Uint256) (db : Database) (n : RadixMerkleTreeNode) (t : MerkleTrie) :
    Except Fault (Database × RadixMerkleTreeNode) → Except Fault MerkleTrie → Prop :=
  Rel fun s t' => Loaded s.2 ∧ Moves sha db n t s.1 s.2 t'

/-- `add_item` inserts. -/
theorem addItem_refines (h : Resolves sha db n t) (hl : Loaded n) (hn : (pending sha n t).Nodup)
    (item : RadixMerkleTreeLeaf) (isTransaction : Bool) :
    Refines sha db n t (RadixMerkleTree.addItem sha db n item isTransaction)
      (add sha item isTransaction 0 t) := by
  cases n with
  | null => exact hl.elim
  | node d children =>
    have hadd := (factored_add item isTransaction h hn (show 65 ≤ 0 + 65 by omega)
      (by omega)).refines
    rw [bind_assoc] at hadd
    simp only [ok_bind] at hadd
    rwa [← bind_pure (add sha item isTransaction 0 t)]

/-- `update_given_item` replaces. -/
theorem updateGivenItem_refines (h : Resolves sha db n t) (hl : Loaded n)
    (hn : (pending sha n t).Nodup) (item : RadixMerkleTreeLeaf) (isTransaction : Bool) :
    Refines sha db n t (RadixMerkleTree.updateGivenItem sha db n item isTransaction)
      (update sha item isTransaction 0 t >>= fun r => .ok r.1) := by
  cases n with
  | null => exact hl.elim
  | node d children =>
    exact (factored_update item isTransaction h hn (show 65 ≤ 0 + 65 by omega) (by omega)).refines

/-- What a lookup makes of the leaf at the end of the walk. -/
def lookup {α : Type} (found : RadixMerkleTreeLeaf → Except Fault α) (hash : Uint256)
    (t : MerkleTrie) : Except Fault (Option α) := do
  match ← walk hash 0 t with
  | none => .ok none
  | some l => if l.key = hash then some <$> found l.item else .ok none

/-- A lookup of the tree is a lookup of the trie. -/
theorem lookup_rel (h : Resolves sha db n t) (hl : Loaded n) (hn : (pending sha n t).Nodup)
    {α : Type} (found : RadixMerkleTreeLeaf → Except Fault α) (hash : Uint256) :
    Rel (fun w r => w.2.2 = r ∧ Loaded w.2.1 ∧ Moves sha db n t w.1 w.2.1 t)
      (RadixMerkleTree.lookup sha found db n hash) (lookup found hash t) := by
  cases n with
  | null => exact hl.elim
  | node d children =>
    refine (walk_rel hash h hn (show 65 ≤ 0 + 65 by omega) (by omega)).bind fun w r hw => ?_
    obtain ⟨hleaf, hload, hmoves⟩ := hw
    rw [hleaf]
    cases r with
    | none => exact .ok ⟨rfl, hload, hmoves⟩
    | some l =>
      change Rel _ (ite (l.key = hash) (some <$> found l.item) (.ok none) >>= _)
        (ite (l.key = hash) _ _)
      split
      · cases found l.item with
        | error f => exact .error f
        | ok v => exact .ok ⟨rfl, hload, hmoves⟩
      · exact .ok ⟨rfl, hload, hmoves⟩

end Operations

end MerkleTrie

end Bubi
