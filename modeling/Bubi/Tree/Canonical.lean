import Bubi.Tree.Backup
import Bubi.Tree.FiniteMap
import Bubi.Core.TriePath

/-!
# The canonical shape of a tree

However a tree was built, its leaves hang on the paths that their indexes spell, no
deeper than needed to tell them apart, and every inner node below the root is there to
tell some apart. The tree has therefore one shape for each set of indexes.
-/

namespace Bubi

open Bubi.Core

namespace RadixMerkleTreeNode

/-- The inner nodes and the indexes of the leaves below a pointer. -/
def shape : RadixMerkleTreeNode → Trie (Fin 16) Unit Uint256
  | .null => .empty
  | .node d children =>
    if d.isInner then .inner () fun i => shape (children i)
    else match d.item with
      | none => .empty
      | some item => .leaf item.index

end RadixMerkleTreeNode

namespace MerkleTrie

open RadixMerkleTree

variable {sha : Bytes → Uint256} {t : MerkleTrie}

theorem follow_embed (q : List (Fin 16)) (t : MerkleTrie) :
    (embed sha t).follow q = embed sha (t.follow q) := by
  induction q generalizing t with
  | nil => rw [Trie.follow_nil, RadixMerkleTreeNode.follow]
  | cons i q ih =>
    cases t with
    | empty => rfl
    | leaf l =>
      cases q with
      | nil => rfl
      | cons j q => rfl
    | inner a c => exact ih (c i)

theorem shape_embed (t : MerkleTrie) : (embed sha t).shape = t.shape LeafNode.key := by
  induction t with
  | empty => rfl
  | leaf l =>
    rw [embed, RadixMerkleTreeNode.shape, isInner_leaf]
    rfl
  | inner a c ih =>
    rw [embed, RadixMerkleTreeNode.shape, isInner_innerData, if_pos rfl]
    exact congrArg (Trie.inner ()) (funext ih)

/-- The node of a fully loaded tree is that of a leaf or of an inner node. -/
theorem embed_eq_node {d : NodeData} {children : Fin 16 → RadixMerkleTreeNode}
    (h : embed sha t = .node d children) :
    (∃ l, t = .leaf l ∧ d = l.data) ∨ ∃ a c, t = .inner a c ∧ d = innerData sha a c := by
  cases t with
  | empty => cases h
  | leaf l =>
    cases h
    exact Or.inl ⟨l, rfl, rfl⟩
  | inner a c =>
    cases h
    exact Or.inr ⟨a, c, rfl, rfl⟩

theorem exists_leaf_of_embed {d : NodeData} {children : Fin 16 → RadixMerkleTreeNode}
    (h : embed sha t = .node d children) (hd : d.isInner = false) :
    ∃ l, t = .leaf l ∧ d.item = some l.item := by
  rcases embed_eq_node h with ⟨l, ht, rfl⟩ | ⟨a, c, _, rfl⟩
  · exact ⟨l, ht, rfl⟩
  · rw [isInner_innerData] at hd
    cases hd

theorem exists_inner_of_embed {d : NodeData} {children : Fin 16 → RadixMerkleTreeNode}
    (h : embed sha t = .node d children) (hd : d.isInner = true) : ∃ a c, t = .inner a c := by
  rcases embed_eq_node h with ⟨l, _, rfl⟩ | ⟨a, c, ht, _⟩
  · rw [isInner_leaf] at hd
    cases hd
  · exact ⟨a, c, ht⟩

/-- The leaves of a tree are what its paths reach. -/
theorem exists_leaf_iff {k : Uint256} :
    (∃ l ∈ t, l.key = k) ↔ ∃ q d children item, (embed sha t).follow q = .node d children ∧
      d.isInner = false ∧ d.item = some item ∧ item.index = k := by
  constructor
  · rintro ⟨l, hl, rfl⟩
    obtain ⟨q, hq⟩ := Trie.exists_follow_of_mem hl
    refine ⟨q, l.data, fun _ => .null, l.item, ?_, isInner_leaf l, rfl, rfl⟩
    rw [follow_embed, hq]
    rfl
  · rintro ⟨q, d, children, item, hq, hd, hitem, rfl⟩
    rw [follow_embed] at hq
    obtain ⟨l, hl, hl'⟩ := exists_leaf_of_embed hq hd
    cases Option.some.inj (hitem.symm.trans hl')
    refine ⟨l, Trie.mem_of_mem_follow (q := q) ?_, rfl⟩
    rw [hl]
    exact Trie.mem_leaf.mpr rfl

section Valid

variable {a : Bool} {c : Fin 16 → MerkleTrie} {q : List (Fin 16)} {l : LeafNode}

/-- A path to a leaf leaves the root. -/
theorem exists_cons_of_follow (h : (.inner a c : MerkleTrie).follow q = .leaf l) :
    ∃ i q', q = i :: q' := by
  cases q with
  | nil =>
    rw [Trie.follow_nil] at h
    cases h
  | cons i q' => exact ⟨i, q', rfl⟩

/-- A leaf hangs on the path that its index spells. -/
theorem Valid.selectBranch_eq (hv : Valid sha (.inner a c))
    (h : (.inner a c : MerkleTrie).follow q = .leaf l) (n : ℕ) (hn : n < q.length) :
    selectBranch l.key n = .ok q[n] := by
  obtain ⟨i, q, rfl⟩ := exists_cons_of_follow h
  have hle : (i :: q).length ≤ 64 :=
    (hv.sound.forked rfl i).length_le hv.sound.placed (by decide) h
  have hunder : radix.Under (i :: q) l.key :=
    ((Trie.stands_of_follow h []).unique hv.sound.placed).1
  rw [selectBranch_of_lt l.key (by omega)]
  have hat : ((List.range (i :: q).length).map (radix.digit l.key))[n]? = (i :: q)[n]? := by
    rw [hunder]
  rw [List.getElem?_map, List.getElem?_range hn, List.getElem?_eq_getElem hn,
    Option.map_some] at hat
  rw [Option.some.inj hat]

/-- A leaf hangs one branch below its longest agreement with another index, at least at the
root. -/
theorem Valid.length_eq (hv : Valid sha (.inner a c)) {ks : Finset Uint256}
    (hks : ∀ k, k ∈ ks ↔ ∃ x ∈ (.inner a c : MerkleTrie), x.key = k)
    (h : (.inner a c : MerkleTrie).follow q = .leaf l) :
    q.length = max 1 (1 + (ks.erase l.key).sup (radix.common l.key)) := by
  obtain ⟨i, q, rfl⟩ := exists_cons_of_follow h
  have hlt : ∀ k ∈ ks.erase l.key, radix.common l.key k ≤ (i :: q).length - 1 := by
    intro k hk
    obtain ⟨hne, hk⟩ := Finset.mem_erase.mp hk
    obtain ⟨x, hx, rfl⟩ := (hks k).mp hk
    have hcommon := hv.sound.placed.common_lt h hx (Ne.symm hne)
    omega
  have hsup := Finset.sup_le hlt
  apply le_antisymm
  · by_cases hq : q = []
    · rw [hq]
      exact le_max_left 1 _
    · obtain ⟨x, hx, hne, hle⟩ :=
        (hv.sound.forked rfl i).exists_common hv.sound.placed h hq
      have hmem : x.key ∈ ks.erase l.key :=
        Finset.mem_erase.mpr ⟨Ne.symm hne, (hks _).mpr ⟨x, hx, rfl⟩⟩
      have hlesup : radix.common l.key x.key ≤ (ks.erase l.key).sup (radix.common l.key) :=
        Finset.le_sup hmem
      refine le_trans ?_ (le_max_right 1 _)
      omega
  · rw [List.length_cons] at hsup ⊢
    apply max_le
    · omega
    · omega

/-- An inner node below the root has two leaves. -/
theorem Valid.two_leaves (hv : Valid sha (.inner a c)) (hq : q ≠ []) {a' : Bool}
    {c' : Fin 16 → MerkleTrie} (h : (.inner a c : MerkleTrie).follow q = .inner a' c') :
    ∃ d ∈ reached (embed sha (.inner a' c')), ∃ e ∈ reached (embed sha (.inner a' c')),
      ∃ x y, d.item = some x ∧ e.item = some y ∧ x.index ≠ y.index := by
  obtain ⟨i, q, rfl⟩ := List.exists_cons_of_ne_nil hq
  have hbranch := (hv.sound.forked rfl i).follow q
  rw [Trie.follow_cons_inner] at h
  rw [h] at hbranch
  obtain ⟨⟨x, hx, y, hy, hne⟩, _⟩ := hbranch
  exact ⟨x.data, leaf_mem_reached hx, y.data, leaf_mem_reached hy, x.item, y.item, rfl, rfl, hne⟩

end Valid

end MerkleTrie

namespace Contents

/-- The indexes that a run has written are those of its changes. -/
theorem written_ne_none {os : List Change} {k : Uint256} :
    written os k ≠ Option.none ↔ k ∈ os.map Change.index := by
  induction os using List.reverseRecOn with
  | nil => simp [written, none]
  | append_singleton os o ih =>
    rw [written, List.foldl_append, List.foldl_cons, List.foldl_nil, List.map_append,
      List.mem_append, ← ih]
    by_cases hk : k = o.index
    · simp [hk]
    · rw [write_of_ne _ hk]
      simp [hk, written]

end Contents

/-- After any run on a new tree that returns, the leaves of the tree have the indexes of the
calls; every leaf hangs on the path that the half-bytes of its index spell, one branch below
the longest agreement with any other index; every inner node below the root has two leaves;
and any other run over the same indexes, on a tree of either kind, leaves a tree of the same
shape. -/
theorem tree_shape_canonical (sha : Bytes → Uint256) (db : Database) (isTransactionTree : Bool)
    (os : List Change) (s : Database × RadixMerkleTreeNode)
    (hrun : RadixMerkleTree.run sha (db, RadixMerkleTree.new sha isTransactionTree) os = .ok s) :
    (∀ k, k ∈ os.map Change.index ↔ ∃ q d children item, s.2.follow q = .node d children ∧
      d.isInner = false ∧ d.item = some item ∧ item.index = k) ∧
    (∀ q d children, s.2.follow q = .node d children → d.isInner = false →
      ∃ item, d.item = some item ∧
        (∀ n (hn : n < q.length), selectBranch item.index n = .ok q[n]) ∧
        q.length = max 1 (1 + ((os.map Change.index).toFinset.erase item.index).sup
          (radix.common item.index))) ∧
    (∀ q d children, q ≠ [] → s.2.follow q = .node d children → d.isInner = true →
      ∃ x ∈ RadixMerkleTree.reached (.node d children),
        ∃ y ∈ RadixMerkleTree.reached (.node d children),
          ∃ item item', x.item = some item ∧ y.item = some item' ∧ item.index ≠ item'.index) ∧
    ∀ db' isTransactionTree' os' s',
      RadixMerkleTree.run sha (db', RadixMerkleTree.new sha isTransactionTree') os' = .ok s' →
      (∀ k, k ∈ os.map Change.index ↔ k ∈ os'.map Change.index) → s.2.shape = s'.2.shape := by
  obtain ⟨t, rfl, hvalid, hcontents⟩ := MerkleTrie.exists_of_run_new hrun
  obtain ⟨a, c, rfl⟩ := hvalid.rooted
  have hindexes : ∀ k, k ∈ os.map Change.index ↔
      ∃ l ∈ (.inner a c : MerkleTrie), l.key = k := by
    intro k
    rw [← Contents.written_ne_none, ← hcontents, hvalid.contents_ne_none]
  refine ⟨?_, ?_, ?_, ?_⟩
  · intro k
    rw [hindexes, @MerkleTrie.exists_leaf_iff sha]
  · intro q d children hq hd
    rw [MerkleTrie.follow_embed] at hq
    obtain ⟨l, hl, hitem⟩ := MerkleTrie.exists_leaf_of_embed hq hd
    refine ⟨l.item, hitem, hvalid.selectBranch_eq hl, hvalid.length_eq ?_ hl⟩
    intro k
    rw [List.mem_toFinset, hindexes]
  · intro q d children hne hq hd
    rw [MerkleTrie.follow_embed] at hq
    obtain ⟨a', c', hinner⟩ := MerkleTrie.exists_inner_of_embed hq hd
    rw [← hq, hinner]
    exact hvalid.two_leaves hne hinner
  · intro db' isTransactionTree' os' s' hrun' hsame
    obtain ⟨t', rfl, hvalid', hcontents'⟩ := MerkleTrie.exists_of_run_new hrun'
    obtain ⟨a', c', rfl⟩ := hvalid'.rooted
    rw [MerkleTrie.shape_embed, MerkleTrie.shape_embed]
    refine Trie.shape_eq_of_keys (hvalid.sound.forked rfl) (hvalid'.sound.forked rfl)
      hvalid.sound.placed hvalid'.sound.placed fun k => ?_
    rw [← hindexes, hsame, ← Contents.written_ne_none, ← hcontents', hvalid'.contents_ne_none]

/-- Three indexes, two of them with their first half-byte in common, in some order. -/
def threeIndexes (a b c : ℕ) : List Change :=
  [a, b, c].map fun n => .addItem (.ofByte (Uint256.ofNat (n * 2 ^ 248)) 1) false

theorem tree_shape_canonical_threeIndexes :
    ∃ s s', RadixMerkleTree.run checksum (fun _ => none, RadixMerkleTree.new checksum false)
        (threeIndexes 0x11 0x12 0x21) = .ok s ∧
      RadixMerkleTree.run checksum (fun _ => none, RadixMerkleTree.new checksum false)
        (threeIndexes 0x21 0x12 0x11) = .ok s' ∧ s.2.shape = s'.2.shape := by
  obtain ⟨s, hs⟩ : ∃ s, RadixMerkleTree.run checksum (fun _ => none,
      RadixMerkleTree.new checksum false) (threeIndexes 0x11 0x12 0x21) = .ok s :=
    exists_of_isOk (by decide +kernel)
  obtain ⟨s', hs'⟩ : ∃ s, RadixMerkleTree.run checksum (fun _ => none,
      RadixMerkleTree.new checksum false) (threeIndexes 0x21 0x12 0x11) = .ok s :=
    exists_of_isOk (by decide +kernel)
  refine ⟨s, s', hs, hs', (tree_shape_canonical _ _ _ _ s hs).2.2.2 _ _ _ s' hs' fun k => ?_⟩
  have hreverse : ((threeIndexes 0x11 0x12 0x21).map Change.index).reverse =
      (threeIndexes 0x21 0x12 0x11).map Change.index := rfl
  rw [← hreverse, List.mem_reverse]

end Bubi
