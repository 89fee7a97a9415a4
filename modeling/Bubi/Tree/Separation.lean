import Bubi.Tree.Insertion
import Bubi.Tree.Backup
import Bubi.Core.TriePath

/-!
# Trees whose strings are separated

Every node of a tree is named by the digest of some string: an inner node by its record,
a leaf by whatever its hash was computed from. If the digest does not confuse these
strings and no leaf's string is the record of an inner node, then equal hashes are equal
subtrees, up to the strings of their leaves, and different leaves give all nodes
different hashes.
-/

namespace Bubi

open Bubi.Core

/-- The strings that `update_hash` digests for the nodes of a tree. -/
def RadixMerkleTree.digested (root : RadixMerkleTreeNode) : Set Bytes :=
  {x | ∃ d ∈ reached root, d.hashInput = .ok x}

/-- The same strings, listed. -/
def RadixMerkleTree.digestedList (root : RadixMerkleTreeNode) : List Bytes :=
  (reached root).filterMap fun d => d.hashInput.toOption

theorem RadixMerkleTree.mem_digestedList {root : RadixMerkleTreeNode} {x : Bytes}
    (h : x ∈ digested root) : x ∈ digestedList root := by
  obtain ⟨d, hd, hx⟩ := h
  exact List.mem_filterMap.mpr ⟨d, hd, by rw [hx]; rfl⟩

namespace MerkleTrie

open RadixMerkleTree

variable (sha : Bytes → Uint256)

/-- The strings of the inner nodes. -/
def records : MerkleTrie → List Bytes
  | .empty => []
  | .leaf _ => []
  | .inner a c => bytes sha a c :: (List.finRange 16).flatMap fun i => records (c i)

/-- The hash of every leaf is the digest of a string, and this string and the records of all
inner nodes are among the given strings. -/
structure Preimages (pre : LeafNode → Bytes) (S : Set Bytes) (t : MerkleTrie) : Prop where
  hash : ∀ l ∈ t, l.hash = sha (pre l)
  leaf : ∀ l ∈ t, pre l ∈ S
  record : ∀ x ∈ records sha t, x ∈ S

/-- No leaf's string is the record of an inner node of the other trie. -/
def Apart (pre : LeafNode → Bytes) (t t' : MerkleTrie) : Prop := ∀ l ∈ t, pre l ∉ records sha t'

variable {sha} {pre : LeafNode → Bytes} {S : Set Bytes} {t t' : MerkleTrie}

theorem mem_records_inner {a : Bool} {c : Fin 16 → MerkleTrie} {x : Bytes} :
    x ∈ records sha (.inner a c) ↔ x = bytes sha a c ∨ ∃ i, x ∈ records sha (c i) := by
  rw [records, List.mem_cons, List.mem_flatMap]
  simp

theorem exists_of_mem_records {x : Bytes} (h : x ∈ records sha t) :
    ∃ a c, x = bytes sha a c := by
  induction t with
  | empty => cases h
  | leaf l => cases h
  | inner a c ih =>
    rcases mem_records_inner.mp h with rfl | ⟨i, h⟩
    · exact ⟨a, c, rfl⟩
    · exact ih i h

/-- The records of a fully loaded tree are digested for its inner nodes. -/
theorem exists_inner_of_records {x : Bytes} (h : x ∈ records sha t) :
    ∃ d ∈ reached (embed sha t), d.isInner = true ∧ d.hashInput = .ok x ∧ d.hash = sha x := by
  induction t with
  | empty => cases h
  | leaf l => cases h
  | inner a c ih =>
    rw [embed, reached_inner]
    rcases mem_records_inner.mp h with rfl | ⟨i, h⟩
    · exact ⟨_, List.mem_cons_self, rfl, rfl, rfl⟩
    · obtain ⟨d, hd, hrest⟩ := ih i h
      exact ⟨d, List.mem_cons_of_mem _ (List.mem_flatMap.mpr ⟨i, List.mem_finRange i, hd⟩), hrest⟩

theorem record_mem_digested {x : Bytes} (h : x ∈ records sha t) :
    x ∈ digested (embed sha t) := by
  obtain ⟨d, hd, _, hinput, _⟩ := exists_inner_of_records h
  exact ⟨d, hd, hinput⟩

/-- A string that starts with protobuf's first byte is no record of a node. -/
theorem tagged_ne_header {rest : Bytes} (d : NodeData) (rest' : Bytes) :
    0x0A :: rest ≠ d.header ++ rest' := by
  intro h
  have hflag : (0x0A : UInt8) = if d.isTransactionTree then 1 else 0 := (List.cons.inj h).1
  revert hflag
  cases d.isTransactionTree <;> decide

theorem tagged_notMem_records {rest : Bytes} : 0x0A :: rest ∉ records sha t := by
  intro h
  obtain ⟨a, c, hbytes⟩ := exists_of_mem_records h
  rw [bytes, innerInput, List.append_assoc] at hbytes
  exact tagged_ne_header _ _ hbytes

theorem mem_records_follow {q : List (Fin 16)} {x : Bytes} (h : x ∈ records sha (t.follow q)) :
    x ∈ records sha t := by
  induction q generalizing t with
  | nil => rwa [Trie.follow_nil] at h
  | cons i q ih =>
    cases t with
    | empty => cases h
    | leaf l => cases h
    | inner a c => exact mem_records_inner.mpr (Or.inr ⟨i, ih h⟩)

/-- The hashes of a trie are those of its subtries. -/
theorem mem_hashes {x : Uint256} :
    x ∈ hashes sha t ↔ ∃ q, (t.follow q).isEmpty = false ∧ digest sha (t.follow q) = x := by
  constructor
  · intro hx
    induction t with
    | empty => cases hx
    | leaf l => exact ⟨[], rfl, (List.mem_singleton.mp hx).symm⟩
    | inner a c ih =>
      rcases List.mem_cons.mp hx with hx | hx
      · exact ⟨[], rfl, hx.symm⟩
      · obtain ⟨i, _, hx⟩ := List.mem_flatMap.mp hx
        obtain ⟨q, hq⟩ := ih i hx
        exact ⟨i :: q, hq⟩
  · rintro ⟨q, he, rfl⟩
    induction q generalizing t with
    | nil =>
      rw [Trie.follow_nil] at he ⊢
      cases t with
      | empty => cases he
      | leaf l => exact List.mem_singleton.mpr rfl
      | inner a c => exact List.mem_cons_self
    | cons i q ih =>
      cases t with
      | empty => cases he
      | leaf l => cases he
      | inner a c =>
        exact List.mem_cons_of_mem _ (List.mem_flatMap.mpr ⟨i, List.mem_finRange i, ih he⟩)

/-- Equal hashes in two tries: of leaves, then the leaves look the same; of inner nodes, then
they have one record; never of a leaf and an inner node. -/
structure Separated (sha : Bytes → Uint256) {γ : Type*} (view : LeafNode → γ) (t t' : MerkleTrie) :
    Prop where
  leaf : ∀ l ∈ t, ∀ l' ∈ t', l.hash = l'.hash → view l = view l'
  record : ∀ x ∈ records sha t, ∀ x' ∈ records sha t', sha x = sha x' → x = x'
  left : ∀ l ∈ t, ∀ x ∈ records sha t', l.hash ≠ sha x
  right : ∀ l ∈ t', ∀ x ∈ records sha t, l.hash ≠ sha x

/-- Leaves and inner nodes that are named by different strings. -/
theorem Preimages.separated (hinj : Set.InjOn sha S) (h : Preimages sha pre S t)
    (h' : Preimages sha pre S t') (hapart : Apart sha pre t t') (hapart' : Apart sha pre t' t) :
    Separated sha pre t t' where
  leaf := by
    intro l hl l' hl' heq
    rw [h.hash l hl, h'.hash l' hl'] at heq
    exact hinj (h.leaf l hl) (h'.leaf l' hl') heq
  record := fun x hx x' hx' => hinj (h.record x hx) (h'.record x' hx')
  left := by
    intro l hl x hx heq
    rw [h.hash l hl] at heq
    rw [← hinj (h.leaf l hl) (h'.record x hx) heq] at hx
    exact hapart l hl hx
  right := by
    intro l hl x hx heq
    rw [h'.hash l hl] at heq
    rw [← hinj (h'.leaf l hl) (h.record x hx) heq] at hx
    exact hapart' l hl hx

/-- The records of the inner nodes are among the strings of all nodes. -/
theorem records_subset_strings (t : MerkleTrie) : records sha t ⊆ strings sha t := by
  induction t with
  | empty => exact List.Subset.refl _
  | leaf l => exact List.nil_subset _
  | inner a c ih =>
    intro x hx
    rcases mem_records_inner.mp hx with rfl | ⟨i, hx⟩
    · exact mem_strings_inner.mpr (Or.inl rfl)
    · exact mem_strings_inner.mpr (Or.inr ⟨i, ih i hx⟩)

theorem input_mem_strings {l : LeafNode} (hl : l ∈ t) : l.input ∈ strings sha t := by
  induction t with
  | empty => exact hl.elim
  | leaf l' => exact List.mem_singleton.mpr (congrArg LeafNode.input hl)
  | inner a c ih =>
    obtain ⟨i, hl⟩ := hl
    exact mem_strings_inner.mpr (Or.inr ⟨i, ih i hl⟩)

/-- A cached leaf hash is no digest of a record. -/
theorem hash_ne_record {K : Set Uint256} (hcf : CollisionFree sha K S) (hc : Cached sha t)
    (hK : indexes t ⊆ K) (hS : ∀ x ∈ strings sha t, x ∈ S) (hS' : ∀ x ∈ strings sha t', x ∈ S)
    {l : LeafNode} (hl : l ∈ t) {x : Bytes} (hx : x ∈ records sha t') : l.hash ≠ sha x := by
  have hxS := hS' x (records_subset_strings t' hx)
  obtain ⟨a, c, rfl⟩ := exists_of_mem_records hx
  exact hash_ne_digest hcf (hc l hl) (fun _ => hK ⟨l, hl, rfl⟩) (hS _ (input_mem_strings hl)) hxS

/-- A digest without collisions separates tries in which leaf hashes show what is looked at. -/
theorem Separated.of_collisionFree {γ : Type*} {view : LeafNode → γ} {K : Set Uint256}
    (hcf : CollisionFree sha K S) (hc : Cached sha t) (hc' : Cached sha t') (hK : indexes t ⊆ K)
    (hK' : indexes t' ⊆ K) (hS : ∀ x ∈ strings sha t, x ∈ S) (hS' : ∀ x ∈ strings sha t', x ∈ S)
    (hleaf : ∀ l ∈ t, ∀ l' ∈ t', l.hash = l'.hash → view l = view l') :
    Separated sha view t t' where
  leaf := hleaf
  record := fun x hx x' hx' =>
    hcf.inj (hS x (records_subset_strings t hx)) (hS' x' (records_subset_strings t' hx'))
  left := fun _ hl _ hx => hash_ne_record hcf hc hK hS hS' hl hx
  right := fun _ hl _ hx => hash_ne_record hcf hc' hK' hS' hS hl hx

section Separated

variable {γ : Type*} {view : LeafNode → γ}

theorem Separated.symm (h : Separated sha view t t') : Separated sha view t' t where
  leaf := fun l hl l' hl' heq => (h.leaf l' hl' l hl heq.symm).symm
  record := fun x hx x' hx' heq => (h.record x' hx' x hx heq.symm).symm
  left := h.right
  right := h.left

theorem Separated.follow (h : Separated sha view t t') (q q' : List (Fin 16)) :
    Separated sha view (t.follow q) (t'.follow q') where
  leaf := fun l hl l' hl' => h.leaf l (Trie.mem_of_mem_follow hl) l' (Trie.mem_of_mem_follow hl')
  record := fun x hx x' hx' => h.record x (mem_records_follow hx) x' (mem_records_follow hx')
  left := fun l hl x hx => h.left l (Trie.mem_of_mem_follow hl) x (mem_records_follow hx)
  right := fun l hl x hx => h.right l (Trie.mem_of_mem_follow hl) x (mem_records_follow hx)

theorem Separated.child {a : Bool} {c : Fin 16 → MerkleTrie}
    (h : Separated sha view (.inner a c) t') (i : Fin 16) : Separated sha view (c i) t' := by
  have hfollow := h.follow [i] []
  rwa [Trie.follow_cons_inner, Trie.follow_nil, Trie.follow_nil] at hfollow

/-- Equal hashes are equal tries up to what the leaves show. -/
theorem map_eq_of_digest (h : Separated sha view t t') (he : t.isEmpty = t'.isEmpty)
    (hd : digest sha t = digest sha t') : t.map view = t'.map view := by
  induction t generalizing t' with
  | empty => rw [Trie.isEmpty_iff.mp he.symm]
  | leaf l =>
    cases t' with
    | empty => cases he
    | leaf l' => rw [Trie.map, Trie.map, h.leaf l rfl l' rfl hd]
    | inner a' c' => exact absurd hd (h.left l rfl _ (mem_records_inner.mpr (Or.inl rfl)))
  | inner a c ih =>
    have hroot : bytes sha a c ∈ records sha (.inner a c) := mem_records_inner.mpr (Or.inl rfl)
    cases t' with
    | empty => cases he
    | leaf l' => exact absurd hd.symm (h.right l' rfl _ hroot)
    | inner a' c' =>
      obtain ⟨rfl, hempty, hdigest⟩ :=
        bytes_inj (h.record _ hroot _ (mem_records_inner.mpr (Or.inl rfl)) hd)
      rw [Trie.map, Trie.map]
      congr 1
      funext i
      exact ih i ((h.child i).symm.child i).symm (hempty i) (hdigest i)

/-- The leaves of equal hashes show the same. -/
theorem exists_of_digest (h : Separated sha view t t') (he : t.isEmpty = t'.isEmpty)
    (hd : digest sha t = digest sha t') {l : LeafNode} (hl : l ∈ t) :
    ∃ l' ∈ t', view l = view l' := by
  have hmap := map_eq_of_digest h he hd
  exact Trie.mem_map.mp (hmap ▸ Trie.mem_map.mpr ⟨l, hl, rfl⟩)

/-- Subtries of two branches with different leaves have different hashes. -/
theorem disjoint_hashes (h : Separated sha view t t') (hb : t.Branching LeafNode.key)
    (hne : ∀ l ∈ t, ∀ l' ∈ t', view l ≠ view l') : (hashes sha t).Disjoint (hashes sha t') := by
  intro x hx hx'
  obtain ⟨q, he, hd⟩ := mem_hashes.mp hx
  obtain ⟨q', he', hd'⟩ := mem_hashes.mp hx'
  obtain ⟨l, hl⟩ := (hb.follow q).exists_mem he
  obtain ⟨l', hl', hview⟩ :=
    exists_of_digest (h.follow q q') (he.trans he'.symm) (hd.trans hd'.symm) hl
  exact hne l (Trie.mem_of_mem_follow hl) l' (Trie.mem_of_mem_follow hl') hview

/-- A node has another hash than the nodes below it. -/
theorem digest_notMem_hashes {a : Bool} {c : Fin 16 → MerkleTrie}
    (h : Separated sha view (.inner a c) (.inner a c)) (i : Fin 16) :
    digest sha (.inner a c) ∉ hashes sha (c i) := by
  intro hx
  obtain ⟨q, he, hd⟩ := mem_hashes.mp hx
  have hmap := map_eq_of_digest (h.follow [] (i :: q)) he.symm hd.symm
  have hheight : (.inner a c : MerkleTrie).height = ((c i).follow q).height := by
    rw [← Trie.height_map view, ← Trie.height_map view]
    exact congrArg Trie.height hmap
  have hlt := Trie.height_child_lt a c i
  have hle := Trie.height_follow_le q (c i)
  omega

/-- A trie with canonical branches whose leaves show different things has different hashes. -/
theorem nodup_hashes {p : List (Fin 16)} (hs : Sound p t) (h : Separated sha view t t)
    (hne : ∀ l ∈ t, ∀ l' ∈ t, view l = view l' → l = l') : (hashes sha t).Nodup := by
  induction t generalizing p with
  | empty => exact List.nodup_nil
  | leaf l => exact List.nodup_singleton _
  | inner a c ih =>
    have hchild : ∀ i j, Separated sha view (c i) (c j) :=
      fun i j => ((h.child i).symm.child j).symm
    rw [hashes, List.nodup_cons, List.nodup_flatMap]
    refine ⟨?_, fun i _ => ?_, ?_⟩
    · rw [List.mem_flatMap]
      rintro ⟨i, _, hx⟩
      exact digest_notMem_hashes h i hx
    · exact ih i (hs.child i) (hchild i i) fun l hl l' hl' => hne l ⟨i, hl⟩ l' ⟨i, hl'⟩
    · refine (List.nodup_finRange 16).imp ?_
      intro i j hij
      refine disjoint_hashes (hchild i j) (hs.forked rfl i) fun l hl l' hl' hview => hij ?_
      -- One leaf would hang on two branches.
      obtain rfl := hne l ⟨i, hl⟩ l' ⟨j, hl'⟩ hview
      rw [← (hs.placed.mem_child_iff.mp hl).2, (hs.placed.mem_child_iff.mp hl').2]

end Separated

end MerkleTrie

end Bubi
