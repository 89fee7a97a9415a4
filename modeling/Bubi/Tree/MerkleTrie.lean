import Bubi.Tree.RadixMerkleTree
import Bubi.Core.TrieShape

/-!
# The tree without pointers and caches

A `MerkleTrie` is what a tree and its store hold together: leaves with the hash they
cache, inner nodes with their flag, and nothing that can be computed from these. The
digest recomputes every inner hash. The operations recurse from the root and check,
at every rebuilt node, that the hash changed, as the source asserts.
-/

namespace Bubi

open Bubi.Core

/-- A leaf node: its item, and the three fields beside it that an update may change
independently of the item. -/
structure LeafNode where
  /-- `hash_`. -/
  hash : Uint256
  /-- `is_transaction_tree_`. -/
  isTransactionTree : Bool
  /-- The leaf type. -/
  isTransaction : Bool
  /-- `item_`. -/
  item : RadixMerkleTreeLeaf
  deriving DecidableEq

namespace LeafNode

/-- The index of the item. -/
def key (l : LeafNode) : Uint256 := l.item.index

/-- The record of a leaf node. -/
def data (l : LeafNode) : NodeData where
  hash := l.hash
  childrenHash := fun _ => Uint256.zero
  item := some l.item
  isTransactionTree := l.isTransactionTree
  type := leafType l.isTransaction
  branchMask := 0

theorem data_injective : Function.Injective data := by
  rintro ⟨hash, flag, isTransaction, item⟩ ⟨hash', flag', isTransaction', item'⟩ h
  simp only [data, NodeData.mk.injEq, Option.some.injEq] at h
  obtain ⟨rfl, _, rfl, rfl, htype, _⟩ := h
  cases isTransaction <;> cases isTransaction' <;> first | rfl | cases htype

/-- A leaf as the leaf constructor builds it: its hash is its index. -/
def fresh (isTransaction : Bool) (item : RadixMerkleTreeLeaf) : LeafNode where
  hash := item.index
  isTransactionTree := isTransaction
  isTransaction := isTransaction
  item := item

@[simp] theorem fresh_key (isTransaction : Bool) (item : RadixMerkleTreeLeaf) :
    (fresh isTransaction item).key = item.index := rfl

@[simp] theorem fresh_item (isTransaction : Bool) (item : RadixMerkleTreeLeaf) :
    (fresh isTransaction item).item = item := rfl

/-- The bytes that `update_hash` digests for a leaf. -/
def input (l : LeafNode) : Bytes :=
  l.data.header ++
    if l.isTransaction then ascii ['t', 'x', 'l', 'e', 'a', 'f'] ++ l.item.data
    else ascii ['a', 'c', 'l', 'e', 'a', 'f'] ++ l.item.data ++ l.item.index.data

/-- The record of an account leaf shows its item. -/
theorem item_eq_of_input {l l' : LeafNode} (hl : l.isTransaction = false)
    (hl' : l'.isTransaction = false) (h : l.input = l'.input) : l.item = l'.item := by
  rw [input, input, hl, hl'] at h
  obtain ⟨_, hbody⟩ := List.append_inj h rfl
  obtain ⟨hfront, hindex⟩ := List.append_inj' hbody
    (by rw [l.item.index.length_data, l'.item.index.length_data])
  exact RadixMerkleTreeLeaf.ext (Uint256.ext hindex) (List.append_cancel_left hfront)

variable (sha : Bytes → Uint256)

/-- A leaf after `set_item`: its hash is the digest of its record. -/
def setItem (l : LeafNode) (isTransaction : Bool) (item : RadixMerkleTreeLeaf) : LeafNode :=
  { l with isTransaction, item, hash := sha { l with isTransaction, item : LeafNode }.input }

end LeafNode

/-- The contents of a radix Merkle tree. -/
abbrev MerkleTrie := Trie (Fin 16) Bool LeafNode

namespace MerkleTrie

/-- The bits of the non-empty branches. -/
def mask (c : Fin 16 → MerkleTrie) : BitVec 32 :=
  (List.finRange 16).foldl (fun m i => if (c i).isEmpty then m else m ||| (1#32 <<< i.val)) 0#32

/-- The record of an inner node that caches the given hashes. -/
def innerFields (hash : Uint256) (a : Bool) (c : Fin 16 → MerkleTrie)
    (childrenHash : Fin 16 → Uint256) : NodeData where
  hash := hash
  childrenHash := childrenHash
  item := none
  isTransactionTree := a
  type := .innerNode
  branchMask := mask c

/-- The bytes that `update_hash` digests for an inner node. -/
def innerInput (a : Bool) (c : Fin 16 → MerkleTrie) (childrenHash : Fin 16 → Uint256) : Bytes :=
  (innerFields Uint256.zero a c childrenHash).header ++ ascii ['_', 'n', 'o', 'd', 'e', '_'] ++
    (innerFields Uint256.zero a c childrenHash).childrenBytes

variable (sha : Bytes → Uint256)

/-- The hash that a parent records for a subtree, zero when there is none. -/
def digest : MerkleTrie → Uint256
  | .empty => Uint256.zero
  | .leaf l => l.hash
  | .inner a c => sha (innerInput a c fun i => digest (c i))

/-- The record of an inner node. -/
def innerData (a : Bool) (c : Fin 16 → MerkleTrie) : NodeData :=
  innerFields (digest sha (.inner a c)) a c fun i => digest sha (c i)

/-- A rebuilt inner node, provided its hash differs from the given one. -/
def rebuild (old : Uint256) (a : Bool) (c : Fin 16 → MerkleTrie) (branch : Fin 16)
    (t : MerkleTrie) : Except Fault MerkleTrie :=
  if old = digest sha (.inner a (Function.update c branch t)) then .error .unchanged
  else .ok (.inner a (Function.update c branch t))

/-- The inner nodes between a displaced leaf and a new one. -/
def split (new other : LeafNode) : ℕ → Bool → ℕ → Except Fault MerkleTrie
  | 0, _, _ => .error .outOfRange
  | fuel + 1, a, n => do
    let b1 ← selectBranch new.key n
    let b2 ← selectBranch other.key n
    if b1 = b2 then
      let t ← split new other fuel false (n + 1)
      rebuild sha Uint256.zero a Trie.bare b1 t
    else
      let t ← rebuild sha Uint256.zero a Trie.bare b1 (.leaf new)
      rebuild sha (digest sha t) a (Function.update Trie.bare b1 (.leaf new)) b2 (.leaf other)

/-- Insertion of an item. -/
def add (item : RadixMerkleTreeLeaf) (isTransaction : Bool) :
    ℕ → MerkleTrie → Except Fault MerkleTrie
  | _, .empty => .ok (.leaf (LeafNode.fresh isTransaction item))
  | n, .leaf l =>
    if item.index = l.key then .error .assertion
    else split sha (LeafNode.fresh isTransaction item) (LeafNode.fresh isTransaction l.item)
      (64 - n) l.isTransactionTree n
  | n, .inner a c => do
    let b ← selectBranch item.index n
    let t ← add item isTransaction (n + 1) (c b)
    rebuild sha (digest sha (.inner a c)) a c b t

/-- Replacement of an item, and whether the leaf's hash changed. -/
def update (item : RadixMerkleTreeLeaf) (isTransaction : Bool) :
    ℕ → MerkleTrie → Except Fault (MerkleTrie × Bool)
  | _, .empty => .error .assertion
  | _, .leaf l =>
    if l.key = item.index then
      .ok (.leaf (l.setItem sha isTransaction item),
        decide (l.hash ≠ (l.setItem sha isTransaction item).hash))
    else .error .assertion
  | n, .inner a c => do
    let b ← selectBranch item.index n
    let r ← update item isTransaction (n + 1) (c b)
    if r.2 then
      let t ← rebuild sha (digest sha (.inner a c)) a c b r.1
      .ok (t, true)
    else .ok (.inner a (Function.update c b r.1), false)

/-- The leaf at the end of the walk of an index. -/
def walk (hash : Uint256) : ℕ → MerkleTrie → Except Fault (Option LeafNode)
  | _, .empty => .ok none
  | _, .leaf l => .ok (some l)
  | n, .inner _ c => do
    let b ← selectBranch hash n
    walk hash (n + 1) (c b)

/-- The contents of a new tree. -/
def new (isTransactionTree : Bool) : MerkleTrie := .inner isTransactionTree Trie.bare

/-- A single bit. -/
theorem getLsbD_shiftLeft_one {i j : ℕ} (hj : j < 32) :
    (1#32 <<< i).getLsbD j = decide (i = j) := by
  rw [BitVec.getLsbD_shiftLeft, BitVec.getLsbD_one]
  by_cases hij : i = j
  · simp [hij, hj]
  · by_cases hlt : j < i
    · simp [hlt, hij]
    · have hne : j - i ≠ 0 := by omega
      simp [hne, hij]

/-- Collecting bits sets exactly the bits of the non-empty branches. -/
theorem getLsbD_foldl (c : Fin 16 → MerkleTrie) (l : List (Fin 16)) (m : BitVec 32) {j : ℕ}
    (hj : j < 32) :
    (l.foldl (fun m i => if (c i).isEmpty then m else m ||| (1#32 <<< i.val)) m).getLsbD j =
      (m.getLsbD j || l.any fun i => i.val = j && !(c i).isEmpty) := by
  induction l generalizing m with
  | nil => simp
  | cons x l ih =>
    rw [List.foldl_cons, ih, List.any_cons]
    cases hx : (c x).isEmpty with
    | true => simp
    | false =>
      simp only [Bool.false_eq_true, ite_false, BitVec.getLsbD_or, getLsbD_shiftLeft_one hj,
        Bool.not_false, Bool.and_true, Bool.or_assoc]

/-- A bit of the mask. -/
theorem getLsbD_mask (c : Fin 16 → MerkleTrie) {j : ℕ} (hj : j < 32) :
    (mask c).getLsbD j = decide (∃ i : Fin 16, i.val = j ∧ (c i).isEmpty = false) := by
  rw [mask, getLsbD_foldl c _ _ hj, Bool.eq_iff_iff]
  simp [List.any_eq_true]

/-- The single-bit test of the source reads that bit. -/
theorem and_shiftLeft_eq_zero (m : BitVec 32) (i : Fin 16) :
    m &&& (1#32 <<< i.val) = 0#32 ↔ m.getLsbD i.val = false := by
  have hi : i.val < 32 := by omega
  constructor
  · intro h
    have hbit := congrArg (fun v => v.getLsbD i.val) h
    simpa [BitVec.getLsbD_and, getLsbD_shiftLeft_one hi] using hbit
  · intro h
    apply BitVec.eq_of_getLsbD_eq
    intro j hj
    rw [BitVec.getLsbD_and, getLsbD_shiftLeft_one hj, BitVec.getLsbD_zero]
    by_cases hij : i.val = j
    · rw [← hij, h, Bool.false_and]
    · simp [hij]

/-- Setting a bit of the mask is filling a branch. -/
theorem mask_update (c : Fin 16 → MerkleTrie) (b : Fin 16) {t : MerkleTrie}
    (ht : t.isEmpty = false) : mask (Function.update c b t) = mask c ||| (1#32 <<< b.val) := by
  apply BitVec.eq_of_getLsbD_eq
  intro j hj
  rw [BitVec.getLsbD_or, getLsbD_shiftLeft_one hj, getLsbD_mask _ hj, getLsbD_mask _ hj,
    Bool.eq_iff_iff, Bool.or_eq_true, decide_eq_true_iff, decide_eq_true_iff, decide_eq_true_iff]
  constructor
  · rintro ⟨i, rfl, hi⟩
    by_cases hib : i = b
    · exact Or.inr (by rw [hib])
    · rw [Function.update_of_ne hib] at hi
      exact Or.inl ⟨i, rfl, hi⟩
  · rintro (⟨i, rfl, hi⟩ | rfl)
    · by_cases hib : i = b
      · exact ⟨b, by rw [hib], by rw [Function.update_self, ht]⟩
      · exact ⟨i, rfl, by rw [Function.update_of_ne hib, hi]⟩
    · exact ⟨b, rfl, by rw [Function.update_self, ht]⟩

@[simp] theorem mask_bare : mask Trie.bare = 0#32 := by
  apply BitVec.eq_of_getLsbD_eq
  intro j hj
  rw [getLsbD_mask _ hj, BitVec.getLsbD_zero]
  simp

/-- The branch test of the source is emptiness of the branch. -/
theorem isEmptyBranch_innerData (a : Bool) (c : Fin 16 → MerkleTrie) (b : Fin 16) :
    (innerData sha a c).isEmptyBranch b = (c b).isEmpty := by
  have h := and_shiftLeft_eq_zero (mask c) b
  rw [getLsbD_mask c (by omega), decide_eq_false_iff_not] at h
  have hex : (∃ i : Fin 16, i.val = b.val ∧ (c i).isEmpty = false) ↔ (c b).isEmpty = false := by
    constructor
    · rintro ⟨i, hi, hc⟩
      rwa [← Fin.ext hi]
    · exact fun hc => ⟨b, rfl, hc⟩
  rw [hex, Bool.not_eq_false] at h
  change decide (mask c &&& (1#32 <<< b.val) = 0#32) = (c b).isEmpty
  rw [Bool.eq_iff_iff, decide_eq_true_iff]
  exact h

end MerkleTrie

end Bubi
