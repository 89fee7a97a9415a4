import Bubi.Base.Uint256
import Mathlib.Logic.Function.Basic

/-!
# Nodes of the radix Merkle tree

A `RadixMerkleTreeNode` is one flat record for both kinds of node, with sixteen child
pointers beside it. The record is changed by the five operations of the class:
construction from an item, `make_inner`, `set_item`, `set_child` and the `update_hash`
that the last two end with. The digest `sha` is the first half of the SHA-512 of the
linked OpenSSL and a parameter throughout.
-/

namespace Bubi

/-- The characters of a literal of the source. -/
def ascii (cs : List Char) : Bytes := cs.map fun c => UInt8.ofNat c.toNat

/-- The memory of a `bool`. -/
def rawBool (b : Bool) : Bytes := [if b then 1 else 0]

/-- The memory of a 32-bit integer, least significant byte first. -/
def raw32 (v : BitVec 32) : Bytes :=
  [UInt8.ofNat v.toNat, UInt8.ofNat (v.toNat / 2 ^ 8), UInt8.ofNat (v.toNat / 2 ^ 16),
    UInt8.ofNat (v.toNat / 2 ^ 24)]

@[simp] theorem rawBool_length (b : Bool) : (rawBool b).length = 1 := rfl

@[simp] theorem raw32_length (v : BitVec 32) : (raw32 v).length = 4 := rfl

theorem rawBool_injective : Function.Injective rawBool := by
  intro a b h
  revert h
  cases a <;> cases b <;> decide

/-- The 32-bit integer in four bytes of memory. -/
def value32 (a b c d : UInt8) : BitVec 32 :=
  BitVec.ofNat 32 (a.toNat + 2 ^ 8 * b.toNat + 2 ^ 16 * c.toNat + 2 ^ 24 * d.toNat)

/-- Reading back the four bytes of an integer. -/
theorem value32_raw32 (v : BitVec 32) :
    value32 (UInt8.ofNat v.toNat) (UInt8.ofNat (v.toNat / 2 ^ 8))
      (UInt8.ofNat (v.toNat / 2 ^ 16)) (UInt8.ofNat (v.toNat / 2 ^ 24)) = v := by
  have hv := v.isLt
  apply BitVec.eq_of_toNat_eq
  simp only [value32, BitVec.toNat_ofNat, UInt8.toNat_ofNat']
  omega

theorem raw32_injective : Function.Injective raw32 := by
  intro v w h
  simp only [raw32, List.cons.injEq, and_true] at h
  obtain ⟨h0, h1, h2, h3⟩ := h
  rw [← value32_raw32 v, h0, h1, h2, h3, value32_raw32]

/-- `RadixMerkleTreeNode::TreeNodeType`. -/
inductive TreeNodeType where
  | error
  | innerNode
  | transactionLeaf
  | accountLeaf
  deriving DecidableEq, Repr

/-- The enumerators' values. -/
def TreeNodeType.code : TreeNodeType → BitVec 32
  | error => 0
  | innerNode => 1
  | transactionLeaf => 2
  | accountLeaf => 3

theorem TreeNodeType.code_injective : Function.Injective TreeNodeType.code := by
  intro a b h
  revert h
  cases a <;> cases b <;> decide

/-- `RadixMerkleTreeLeaf`. Every copy of the data passes its size as an `int`. -/
structure RadixMerkleTreeLeaf where
  /-- `index_`. -/
  index : Uint256
  /-- `data_`. -/
  data : Bytes
  length_lt : data.length < 2 ^ 31
  deriving DecidableEq

theorem RadixMerkleTreeLeaf.ext {a b : RadixMerkleTreeLeaf} (hi : a.index = b.index)
    (hd : a.data = b.data) : a = b := by
  cases a
  cases b
  cases hi
  cases hd
  rfl

/-- A leaf with one byte of data. -/
def RadixMerkleTreeLeaf.ofByte (index : Uint256) (byte : UInt8) : RadixMerkleTreeLeaf where
  index := index
  data := [byte]
  length_lt := by simp

/-- The fields of a `RadixMerkleTreeNode` other than its child pointers. -/
structure NodeData where
  /-- `hash_`. -/
  hash : Uint256
  /-- `children_hash_`. -/
  childrenHash : Fin 16 → Uint256
  /-- `item_`. -/
  item : Option RadixMerkleTreeLeaf
  /-- `is_transaction_tree_`. -/
  isTransactionTree : Bool
  /-- `type_`. -/
  type : TreeNodeType
  /-- `branch_mask_`. -/
  branchMask : BitVec 32

/-- A `RadixMerkleTreeNode::pointer`: null, or a node with its own child pointers. -/
inductive RadixMerkleTreeNode where
  | null
  | node (d : NodeData) (children : Fin 16 → RadixMerkleTreeNode)

namespace NodeData

/-- `RadixMerkleTreeNode::is_inner`. -/
def isInner (d : NodeData) : Bool := d.type = .innerNode

/-- `RadixMerkleTreeNode::is_empty_branch`. -/
def isEmptyBranch (d : NodeData) (branch : Fin 16) : Bool :=
  d.branchMask &&& (1#32 <<< branch.val) = 0#32

/-- The first three fields that `update_hash` and `encode` write. -/
def header (d : NodeData) : Bytes :=
  rawBool d.isTransactionTree ++ raw32 d.type.code ++ raw32 d.branchMask

/-- The sixteen `children_hash_` in a row. -/
def childrenBytes (d : NodeData) : Bytes :=
  (List.finRange 16).flatMap fun i => (d.childrenHash i).data

/-- The bytes that `update_hash` passes to the digest. -/
def hashInput (d : NodeData) : Except Fault Bytes :=
  match d.type, d.item with
  | .innerNode, _ => .ok (d.header ++ ascii ['_', 'n', 'o', 'd', 'e', '_'] ++ d.childrenBytes)
  | .transactionLeaf, some item =>
    .ok (d.header ++ ascii ['t', 'x', 'l', 'e', 'a', 'f'] ++ item.data)
  | .accountLeaf, some item =>
    .ok (d.header ++ ascii ['a', 'c', 'l', 'e', 'a', 'f'] ++ item.data ++ item.index.data)
  | .transactionLeaf, none => .error .nullDeref
  | .accountLeaf, none => .error .nullDeref
  | .error, _ => .error .assertion

variable (sha : Bytes → Uint256)

/-- `RadixMerkleTreeNode::update_hash`: the node with its new hash, and whether it changed. -/
def updateHash (d : NodeData) : Except Fault (NodeData × Bool) := do
  let input ← d.hashInput
  let nh := sha input
  if d.hash = nh then .ok (d, false) else .ok ({ d with hash := nh }, true)

/-- The outcome of `update_hash` on a node whose bytes are known. -/
theorem updateHash_of_input {d : NodeData} {input : Bytes} (h : d.hashInput = .ok input) :
    d.updateHash sha =
      if d.hash = sha input then .ok (d, false) else .ok ({ d with hash := sha input }, true) := by
  rw [updateHash, h]
  rfl

/-- The constructor of an empty inner node. `hash_` is still undefined when `update_hash`
compares it, and holds the new value on both outcomes. -/
def ofFlag (isTransactionTree : Bool) : NodeData :=
  let d : NodeData :=
    { hash := Uint256.zero, childrenHash := fun _ => Uint256.zero, item := none,
      isTransactionTree, type := .innerNode, branchMask := 0 }
  { d with hash := sha (d.header ++ ascii ['_', 'n', 'o', 'd', 'e', '_'] ++ d.childrenBytes) }

/-- The constructor of a leaf. It calls `update_hash` and then overwrites the result by
the item's index. Its child hashes are left undefined and nothing reads them. -/
def ofItem (item : RadixMerkleTreeLeaf) (nodeType : TreeNodeType) : NodeData where
  hash := item.index
  childrenHash := fun _ => Uint256.zero
  item := some item
  isTransactionTree := nodeType = .transactionLeaf
  type := nodeType
  branchMask := 0

/-- `RadixMerkleTreeNode::make_inner`, for the fields. -/
def makeInner (d : NodeData) : NodeData :=
  { d with
    item := none
    branchMask := 0
    type := .innerNode
    hash := Uint256.zero
    childrenHash := fun _ => Uint256.zero }

/-- `RadixMerkleTreeNode::set_item`. -/
def setItem (d : NodeData) (item : RadixMerkleTreeLeaf) (nodeType : TreeNodeType) :
    Except Fault (NodeData × Bool) :=
  updateHash sha { d with type := nodeType, item := some item }

/-- `RadixMerkleTreeNode::set_child`, for the fields. -/
def setChild (d : NodeData) (hash : Uint256) (branch : Fin 16) : Except Fault (NodeData × Bool) :=
  updateHash sha
    { d with
      childrenHash := Function.update d.childrenHash branch hash
      branchMask := d.branchMask ||| (1#32 <<< branch.val) }

end NodeData

namespace RadixMerkleTreeNode

/-- The child pointers of a node that has none. -/
def noChildren : Fin 16 → RadixMerkleTreeNode := fun _ => null

/-- The pointer at the end of a path of branches. -/
def follow : List (Fin 16) → RadixMerkleTreeNode → RadixMerkleTreeNode
  | [], n => n
  | i :: q, .node _ children => follow q (children i)
  | _ :: _, .null => .null

end RadixMerkleTreeNode

/-- The leaf type that `add_given_item` and `update_given_item` choose. -/
def leafType (isTransaction : Bool) : TreeNodeType :=
  if isTransaction then .transactionLeaf else .accountLeaf

/-- Equal leading fields are equal fields. -/
theorem header_inj {d e : NodeData} (h : d.header = e.header) :
    d.isTransactionTree = e.isTransactionTree ∧ d.type = e.type ∧ d.branchMask = e.branchMask := by
  obtain ⟨hfront, hmask⟩ := List.append_inj' h (by simp)
  obtain ⟨hflag, htype⟩ := List.append_inj' hfront (by simp)
  exact ⟨rawBool_injective hflag, TreeNodeType.code_injective (raw32_injective htype),
    raw32_injective hmask⟩

/-- Lists of blocks of one size are equal block by block. -/
theorem flatMap_data_inj {n : ℕ} {f g : Fin n → Uint256} {l : List (Fin n)}
    (h : l.flatMap (fun i => (f i).data) = l.flatMap (fun i => (g i).data)) :
    ∀ i ∈ l, f i = g i := by
  induction l with
  | nil => simp
  | cons x l ih =>
    rw [List.flatMap_cons, List.flatMap_cons] at h
    obtain ⟨hx, hl⟩ := List.append_inj h (by rw [(f x).length_data, (g x).length_data])
    intro i hi
    rcases List.mem_cons.mp hi with rfl | hi
    · exact Uint256.ext hx
    · exact ih hl i hi

/-- Equal rows of child hashes are equal child hashes. -/
theorem childrenBytes_inj {d e : NodeData} (h : d.childrenBytes = e.childrenBytes) :
    d.childrenHash = e.childrenHash :=
  funext fun i => flatMap_data_inj h i (List.mem_finRange i)

theorem childrenBytes_length (d : NodeData) : d.childrenBytes.length = 512 := by
  simp [NodeData.childrenBytes, List.length_flatMap, Uint256.length_data]

end Bubi
