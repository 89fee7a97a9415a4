import Bubi.Tree.Database

/-!
# The radix Merkle tree over its store

The operations of `RadixMerkleTree` on a root pointer and the store behind it. Nodes
are changed in place in the source, so every operation returns the root as it is after
the call; a lookup changes it too, by attaching the nodes it loads. The loops are
bounded by the 64 half-bytes of an index: at depth 64 the next `select_branch` reads
outside the index.
-/

namespace Bubi.RadixMerkleTree

/-- `RadixMerkleTreeLeafStack`, the top first. -/
abbrev Stack := List (RadixMerkleTreeNode × ℕ)

variable (sha : Bytes → Uint256)

/-- The constructor of an empty tree. -/
def new (isTransactionTree : Bool) : RadixMerkleTreeNode :=
  .node (NodeData.ofFlag sha isTransactionTree) RadixMerkleTreeNode.noChildren

/-- The constructor from a stored root. -/
def load (db : Database) (hash : Uint256) : Except Fault (Database × RadixMerkleTreeNode) :=
  db.fetch sha hash

/-- `RadixMerkleTree::get_hash`. -/
def getHash : RadixMerkleTreeNode → Except Fault Uint256
  | .null => .error .nullDeref
  | .node d _ => .ok d.hash

/-- `RadixMerkleTree::descend`: the child, fetched when it is not loaded. The caller sees
it attached to the parent, as `canonicalize` leaves it. -/
def descend (db : Database) (d : NodeData) (children : Fin 16 → RadixMerkleTreeNode)
    (branch : Fin 16) : Except Fault (Database × RadixMerkleTreeNode) :=
  match children branch with
  | .null => db.fetch sha (d.childrenHash branch)
  | .node e cs => .ok (db, .node e cs)

/-- The loop of `get_stack`. A pushed node is the object that `canonicalize` changes
afterwards, so it is pushed with its loaded child. -/
def getStackLoop (hash : Uint256) :
    ℕ → Database → RadixMerkleTreeNode → ℕ → Stack → Except Fault (Database × Stack)
  | 0, _, _, _, _ => .error .outOfRange
  | _ + 1, _, .null, _, _ => .error .nullDeref
  | fuel + 1, db, .node d children, treeDepth, stack =>
    if d.isInner then do
      let branch ← selectBranch hash treeDepth
      if d.isEmptyBranch branch then .ok (db, (.node d children, treeDepth) :: stack)
      else
        let r ← descend sha db d children branch
        getStackLoop hash fuel r.1 r.2 (treeDepth + 1)
          ((.node d (Function.update children branch r.2), treeDepth) :: stack)
    else .ok (db, (.node d children, treeDepth) :: stack)

/-- `RadixMerkleTree::get_stack`. -/
def getStack (db : Database) (root : RadixMerkleTreeNode) (hash : Uint256) :
    Except Fault (Database × Stack) :=
  getStackLoop sha hash 65 db root 0 []

/-- The loop that `walk_to_leaf`, `get_account_entry` and `get_transaction_entry` each
spell out: the loaded tree and the leaf node at its end, none at an empty branch. -/
def walk (hash : Uint256) :
    ℕ → Database → RadixMerkleTreeNode → ℕ →
      Except Fault (Database × RadixMerkleTreeNode × Option NodeData)
  | 0, _, _, _ => .error .outOfRange
  | _ + 1, _, .null, _ => .error .nullDeref
  | fuel + 1, db, .node d children, depth =>
    if d.isInner then do
      let branch ← selectBranch hash depth
      if d.isEmptyBranch branch then .ok (db, .node d children, none)
      else
        let r ← descend sha db d children branch
        let w ← walk hash fuel r.1 r.2 (depth + 1)
        .ok (w.1, .node d (Function.update children branch w.2.1), w.2.2)
    else .ok (db, .node d children, some d)

/-- What a lookup makes of the leaf node at the end of its walk. -/
def atLeaf {α : Type} (hash : Uint256) (found : RadixMerkleTreeLeaf → Except Fault α) :
    Option NodeData → Except Fault (Option α)
  | none => .ok none
  | some d =>
    match d.item with
    | none => .error .nullDeref
    | some item => if item.index = hash then some <$> found item else .ok none

/-- A lookup: the walk from the root and its end. -/
def lookup {α : Type} (found : RadixMerkleTreeLeaf → Except Fault α) (db : Database)
    (root : RadixMerkleTreeNode) (hash : Uint256) :
    Except Fault (Database × RadixMerkleTreeNode × Option α) := do
  let w ← walk sha hash 65 db root 0
  let r ← atLeaf hash found w.2.2
  .ok (w.1, w.2.1, r)

/-- `RadixMerkleTree::has_item`, on the result of `walk_to_leaf`. -/
def hasItem (db : Database) (root : RadixMerkleTreeNode) (hash : Uint256) :
    Except Fault (Database × RadixMerkleTreeNode × Bool) := do
  let r ← lookup sha (fun _ => .ok ()) db root hash
  .ok (r.1, r.2.1, r.2.2.isSome)

/-- `RadixMerkleTree::peek_item`, on the result of `walk_to_leaf`. -/
def peekItem (db : Database) (root : RadixMerkleTreeNode) (hash : Uint256) :
    Except Fault (Database × RadixMerkleTreeNode × Option RadixMerkleTreeLeaf) :=
  lookup sha .ok db root hash

/-- `get_account_entry` and `get_transaction_entry`: the record that the given
`unserializer` reads from the leaf's `peek_string`. -/
def getEntry {α : Type} (unserializer : Bytes → Except Fault α) (db : Database)
    (root : RadixMerkleTreeNode) (hash : Uint256) :
    Except Fault (Database × RadixMerkleTreeNode × Option α) :=
  lookup sha (fun item => unserializer item.data) db root hash

/-- `set_child` on a node with its pointers. -/
def setChild (node : RadixMerkleTreeNode) (child : RadixMerkleTreeNode) (hash : Uint256)
    (branch : Fin 16) : Except Fault RadixMerkleTreeNode :=
  match node with
  | .null => .error .nullDeref
  | .node d children => do
    let r ← d.setChild sha hash branch
    if r.2 then .ok (.node r.1 (Function.update children branch child)) else .error .unchanged

/-- `RadixMerkleTree::dirty_up`: the rebuilt ancestors up to the root. -/
def dirtyUp (index : Uint256) : Stack → RadixMerkleTreeNode → Except Fault RadixMerkleTreeNode
  | [], child => .ok child
  | (.null, _) :: _, _ => .error .nullDeref
  | (.node d children, treeDepth) :: stack, child =>
    if d.isInner then do
      let branch ← selectBranch index treeDepth
      let hash ← getHash child
      let node ← setChild sha (.node d children) child hash branch
      dirtyUp index stack node
    else .error .assertion

/-- The ancestors of a node changed in place without `dirty_up`: they still point to it. -/
def relink (index : Uint256) : Stack → RadixMerkleTreeNode → Except Fault RadixMerkleTreeNode
  | [], child => .ok child
  | (.null, _) :: _, _ => .error .nullDeref
  | (.node d children, treeDepth) :: stack, child => do
    let branch ← selectBranch index treeDepth
    relink index stack (.node d (Function.update children branch child))

/-- A leaf node that `add_given_item` builds. -/
def newLeaf (item : RadixMerkleTreeLeaf) (isTransaction : Bool) : RadixMerkleTreeNode :=
  .node (NodeData.ofItem item (leafType isTransaction)) RadixMerkleTreeNode.noChildren

/-- The `while` loop of `add_given_item` that adds an inner node for every shared digit:
the lowest inner node, its depth, the two branches and the stack. -/
def splitLoop (index otherIndex : Uint256) :
    ℕ → NodeData → ℕ → Stack → Except Fault (NodeData × Fin 16 × Fin 16 × Stack)
  | 0, _, _, _ => .error .outOfRange
  | fuel + 1, node, treeDepth, stack => do
    let b1 ← selectBranch index treeDepth
    let b2 ← selectBranch otherIndex treeDepth
    if b1 = b2 then
      splitLoop index otherIndex fuel (NodeData.ofFlag sha false).makeInner (treeDepth + 1)
        ((.node node RadixMerkleTreeNode.noChildren, treeDepth) :: stack)
    else .ok (node, b1, b2, stack)

/-- `add_given_item` behind `get_stack`: the new root. -/
def addAtStack (item : RadixMerkleTreeLeaf) (isTransaction : Bool) :
    Stack → Except Fault RadixMerkleTreeNode
  | [] => .error .assertion
  | (.null, _) :: _ => .error .nullDeref
  | (.node d children, treeDepth) :: stack =>
    if d.isInner then do
      let branch ← selectBranch item.index treeDepth
      if d.isEmptyBranch branch then
        let node ← setChild sha (.node d children) (newLeaf item isTransaction) item.index branch
        dirtyUp sha item.index stack node
      else .error .assertion
    else
      match d.item with
      | none => .error .assertion
      | some otherItem =>
        if item.index = otherItem.index then .error .assertion
        else do
          let s ← splitLoop sha item.index otherItem.index (64 - treeDepth) d.makeInner treeDepth
            stack
          let node ← setChild sha (.node s.1 RadixMerkleTreeNode.noChildren)
            (newLeaf item isTransaction) item.index s.2.1
          let node ← setChild sha node (newLeaf otherItem isTransaction) otherItem.index s.2.2.1
          dirtyUp sha item.index s.2.2.2 node

/-- `RadixMerkleTree::add_given_item`, which returns `true` whenever it returns. -/
def addGivenItem (db : Database) (root : RadixMerkleTreeNode) (item : RadixMerkleTreeLeaf)
    (isTransaction : Bool) : Except Fault (Database × RadixMerkleTreeNode) := do
  let s ← getStack sha db root item.index
  let root ← addAtStack sha item isTransaction s.2
  .ok (s.1, root)

/-- `RadixMerkleTree::add_item`. -/
def addItem (db : Database) (root : RadixMerkleTreeNode) (item : RadixMerkleTreeLeaf)
    (isTransaction : Bool) : Except Fault (Database × RadixMerkleTreeNode) :=
  addGivenItem sha db root item isTransaction

/-- `update_given_item` behind `get_stack`: the new root. -/
def updateAtStack (item : RadixMerkleTreeLeaf) (isTransaction : Bool) :
    Stack → Except Fault RadixMerkleTreeNode
  | [] => .error .assertion
  | (.null, _) :: _ => .error .nullDeref
  | (.node d children, _) :: stack =>
    if d.isInner then .error .assertion
    else
      match d.item with
      | none => .error .nullDeref
      | some old =>
        if old.index = item.index then do
          let r ← d.setItem sha item (leafType isTransaction)
          if r.2 then dirtyUp sha item.index stack (.node r.1 children)
          else relink item.index stack (.node r.1 children)
        else .error .assertion

/-- `RadixMerkleTree::update_given_item`, which returns `true` whenever it returns. -/
def updateGivenItem (db : Database) (root : RadixMerkleTreeNode) (item : RadixMerkleTreeLeaf)
    (isTransaction : Bool) : Except Fault (Database × RadixMerkleTreeNode) := do
  let s ← getStack sha db root item.index
  let root ← updateAtStack sha item isTransaction s.2
  .ok (s.1, root)

/-- The loaded nodes of a tree. -/
def size : RadixMerkleTreeNode → ℕ
  | .null => 0
  | .node _ children => 1 + ((List.finRange 16).map fun i => size (children i)).sum

/-- Whether a pointer is not null. -/
def isLoaded : RadixMerkleTreeNode → Bool
  | .null => false
  | .node _ _ => true

/-- The loaded children of a node, in branch order. -/
def loadedChildren (children : Fin 16 → RadixMerkleTreeNode) : List RadixMerkleTreeNode :=
  ((List.finRange 16).map children).filter isLoaded

/-- The record of a node as `store_batch` encodes it. -/
def record : RadixMerkleTreeNode → Option NodeData
  | .null => none
  | .node d _ => some d

/-- The queue of `backup_to_database`, over at most the given number of nodes. -/
def backupLoop : ℕ → List RadixMerkleTreeNode → List NodeData → List NodeData
  | 0, _, batch => batch
  | _ + 1, [], batch => batch
  | fuel + 1, .null :: que, batch => backupLoop fuel que batch
  | fuel + 1, .node d children :: que, batch =>
    if d.isInner then
      backupLoop fuel (que ++ loadedChildren children)
        (batch ++ (loadedChildren children).filterMap record)
    else backupLoop fuel que batch

/-- `RadixMerkleTree::backup_to_database`. -/
def backupToDatabase (db : Database) : RadixMerkleTreeNode → Except Fault Database
  | .null => .error .nullDeref
  | .node d children =>
    db.storeBatch (backupLoop (size (.node d children)) [.node d children] [d])

variable {sha}

/-- A walk keeps the node it starts at. -/
theorem getHash_walk {hash : Uint256} {fuel : ℕ} {db : Database} {n : RadixMerkleTreeNode}
    {treeDepth : ℕ} {w : Database × RadixMerkleTreeNode × Option NodeData}
    (hw : walk sha hash fuel db n treeDepth = .ok w) : getHash w.2.1 = getHash n := by
  cases fuel with
  | zero => cases hw
  | succ fuel =>
    cases n with
    | null => cases hw
    | node d children =>
      rw [walk] at hw
      split at hw
      · obtain ⟨branch, _, hw⟩ := Core.bind_eq_ok.mp hw
        split at hw
        · cases hw
          rfl
        · obtain ⟨_, _, hw⟩ := Core.bind_eq_ok.mp hw
          obtain ⟨_, _, hw⟩ := Core.bind_eq_ok.mp hw
          cases hw
          rfl
      · cases hw
        rfl

end Bubi.RadixMerkleTree
