import Bubi.Ledger.Posting

/-!
# What an operation leaves in the trees

`set_child` is asserted to change the hash of its node, so an `add_item` that returns
leaves another root, whatever the tree and the store hold. A new account changes the root
of the account tree, and a transaction changes the root of the transaction tree exactly
when `add_transaction_entry` returns 0.
-/

namespace Bubi

open Bubi.Core

namespace RadixMerkleTree

variable {sha : Bytes → Uint256} {db : Database} {index : Uint256}
  {node node' root : RadixMerkleTreeNode}

/-- A node of which `set_child` has changed the hash. -/
def Rewritten (node node' : RadixMerkleTreeNode) : Prop :=
  ∃ d d', record node = some d ∧ record node' = some d' ∧ d'.type = d.type ∧ d'.hash ≠ d.hash

theorem Rewritten.record_ne (h : Rewritten node node') : record node' ≠ record node := by
  obtain ⟨d, d', hd, hd', _, hhash⟩ := h
  rw [hd, hd', ne_eq, Option.some.injEq]
  rintro rfl
  exact hhash rfl

theorem rewritten_setChild {child : RadixMerkleTreeNode} {hash : Uint256} {branch : Fin 16}
    (h : setChild sha node child hash branch = .ok node') : Rewritten node node' := by
  cases node with
  | null => cases h
  | node d children =>
    obtain ⟨r, hr, h⟩ := bind_eq_ok.mp h
    split at h
    · rename_i hchanged
      cases h
      obtain ⟨input, _, hr⟩ := bind_eq_ok.mp hr
      dsimp only at hr
      split at hr
      · cases hr
        cases hchanged
      · rename_i hne
        cases hr
        exact ⟨d, _, rfl, rfl, rfl, Ne.symm hne⟩
    · cases h

/-- The lowest node of a stack on top of which a node stands. -/
def bottom (stack : Stack) (node : RadixMerkleTreeNode) : RadixMerkleTreeNode :=
  (stack.map Prod.fst).getLastD node

theorem bottom_cons (node top : RadixMerkleTreeNode) (depth : ℕ) (stack : Stack) :
    bottom ((node, depth) :: stack) top = bottom stack node :=
  List.getLastD_cons

theorem record_bottom (h : record node = record node') (stack : Stack) :
    record (bottom stack node) = record (bottom stack node') := by
  cases stack with
  | nil => exact h
  | cons entry stack => rw [bottom_cons, bottom_cons]

/-- `get_stack` leaves the root at the bottom. -/
theorem getStackLoop_bottom {fuel treeDepth : ℕ} {stack : Stack} {r : Database × Stack}
    (h : getStackLoop sha index fuel db node treeDepth stack = .ok r) :
    ∃ top depth rest, r.2 = (top, depth) :: rest ∧
      record (bottom rest top) = record (bottom stack node) := by
  induction fuel generalizing db node treeDepth stack with
  | zero => cases h
  | succ fuel ih =>
    cases node with
    | null => cases h
    | node d children =>
      rw [getStackLoop] at h
      split at h
      · obtain ⟨branch, _, h⟩ := bind_eq_ok.mp h
        split at h
        · cases h
          exact ⟨_, _, _, rfl, rfl⟩
        · obtain ⟨w, _, h⟩ := bind_eq_ok.mp h
          obtain ⟨top, depth, rest, hr, hbottom⟩ := ih h
          rw [bottom_cons] at hbottom
          have hsame : record (.node d (Function.update children branch w.2)) =
              record (.node d children) := rfl
          exact ⟨top, depth, rest, hr, hbottom.trans (record_bottom hsame stack)⟩
      · cases h
        exact ⟨_, _, _, rfl, rfl⟩

/-- `dirty_up` rewrites every node of the stack. -/
theorem dirtyUp_bottom {stack : Stack} (hnode : Rewritten node node')
    (h : dirtyUp sha index stack node' = .ok root) : Rewritten (bottom stack node) root := by
  induction stack generalizing node node' with
  | nil =>
    cases h
    exact hnode
  | cons entry stack ih =>
    obtain ⟨parent, depth⟩ := entry
    rw [bottom_cons]
    cases parent with
    | null => cases h
    | node d children =>
      rw [dirtyUp] at h
      split at h
      · obtain ⟨branch, _, h⟩ := bind_eq_ok.mp h
        obtain ⟨hash, _, h⟩ := bind_eq_ok.mp h
        obtain ⟨parent', hparent, h⟩ := bind_eq_ok.mp h
        exact ih (rewritten_setChild hparent) h
      · cases h

/-- The type of a node. -/
def nodeType (node : RadixMerkleTreeNode) : Option TreeNodeType :=
  (record node).map NodeData.type

theorem Rewritten.nodeType_eq (h : Rewritten node node') : nodeType node' = nodeType node := by
  obtain ⟨d, d', hd, hd', htype, _⟩ := h
  rw [nodeType, nodeType, hd, hd']
  exact congrArg some htype

/-- The loop that splits a leaf stacks inner nodes on top of the nodes that are there. -/
theorem splitLoop_bottom {otherIndex : Uint256} {fuel treeDepth : ℕ} {d : NodeData} {stack : Stack}
    {s : NodeData × Fin 16 × Fin 16 × Stack} (hd : d.type = .innerNode)
    (h : splitLoop sha index otherIndex fuel d treeDepth stack = .ok s) :
    s.1.type = .innerNode ∧ ∀ top, nodeType top = some .innerNode →
      (stack = [] → nodeType (bottom s.2.2.2 top) = some .innerNode) ∧
        (stack ≠ [] → bottom s.2.2.2 top = bottom stack top) := by
  induction fuel generalizing d treeDepth stack with
  | zero => cases h
  | succ fuel ih =>
    obtain ⟨b1, _, h⟩ := bind_eq_ok.mp h
    obtain ⟨b2, _, h⟩ := bind_eq_ok.mp h
    split at h
    · obtain ⟨hinner, hstack⟩ := ih rfl h
      refine ⟨hinner, fun top htop => ?_⟩
      have hbottom := (hstack top htop).2 (List.cons_ne_nil _ _)
      rw [bottom_cons] at hbottom
      rw [hbottom]
      cases stack with
      | nil => exact ⟨fun _ => congrArg some hd, fun hne => absurd rfl hne⟩
      | cons entry stack => exact ⟨fun hnil => absurd hnil (List.cons_ne_nil _ _), fun _ => rfl⟩
    · cases h
      refine ⟨hd, fun top htop => ⟨?_, fun _ => rfl⟩⟩
      rintro rfl
      exact htop

/-- `add_given_item` leaves another node at the bottom of the stack. -/
theorem addAtStack_record_ne {item : RadixMerkleTreeLeaf} {isTransaction : Bool} {depth : ℕ}
    {stack : Stack} (h : addAtStack sha item isTransaction ((node, depth) :: stack) = .ok root) :
    record root ≠ record (bottom stack node) := by
  cases node with
  | null => cases h
  | node d children =>
    rw [addAtStack] at h
    split at h
    · obtain ⟨branch, _, h⟩ := bind_eq_ok.mp h
      split at h
      · obtain ⟨node', hnode', h⟩ := bind_eq_ok.mp h
        exact (dirtyUp_bottom (rewritten_setChild hnode') h).record_ne
      · cases h
    · rename_i hleaf
      split at h
      · cases h
      · split at h
        · cases h
        · obtain ⟨s, hs, h⟩ := bind_eq_ok.mp h
          obtain ⟨node₁, hnode₁, h⟩ := bind_eq_ok.mp h
          obtain ⟨node₂, hnode₂, h⟩ := bind_eq_ok.mp h
          obtain ⟨hinner, hbottom⟩ := splitLoop_bottom rfl hs
          have htype : nodeType node₁ = some .innerNode :=
            (rewritten_setChild hnode₁).nodeType_eq.trans (congrArg some hinner)
          have hroot := dirtyUp_bottom (rewritten_setChild hnode₂) h
          obtain ⟨hnil, hcons⟩ := hbottom node₁ htype
          cases stack with
          | nil =>
            -- The leaf was the root, which is an inner node now.
            intro heq
            have hroottype := hroot.nodeType_eq.trans (hnil rfl)
            rw [nodeType, heq] at hroottype
            exact hleaf (decide_eq_true (Option.some.inj hroottype))
          | cons entry stack =>
            rw [hcons (List.cons_ne_nil _ _), bottom_cons] at hroot
            rw [bottom_cons]
            exact hroot.record_ne

/-- `add_item` leaves another root. -/
theorem addItem_record_ne {item : RadixMerkleTreeLeaf} {isTransaction : Bool}
    {w : Database × RadixMerkleTreeNode} (h : addItem sha db root item isTransaction = .ok w) :
    record w.2 ≠ record root := by
  obtain ⟨s, hs, h⟩ := bind_eq_ok.mp h
  obtain ⟨root', hroot', h⟩ := bind_eq_ok.mp h
  cases h
  obtain ⟨top, depth, rest, hstack, hbottom⟩ := getStackLoop_bottom hs
  rw [hstack] at hroot'
  have hne := addAtStack_record_ne hroot'
  rwa [hbottom] at hne

end RadixMerkleTree

namespace Ledger

open RadixMerkleTree

variable {sha : Bytes → Uint256} {pb : Protobuf} {s s' : State}

/-- The account tree has got another root. -/
def AccountTreeChanged (s s' : State) : Prop := record s'.2.accountTree ≠ record s.2.accountTree

/-- The transaction tree has got another root. -/
def TransactionTreeChanged (s s' : State) : Prop :=
  record s'.2.transactionTree ≠ record s.2.transactionTree

/-- Every account that is created changes the account tree. -/
theorem createAccount_changes {accPub : Bytes} (h : createAccount sha pb s accPub = .ok s') :
    AccountTreeChanged s s' := by
  obtain ⟨item, w, l, hw, hl, rfl⟩ := createAccount_path h
  obtain ⟨hash, _, rfl⟩ := updateAccountTreeHash_ok hl
  exact addItem_record_ne hw

theorem transactionTree_getAccountEntry {hash : Uint256} {r : State × Option Account}
    (h : getAccountEntry sha pb s hash = .ok r) :
    r.1.2.transactionTree = s.2.transactionTree := by
  obtain ⟨w, _, h⟩ := bind_eq_ok.mp h
  cases h
  rfl

theorem transactionTree_updateAccountTreeEntry {item : RadixMerkleTreeLeaf}
    (h : updateAccountTreeEntry sha s item = .ok s') :
    s'.2.transactionTree = s.2.transactionTree := by
  obtain ⟨w, _, h⟩ := bind_eq_ok.mp h
  obtain ⟨l, hl, h⟩ := bind_eq_ok.mp h
  cases h
  obtain ⟨hash, _, rfl⟩ := updateAccountTreeHash_ok hl
  rfl

/-- A posted transaction changes the transaction tree. -/
theorem postTransaction_changes {tx : Transaction} {source destination : Account}
    {r : State × Transaction} (h : postTransaction sha pb s tx source destination = .ok r) :
    TransactionTreeChanged s r.1 := by
  obtain ⟨item, w, l, _, _, s₁, s₂, l', hw, hl, hs₁, hs₂, hl', hr⟩ := postTransaction_path h
  obtain ⟨hash, _, rfl⟩ := updateTransactionTreeHash_ok hl
  obtain ⟨hash', _, rfl⟩ := updateAccountTreeHash_ok hl'
  have htree : r.1.2.transactionTree = w.2 := by
    rw [hr]
    exact (transactionTree_updateAccountTreeEntry hs₂).trans
      (transactionTree_updateAccountTreeEntry hs₁)
  rw [TransactionTreeChanged, htree]
  exact addItem_record_ne hw

/-- `add_transaction_entry` returns 0 for the transactions that it adds. -/
theorem addTransactionEntry_zero_iff {tx : Transaction} {r : State × Transaction × ℕ}
    (h : addTransactionEntry sha pb s tx = .ok r) :
    r.2.2 = 0 ↔ TransactionTreeChanged s r.1 := by
  obtain ⟨source, destination, hsource, hdestination, hcases⟩ := addTransactionEntry_cases h
  have hread : destination.1.2.transactionTree = s.2.transactionTree :=
    (transactionTree_getAccountEntry hdestination).trans (transactionTree_getAccountEntry hsource)
  rcases hcases with ⟨hcode, hr⟩ | ⟨hcode, _, _, p, hp, hr⟩
  · refine iff_of_false (by omega) fun hchanged => hchanged ?_
    rw [hr, hread]
  · refine iff_of_true hcode ?_
    have hchanged := postTransaction_changes hp
    rwa [TransactionTreeChanged, hread, ← hr] at hchanged

/-- On the books: the transaction tree is changed by the transactions that are accepted. -/
theorem Reflects.transactionTreeChanged_iff {b : Books} {accepted : List Transaction}
    {ta tt : MerkleTrie} (h : Reflects sha pb s b accepted ta tt) {tx : Transaction}
    {r : State × Transaction × ℕ} (hr : addTransactionEntry sha pb s tx = .ok r) :
    TransactionTreeChanged s r.1 ↔
      (post sha pb s.2.ledgerSequence (b, accepted) tx).2 = r.2.1 :: accepted := by
  rw [← addTransactionEntry_zero_iff hr]
  obtain ⟨source, hs, ⟨hlt, hcode, _⟩ | ⟨hle, destination, hd, hcode, _⟩⟩ :=
    h.addTransactionEntry_ok hr
  · rw [hcode, post_rejected hs hlt]
    exact iff_of_false Nat.one_ne_zero (List.cons_ne_self _ _).symm
  · rw [hcode, post_accepted hs hd hle]
    exact iff_of_true rfl rfl

end Ledger

end Bubi
