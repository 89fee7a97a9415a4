import Bubi.Tree.Backup

/-!
# Well-formed nodes

Every loaded inner node carries the digest of its record, its record names the hash of
every loaded child, and the branches that it does not mark are empty. The operations
take nodes out of this state and bring them back: an insertion works on fresh nodes
whose hash is stale, and the way back up the stack recomputes every node it passes.
Nothing here depends on what the nodes stand for or on the digest.
-/

namespace Bubi

open Bubi.Core

namespace NodeData

/-- The record that `update_hash` digests for an inner node. -/
def innerRecord (d : NodeData) : Bytes :=
  d.header ++ ascii ['_', 'n', 'o', 'd', 'e', '_'] ++ d.childrenBytes

/-- The mask and the child hashes of an inner node agree. -/
structure Marked (d : NodeData) : Prop where
  zero : ∀ i, d.isEmptyBranch i = true → d.childrenHash i = Uint256.zero
  high : ∀ j, 16 ≤ j → d.branchMask.getLsbD j = false

/-- A record that may be stored: an inner node with its own digest for its hash, or a leaf. -/
structure Recorded (sha : Bytes → Uint256) (d : NodeData) : Prop where
  shaped : d.Shaped
  hash : d.isInner = true → d.hash = sha d.innerRecord
  marked : d.isInner = true → d.Marked

theorem isEmptyBranch_iff (d : NodeData) (i : Fin 16) :
    d.isEmptyBranch i = true ↔ d.branchMask.getLsbD i.val = false :=
  decide_eq_true_iff.trans (MerkleTrie.and_shiftLeft_eq_zero d.branchMask i)

theorem hashInput_inner {d : NodeData} (h : d.isInner = true) :
    d.hashInput = .ok d.innerRecord := by
  have htype : d.type = .innerNode := of_decide_eq_true h
  rw [hashInput, htype]
  rfl

/-- `set_child` marks its branch. -/
theorem isEmptyBranch_setChild (d : NodeData) (hash : Uint256) (branch i : Fin 16) :
    isEmptyBranch { d with
      childrenHash := Function.update d.childrenHash branch hash
      branchMask := d.branchMask ||| (1#32 <<< branch.val) } i =
      if i = branch then false else d.isEmptyBranch i := by
  rw [Bool.eq_iff_iff, isEmptyBranch_iff, BitVec.getLsbD_or,
    MerkleTrie.getLsbD_shiftLeft_one (by omega)]
  by_cases hi : i = branch
  · simp [hi]
  · have hne : branch.val ≠ i.val := fun h => hi (Fin.ext h).symm
    simp [hi, hne, isEmptyBranch_iff]

/-- What `set_child` makes of a record when it reports a change. -/
theorem setChild_ok {sha : Bytes → Uint256} {d : NodeData} (h : d.isInner = true) {hash : Uint256}
    {branch : Fin 16} {r : NodeData × Bool} (hr : d.setChild sha hash branch = .ok r) :
    ∃ e : NodeData, r.1 = { e with hash := sha e.innerRecord } ∧
      e = { d with
        childrenHash := Function.update d.childrenHash branch hash
        branchMask := d.branchMask ||| (1#32 <<< branch.val) } := by
  refine ⟨_, ?_, rfl⟩
  rw [NodeData.setChild, updateHash_of_input sha (hashInput_inner (d := { d with
    childrenHash := Function.update d.childrenHash branch hash
    branchMask := d.branchMask ||| (1#32 <<< branch.val) }) h)] at hr
  split at hr
  · next heq =>
    rw [← Except.ok.inj hr, ← heq]
  · rw [← Except.ok.inj hr]

theorem Marked.setChild {d : NodeData} (h : d.Marked) (hash : Uint256) (branch : Fin 16) :
    Marked { d with
      childrenHash := Function.update d.childrenHash branch hash
      branchMask := d.branchMask ||| (1#32 <<< branch.val) } where
  zero := by
    intro i hi
    rw [isEmptyBranch_setChild] at hi
    split at hi
    · cases hi
    · next hne => exact (Function.update_of_ne hne ..).trans (h.zero i hi)
  high := by
    intro j hj
    rw [BitVec.getLsbD_or, h.high j hj]
    rcases Nat.lt_or_ge j 32 with hlt | hge
    · rw [MerkleTrie.getLsbD_shiftLeft_one hlt]
      simp only [Bool.false_or, decide_eq_false_iff_not]
      omega
    · rw [BitVec.getLsbD_of_ge _ _ hge, Bool.false_or]

/-- `make_inner` marks no branch. -/
theorem marked_makeInner (d : NodeData) : d.makeInner.Marked where
  zero := fun _ _ => rfl
  high := by
    intro j _
    exact BitVec.getLsbD_zero

end NodeData

namespace RadixMerkleTree

section Predicates

variable (sha : Bytes → Uint256) (full : Prop)

/-- A pointer below a branch: a loaded child has the recorded hash and a marked branch. Where
nothing was ever unloaded, every marked branch has its child. -/
structure Attached (d : NodeData) (i : Fin 16) (n : RadixMerkleTreeNode) : Prop where
  hash : ∀ h, getHash n = .ok h → d.isEmptyBranch i = false ∧ d.childrenHash i = h
  loaded : full → d.isEmptyBranch i = false → isLoaded n = true

/-- All loaded nodes below a pointer are well formed. -/
def WellFormed : RadixMerkleTreeNode → Prop
  | .null => True
  | .node d children =>
    d.Recorded sha ∧ (d.isInner = true → ∀ i, Attached full d i (children i)) ∧
      ∀ i, WellFormed (children i)

/-- An inner node whose hash may be stale, everything below it well formed. -/
structure Ready (d : NodeData) (children : Fin 16 → RadixMerkleTreeNode) : Prop where
  shaped : d.Shaped
  inner : d.isInner = true
  marked : d.Marked
  attached : ∀ i, Attached full d i (children i)
  below : ∀ i, WellFormed sha full (children i)

/-- The entries of a stack are ready for `dirty_up`. -/
def ReadyAll (stack : Stack) : Prop :=
  ∀ e ∈ stack, ∃ d children, e.1 = .node d children ∧ Ready sha full d children

/-- The stack of the ancestors of a node: each names the hash of the next at its branch. -/
def Chain (index : Uint256) : Stack → RadixMerkleTreeNode → Prop
  | [], _ => True
  | (.null, _) :: _, _ => False
  | (.node d children, treeDepth) :: stack, child =>
    d.isInner = true ∧ WellFormed sha full (.node d children) ∧
      (∀ b, selectBranch index treeDepth = .ok b →
        d.isEmptyBranch b = false ∧ getHash child = .ok (d.childrenHash b)) ∧
      Chain index stack (.node d children)

/-- Every record in the store is one that may be stored under its key. -/
def StoreWellFormed (db : Database) : Prop :=
  ∀ hash value d, db hash.toString = some value →
    NodeData.decode { NodeData.ofFlag sha false with hash } value = .ok d →
      d.Recorded sha ∧ d.hash = hash

end Predicates

variable {sha : Bytes → Uint256} {full : Prop} {d : NodeData}
  {children : Fin 16 → RadixMerkleTreeNode} {child root : RadixMerkleTreeNode} {index : Uint256}
  {stack : Stack}

theorem attached_null (hd : full → ∀ i, d.isEmptyBranch i = true) (i : Fin 16) :
    Attached full d i .null where
  hash := fun h hh => by cases hh
  loaded := by
    intro hfull hempty
    rw [hd hfull i] at hempty
    cases hempty

theorem WellFormed.ready (h : WellFormed sha full (.node d children)) (hinner : d.isInner = true) :
    Ready sha full d children where
  shaped := h.1.shaped
  inner := hinner
  marked := h.1.marked hinner
  attached := h.2.1 hinner
  below := h.2.2

/-- A child with the recorded hash may take its branch. -/
theorem WellFormed.attach (h : WellFormed sha full (.node d children)) (hinner : d.isInner = true)
    {b : Fin 16} (hb : d.isEmptyBranch b = false) (hc : WellFormed sha full child)
    (hh : getHash child = .ok (d.childrenHash b)) :
    WellFormed sha full (.node d (Function.update children b child)) := by
  refine ⟨h.1, fun _ i => ?_, fun i => ?_⟩
  · by_cases hi : i = b
    · subst hi
      rw [Function.update_self]
      refine ⟨fun h' hh' => ⟨hb, Except.ok.inj (hh.symm.trans hh')⟩, fun _ _ => ?_⟩
      cases child with
      | null => cases hh
      | node e cs => rfl
    · rw [Function.update_of_ne hi]
      exact h.2.1 hinner i
  · by_cases hi : i = b
    · rw [hi, Function.update_self]
      exact hc
    · rw [Function.update_of_ne hi]
      exact h.2.2 i

section Up

/-- `set_child` brings the hash of a node up to date. -/
theorem Ready.setChild (h : Ready sha full d children) {hash : Uint256} {b : Fin 16}
    (hc : WellFormed sha full child) (hh : getHash child = .ok hash)
    (hr : setChild sha (.node d children) child hash b = .ok root) :
    WellFormed sha full root ∧ ∃ d' children', root = .node d' children' ∧ d'.isInner = true := by
  obtain ⟨r, hset, hr⟩ := bind_eq_ok.mp hr
  obtain ⟨e, he, hfields⟩ := NodeData.setChild_ok h.inner hset
  split at hr
  · cases hr
    rw [he]
    have hempty : ∀ i, e.isEmptyBranch i = if i = b then false else d.isEmptyBranch i := by
      rw [hfields]
      exact d.isEmptyBranch_setChild hash b
    have hinner : e.isInner = true := by
      rw [hfields]
      exact h.inner
    refine ⟨⟨⟨?_, fun _ => rfl, fun _ => ?_⟩, fun _ i => ?_, fun i => ?_⟩, _, _, rfl, hinner⟩
    · have htype : d.type = .innerNode := of_decide_eq_true h.inner
      have hshaped := h.shaped
      rw [hfields]
      simp only [NodeData.Shaped, htype] at hshaped ⊢
      exact hshaped
    · have hmarked := h.marked.setChild hash b
      rw [← hfields] at hmarked
      exact ⟨hmarked.zero, hmarked.high⟩
    · by_cases hi : i = b
      · subst hi
        rw [Function.update_self]
        refine ⟨fun h' hh' => ⟨(hempty i).trans (if_pos rfl), ?_⟩, fun _ _ => ?_⟩
        · rw [← Except.ok.inj (hh.symm.trans hh'), hfields]
          exact Function.update_self ..
        · cases child with
          | null => cases hh
          | node e' cs => rfl
      · rw [Function.update_of_ne hi]
        have hsame : e.isEmptyBranch i = d.isEmptyBranch i := (hempty i).trans (if_neg hi)
        have hhash : e.childrenHash i = d.childrenHash i := by
          rw [hfields]
          exact Function.update_of_ne hi ..
        refine ⟨fun h' hh' => ?_, fun hfull hmark => (h.attached i).loaded hfull (hsame ▸ hmark)⟩
        obtain ⟨hmark, hchild⟩ := (h.attached i).hash h' hh'
        exact ⟨hsame.trans hmark, hhash.trans hchild⟩
    · by_cases hi : i = b
      · rw [hi, Function.update_self]
        exact hc
      · rw [Function.update_of_ne hi]
        exact h.below i
  · cases hr

/-- `dirty_up` brings every node on its way up to date. -/
theorem dirtyUp_wellFormed (hs : ReadyAll sha full stack) (hc : WellFormed sha full child)
    (hr : dirtyUp sha index stack child = .ok root) : WellFormed sha full root := by
  induction stack generalizing child with
  | nil => exact Except.ok.inj hr ▸ hc
  | cons e stack ih =>
    obtain ⟨⟨d, children, hnode, hready⟩, hrest⟩ := List.forall_mem_cons.mp hs
    obtain ⟨n, treeDepth⟩ := e
    cases hnode
    rw [dirtyUp, hready.inner, if_pos rfl] at hr
    obtain ⟨b, _, hr⟩ := bind_eq_ok.mp hr
    obtain ⟨hash, hhash, hr⟩ := bind_eq_ok.mp hr
    obtain ⟨node, hnode, hr⟩ := bind_eq_ok.mp hr
    exact ih hrest (hready.setChild hc hhash hnode).1 hr

/-- Only the hash of the node below matters to a chain. -/
theorem Chain.congr (h : Chain sha full index stack child) {child' : RadixMerkleTreeNode}
    (hh : getHash child' = getHash child) : Chain sha full index stack child' := by
  cases stack with
  | nil => trivial
  | cons e stack =>
    obtain ⟨n, treeDepth⟩ := e
    cases n with
    | null => exact h.elim
    | node d children =>
      obtain ⟨hinner, hwell, hbranch, hrest⟩ := h
      exact ⟨hinner, hwell, fun b hb => ⟨(hbranch b hb).1, hh.trans (hbranch b hb).2⟩, hrest⟩

theorem Chain.readyAll (h : Chain sha full index stack child) : ReadyAll sha full stack := by
  induction stack generalizing child with
  | nil => exact fun e he => absurd he (List.not_mem_nil)
  | cons e stack ih =>
    obtain ⟨n, treeDepth⟩ := e
    cases n with
    | null => exact h.elim
    | node d children =>
      obtain ⟨hinner, hwell, _, hrest⟩ := h
      exact List.forall_mem_cons.mpr ⟨⟨d, children, rfl, hwell.ready hinner⟩, ih hrest⟩

/-- A node that kept its hash leaves its ancestors well formed. -/
theorem relink_wellFormed (h : Chain sha full index stack child) (hc : WellFormed sha full child)
    (hr : relink index stack child = .ok root) : WellFormed sha full root := by
  induction stack generalizing child with
  | nil => exact Except.ok.inj hr ▸ hc
  | cons e stack ih =>
    obtain ⟨n, treeDepth⟩ := e
    cases n with
    | null => exact h.elim
    | node d children =>
      obtain ⟨hinner, hwell, hbranch, hrest⟩ := h
      obtain ⟨b, hb, hr⟩ := bind_eq_ok.mp hr
      obtain ⟨hmark, hhash⟩ := hbranch b hb
      refine ih ?_ (hwell.attach hinner hmark hc hhash) hr
      exact hrest.congr rfl

end Up

section Down

variable {db : Database}

/-- A record alone is well formed, as a node that is not fully loaded. -/
theorem wellFormed_record (h : d.Recorded sha) (hfull : ¬ full) :
    WellFormed sha full (.node d RadixMerkleTreeNode.noChildren) :=
  ⟨h, fun _ i => attached_null (fun hf => absurd hf hfull) i, fun _ => trivial⟩

/-- `fetch` takes a record out of the store. -/
theorem StoreWellFormed.fetch (h : StoreWellFormed sha db) {hash : Uint256}
    {r : Database × RadixMerkleTreeNode} (hr : db.fetch sha hash = .ok r) :
    StoreWellFormed sha r.1 ∧
      ∃ d, r.2 = .node d RadixMerkleTreeNode.noChildren ∧ d.Recorded sha ∧ d.hash = hash := by
  unfold Database.fetch at hr
  split at hr
  · cases hr
  · next value hvalue =>
    obtain ⟨d, hd, hr⟩ := bind_eq_ok.mp hr
    cases hr
    refine ⟨fun hash' value' e hvalue' he => ?_, d, rfl, h hash value d hvalue hd⟩
    simp only [Function.update_apply] at hvalue'
    split at hvalue'
    · cases hvalue'
    · exact h hash' value' e hvalue' he

/-- `descend` returns the child that the record names. -/
theorem descend_wellFormed (hs : ¬ full → StoreWellFormed sha db)
    (h : WellFormed sha full (.node d children)) (hinner : d.isInner = true) {b : Fin 16}
    (hb : d.isEmptyBranch b = false) {r : Database × RadixMerkleTreeNode}
    (hr : descend sha db d children b = .ok r) :
    (¬ full → StoreWellFormed sha r.1) ∧ WellFormed sha full r.2 ∧
      getHash r.2 = .ok (d.childrenHash b) := by
  have hattached := h.2.1 hinner b
  have hchild := h.2.2 b
  unfold descend at hr
  revert hr hattached hchild
  cases children b with
  | null =>
    intro hr hattached hchild
    -- A marked branch without its child was unloaded.
    have hfull : ¬ full := fun hf => Bool.false_ne_true (hattached.loaded hf hb)
    obtain ⟨hstore, e, he, hrecorded, hhash⟩ := (hs hfull).fetch hr
    refine ⟨fun _ => hstore, ?_, ?_⟩
    · rw [he]
      exact wellFormed_record hrecorded hfull
    · rw [he, getHash, hhash]
  | node e cs =>
    intro hr hattached hchild
    cases hr
    exact ⟨hs, hchild, congrArg Except.ok (hattached.hash e.hash rfl).2.symm⟩

/-- The loop of `get_stack` ends at a node below the chain of its ancestors. -/
theorem getStackLoop_wellFormed {fuel : ℕ} {n : RadixMerkleTreeNode} {treeDepth : ℕ}
    (hs : ¬ full → StoreWellFormed sha db) (hn : WellFormed sha full n)
    (hc : Chain sha full index stack n) {r : Database × Stack}
    (hr : getStackLoop sha index fuel db n treeDepth stack = .ok r) :
    (¬ full → StoreWellFormed sha r.1) ∧ ∃ m depth rest, r.2 = (m, depth) :: rest ∧
      WellFormed sha full m ∧ Chain sha full index rest m := by
  induction fuel generalizing db n treeDepth stack with
  | zero => cases hr
  | succ fuel ih =>
    cases n with
    | null => cases hr
    | node d children =>
      rw [getStackLoop] at hr
      split at hr
      · next hinner =>
        obtain ⟨b, hb, hr⟩ := bind_eq_ok.mp hr
        split at hr
        · cases hr
          exact ⟨hs, _, _, _, rfl, hn, hc⟩
        · next hempty =>
          obtain ⟨w, hw, hr⟩ := bind_eq_ok.mp hr
          have hmark : d.isEmptyBranch b = false := Bool.eq_false_iff.mpr hempty
          obtain ⟨hstore, hchild, hhash⟩ := descend_wellFormed hs hn hinner hmark hw
          refine ih hstore hchild ?_ hr
          refine ⟨hinner, hn.attach hinner hmark hchild hhash, fun b' hb' => ?_, hc.congr rfl⟩
          rw [← Except.ok.inj (hb.symm.trans hb')]
          exact ⟨hmark, hhash⟩
      · cases hr
        exact ⟨hs, _, _, _, rfl, hn, hc⟩

theorem getStack_wellFormed (hs : ¬ full → StoreWellFormed sha db) (h : WellFormed sha full root)
    {r : Database × Stack} (hr : getStack sha db root index = .ok r) :
    (¬ full → StoreWellFormed sha r.1) ∧ ∃ m depth rest, r.2 = (m, depth) :: rest ∧
      WellFormed sha full m ∧ Chain sha full index rest m := by
  have hroot : Chain sha full index [] root := trivial
  exact getStackLoop_wellFormed hs h hroot hr

/-- A walk leaves well-formed nodes. -/
theorem walk_wellFormed {fuel : ℕ} {n : RadixMerkleTreeNode} {depth : ℕ}
    (hs : ¬ full → StoreWellFormed sha db) (hn : WellFormed sha full n)
    {w : Database × RadixMerkleTreeNode × Option NodeData}
    (hw : walk sha index fuel db n depth = .ok w) :
    (¬ full → StoreWellFormed sha w.1) ∧ WellFormed sha full w.2.1 := by
  induction fuel generalizing db n depth w with
  | zero => cases hw
  | succ fuel ih =>
    cases n with
    | null => cases hw
    | node d children =>
      rw [walk] at hw
      split at hw
      · next hinner =>
        obtain ⟨b, hb, hw⟩ := bind_eq_ok.mp hw
        split at hw
        · cases hw
          exact ⟨hs, hn⟩
        · next hempty =>
          obtain ⟨r, hr, hw⟩ := bind_eq_ok.mp hw
          obtain ⟨v, hv, hw⟩ := bind_eq_ok.mp hw
          cases hw
          have hmark : d.isEmptyBranch b = false := Bool.eq_false_iff.mpr hempty
          obtain ⟨hstore, hchild, hhash⟩ := descend_wellFormed hs hn hinner hmark hr
          obtain ⟨hstore', hbelow⟩ := ih hstore hchild hv
          exact ⟨hstore', hn.attach hinner hmark hbelow ((getHash_walk hv).trans hhash)⟩
      · cases hw
        exact ⟨hs, hn⟩

theorem lookup_wellFormed {α : Type} {found : RadixMerkleTreeLeaf → Except Fault α}
    (hs : ¬ full → StoreWellFormed sha db) (h : WellFormed sha full root)
    {r : Database × RadixMerkleTreeNode × Option α}
    (hr : lookup sha found db root index = .ok r) :
    (¬ full → StoreWellFormed sha r.1) ∧ WellFormed sha full r.2.1 := by
  obtain ⟨w, hw, hr⟩ := bind_eq_ok.mp hr
  obtain ⟨v, _, hr⟩ := bind_eq_ok.mp hr
  cases hr
  exact walk_wellFormed hs h hw

end Down

section Changes

variable {db : Database} {item : RadixMerkleTreeLeaf} {isTransaction : Bool}

theorem wellFormed_newLeaf (item : RadixMerkleTreeLeaf) (isTransaction : Bool) :
    WellFormed sha full (newLeaf item isTransaction) := by
  have hinner : (NodeData.ofItem item (leafType isTransaction)).isInner = false := by
    cases isTransaction <;> rfl
  refine ⟨⟨?_, fun h => ?_, fun h => ?_⟩, fun h => ?_, fun _ => trivial⟩
  · cases isTransaction <;> exact ⟨rfl, rfl⟩
  · rw [hinner] at h
    cases h
  · rw [hinner] at h
    cases h
  · rw [hinner] at h
    cases h

/-- A node after `make_inner` is ready. -/
theorem ready_makeInner (sha : Bytes → Uint256) (full : Prop) (d : NodeData) :
    Ready sha full d.makeInner RadixMerkleTreeNode.noChildren where
  shaped := rfl
  inner := rfl
  marked := d.marked_makeInner
  attached := attached_null fun _ i =>
    (NodeData.isEmptyBranch_iff d.makeInner i).mpr BitVec.getLsbD_zero
  below := fun _ => trivial

/-- The chain of a split is ready for `dirty_up`. -/
theorem splitLoop_ready {otherIndex : Uint256} {fuel : ℕ} {treeDepth : ℕ}
    (hd : Ready sha full d RadixMerkleTreeNode.noChildren) (hs : ReadyAll sha full stack)
    {r : NodeData × Fin 16 × Fin 16 × Stack}
    (hr : splitLoop sha index otherIndex fuel d treeDepth stack = .ok r) :
    Ready sha full r.1 RadixMerkleTreeNode.noChildren ∧ ReadyAll sha full r.2.2.2 := by
  induction fuel generalizing d treeDepth stack with
  | zero => cases hr
  | succ fuel ih =>
    rw [splitLoop] at hr
    obtain ⟨b1, _, hr⟩ := bind_eq_ok.mp hr
    obtain ⟨b2, _, hr⟩ := bind_eq_ok.mp hr
    split at hr
    · refine ih (ready_makeInner sha full _) ?_ hr
      exact List.forall_mem_cons.mpr ⟨⟨d, _, rfl, hd⟩, hs⟩
    · cases hr
      exact ⟨hd, hs⟩

/-- An insertion at the end of its stack. -/
theorem addAtStack_wellFormed {n : RadixMerkleTreeNode} {depth : ℕ} {rest : Stack}
    (hn : WellFormed sha full n) (hc : Chain sha full index rest n)
    (hr : addAtStack sha item isTransaction ((n, depth) :: rest) = .ok root) :
    WellFormed sha full root := by
  cases n with
  | null => cases hr
  | node d children =>
    rw [addAtStack] at hr
    split at hr
    · next hinner =>
      obtain ⟨b, _, hr⟩ := bind_eq_ok.mp hr
      split at hr
      · obtain ⟨node, hnode, hr⟩ := bind_eq_ok.mp hr
        have hset := (hn.ready hinner).setChild (wellFormed_newLeaf item isTransaction) rfl hnode
        exact dirtyUp_wellFormed hc.readyAll hset.1 hr
      · cases hr
    · split at hr
      · cases hr
      · split at hr
        · cases hr
        · obtain ⟨s, hs, hr⟩ := bind_eq_ok.mp hr
          obtain ⟨n₁, hn₁, hr⟩ := bind_eq_ok.mp hr
          obtain ⟨n₂, hn₂, hup⟩ := bind_eq_ok.mp hr
          obtain ⟨hready, hstack⟩ := splitLoop_ready (ready_makeInner sha full d) hc.readyAll hs
          obtain ⟨hfirst, d₁, children₁, rfl, hinner⟩ :=
            hready.setChild (wellFormed_newLeaf _ _) rfl hn₁
          have hsecond := (hfirst.ready hinner).setChild (wellFormed_newLeaf _ _) rfl hn₂
          exact dirtyUp_wellFormed hstack hsecond.1 hup

/-- `set_item` keeps a leaf a leaf, and its hash when it reports no change. -/
theorem setItem_wellFormed (h : WellFormed sha full (.node d children)) (hleaf : d.isInner = false)
    {r : NodeData × Bool} (hr : d.setItem sha item (leafType isTransaction) = .ok r) :
    WellFormed sha full (.node r.1 children) ∧ (r.2 = false → r.1.hash = d.hash) := by
  have hzero : d.childrenHash = fun _ => Uint256.zero := by
    have hshaped := h.1.shaped
    have htype : d.type ≠ .innerNode := of_decide_eq_false hleaf
    unfold NodeData.Shaped at hshaped
    split at hshaped
    · next heq => exact absurd heq htype
    · exact hshaped.elim
    · exact hshaped.2
  obtain ⟨input, _, hr⟩ := bind_eq_ok.mp hr
  have hcases : ∃ hash, r.1 = { d with type := leafType isTransaction, item := some item, hash } ∧
      (r.2 = false → hash = d.hash) := by
    dsimp only at hr
    split at hr
    · cases hr
      exact ⟨d.hash, rfl, fun _ => rfl⟩
    · cases hr
      exact ⟨sha input, rfl, fun h => by cases h⟩
  obtain ⟨hash, hfields, hkeep⟩ := hcases
  have hinner : r.1.isInner = false := by
    rw [hfields]
    cases isTransaction <;> rfl
  refine ⟨⟨⟨?_, fun h => ?_, fun h => ?_⟩, fun h => ?_, h.2.2⟩, fun hf => ?_⟩
  · rw [hfields]
    cases isTransaction <;> exact ⟨rfl, hzero⟩
  · rw [hinner] at h
    cases h
  · rw [hinner] at h
    cases h
  · rw [hinner] at h
    cases h
  · rw [hfields]
    exact hkeep hf

/-- A replacement at the end of its stack. -/
theorem updateAtStack_wellFormed {n : RadixMerkleTreeNode} {depth : ℕ} {rest : Stack}
    (hn : WellFormed sha full n) (hc : Chain sha full item.index rest n)
    (hr : updateAtStack sha item isTransaction ((n, depth) :: rest) = .ok root) :
    WellFormed sha full root := by
  cases n with
  | null => cases hr
  | node d children =>
    rw [updateAtStack] at hr
    split at hr
    · cases hr
    · next hleaf =>
      split at hr
      · cases hr
      · split at hr
        · obtain ⟨r, hset, hr⟩ := bind_eq_ok.mp hr
          obtain ⟨hwell, hkeep⟩ := setItem_wellFormed hn (Bool.eq_false_iff.mpr hleaf) hset
          split at hr
          · exact dirtyUp_wellFormed hc.readyAll hwell hr
          · next hunchanged =>
            refine relink_wellFormed (hc.congr ?_) hwell hr
            rw [getHash, getHash, hkeep (Bool.eq_false_iff.mpr hunchanged)]
        · cases hr

theorem addItem_wellFormed (hs : ¬ full → StoreWellFormed sha db) (h : WellFormed sha full root)
    {r : Database × RadixMerkleTreeNode} (hr : addItem sha db root item isTransaction = .ok r) :
    (¬ full → StoreWellFormed sha r.1) ∧ WellFormed sha full r.2 := by
  obtain ⟨s, hstack, hr⟩ := bind_eq_ok.mp hr
  obtain ⟨n, hn, hr⟩ := bind_eq_ok.mp hr
  cases hr
  obtain ⟨hstore, m, depth, rest, htop, hm, hchain⟩ := getStack_wellFormed hs h hstack
  rw [htop] at hn
  exact ⟨hstore, addAtStack_wellFormed hm hchain hn⟩

theorem updateGivenItem_wellFormed (hs : ¬ full → StoreWellFormed sha db)
    (h : WellFormed sha full root) {r : Database × RadixMerkleTreeNode}
    (hr : updateGivenItem sha db root item isTransaction = .ok r) :
    (¬ full → StoreWellFormed sha r.1) ∧ WellFormed sha full r.2 := by
  obtain ⟨s, hstack, hr⟩ := bind_eq_ok.mp hr
  obtain ⟨n, hn, hr⟩ := bind_eq_ok.mp hr
  cases hr
  obtain ⟨hstore, m, depth, rest, htop, hm, hchain⟩ := getStack_wellFormed hs h hstack
  rw [htop] at hn
  exact ⟨hstore, updateAtStack_wellFormed hm hchain hn⟩

theorem wellFormed_new (isTransactionTree : Bool) :
    WellFormed sha full (RadixMerkleTree.new sha isTransactionTree) := by
  have hempty : ∀ i, (NodeData.ofFlag sha isTransactionTree).isEmptyBranch i = true := fun i =>
    (NodeData.isEmptyBranch_iff _ i).mpr BitVec.getLsbD_zero
  refine ⟨⟨rfl, fun _ => rfl, fun _ => ⟨fun _ _ => rfl, fun j _ => BitVec.getLsbD_zero⟩⟩,
    fun _ i => attached_null (fun _ => hempty) i, fun _ => trivial⟩

end Changes

section Store

variable {db db' : Database} {n : RadixMerkleTreeNode}

theorem WellFormed.follow (h : WellFormed sha full n) (q : List (Fin 16)) :
    WellFormed sha full (n.follow q) := by
  induction q generalizing n with
  | nil => exact h
  | cons i q ih =>
    cases n with
    | null => trivial
    | node d children => exact ih (h.2.2 i)

theorem WellFormed.recorded (h : WellFormed sha full n) : ∀ d ∈ reached n, d.Recorded sha := by
  induction n with
  | null => exact fun d hd => absurd hd List.not_mem_nil
  | node d children ih =>
    intro e he
    rw [reached] at he
    rcases List.mem_cons.mp he with rfl | he
    · exact h.1
    · split at he
      · obtain ⟨i, _, he⟩ := List.mem_flatMap.mp he
        exact ih i (h.2.2 i) e he
      · exact absurd he List.not_mem_nil

/-- A stored record reads back as itself. -/
theorem StoreWellFormed.put (h : StoreWellFormed sha db) (hd : d.Recorded sha)
    (hput : db.put d = .ok db') : StoreWellFormed sha db' := by
  obtain ⟨value, hvalue, hput⟩ := bind_eq_ok.mp hput
  cases hput
  intro hash v e hv he
  rw [Function.update_apply] at hv
  split at hv
  · next hkey =>
    obtain rfl := Uint256.toString_injective hkey
    cases hv
    rw [NodeData.decode_encode sha hd.shaped hvalue] at he
    rw [← Except.ok.inj he]
    exact ⟨hd, rfl⟩
  · exact h hash v e hv he

theorem StoreWellFormed.storeBatch {batch : List NodeData} (h : StoreWellFormed sha db)
    (hb : ∀ d ∈ batch, d.Recorded sha) (hr : db.storeBatch batch = .ok db') :
    StoreWellFormed sha db' := by
  induction batch generalizing db with
  | nil => exact foldlM_nil_ok.mp hr ▸ h
  | cons d batch ih =>
    obtain ⟨db₁, hput, hr⟩ := foldlM_cons_ok.mp hr
    obtain ⟨hd, hrest⟩ := List.forall_mem_cons.mp hb
    exact ih (h.put hd hput) hrest hr

/-- A backup of well-formed nodes leaves a well-formed store. -/
theorem StoreWellFormed.backup (h : StoreWellFormed sha db) (hn : WellFormed sha full n)
    (hr : backupToDatabase db n = .ok db') : StoreWellFormed sha db' := by
  cases n with
  | null => cases hr
  | node d children =>
    refine h.storeBatch (fun e he => hn.recorded e ?_) hr
    exact (backupLoop_root_perm d children).mem_iff.mp he

end Store

end RadixMerkleTree

end Bubi
