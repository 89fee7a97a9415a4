import Bubi.Ledger.Restart
import Bubi.Tree.WellFormed

/-!
# The header of the ledger

The operations of the ledger keep every loaded node of both trees well formed, the two
cached tree hashes current and the hash of the ledger the digest of its header. A stop
writes the nodes and a restart reads them back as they are used, so the nodes of a
restarted ledger are as well formed as the store that it was saved to.
-/

namespace Bubi

open Bubi.Core

namespace Ledger

open RadixMerkleTree

section Operations

variable (sha : Bytes → Uint256) (pb : Protobuf)

/-- A call of the ledger, or the end of its process and the start of the next. -/
inductive Operation where
  | addAccountTreeEntry (tag : Uint256) (acc : Account)
  | updateAccountTreeEntry (item : RadixMerkleTreeLeaf)
  | addTransactionEntry (tx : Transaction)
  | getAccountEntry (hash : Uint256)
  | getTransactionEntry (hash : Uint256)
  | hasAccount (hash : Uint256)
  | restart

/-- One operation. -/
def operate (s : State) : Operation → Except Fault State
  | .addAccountTreeEntry tag acc => addAccountTreeEntry sha pb s tag acc
  | .updateAccountTreeEntry item => updateAccountTreeEntry sha s item
  | .addTransactionEntry tx => do
    let r ← addTransactionEntry sha pb s tx
    .ok r.1
  | .getAccountEntry hash => do
    let r ← getAccountEntry sha pb s hash
    .ok r.1
  | .getTransactionEntry hash => do
    let r ← getTransactionEntry sha pb s hash
    .ok r.1
  | .hasAccount hash => do
    let r ← hasAccount sha s hash
    .ok r.1
  | .restart => do
    let saved ← save s
    load sha saved.1 saved.2

/-- A run of operations on an empty ledger. -/
def runOperations (db : Database) (ops : List Operation) : Except Fault State := do
  let l ← new sha
  ops.foldlM (operate sha pb) (db, l)

/-- Both trees are well formed and the header describes them. Nodes may have been unloaded
unless `full`, and then the store is well formed as well. -/
structure Consistent (full : Prop) (s : State) : Prop where
  store : ¬ full → StoreWellFormed sha s.1
  account : WellFormed sha full s.2.accountTree
  transaction : WellFormed sha full s.2.transactionTree
  current : Current s.2
  header : updateLedgerHash sha s.2 = s.2

end Operations

variable {sha : Bytes → Uint256} {pb : Protobuf} {full : Prop} {s s' : State}

theorem updateLedgerHash_updateLedgerHash (sha : Bytes → Uint256) (l : Ledger) :
    updateLedgerHash sha (updateLedgerHash sha l) = updateLedgerHash sha l :=
  rfl

section Steps

/-- The end of every change of the account tree. -/
theorem Consistent.setAccountTree (h : Consistent sha full s) {db : Database}
    {root : RadixMerkleTreeNode} (hs : ¬ full → StoreWellFormed sha db)
    (hroot : WellFormed sha full root) {l : Ledger}
    (hl : updateAccountTreeHash sha { s.2 with accountTree := root } = .ok l) :
    Consistent sha full (db, l) := by
  obtain ⟨hash, hhash, rfl⟩ := updateAccountTreeHash_ok hl
  exact ⟨hs, hroot, h.transaction, ⟨hhash, h.current.transaction⟩,
    updateLedgerHash_updateLedgerHash sha _⟩

/-- The end of every change of the transaction tree. -/
theorem Consistent.setTransactionTree (h : Consistent sha full s) {db : Database}
    {root : RadixMerkleTreeNode} (hs : ¬ full → StoreWellFormed sha db)
    (hroot : WellFormed sha full root) {l : Ledger}
    (hl : updateTransactionTreeHash sha { s.2 with transactionTree := root } = .ok l) :
    Consistent sha full (db, l) := by
  obtain ⟨hash, hhash, rfl⟩ := updateTransactionTreeHash_ok hl
  exact ⟨hs, h.account, hroot, ⟨h.current.account, hhash⟩,
    updateLedgerHash_updateLedgerHash sha _⟩

/-- A lookup in the account tree changes what is loaded. -/
theorem Consistent.lookupAccount (h : Consistent sha full s) {α : Type}
    {found : RadixMerkleTreeLeaf → Except Fault α} {hash : Uint256}
    {r : Database × RadixMerkleTreeNode × Option α}
    (hr : lookup sha found s.1 s.2.accountTree hash = .ok r) :
    Consistent sha full (r.1, { s.2 with accountTree := r.2.1 }) := by
  obtain ⟨hs, hroot⟩ := lookup_wellFormed h.store h.account hr
  refine ⟨hs, hroot, h.transaction, ⟨(getHash_lookup hr).trans h.current.account,
    h.current.transaction⟩, ?_⟩
  exact congrArg (fun l : Ledger => { l with accountTree := r.2.1 }) h.header

theorem Consistent.lookupTransaction (h : Consistent sha full s) {α : Type}
    {found : RadixMerkleTreeLeaf → Except Fault α} {hash : Uint256}
    {r : Database × RadixMerkleTreeNode × Option α}
    (hr : lookup sha found s.1 s.2.transactionTree hash = .ok r) :
    Consistent sha full (r.1, { s.2 with transactionTree := r.2.1 }) := by
  obtain ⟨hs, hroot⟩ := lookup_wellFormed h.store h.transaction hr
  refine ⟨hs, h.account, hroot, ⟨h.current.account,
    (getHash_lookup hr).trans h.current.transaction⟩, ?_⟩
  exact congrArg (fun l : Ledger => { l with transactionTree := r.2.1 }) h.header

theorem Consistent.getAccountEntry (h : Consistent sha full s) {hash : Uint256}
    {r : State × Option Account} (hr : getAccountEntry sha pb s hash = .ok r) :
    Consistent sha full r.1 := by
  obtain ⟨w, hw, hr⟩ := bind_eq_ok.mp hr
  cases hr
  exact h.lookupAccount hw

theorem Consistent.updateAccountTreeEntry (h : Consistent sha full s) {item : RadixMerkleTreeLeaf}
    (hr : updateAccountTreeEntry sha s item = .ok s') : Consistent sha full s' := by
  obtain ⟨w, hw, hr⟩ := bind_eq_ok.mp hr
  obtain ⟨l, hl, hr⟩ := bind_eq_ok.mp hr
  cases hr
  obtain ⟨hs, hroot⟩ := updateGivenItem_wellFormed h.store h.account hw
  exact h.setAccountTree hs hroot hl

theorem Consistent.addAccountTreeEntry (h : Consistent sha full s) {tag : Uint256} {acc : Account}
    (hr : addAccountTreeEntry sha pb s tag acc = .ok s') : Consistent sha full s' := by
  obtain ⟨data, _, hr⟩ := bind_eq_ok.mp hr
  obtain ⟨w, hw, hr⟩ := bind_eq_ok.mp hr
  obtain ⟨l, hl, hr⟩ := bind_eq_ok.mp hr
  cases hr
  obtain ⟨hs, hroot⟩ := addItem_wellFormed h.store h.account hw
  exact h.setAccountTree hs hroot hl

theorem Consistent.addTransactionEntry (h : Consistent sha full s) {tx : Transaction}
    {r : State × Transaction × ℕ} (hr : addTransactionEntry sha pb s tx = .ok r) :
    Consistent sha full r.1 := by
  obtain ⟨source, destination, hsource, hdestination, hrest⟩ := addTransactionEntry_path hr
  have hread := (h.getAccountEntry hsource).getAccountEntry hdestination
  rcases hrest with hr | ⟨_, _, p, hp, hr⟩
  · rwa [hr]
  · obtain ⟨_, w, l, _, _, s₁, s₂, l', hw, hl, hs₁, hs₂, hl', hp⟩ := postTransaction_path hp
    obtain ⟨hs, hroot⟩ := addItem_wellFormed hread.store hread.transaction hw
    have hposted := hread.setTransactionTree hs hroot hl
    have hupdated := (hposted.updateAccountTreeEntry hs₁).updateAccountTreeEntry hs₂
    rw [hr, hp]
    exact hupdated.setAccountTree hupdated.store hupdated.account hl'

/-- A restart: the nodes go to the store, and the two roots come back from it. -/
theorem Consistent.restart (h : Consistent sha full s) (hfull : ¬ full) {saved : Database × Row}
    (hsave : save s = .ok saved) (hload : load sha saved.1 saved.2 = .ok s') :
    Consistent sha full s' := by
  obtain ⟨db₁, hdb₁, hsave⟩ := bind_eq_ok.mp hsave
  obtain ⟨db₂, hdb₂, hsave⟩ := bind_eq_ok.mp hsave
  cases hsave
  have hstore := ((h.store hfull).backup h.account hdb₁).backup h.transaction hdb₂
  unfold Ledger.load at hload
  simp only [addLedgerToDatabase, Uint256.binaryInit_toString, ok_bind] at hload
  obtain ⟨account, haccount, hload⟩ := bind_eq_ok.mp hload
  obtain ⟨transaction, htransaction, hload⟩ := bind_eq_ok.mp hload
  cases hload
  obtain ⟨hstore₁, d, hd, hrecorded, hhash⟩ := hstore.fetch haccount
  obtain ⟨hstore₂, d', hd', hrecorded', hhash'⟩ := hstore₁.fetch htransaction
  refine ⟨fun _ => hstore₂, ?_, ?_, ⟨?_, ?_⟩, ?_⟩
  · rw [hd]
    exact wellFormed_record hrecorded hfull
  · rw [hd']
    exact wellFormed_record hrecorded' hfull
  · rw [hd, getHash, hhash]
  · rw [hd', getHash, hhash']
  · exact congrArg (fun l : Ledger =>
      { l with transactionTree := transaction.2, accountTree := account.2 }) h.header

/-- Every operation keeps the ledger consistent; only a restart unloads nodes. -/
theorem Consistent.operate (h : Consistent sha full s) {o : Operation}
    (ho : o = .restart → ¬ full) (hr : operate sha pb s o = .ok s') : Consistent sha full s' := by
  cases o with
  | addAccountTreeEntry tag acc => exact h.addAccountTreeEntry hr
  | updateAccountTreeEntry item => exact h.updateAccountTreeEntry hr
  | addTransactionEntry tx =>
    obtain ⟨r, hadd, hr⟩ := bind_eq_ok.mp hr
    cases hr
    exact h.addTransactionEntry hadd
  | getAccountEntry hash =>
    obtain ⟨r, hget, hr⟩ := bind_eq_ok.mp hr
    cases hr
    exact h.getAccountEntry hget
  | getTransactionEntry hash =>
    obtain ⟨r, hget, hr⟩ := bind_eq_ok.mp hr
    obtain ⟨w, hw, hget⟩ := bind_eq_ok.mp hget
    cases hget
    cases hr
    exact h.lookupTransaction hw
  | hasAccount hash =>
    obtain ⟨r, hhas, hr⟩ := bind_eq_ok.mp hr
    obtain ⟨v, hv, hhas⟩ := bind_eq_ok.mp hhas
    obtain ⟨w, hw, hv⟩ := bind_eq_ok.mp hv
    cases hv
    cases hhas
    cases hr
    exact h.lookupAccount hw
  | restart =>
    obtain ⟨saved, hsave, hload⟩ := bind_eq_ok.mp hr
    exact h.restart (ho rfl) hsave hload

theorem consistent_new {db : Database} {l : Ledger} (hdb : ¬ full → StoreWellFormed sha db)
    (hl : new sha = .ok l) : Consistent sha full (db, l) := by
  have hcurrent := current_new hl
  obtain ⟨l₁, hl₁, hl⟩ := bind_eq_ok.mp hl
  obtain ⟨_, _, rfl⟩ := updateAccountTreeHash_ok hl₁
  obtain ⟨_, _, rfl⟩ := updateTransactionTreeHash_ok hl
  exact ⟨hdb, wellFormed_new false, wellFormed_new true, hcurrent,
    updateLedgerHash_updateLedgerHash sha _⟩

/-- A run that restarts nowhere keeps every node loaded. -/
theorem runOperations_consistent {db : Database} {ops : List Operation}
    (hdb : .restart ∈ ops → StoreWellFormed sha db) (hrun : runOperations sha pb db ops = .ok s) :
    Consistent sha (.restart ∉ ops) s := by
  obtain ⟨l, hl, hrun⟩ := bind_eq_ok.mp hrun
  have hstep : ∀ s o s', o ∈ ops → Consistent sha (.restart ∉ ops) s →
      Ledger.operate sha pb s o = .ok s' → Consistent sha (.restart ∉ ops) s' := by
    intro s o s' ho h hr
    exact h.operate (fun hrestart => not_not_intro (hrestart ▸ ho)) hr
  exact run_invariant_mem hstep (consistent_new (fun h => hdb (not_not.mp h)) hl) hrun

end Steps

/-- After every run of operations: a loaded inner node of either tree carries the digest of its
record, names the hash of every loaded child, and has neither hash nor child at a branch that it
does not mark; a marked branch has its child, unless a restart unloaded it. The cached hashes
are those of the two roots, and the hash of the ledger is the digest of its header. -/
theorem ledger_header_agrees (sha : Bytes → Uint256) (pb : Protobuf) (db : Database)
    (ops : List Operation) (s : State) (hrun : runOperations sha pb db ops = .ok s)
    (hdb : .restart ∈ ops → StoreWellFormed sha db) :
    (∀ root ∈ [s.2.accountTree, s.2.transactionTree], ∀ q d children,
      root.follow q = .node d children → d.isInner = true →
        d.hash = sha (d.header ++ ascii ['_', 'n', 'o', 'd', 'e', '_'] ++ d.childrenBytes) ∧
        (∀ i e cs, children i = .node e cs →
          d.childrenHash i = e.hash ∧ d.branchMask.getLsbD i = true) ∧
        (∀ i : Fin 16, d.branchMask.getLsbD i = false →
          d.childrenHash i = Uint256.zero ∧ children i = .null) ∧
        (∀ i : Fin 16, d.branchMask.getLsbD i = true → .restart ∉ ops →
          ∃ e cs, children i = .node e cs) ∧
        ∀ j, 16 ≤ j → d.branchMask.getLsbD j = false) ∧
      getHash s.2.transactionTree = .ok s.2.transactionTreeHash ∧
      getHash s.2.accountTree = .ok s.2.accountTreeHash ∧
      s.2.hash = sha (s.2.parentHash.data ++ s.2.transactionTreeHash.data ++
        s.2.accountTreeHash.data ++ raw32 s.2.totalCoins ++ raw32 s.2.ledgerSequence ++
        raw32 s.2.closeTime) := by
  have h := runOperations_consistent hdb hrun
  refine ⟨fun root hroot q d children hq hinner => ?_, h.current.transaction, h.current.account,
    (congrArg Ledger.hash h.header).symm⟩
  have hwell : WellFormed sha (.restart ∉ ops) root := by
    rcases List.mem_cons.mp hroot with rfl | hroot
    · exact h.account
    · rw [List.mem_singleton.mp hroot]
      exact h.transaction
  have hnode := hwell.follow q
  rw [hq] at hnode
  obtain ⟨hrecorded, hattached, _⟩ := hnode
  have hmarked : ∀ i, d.isEmptyBranch i = false ↔ d.branchMask.getLsbD i.val = true := by
    intro i
    rw [← Bool.not_eq_true, d.isEmptyBranch_iff, Bool.not_eq_false]
  refine ⟨hrecorded.hash hinner, fun i e cs hi => ?_, fun i hi => ⟨?_, ?_⟩,
    fun i hi hops => ?_, (hrecorded.marked hinner).high⟩
  · have hchild := hattached hinner i
    rw [hi] at hchild
    obtain ⟨hmark, hhash⟩ := hchild.hash e.hash rfl
    exact ⟨hhash, (hmarked i).mp hmark⟩
  · exact (hrecorded.marked hinner).zero i ((d.isEmptyBranch_iff i).mpr hi)
  · have hchild := hattached hinner i
    revert hchild
    cases children i with
    | null => exact fun _ => rfl
    | node e cs =>
      intro hchild
      have hmark := (hmarked i).mp (hchild.hash e.hash rfl).1
      rw [hi] at hmark
      cases hmark
  · have hloaded := (hattached hinner i).loaded hops ((hmarked i).mpr hi)
    revert hloaded
    cases children i with
    | null => exact fun h => by cases h
    | node e cs => exact fun _ => ⟨e, cs, rfl⟩

/-- Two accounts, a payment, a restart, and reads of what was unloaded. -/
def headerRun : List Operation :=
  [.addAccountTreeEntry (checksum (sampleName 1)) (newAccount (checksum (sampleName 1))),
    .addAccountTreeEntry (checksum (sampleName 2)) (newAccount (checksum (sampleName 2))),
    .addTransactionEntry (samplePayment 1 2 30), .hasAccount (checksum (sampleName 2)), .restart,
    .getAccountEntry (checksum (sampleName 1)), .addTransactionEntry (samplePayment 2 1 5)]

theorem ledger_header_agrees_headerRun :
    ∃ s, runOperations checksum plainProtobuf (fun _ => none) headerRun = .ok s ∧
      StoreWellFormed checksum (fun _ => none) ∧
      s.2.hash = checksum (s.2.parentHash.data ++ s.2.transactionTreeHash.data ++
        s.2.accountTreeHash.data ++ raw32 s.2.totalCoins ++ raw32 s.2.ledgerSequence ++
        raw32 s.2.closeTime) := by
  have hstore : StoreWellFormed checksum (fun _ => none) := fun _ _ _ h => by cases h
  obtain ⟨s, hs⟩ : ∃ s, runOperations checksum plainProtobuf (fun _ => none) headerRun = .ok s :=
    exists_of_isOk (by decide +kernel)
  exact ⟨s, hs, hstore, (ledger_header_agrees _ _ _ _ s hs fun _ => hstore).2.2.2⟩

end Ledger

end Bubi
