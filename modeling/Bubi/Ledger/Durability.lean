import Bubi.Ledger.Conservation
import Bubi.Ledger.Restart

/-!
# Durability of a saved ledger

A process that reloads a saved ledger reads its nodes by `fetch`, which deletes them from
the store, and writes nothing back before it saves again. From the constructor on the
two roots of the saved trees are missing, so a process that stops before its next save
leaves a ledger that cannot be loaded.
-/

namespace Bubi

open Bubi.Core

namespace Database

/-- No key has come into the store. -/
def Shrinks (db db' : Database) : Prop := ∀ k, db k = none → db' k = none

theorem Shrinks.refl (db : Database) : Shrinks db db := fun _ h => h

theorem Shrinks.trans {db db' db'' : Database} (h : Shrinks db db') (h' : Shrinks db' db'') :
    Shrinks db db'' := fun k hk => h' k (h k hk)

/-- A fetched key is gone, and no other key has come. -/
theorem fetch_ok {sha : Bytes → Uint256} {db : Database} {hash : Uint256}
    {r : Database × RadixMerkleTreeNode} (hr : db.fetch sha hash = .ok r) :
    Shrinks db r.1 ∧ r.1 hash.toString = none := by
  unfold fetch at hr
  split at hr
  · cases hr
  · obtain ⟨d, _, hr⟩ := bind_eq_ok.mp hr
    cases hr
    refine ⟨fun k hk => ?_, Function.update_self ..⟩
    change Function.update db hash.toString none k = none
    rw [Function.update_apply]
    split
    · rfl
    · exact hk

/-- A batch leaves the keys that it does not write. -/
theorem storeBatch_kept {batch : List NodeData} {db db' : Database}
    (h : storeBatch db batch = .ok db') {k : Bytes} (hk : ∀ d ∈ batch, d.hash.toString ≠ k) :
    db' k = db k := by
  induction batch generalizing db with
  | nil => rw [foldlM_nil_ok.mp h]
  | cons d batch ih =>
    obtain ⟨db₁, hput, h⟩ := foldlM_cons_ok.mp h
    obtain ⟨value, _, hput⟩ := bind_eq_ok.mp hput
    cases hput
    rw [ih h fun e he => hk e (List.mem_cons_of_mem d he),
      Function.update_of_ne (Ne.symm (hk d List.mem_cons_self))]

end Database

namespace RadixMerkleTree

variable {sha : Bytes → Uint256} {db : Database}

theorem descend_shrinks {d : NodeData} {children : Fin 16 → RadixMerkleTreeNode} {branch : Fin 16}
    {r : Database × RadixMerkleTreeNode} (hr : descend sha db d children branch = .ok r) :
    db.Shrinks r.1 := by
  unfold descend at hr
  split at hr
  · exact (Database.fetch_ok hr).1
  · cases hr
    exact .refl db

theorem getStackLoop_shrinks {hash : Uint256} {fuel : ℕ} {n : RadixMerkleTreeNode} {depth : ℕ}
    {stack : Stack} {r : Database × Stack}
    (hr : getStackLoop sha hash fuel db n depth stack = .ok r) : db.Shrinks r.1 := by
  induction fuel generalizing db n depth stack with
  | zero => cases hr
  | succ fuel ih =>
    cases n with
    | null => cases hr
    | node d children =>
      rw [getStackLoop] at hr
      split at hr
      · obtain ⟨branch, _, hr⟩ := bind_eq_ok.mp hr
        split at hr
        · cases hr
          exact .refl db
        · obtain ⟨w, hw, hr⟩ := bind_eq_ok.mp hr
          exact (descend_shrinks hw).trans (ih hr)
      · cases hr
        exact .refl db

theorem walk_shrinks {hash : Uint256} {fuel : ℕ} {n : RadixMerkleTreeNode} {depth : ℕ}
    {r : Database × RadixMerkleTreeNode × Option NodeData}
    (hr : walk sha hash fuel db n depth = .ok r) : db.Shrinks r.1 := by
  induction fuel generalizing db n depth r with
  | zero => cases hr
  | succ fuel ih =>
    cases n with
    | null => cases hr
    | node d children =>
      rw [walk] at hr
      split at hr
      · obtain ⟨branch, _, hr⟩ := bind_eq_ok.mp hr
        split at hr
        · cases hr
          exact .refl db
        · obtain ⟨w, hw, hr⟩ := bind_eq_ok.mp hr
          obtain ⟨v, hv, hr⟩ := bind_eq_ok.mp hr
          cases hr
          have hbelow := ih hv
          exact (descend_shrinks hw).trans hbelow
      · cases hr
        exact .refl db

theorem lookup_shrinks {α : Type} {found : RadixMerkleTreeLeaf → Except Fault α}
    {n : RadixMerkleTreeNode} {hash : Uint256} {r : Database × RadixMerkleTreeNode × Option α}
    (hr : lookup sha found db n hash = .ok r) : db.Shrinks r.1 := by
  obtain ⟨w, hw, hr⟩ := bind_eq_ok.mp hr
  obtain ⟨v, _, hr⟩ := bind_eq_ok.mp hr
  cases hr
  exact walk_shrinks hw

theorem change_shrinks {s s' : Database × RadixMerkleTreeNode} {o : Change}
    (hr : change sha s o = .ok s') : s.1.Shrinks s'.1 := by
  cases o with
  | addItem item isTransaction =>
    obtain ⟨w, hw, hr⟩ := bind_eq_ok.mp hr
    obtain ⟨root, _, hr⟩ := bind_eq_ok.mp hr
    cases hr
    exact getStackLoop_shrinks hw
  | updateGivenItem item isTransaction =>
    obtain ⟨w, hw, hr⟩ := bind_eq_ok.mp hr
    obtain ⟨root, _, hr⟩ := bind_eq_ok.mp hr
    cases hr
    exact getStackLoop_shrinks hw

end RadixMerkleTree

/-- The store contains the node under a hash and every node that is reachable from it. -/
inductive Database.Complete (sha : Bytes → Uint256) (db : Database) : Uint256 → Prop
  | node {hash : Uint256} {db' : Database} {d : NodeData}
    {children : Fin 16 → RadixMerkleTreeNode}
    (hfetch : db.fetch sha hash = .ok (db', .node d children))
    (hbelow : ∀ branch, d.isInner = true → d.isEmptyBranch branch = false →
      Complete sha db (d.childrenHash branch)) : Complete sha db hash

namespace Ledger

open MerkleTrie

section Process

variable (sha : Bytes → Uint256) (pb : Protobuf)

/-- Every node that is reachable from the tree hashes of a row is stored. -/
structure Durable (db : Database) (row : Row) : Prop where
  account : ∃ hash, Uint256.binaryInit row.accounthash = .ok hash ∧ db.Complete sha hash
  transaction : ∃ hash, Uint256.binaryInit row.txhash = .ok hash ∧ db.Complete sha hash

/-- What a process does between two saves. -/
inductive Event where
  /-- The ledger is constructed from its row. -/
  | reload
  | hasAccount (hash : Uint256)
  | getAccountEntry (hash : Uint256)
  | getTransactionEntry (hash : Uint256)
  | createAccount (accPub : Bytes)
  | addTransactionEntry (tx : Transaction)
  /-- The process stops without running any destructor. -/
  | stop

/-- One event: the store and the ledger in memory, if there is one. -/
def event (row : Row) (p : Database × Option Ledger) :
    Event → Except Fault (Database × Option Ledger)
  | .stop => .ok (p.1, none)
  | .reload =>
    match p.2 with
    | some _ => .error .assertion
    | none => do
      let s ← load sha p.1 row
      .ok (s.1, some s.2)
  | .hasAccount hash => onLedger fun s => do
    let r ← hasAccount sha s hash
    .ok r.1
  | .getAccountEntry hash => onLedger fun s => do
    let r ← getAccountEntry sha pb s hash
    .ok r.1
  | .getTransactionEntry hash => onLedger fun s => do
    let r ← getTransactionEntry sha pb s hash
    .ok r.1
  | .createAccount accPub => onLedger fun s => createAccount sha pb s accPub
  | .addTransactionEntry tx => onLedger fun s => do
    let r ← addTransactionEntry sha pb s tx
    .ok r.1
where
  /-- A call on the ledger in memory. -/
  onLedger (call : State → Except Fault State) : Except Fault (Database × Option Ledger) :=
    match p.2 with
    | none => .error .nullDeref
    | some l => do
      let s ← call (p.1, l)
      .ok (s.1, some s.2)

end Process

variable {sha : Bytes → Uint256} {pb : Protobuf}

section Saved

/-- A stored trie is complete. -/
theorem complete_of_stored {db : Database} {t : MerkleTrie} (ht : t.isEmpty = false)
    (h : Stored sha db t) : db.Complete sha (digest sha t) := by
  induction t with
  | empty => cases ht
  | leaf l =>
    obtain ⟨value, hv, hdb⟩ := h
    refine .node (Database.fetch_stored (shaped_leaf l) hv hdb) fun branch hinner _ => ?_
    rw [isInner_leaf] at hinner
    cases hinner
  | inner a c ih =>
    obtain ⟨⟨value, hv, hdb⟩, hc⟩ := h
    refine .node (Database.fetch_stored (shaped_inner a c) hv hdb) fun branch _ hbranch => ?_
    rw [isEmptyBranch_innerData] at hbranch
    exact ih branch hbranch (hc branch)

/-- A missing key is no root of a complete tree. -/
theorem not_complete_of_missing {db : Database} {hash : Uint256}
    (h : db hash.toString = none) : ¬ db.Complete sha hash := by
  intro hcomplete
  cases hcomplete with
  | node hfetch hbelow =>
    rw [Database.fetch, h] at hfetch
    cases hfetch

/-- A save makes the ledger durable when no two nodes of its trees carry the same hash. -/
theorem Trees.durable_save {s : State} {ta tt : MerkleTrie} (h : Trees sha s ta tt)
    (hcurrent : Current s.2) (hn : (hashes sha ta ++ hashes sha tt).Nodup) :
    ∃ db, Ledger.save s = .ok (db, addLedgerToDatabase s.2) ∧
      Durable sha db (addLedgerToDatabase s.2) := by
  obtain ⟨db, hsave, ha, ht⟩ := h.save hn
  have haccount := hcurrent.account.symm.trans
    (getHash_of_resolves h.account.loaded h.account.resolves)
  have htransaction := hcurrent.transaction.symm.trans
    (getHash_of_resolves h.transaction.loaded h.transaction.resolves)
  refine ⟨db, hsave, ⟨_, Uint256.binaryInit_toString _, ?_⟩,
    ⟨_, Uint256.binaryInit_toString _, ?_⟩⟩
  · rw [Except.ok.inj haccount]
    exact complete_of_stored h.accountValid.isEmpty_eq ha
  · rw [Except.ok.inj htransaction]
    exact complete_of_stored h.transactionValid.isEmpty_eq ht

/-- A ledger that was never reloaded is durable after its save, when no two of its nodes
carry the same hash. -/
theorem InStep.durable_save {r : State × List Transaction} {p : Books × List Transaction}
    (h : InStep sha pb r p) (hcurrent : Current r.1.2)
    (hn : ((RadixMerkleTree.reached r.1.2.accountTree ++
      RadixMerkleTree.reached r.1.2.transactionTree).map NodeData.hash).Nodup) :
    ∃ db, Ledger.save r.1 = .ok (db, addLedgerToDatabase r.1.2) ∧
      Durable sha db (addLedgerToDatabase r.1.2) := by
  obtain ⟨ta, tt, hreflects, hpending⟩ := h.reflects
  obtain ⟨hpendingA, hpendingT⟩ := List.append_eq_nil_iff.mp hpending
  have ha := hreflects.trees.account.resolves.hashes_perm
  have ht := hreflects.trees.transaction.resolves.hashes_perm
  rw [hpendingA, List.append_nil] at ha
  rw [hpendingT, List.append_nil] at ht
  apply hreflects.trees.durable_save hcurrent
  rw [List.map_append] at hn
  exact (ha.append ht).nodup_iff.mp hn

end Saved

section Shrinks

variable {s s' : State}

theorem getAccountEntry_shrinks {hash : Uint256} {r : State × Option Account}
    (hr : getAccountEntry sha pb s hash = .ok r) : s.1.Shrinks r.1.1 := by
  obtain ⟨w, hw, hr⟩ := bind_eq_ok.mp hr
  cases hr
  exact RadixMerkleTree.lookup_shrinks hw

theorem getTransactionEntry_shrinks {hash : Uint256} {r : State × Option Transaction}
    (hr : getTransactionEntry sha pb s hash = .ok r) : s.1.Shrinks r.1.1 := by
  obtain ⟨w, hw, hr⟩ := bind_eq_ok.mp hr
  cases hr
  exact RadixMerkleTree.lookup_shrinks hw

theorem hasAccount_shrinks {hash : Uint256} {r : State × Bool}
    (hr : hasAccount sha s hash = .ok r) : s.1.Shrinks r.1.1 := by
  obtain ⟨w, hw, hr⟩ := bind_eq_ok.mp hr
  obtain ⟨v, hv, hw⟩ := bind_eq_ok.mp hw
  cases hr
  cases hw
  exact RadixMerkleTree.lookup_shrinks hv

theorem createAccount_shrinks {accPub : Bytes} (hr : createAccount sha pb s accPub = .ok s') :
    s.1.Shrinks s'.1 := by
  obtain ⟨_, w, l, hw, _, rfl⟩ := createAccount_path hr
  exact RadixMerkleTree.change_shrinks (s := (s.1, s.2.accountTree)) (o := .addItem _ _) hw

theorem updateAccountTreeEntry_shrinks {item : RadixMerkleTreeLeaf}
    (hr : updateAccountTreeEntry sha s item = .ok s') : s.1.Shrinks s'.1 := by
  obtain ⟨w, hw, hr⟩ := bind_eq_ok.mp hr
  obtain ⟨l, _, hr⟩ := bind_eq_ok.mp hr
  cases hr
  exact RadixMerkleTree.change_shrinks (s := (s.1, s.2.accountTree))
    (o := .updateGivenItem _ _) hw

theorem postTransaction_shrinks {tx : Transaction} {source destination : Account}
    {r : State × Transaction} (hr : postTransaction sha pb s tx source destination = .ok r) :
    s.1.Shrinks r.1.1 := by
  obtain ⟨_, w, l, _, _, s₁, s₂, l', hw, _, hs₁, hs₂, _, hr⟩ := postTransaction_path hr
  have hadd : s.1.Shrinks w.1 :=
    RadixMerkleTree.change_shrinks (s := (s.1, s.2.transactionTree)) (o := .addItem _ _) hw
  have hupdates := (updateAccountTreeEntry_shrinks hs₁).trans (updateAccountTreeEntry_shrinks hs₂)
  rw [hr]
  exact hadd.trans hupdates

theorem addTransactionEntry_shrinks {tx : Transaction} {r : State × Transaction × ℕ}
    (hr : addTransactionEntry sha pb s tx = .ok r) : s.1.Shrinks r.1.1 := by
  obtain ⟨source, destination, hsource, hdestination, hrest⟩ := addTransactionEntry_path hr
  have hread := (getAccountEntry_shrinks hsource).trans (getAccountEntry_shrinks hdestination)
  rcases hrest with hr | ⟨_, _, p, hp, hr⟩
  · rw [hr]
    exact hread
  · rw [hr]
    exact hread.trans (postTransaction_shrinks hp)

/-- The row is readable, and the store has neither of the two roots. -/
def Uprooted (db : Database) (row : Row) : Prop :=
  ∃ hash parentHash transactionTreeHash accountTreeHash,
    Uint256.binaryInit row.hash = .ok hash ∧ Uint256.binaryInit row.phash = .ok parentHash ∧
    Uint256.binaryInit row.txhash = .ok transactionTreeHash ∧
    Uint256.binaryInit row.accounthash = .ok accountTreeHash ∧
    db transactionTreeHash.toString = none ∧ db accountTreeHash.toString = none

/-- The constructor takes both roots out of the store. -/
theorem load_shrinks {db : Database} {row : Row} (hr : load sha db row = .ok s) :
    db.Shrinks s.1 ∧ Uprooted s.1 row := by
  obtain ⟨hash, hhash, hr⟩ := bind_eq_ok.mp hr
  obtain ⟨parentHash, hparent, hr⟩ := bind_eq_ok.mp hr
  obtain ⟨transactionTreeHash, htx, hr⟩ := bind_eq_ok.mp hr
  obtain ⟨accountTreeHash, hacc, hr⟩ := bind_eq_ok.mp hr
  obtain ⟨account, haccount, hr⟩ := bind_eq_ok.mp hr
  obtain ⟨transaction, htransaction, hr⟩ := bind_eq_ok.mp hr
  cases hr
  obtain ⟨hshrinks, hgone⟩ := Database.fetch_ok haccount
  obtain ⟨hshrinks', hgone'⟩ := Database.fetch_ok htransaction
  exact ⟨hshrinks.trans hshrinks', hash, parentHash, transactionTreeHash, accountTreeHash, hhash,
    hparent, htx, hacc, hgone', hshrinks' _ hgone⟩

theorem onLedger_shrinks {p p' : Database × Option Ledger} {call : State → Except Fault State}
    (hcall : ∀ {s s'}, call s = .ok s' → s.1.Shrinks s'.1)
    (hr : event.onLedger p call = .ok p') : p.1.Shrinks p'.1 := by
  unfold event.onLedger at hr
  split at hr
  · cases hr
  · obtain ⟨s', hs', hr⟩ := bind_eq_ok.mp hr
    cases hr
    exact hcall hs'

/-- Nothing comes into the store between two saves. -/
theorem event_shrinks {row : Row} {p p' : Database × Option Ledger} {e : Event}
    (hr : event sha pb row p e = .ok p') : p.1.Shrinks p'.1 := by
  cases e <;> simp only [event] at hr
  case stop =>
    cases hr
    exact .refl p.1
  case reload =>
    split at hr
    · cases hr
    · obtain ⟨s', hs', hr⟩ := bind_eq_ok.mp hr
      cases hr
      exact (load_shrinks hs').1
  case hasAccount hash =>
    refine onLedger_shrinks (fun hs => ?_) hr
    obtain ⟨r, hr, hs⟩ := bind_eq_ok.mp hs
    cases hs
    exact hasAccount_shrinks hr
  case getAccountEntry hash =>
    refine onLedger_shrinks (fun hs => ?_) hr
    obtain ⟨r, hr, hs⟩ := bind_eq_ok.mp hs
    cases hs
    exact getAccountEntry_shrinks hr
  case getTransactionEntry hash =>
    refine onLedger_shrinks (fun hs => ?_) hr
    obtain ⟨r, hr, hs⟩ := bind_eq_ok.mp hs
    cases hs
    exact getTransactionEntry_shrinks hr
  case createAccount accPub => exact onLedger_shrinks createAccount_shrinks hr
  case addTransactionEntry tx =>
    refine onLedger_shrinks (fun hs => ?_) hr
    obtain ⟨r, hr, hs⟩ := bind_eq_ok.mp hs
    cases hs
    exact addTransactionEntry_shrinks hr

end Shrinks

section Uprooted

variable {db db' : Database} {row : Row}

theorem Uprooted.shrinks (h : Uprooted db row) (hdb : db.Shrinks db') : Uprooted db' row := by
  obtain ⟨hash, parentHash, txHash, accHash, hhash, hparent, htx, hacc, htxGone, haccGone⟩ := h
  exact ⟨hash, parentHash, txHash, accHash, hhash, hparent, htx, hacc, hdb _ htxGone,
    hdb _ haccGone⟩

/-- A row without its roots cannot be loaded. -/
theorem Uprooted.load_eq (h : Uprooted db row) : load sha db row = .error .missingKey := by
  obtain ⟨hash, parentHash, txHash, accHash, hhash, hparent, htx, hacc, _, haccGone⟩ := h
  have hfetch : RadixMerkleTree.load sha db accHash = .error .missingKey := by
    rw [RadixMerkleTree.load, Database.fetch, haccGone]
  rw [load, hhash, hparent, htx, hacc]
  simp only [ok_bind, hfetch, error_bind]

/-- A store without the transaction root does not have the saved ledger. -/
theorem Durable.transaction_root (h : Durable sha db row) {hash : Uint256}
    (hhash : Uint256.binaryInit row.txhash = .ok hash) : db hash.toString ≠ none := by
  obtain ⟨hash', hhash', hcomplete⟩ := h.transaction
  obtain rfl : hash = hash' := Except.ok.inj (hhash.symm.trans hhash')
  exact fun hgone => not_complete_of_missing hgone hcomplete

theorem Uprooted.not_durable (h : Uprooted db row) : ¬ Durable sha db row := by
  obtain ⟨_, _, txHash, _, _, _, htx, _, htxGone, _⟩ := h
  exact fun hdurable => hdurable.transaction_root htx htxGone

/-- The backup of the account tree does not bring the transaction root back. -/
theorem Uprooted.backup_account (h : Uprooted db row) {root : RadixMerkleTreeNode}
    (hbackup : RadixMerkleTree.backupToDatabase db root = .ok db')
    (hother : ∀ d ∈ RadixMerkleTree.reached root, Uint256.binaryInit row.txhash ≠ .ok d.hash) :
    ¬ Durable sha db' row := by
  obtain ⟨_, _, txHash, _, _, _, htx, _, htxGone, _⟩ := h
  intro hdurable
  apply hdurable.transaction_root htx
  cases root with
  | null => cases hbackup
  | node d children =>
    rw [Database.storeBatch_kept hbackup, htxGone]
    intro e he heq
    have he := (RadixMerkleTree.backupLoop_root_perm d children).mem_iff.mp he
    rw [← Uint256.toString_injective heq] at htx
    exact hother e he htx

/-- A process either has not read the saved ledger, or has taken its roots. -/
theorem process_cases {events : List Event} {p : Database × Option Ledger}
    (hrun : events.foldlM (event sha pb row) (db, none) = .ok p) :
    (p = (db, none) ∧ Event.reload ∉ events) ∨ (Uprooted p.1 row ∧ Event.reload ∈ events) := by
  induction events with
  | nil => exact .inl ⟨(foldlM_nil_ok.mp hrun).symm, List.not_mem_nil⟩
  | cons e events ih =>
    obtain ⟨m, hm, hrun⟩ := foldlM_cons_ok.mp hrun
    cases e <;> simp only [event, event.onLedger] at hm
    case stop =>
      cases hm
      simpa using ih hrun
    case reload =>
      obtain ⟨s, hs, hm⟩ := bind_eq_ok.mp hm
      cases hm
      refine .inr ⟨?_, List.mem_cons_self⟩
      exact @run_invariant _ _ _ _ (fun p : Database × Option Ledger => Uprooted p.1 row)
        (fun _ _ _ h hstep => h.shrinks (event_shrinks hstep)) events _ p (load_shrinks hs).2 hrun
    all_goals cases hm

end Uprooted

/-- The saved ledger survives exactly until a process reads it: from the first reload on
nothing of it can be loaded, and the backup of the account tree alone does not repair it. -/
theorem saved_ledger_durable_iff (sha : Bytes → Uint256) (pb : Protobuf) (db : Database) (row : Row)
    (hsaved : Durable sha db row) (events : List Event) (p : Database × Option Ledger)
    (hrun : events.foldlM (event sha pb row) (db, none) = .ok p) :
    (Durable sha p.1 row ↔ Event.reload ∉ events) ∧
      (Event.reload ∈ events → load sha p.1 row = .error .missingKey) ∧
      ∀ l db', p.2 = some l → RadixMerkleTree.backupToDatabase p.1 l.accountTree = .ok db' →
        (∀ d ∈ RadixMerkleTree.reached l.accountTree,
          Uint256.binaryInit row.txhash ≠ .ok d.hash) →
        ¬ Durable sha db' row := by
  rcases process_cases hrun with ⟨rfl, hevents⟩ | ⟨huprooted, hevents⟩
  · refine ⟨iff_of_true hsaved hevents, fun h => absurd h hevents, fun l db' hl => ?_⟩
    cases hl
  · refine ⟨iff_of_false huprooted.not_durable (not_not_intro hevents),
      fun _ => huprooted.load_eq, fun l db' _ hbackup hother => ?_⟩
    exact huprooted.backup_account hbackup hother

/-- A process that restarts, reads an account and pays. -/
def restartedProcess : List Event :=
  [.reload, .getAccountEntry (checksum (sampleName 2)),
    .addTransactionEntry (samplePayment 2 1 5), .stop]

theorem saved_ledger_durable_restartedProcess :
    ∃ r db p, run checksum plainProtobuf (fun _ => none) transferRun = .ok r ∧
      save r.1 = .ok (db, addLedgerToDatabase r.1.2) ∧
      Durable checksum db (addLedgerToDatabase r.1.2) ∧
      restartedProcess.foldlM (event checksum plainProtobuf (addLedgerToDatabase r.1.2))
        (db, none) = .ok p ∧
      ¬ Durable checksum p.1 (addLedgerToDatabase r.1.2) := by
  have hok : (do
      let r ← run checksum plainProtobuf (fun _ => none) transferRun
      let saved ← save r.1
      let p ← restartedProcess.foldlM (event checksum plainProtobuf saved.2) (saved.1, none)
      .ok (p.2.isSome, decide ((RadixMerkleTree.reached r.1.2.accountTree ++
        RadixMerkleTree.reached r.1.2.transactionTree).map NodeData.hash).Nodup)) =
      .ok (false, true) :=
    eq_ok_of_toOption (by decide +kernel)
  obtain ⟨r, hr, hok⟩ := bind_eq_ok.mp hok
  obtain ⟨saved, hsave, hok⟩ := bind_eq_ok.mp hok
  obtain ⟨p, hp, hok⟩ := bind_eq_ok.mp hok
  rw [Except.ok.injEq, Prod.mk.injEq, decide_eq_true_iff] at hok
  obtain ⟨db, hdb, hdurable⟩ := (run_inStep hr).durable_save (run_current hr) hok.2
  obtain rfl := Except.ok.inj (hsave.symm.trans hdb)
  refine ⟨r, db, p, hr, hsave, hdurable, hp, fun h => ?_⟩
  exact (saved_ledger_durable_iff _ _ _ _ hdurable _ _ hp).1.mp h List.mem_cons_self

/-- After a save and a reload the store has lost the root of the saved account tree, and the
saved row cannot be loaded again. -/
theorem reload_takes_saved_root :
    (do
      let r ← run checksum plainProtobuf (fun _ => none) transferRun
      let saved ← save r.1
      let s ← load checksum saved.1 saved.2
      .ok ((saved.1 saved.2.accounthash).isSome, (s.1 saved.2.accounthash).isSome,
        (load checksum s.1 saved.2).isOk)).toOption = some (true, false, false) := by
  decide +kernel

end Ledger

end Bubi
