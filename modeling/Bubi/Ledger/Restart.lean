import Bubi.Ledger.Posting
import Bubi.Tree.Backup

/-!
# Saving and restarting a ledger

`~Ledger` writes the row of the ledger, and the destructors of its trees write their
loaded nodes, the account tree first. The constructor from a row fetches the two roots.
When no two nodes of the two trees carry the same hash, the store holds both trees
after a save, and a restarted ledger has the same books.
-/

namespace Bubi

open Bubi.Core

/-- A row of the table `BubiLedger`. -/
structure Row where
  ledgerSequence : BitVec 32
  hash : Bytes
  phash : Bytes
  txhash : Bytes
  accounthash : Bytes
  totalCoins : BitVec 32
  closeTime : BitVec 32

namespace Ledger

open MerkleTrie

/-- `Ledger::add_ledger_to_database`: the row after the `insert`, or after the `update` where
the sequence number already has a row. -/
def addLedgerToDatabase (l : Ledger) : Row where
  ledgerSequence := l.ledgerSequence
  hash := l.hash.toString
  phash := l.parentHash.toString
  txhash := l.transactionTreeHash.toString
  accounthash := l.accountTreeHash.toString
  totalCoins := l.totalCoins
  closeTime := l.closeTime

/-- `~Ledger` and the destructors of its members, the last declared member first. -/
def save (s : State) : Except Fault (Database × Row) := do
  let db ← RadixMerkleTree.backupToDatabase s.1 s.2.accountTree
  let db ← RadixMerkleTree.backupToDatabase db s.2.transactionTree
  .ok (db, addLedgerToDatabase s.2)

/-- `load_last_ledger_call_back` and the constructor that it calls. -/
def load (sha : Bytes → Uint256) (db : Database) (row : Row) : Except Fault State := do
  let hash ← Uint256.binaryInit row.hash
  let parentHash ← Uint256.binaryInit row.phash
  let transactionTreeHash ← Uint256.binaryInit row.txhash
  let accountTreeHash ← Uint256.binaryInit row.accounthash
  let account ← RadixMerkleTree.load sha db accountTreeHash
  let transaction ← RadixMerkleTree.load sha account.1 transactionTreeHash
  .ok (transaction.1,
    { hash
      parentHash
      transactionTreeHash
      accountTreeHash
      totalCoins := row.totalCoins
      ledgerSequence := row.ledgerSequence
      closeTime := row.closeTime
      transactionTree := transaction.2
      accountTree := account.2 })

/-- The cached tree hashes are those of the trees. -/
structure Current (l : Ledger) : Prop where
  account : RadixMerkleTree.getHash l.accountTree = .ok l.accountTreeHash
  transaction : RadixMerkleTree.getHash l.transactionTree = .ok l.transactionTreeHash

variable {sha : Bytes → Uint256} {pb : Protobuf} {s s' : State}

section Current

/-- A lookup keeps the root node. -/
theorem getHash_lookup {α : Type} {found : RadixMerkleTreeLeaf → Except Fault α} {db : Database}
    {root : RadixMerkleTreeNode} {hash : Uint256} {r : Database × RadixMerkleTreeNode × Option α}
    (hr : RadixMerkleTree.lookup sha found db root hash = .ok r) :
    RadixMerkleTree.getHash r.2.1 = RadixMerkleTree.getHash root := by
  obtain ⟨w, hw, hr⟩ := bind_eq_ok.mp hr
  obtain ⟨v, _, hr⟩ := bind_eq_ok.mp hr
  cases hr
  exact RadixMerkleTree.getHash_walk hw

theorem Current.getAccountEntry (h : Current s.2) {hash : Uint256} {r : State × Option Account}
    (hr : getAccountEntry sha pb s hash = .ok r) : Current r.1.2 := by
  obtain ⟨w, hw, hr⟩ := bind_eq_ok.mp hr
  cases hr
  exact ⟨(getHash_lookup hw).trans h.account, h.transaction⟩

theorem Current.getTransactionEntry (h : Current s.2) {hash : Uint256}
    {r : State × Option Transaction} (hr : getTransactionEntry sha pb s hash = .ok r) :
    Current r.1.2 := by
  obtain ⟨w, hw, hr⟩ := bind_eq_ok.mp hr
  cases hr
  exact ⟨h.account, (getHash_lookup hw).trans h.transaction⟩

/-- The update of the account hash leaves both hashes current. -/
theorem current_updateAccountTreeHash {l l' : Ledger}
    (h : RadixMerkleTree.getHash l.transactionTree = .ok l.transactionTreeHash)
    (hl : updateAccountTreeHash sha l = .ok l') : Current l' := by
  obtain ⟨hash, hhash, rfl⟩ := updateAccountTreeHash_ok hl
  exact ⟨hhash, h⟩

theorem current_new {l : Ledger} (hl : new sha = .ok l) : Current l := by
  have hnew : ∃ l', new sha = .ok l' ∧ Current l' := ⟨_, rfl, rfl, rfl⟩
  obtain ⟨l', hl', hcurrent⟩ := hnew
  rwa [← Except.ok.inj (hl'.symm.trans hl)]

theorem current_updateAccountTreeEntry {item : RadixMerkleTreeLeaf}
    (h : RadixMerkleTree.getHash s.2.transactionTree = .ok s.2.transactionTreeHash)
    (hr : updateAccountTreeEntry sha s item = .ok s') : Current s'.2 := by
  obtain ⟨w, _, hr⟩ := bind_eq_ok.mp hr
  obtain ⟨l, hl, hr⟩ := bind_eq_ok.mp hr
  cases hr
  refine current_updateAccountTreeHash ?_ hl
  exact h

/-- An accepted transaction updates both cached hashes. -/
theorem current_postTransaction {tx : Transaction} {source destination : Account}
    {r : State × Transaction} (hr : postTransaction sha pb s tx source destination = .ok r) :
    Current r.1.2 := by
  obtain ⟨_, w, l, _, _, s₁, s₂, l', _, hl, hs₁, hs₂, hl', hr⟩ := postTransaction_path hr
  obtain ⟨hash, hhash, rfl⟩ := updateTransactionTreeHash_ok hl
  have hs₁ := current_updateAccountTreeEntry hhash hs₁
  have hs₂ := current_updateAccountTreeEntry hs₁.transaction hs₂
  rw [hr]
  exact current_updateAccountTreeHash hs₂.transaction hl'

theorem Current.addTransactionEntry (h : Current s.2) {tx : Transaction}
    {r : State × Transaction × ℕ} (hr : addTransactionEntry sha pb s tx = .ok r) :
    Current r.1.2 := by
  obtain ⟨source, destination, hsource, hdestination, hrest⟩ := addTransactionEntry_path hr
  rcases hrest with hr | ⟨_, _, p, hp, hr⟩
  · rw [hr]
    exact (h.getAccountEntry hsource).getAccountEntry hdestination
  · rw [hr]
    exact current_postTransaction hp

/-- Every call leaves the cached tree hashes current. -/
theorem Current.step {r r' : State × List Transaction} (h : Current r.1.2) {o : Step}
    (hr : Ledger.step sha pb r o = .ok r') : Current r'.1.2 := by
  cases o with
  | createAccount accPub =>
    obtain ⟨s', hs', hr⟩ := bind_eq_ok.mp hr
    cases hr
    obtain ⟨_, w, l, _, hl, rfl⟩ := createAccount_path hs'
    refine current_updateAccountTreeHash ?_ hl
    exact h.transaction
  | addTransactionEntry tx =>
    obtain ⟨r'', hr'', hr⟩ := bind_eq_ok.mp hr
    cases hr
    exact h.addTransactionEntry hr''

theorem run_current {db : Database} {steps : List Step} {r : State × List Transaction}
    (hr : run sha pb db steps = .ok r) : Current r.1.2 := by
  obtain ⟨l, hl, hr⟩ := bind_eq_ok.mp hr
  exact @run_invariant _ _ _ _ (fun r : State × List Transaction => Current r.1.2)
    (fun _ _ _ h hstep => h.step hstep) steps _ r (current_new hl) hr

end Current

section Restart

variable {ta tt : MerkleTrie}

/-- After a save the store holds both trees. -/
theorem Trees.save (h : Trees sha s ta tt) (hn : (hashes sha ta ++ hashes sha tt).Nodup) :
    ∃ db', save s = .ok (db', addLedgerToDatabase s.2) ∧ Stored sha db' ta ∧
      Stored sha db' tt := by
  obtain ⟨hna, hnt, hdisjoint⟩ := List.nodup_append'.mp hn
  obtain ⟨db₁, hdb₁, _, hstored₁, hkept₁⟩ := h.account.resolves.backup_stored h.account.loaded hna
  have hresolves : Resolves sha db₁ s.2.transactionTree tt := by
    refine h.transaction.resolves.congr fun x hx => hkept₁ x fun hxa => ?_
    have hxt : x ∈ hashes sha tt :=
      h.transaction.resolves.hashes_perm.mem_iff.mp (List.mem_append_right _ hx)
    exact hdisjoint hxa hxt
  obtain ⟨db₂, hdb₂, _, hstored₂, hkept₂⟩ := hresolves.backup_stored h.transaction.loaded hnt
  refine ⟨db₂, ?_, hstored₁.congr fun x hx => hkept₂ x fun hxt => hdisjoint hx hxt, hstored₂⟩
  rw [Ledger.save, hdb₁, ok_bind, hdb₂, ok_bind]

/-- A ledger with current hashes loads the trees that the store holds. -/
theorem Trees.load (h : Trees sha s ta tt) (hcurrent : Current s.2)
    (hn : (hashes sha ta ++ hashes sha tt).Nodup) {db : Database} (ha : Stored sha db ta)
    (ht : Stored sha db tt) :
    ∃ s', load sha db (addLedgerToDatabase s.2) = .ok s' ∧ Trees sha s' ta tt ∧ Current s'.2 ∧
      s'.2.ledgerSequence = s.2.ledgerSequence := by
  obtain ⟨hna, hnt, hdisjoint⟩ := List.nodup_append'.mp hn
  have hadigest : s.2.accountTreeHash = digest sha ta :=
    Except.ok.inj (hcurrent.account.symm.trans
      (getHash_of_resolves h.account.loaded h.account.resolves))
  have htdigest : s.2.transactionTreeHash = digest sha tt :=
    Except.ok.inj (hcurrent.transaction.symm.trans
      (getHash_of_resolves h.transaction.loaded h.transaction.resolves))
  obtain ⟨d, children, hfetch, hmoves⟩ := Moves.of_stored h.accountValid.isEmpty_eq ha hna
  generalize Function.update db (digest sha ta).toString none = db₁ at hfetch hmoves
  have hmoved := hmoves.toDrains
  rw [pending_null] at hmoved
  have ht₁ := ht.congr fun x hx => hmoved.eq_of_notMem fun hxa => hdisjoint hxa hx
  obtain ⟨d', children', hfetch', hmoves'⟩ :=
    Moves.of_stored h.transactionValid.isEmpty_eq ht₁ hnt
  generalize Function.update db₁ (digest sha tt).toString none = db₂ at hfetch' hmoves'
  have hmoved' := hmoves'.toDrains
  rw [pending_null] at hmoved'
  have haccount : Simulates sha (db₁, .node d children) ta := hmoves.simulates trivial
  have htransaction : Simulates sha (db₂, .node d' children') tt := hmoves'.simulates trivial
  refine ⟨(db₂, { s.2 with
      transactionTreeHash := digest sha tt
      accountTreeHash := digest sha ta
      transactionTree := .node d' children'
      accountTree := .node d children }), ?_,
    ⟨haccount.frame hmoved' fun x hx hy => hdisjoint (hmoved.sub hy) hx, htransaction,
      fun x hx hy => hdisjoint (hmoved.sub hx) (hmoved'.sub hy), h.accountValid,
      h.transactionValid⟩,
    ⟨getHash_of_resolves haccount.loaded haccount.resolves,
      getHash_of_resolves htransaction.loaded htransaction.resolves⟩, rfl⟩
  unfold Ledger.load
  simp only [addLedgerToDatabase, Uint256.binaryInit_toString, ok_bind, RadixMerkleTree.load,
    hadigest, htdigest, hfetch, hfetch']

/-- A restarted ledger has the same books. -/
theorem Reflects.restart {b : Books} {accepted : List Transaction}
    (h : Reflects sha pb s b accepted ta tt) (hcurrent : Current s.2)
    (hn : (hashes sha ta ++ hashes sha tt).Nodup) :
    ∃ db row s', save s = .ok (db, row) ∧ load sha db row = .ok s' ∧
      Reflects sha pb s' b accepted ta tt ∧ Current s'.2 ∧
      s'.2.ledgerSequence = s.2.ledgerSequence := by
  obtain ⟨db, hsave, ha, ht⟩ := h.trees.save hn
  obtain ⟨s', hload, htrees, hcurrent', hsequence⟩ := h.trees.load hcurrent hn ha ht
  exact ⟨db, _, s', hsave, hload, ⟨htrees, h.accounts, h.transactions⟩, hcurrent', hsequence⟩

end Restart

end Ledger

end Bubi
