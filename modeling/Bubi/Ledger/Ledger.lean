import Bubi.Ledger.Records
import Bubi.Tree.RadixMerkleTree

/-!
# The ledger

`Ledger` holds a transaction tree and an account tree over one store and caches their
root hashes. An operation takes the store and the ledger and returns both as they are
after the call. The functions of `interface.cpp` work on the ledger behind `last_ledger`.
-/

namespace Bubi

open Bubi.Core

/-- `Serializer (std::string)`, whose loop counts the characters with an `int`. -/
def Serializer.ofString (str : Bytes) : Except Fault { data : Bytes // data.length < 2 ^ 31 } :=
  if h : str.length < 2 ^ 31 then .ok ⟨str, h⟩ else .error .outOfRange

/-- `RadixMerkleTreeLeaf (uint256, Serializer)`. -/
def RadixMerkleTreeLeaf.ofSerializer (index : Uint256)
    (s : { data : Bytes // data.length < 2 ^ 31 }) : RadixMerkleTreeLeaf :=
  ⟨index, s.1, s.2⟩

/-- `Ledger`. -/
structure Ledger where
  /-- `hash_`. -/
  hash : Uint256
  /-- `parent_hash_`. -/
  parentHash : Uint256
  /-- `transaction_tree_hash_`. -/
  transactionTreeHash : Uint256
  /-- `account_tree_hash_`. -/
  accountTreeHash : Uint256
  /-- `total_coins_`. -/
  totalCoins : BitVec 32
  /-- `ledger_sequence_`. -/
  ledgerSequence : BitVec 32
  /-- `close_time_`. -/
  closeTime : BitVec 32
  /-- `transaction_tree_`. -/
  transactionTree : RadixMerkleTreeNode
  /-- `account_tree_`. -/
  accountTree : RadixMerkleTreeNode

namespace Ledger

/-- A ledger and the store behind its trees. -/
abbrev State := Database × Ledger

variable (sha : Bytes → Uint256) (pb : Protobuf)

/-- `Ledger::update_ledger_hash`. -/
def updateLedgerHash (l : Ledger) : Ledger :=
  { l with
    hash := sha (l.parentHash.data ++ l.transactionTreeHash.data ++ l.accountTreeHash.data ++
      raw32 l.totalCoins ++ raw32 l.ledgerSequence ++ raw32 l.closeTime) }

/-- `Ledger::update_account_tree_hash`. -/
def updateAccountTreeHash (l : Ledger) : Except Fault Ledger := do
  let hash ← RadixMerkleTree.getHash l.accountTree
  .ok (updateLedgerHash sha { l with accountTreeHash := hash })

/-- `Ledger::update_transaction_tree_hash`. -/
def updateTransactionTreeHash (l : Ledger) : Except Fault Ledger := do
  let hash ← RadixMerkleTree.getHash l.transactionTree
  .ok (updateLedgerHash sha { l with transactionTreeHash := hash })

/-- The constructor of an empty ledger. The tree hashes, which it does not initialise, are
set by the two updates at its end. -/
def new : Except Fault Ledger := do
  let l ← updateAccountTreeHash sha
    { hash := Uint256.zero
      parentHash := Uint256.zero
      transactionTreeHash := Uint256.zero
      accountTreeHash := Uint256.zero
      totalCoins := 0
      ledgerSequence := 1
      closeTime := 0
      transactionTree := RadixMerkleTree.new sha true
      accountTree := RadixMerkleTree.new sha false }
  updateTransactionTreeHash sha l

/-- `Ledger::get_account_entry`. -/
def getAccountEntry (s : State) (hash : Uint256) : Except Fault (State × Option Account) := do
  let r ← RadixMerkleTree.getEntry sha (Account.unserializer pb) s.1 s.2.accountTree hash
  .ok ((r.1, { s.2 with accountTree := r.2.1 }), r.2.2)

/-- `Ledger::get_transaction_entry`. -/
def getTransactionEntry (s : State) (hash : Uint256) :
    Except Fault (State × Option Transaction) := do
  let r ← RadixMerkleTree.getEntry sha (Transaction.unserializer pb) s.1 s.2.transactionTree hash
  .ok ((r.1, { s.2 with transactionTree := r.2.1 }), r.2.2)

/-- `Ledger::has_account`. -/
def hasAccount (s : State) (hash : Uint256) : Except Fault (State × Bool) := do
  let r ← RadixMerkleTree.hasItem sha s.1 s.2.accountTree hash
  .ok ((r.1, { s.2 with accountTree := r.2.1 }), r.2.2)

/-- `Ledger::add_account_tree_entry`, which returns `true` whenever it returns. -/
def addAccountTreeEntry (s : State) (tag : Uint256) (acc : Account) : Except Fault State := do
  let data ← Serializer.ofString (acc.serializer pb)
  let r ← RadixMerkleTree.addItem sha s.1 s.2.accountTree ⟨tag, data.1, data.2⟩ false
  let l ← updateAccountTreeHash sha { s.2 with accountTree := r.2 }
  .ok (r.1, l)

/-- `Ledger::update_account_tree_entry`, which returns `true` whenever it returns. -/
def updateAccountTreeEntry (s : State) (item : RadixMerkleTreeLeaf) : Except Fault State := do
  let r ← RadixMerkleTree.updateGivenItem sha s.1 s.2.accountTree item false
  let l ← updateAccountTreeHash sha { s.2 with accountTree := r.2 }
  .ok (r.1, l)

/-- `Ledger::add_transaction_entry` behind the successful `add_balance` of the source, with
the two decoded accounts. -/
def postTransaction (s : State) (tx : Transaction) (sourceAccount destinationAccount : Account) :
    Except Fault (State × Transaction) := do
  let tx := tx.setPrevious sourceAccount destinationAccount
  let data ← Serializer.ofString (tx.serializer pb)
  let hash := sha data.1
  let r ← RadixMerkleTree.addItem sha s.1 s.2.transactionTree ⟨hash, data.1, data.2⟩ true
  let l ← updateTransactionTreeHash sha { s.2 with transactionTree := r.2 }
  let sourceAccount := sourceAccount.setPrevious l.ledgerSequence hash
  let destinationAccount := destinationAccount.setPrevious l.ledgerSequence hash
  let ss ← Serializer.ofString (sourceAccount.serializer pb)
  let ds ← Serializer.ofString (destinationAccount.serializer pb)
  let s ← updateAccountTreeEntry sha (r.1, l) ⟨sourceAccount.accountAddress, ss.1, ss.2⟩
  let s ← updateAccountTreeEntry sha s ⟨destinationAccount.accountAddress, ds.1, ds.2⟩
  let l ← updateAccountTreeHash sha s.2
  .ok ((s.1, l), tx)

/-- `Ledger::add_transaction_entry`: the ledger, the transaction as the caller finds it and the
returned code. The two accounts are decoded into separate copies, also when they are one. -/
def addTransactionEntry (s : State) (tx : Transaction) :
    Except Fault (State × Transaction × ℕ) := do
  let source ← getAccountEntry sha pb s tx.sourceAddress
  let destination ← getAccountEntry sha pb source.1 tx.destinationAddress
  match source.2 with
  | none => .error .nullDeref
  | some sourceAccount =>
    let paid := sourceAccount.addBalance (-tx.paymentAmount)
    if paid.2 then
      match destination.2 with
      | none => .error .nullDeref
      | some destinationAccount =>
        let r ← postTransaction sha pb destination.1 tx paid.1
          (destinationAccount.addBalance tx.paymentAmount).1
        .ok (r.1, r.2, 0)
    else .ok (destination.1, tx, 1)

/-- `string_address_to_uint256`. -/
def stringAddressToUint256 (strAddr : Bytes) : Except Fault Uint256 := do
  let data ← Serializer.ofString strAddr
  .ok (sha data.1)

/-- The account that `create_account` adds. -/
def newAccount (hash : Uint256) : Account where
  accountAddress := hash
  accountBalance := 1000
  previousLedgerSeq := 0
  previousTxHash := Uint256.zero

/-- `create_account`, which returns 0 whenever it returns. -/
def createAccount (s : State) (accPub : Bytes) : Except Fault State := do
  let hash ← stringAddressToUint256 sha accPub
  addAccountTreeEntry sha pb s hash (newAccount hash)

/-- `get_balance`. -/
def getBalance (s : State) (accPub : Bytes) : Except Fault (State × ℚ) := do
  let hash ← stringAddressToUint256 sha accPub
  let r ← getAccountEntry sha pb s hash
  match r.2 with
  | none => .error .nullDeref
  | some acc => .ok (r.1, acc.accountBalance)

/-- The loop of `get_transaction_history`, over at most the given number of rounds. -/
def historyLoop (hash : Uint256) :
    ℕ → State → BitVec 32 → Uint256 → List Transaction →
      Except Fault (Option (State × List Transaction))
  | 0, _, _, _, _ => .ok none
  | fuel + 1, s, txSeq, txHash, res =>
    if txSeq = 0 then .ok (some (s, res))
    else do
      let r ← getTransactionEntry sha pb s txHash
      match r.2 with
      | none => .error .nullDeref
      | some tx =>
        if hash = tx.sourceAddress then
          historyLoop hash fuel r.1 tx.sourcePreviousLedgerSeq tx.sourcePreviousTxHash (res ++ [tx])
        else
          historyLoop hash fuel r.1 tx.destinationPreviousLedgerSeq tx.destinationPreviousTxHash
            (res ++ [tx])

/-- `get_transaction_history`, with at most the given number of rounds of its loop. -/
def getTransactionHistory (fuel : ℕ) (s : State) (accPub : Bytes) :
    Except Fault (Option (State × List Transaction)) := do
  let hash ← stringAddressToUint256 sha accPub
  let r ← getAccountEntry sha pb s hash
  match r.2 with
  | none => .error .nullDeref
  | some acc =>
    historyLoop sha pb hash fuel r.1 acc.previousLedgerSeq acc.previousTxHash []

/-- A call that changes the ledger. -/
inductive Step where
  | createAccount (accPub : Bytes)
  | addTransactionEntry (tx : Transaction)

/-- One call, with the accepted transactions so far, the newest first. -/
def step (s : State × List Transaction) : Step → Except Fault (State × List Transaction)
  | .createAccount accPub => do
    let r ← createAccount sha pb s.1 accPub
    .ok (r, s.2)
  | .addTransactionEntry tx => do
    let r ← addTransactionEntry sha pb s.1 tx
    .ok (r.1, if r.2.2 = 0 then r.2.1 :: s.2 else s.2)

/-- A run of calls on an empty ledger. -/
def run (db : Database) (steps : List Step) : Except Fault (State × List Transaction) := do
  let l ← new sha
  steps.foldlM (step sha pb) ((db, l), [])

section Paths

variable {sha pb} {s s' : State}

/-- A new account is an item added to the account tree. -/
theorem createAccount_path {accPub : Bytes} (h : createAccount sha pb s accPub = .ok s') :
    ∃ item w l, RadixMerkleTree.addItem sha s.1 s.2.accountTree item false = .ok w ∧
      updateAccountTreeHash sha { s.2 with accountTree := w.2 } = .ok l ∧ s' = (w.1, l) := by
  obtain ⟨hash, _, h⟩ := bind_eq_ok.mp h
  obtain ⟨data, _, h⟩ := bind_eq_ok.mp h
  obtain ⟨w, hw, h⟩ := bind_eq_ok.mp h
  obtain ⟨l, hl, h⟩ := bind_eq_ok.mp h
  exact ⟨_, w, l, hw, hl, (Except.ok.inj h).symm⟩

/-- An accepted transaction is an item added to the transaction tree, two updates of the
account tree and an update of its hash. -/
theorem postTransaction_path {tx : Transaction} {sourceAccount destinationAccount : Account}
    {r : State × Transaction}
    (h : postTransaction sha pb s tx sourceAccount destinationAccount = .ok r) :
    ∃ item w l source destination s₁ s₂ l',
      RadixMerkleTree.addItem sha s.1 s.2.transactionTree item true = .ok w ∧
      updateTransactionTreeHash sha { s.2 with transactionTree := w.2 } = .ok l ∧
      updateAccountTreeEntry sha (w.1, l) source = .ok s₁ ∧
      updateAccountTreeEntry sha s₁ destination = .ok s₂ ∧
      updateAccountTreeHash sha s₂.2 = .ok l' ∧ r.1 = (s₂.1, l') := by
  obtain ⟨data, _, h⟩ := bind_eq_ok.mp h
  obtain ⟨w, hw, h⟩ := bind_eq_ok.mp h
  obtain ⟨l, hl, h⟩ := bind_eq_ok.mp h
  obtain ⟨ss, _, h⟩ := bind_eq_ok.mp h
  obtain ⟨ds, _, h⟩ := bind_eq_ok.mp h
  obtain ⟨s₁, hs₁, h⟩ := bind_eq_ok.mp h
  obtain ⟨s₂, hs₂, h⟩ := bind_eq_ok.mp h
  obtain ⟨l', hl', h⟩ := bind_eq_ok.mp h
  cases h
  exact ⟨_, w, l, _, _, s₁, s₂, l', hw, hl, hs₁, hs₂, hl', rfl⟩

/-- A transaction reads its two accounts, and then it is rejected with code 1 or posted with
code 0. -/
theorem addTransactionEntry_cases {tx : Transaction} {r : State × Transaction × ℕ}
    (h : addTransactionEntry sha pb s tx = .ok r) :
    ∃ source destination, getAccountEntry sha pb s tx.sourceAddress = .ok source ∧
      getAccountEntry sha pb source.1 tx.destinationAddress = .ok destination ∧
      (r.2.2 = 1 ∧ r.1 = destination.1 ∨ r.2.2 = 0 ∧ ∃ sourceAccount destinationAccount p,
        postTransaction sha pb destination.1 tx sourceAccount destinationAccount = .ok p ∧
          r.1 = p.1) := by
  obtain ⟨source, hsource, h⟩ := bind_eq_ok.mp h
  obtain ⟨destination, hdestination, h⟩ := bind_eq_ok.mp h
  refine ⟨source, destination, hsource, hdestination, ?_⟩
  split at h
  · cases h
  · dsimp only at h
    split at h
    · split at h
      · cases h
      · obtain ⟨p, hp, h⟩ := bind_eq_ok.mp h
        cases h
        exact Or.inr ⟨rfl, _, _, p, hp, rfl⟩
    · cases h
      exact Or.inl ⟨rfl, rfl⟩

theorem addTransactionEntry_path {tx : Transaction} {r : State × Transaction × ℕ}
    (h : addTransactionEntry sha pb s tx = .ok r) :
    ∃ source destination, getAccountEntry sha pb s tx.sourceAddress = .ok source ∧
      getAccountEntry sha pb source.1 tx.destinationAddress = .ok destination ∧
      (r.1 = destination.1 ∨ ∃ sourceAccount destinationAccount p,
        postTransaction sha pb destination.1 tx sourceAccount destinationAccount = .ok p ∧
          r.1 = p.1) := by
  obtain ⟨source, destination, hsource, hdestination, hcases⟩ := addTransactionEntry_cases h
  exact ⟨source, destination, hsource, hdestination, hcases.imp And.right And.right⟩

end Paths

/-- Three accounts, where the model is evaluated. -/
def threeAccounts : List Step :=
  [.createAccount (sampleName 1), .createAccount (sampleName 2), .createAccount (sampleName 3)]

end Ledger

end Bubi
