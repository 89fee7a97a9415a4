import Bubi.Ledger.Ledger
import Bubi.Tree.Simulation

/-!
# The books of a ledger

What a ledger is for: accounts by their addresses, and the accepted transactions, the
newest first. The two trees of a ledger stand for two tries over one store, the leaves
of the account trie are the accounts of the books, and those of the transaction trie are
the accepted transactions under their digests. Every call that returns does to the books
what it does to the trees.
-/

namespace Bubi

open Bubi.Core

/-- Finitely many accounts, each under its own address. -/
structure Books where
  accounts : Uint256 → Option Account
  addresses : Finset Uint256
  mem_addresses : ∀ k, k ∈ addresses ↔ (accounts k).isSome = true
  address_eq : ∀ k acc, accounts k = some acc → acc.accountAddress = k

namespace Books

/-- No account. -/
def empty : Books where
  accounts := fun _ => none
  addresses := ∅
  mem_addresses := by simp
  address_eq := by simp

/-- The balance under an address; no account has none. -/
def balance (b : Books) (k : Uint256) : ℚ := ((b.accounts k).map Account.accountBalance).getD 0

/-- The sum of all balances. -/
def total (b : Books) : ℚ := ∑ k ∈ b.addresses, b.balance k

/-- The books with an account added or replaced. -/
def write (b : Books) (acc : Account) : Books where
  accounts := Function.update b.accounts acc.accountAddress (some acc)
  addresses := insert acc.accountAddress b.addresses
  mem_addresses := by
    intro k
    by_cases hk : k = acc.accountAddress
    · simp [hk]
    · simp [hk, b.mem_addresses]
  address_eq := by
    intro k acc' h
    by_cases hk : k = acc.accountAddress
    · rw [hk, Function.update_self] at h
      rw [hk, Option.some.inj h]
    · rw [Function.update_of_ne hk] at h
      exact b.address_eq k acc' h

theorem accounts_write (b : Books) (acc : Account) (k : Uint256) :
    (b.write acc).accounts k = if k = acc.accountAddress then some acc else b.accounts k :=
  Function.update_apply ..

theorem balance_write (b : Books) (acc : Account) (k : Uint256) :
    (b.write acc).balance k =
      if k = acc.accountAddress then acc.accountBalance else b.balance k := by
  unfold balance
  rw [accounts_write]
  split <;> rfl

theorem balance_of_notMem {b : Books} {k : Uint256} (h : k ∉ b.addresses) : b.balance k = 0 := by
  rw [b.mem_addresses, Option.not_isSome_iff_eq_none] at h
  simp [balance, h]

/-- A written account exchanges its share of the total. -/
theorem total_write (b : Books) (acc : Account) :
    (b.write acc).total = b.total - b.balance acc.accountAddress + acc.accountBalance := by
  have hrest : ∀ k ∈ b.addresses.erase acc.accountAddress,
      (b.write acc).balance k = b.balance k := by
    intro k hk
    rw [balance_write, if_neg (Finset.ne_of_mem_erase hk)]
  have hbefore : b.total =
      b.balance acc.accountAddress + ∑ k ∈ b.addresses.erase acc.accountAddress, b.balance k := by
    by_cases hmem : acc.accountAddress ∈ b.addresses
    · exact (Finset.add_sum_erase _ _ hmem).symm
    · rw [balance_of_notMem hmem, Finset.erase_eq_of_notMem hmem, zero_add]
      rfl
  have hafter : (b.write acc).total = (b.write acc).balance acc.accountAddress +
      ∑ k ∈ b.addresses.erase acc.accountAddress, (b.write acc).balance k := by
    have hsplit :=
      Finset.add_sum_erase (insert acc.accountAddress b.addresses) (b.write acc).balance
      (Finset.mem_insert_self _ _)
    rw [Finset.erase_insert_eq_erase] at hsplit
    exact hsplit.symm
  rw [hafter, hbefore, Finset.sum_congr rfl hrest, balance_write, if_pos rfl]
  abel

/-- The books after an accepted transaction. The accounts are the copies that were decoded
before the first of them was written back. -/
def pay (b : Books) (tx : Transaction) (source destination : Account) (seq : BitVec 32)
    (hash : Uint256) : Books :=
  (b.write ((source.addBalance (-tx.paymentAmount)).1.setPrevious seq hash)).write
    ((destination.addBalance tx.paymentAmount).1.setPrevious seq hash)

/-- The accounts after an accepted transaction: the destination's copy is written last. -/
theorem accounts_pay {b : Books} {tx : Transaction} {source destination : Account}
    (hs : b.accounts tx.sourceAddress = some source)
    (hd : b.accounts tx.destinationAddress = some destination) (seq : BitVec 32)
    (hash k : Uint256) :
    (b.pay tx source destination seq hash).accounts k =
      if k = tx.destinationAddress then
        some ((destination.addBalance tx.paymentAmount).1.setPrevious seq hash)
      else if k = tx.sourceAddress then
        some ((source.addBalance (-tx.paymentAmount)).1.setPrevious seq hash)
      else b.accounts k := by
  unfold pay
  simp only [accounts_write, Account.setPrevious_address, Account.addBalance_address,
    b.address_eq _ _ hs, b.address_eq _ _ hd]

end Books

namespace Ledger

open MerkleTrie

variable {sha : Bytes → Uint256} {pb : Protobuf}

section Trees

/-- The trees of a ledger stand for two valid tries without a pending node in common. -/
structure Trees (sha : Bytes → Uint256) (s : State) (ta tt : MerkleTrie) : Prop where
  account : Simulates sha (s.1, s.2.accountTree) ta
  transaction : Simulates sha (s.1, s.2.transactionTree) tt
  disjoint : (pending sha s.2.accountTree ta).Disjoint (pending sha s.2.transactionTree tt)
  accountValid : Valid sha ta
  transactionValid : Valid sha tt

/-- The hashes of the nodes of both trees that are not loaded. -/
def pendingOf (sha : Bytes → Uint256) (l : Ledger) (ta tt : MerkleTrie) : List Uint256 :=
  pending sha l.accountTree ta ++ pending sha l.transactionTree tt

/-- From one state of a ledger to another: nodes are loaded, none is unloaded. -/
structure Advances (sha : Bytes → Uint256) (s : State) (ta tt : MerkleTrie) (s' : State)
    (ta' tt' : MerkleTrie) : Prop where
  trees : Trees sha s' ta' tt'
  drains : s.1.Drains (pendingOf sha s.2 ta tt) s'.1 (pendingOf sha s'.2 ta' tt')
  sequence : s'.2.ledgerSequence = s.2.ledgerSequence

variable {s s' s'' : State} {ta tt ta' tt' ta'' tt'' : MerkleTrie}

theorem Trees.refl (h : Trees sha s ta tt) : Advances sha s ta tt s ta tt where
  trees := h
  drains := .refl _ _
  sequence := rfl

theorem Advances.trans (h : Advances sha s ta tt s' ta' tt')
    (h' : Advances sha s' ta' tt' s'' ta'' tt'') : Advances sha s ta tt s'' ta'' tt'' where
  trees := h'.trees
  drains := h.drains.trans h'.drains
  sequence := h'.sequence.trans h.sequence

/-- Only the trees matter. -/
theorem Trees.congr (h : Trees sha s ta tt) {l : Ledger} (ha : l.accountTree = s.2.accountTree)
    (ht : l.transactionTree = s.2.transactionTree) : Trees sha (s.1, l) ta tt where
  account := by simpa only [ha] using h.account
  transaction := by simpa only [ht] using h.transaction
  disjoint := by simpa only [ha, ht] using h.disjoint
  accountValid := h.accountValid
  transactionValid := h.transactionValid

theorem Advances.congr (h : Advances sha s ta tt s' ta' tt') {l : Ledger}
    (ha : l.accountTree = s'.2.accountTree) (ht : l.transactionTree = s'.2.transactionTree)
    (hseq : l.ledgerSequence = s'.2.ledgerSequence) :
    Advances sha s ta tt (s'.1, l) ta' tt' where
  trees := h.trees.congr ha ht
  drains := by simpa only [pendingOf, ha, ht] using h.drains
  sequence := hseq.trans h.sequence

/-- A step of the account tree. -/
theorem Trees.moveAccount (h : Trees sha s ta tt) {db : Database} {n : RadixMerkleTreeNode}
    (hm : MerkleTrie.Moves sha s.1 s.2.accountTree ta db n ta') (hl : Loaded n)
    (hv : Valid sha ta') :
    Advances sha s ta tt (db, { s.2 with accountTree := n }) ta' tt where
  trees :=
    { account := hm.simulates hl
      transaction := h.transaction.frame hm.toDrains h.disjoint
      disjoint := fun _ hx hy => h.disjoint (hm.sub hx) hy
      accountValid := hv
      transactionValid := h.transactionValid }
  drains := hm.toDrains.append h.disjoint
  sequence := rfl

/-- A step of the transaction tree. -/
theorem Trees.moveTransaction (h : Trees sha s ta tt) {db : Database} {n : RadixMerkleTreeNode}
    (hm : MerkleTrie.Moves sha s.1 s.2.transactionTree tt db n tt') (hl : Loaded n)
    (hv : Valid sha tt') :
    Advances sha s ta tt (db, { s.2 with transactionTree := n }) ta tt' where
  trees :=
    { account := h.account.frame hm.toDrains h.disjoint.symm
      transaction := hm.simulates hl
      disjoint := fun _ hx hy => h.disjoint hx (hm.sub hy)
      accountValid := h.accountValid
      transactionValid := hv }
  drains := (hm.toDrains.append h.disjoint.symm).comm
  sequence := rfl

theorem updateAccountTreeHash_ok {l l' : Ledger} (h : updateAccountTreeHash sha l = .ok l') :
    ∃ hash, RadixMerkleTree.getHash l.accountTree = .ok hash ∧
      l' = updateLedgerHash sha { l with accountTreeHash := hash } := by
  obtain ⟨hash, hhash, hl⟩ := bind_eq_ok.mp h
  exact ⟨hash, hhash, (Except.ok.inj hl).symm⟩

theorem updateTransactionTreeHash_ok {l l' : Ledger}
    (h : updateTransactionTreeHash sha l = .ok l') :
    ∃ hash, RadixMerkleTree.getHash l.transactionTree = .ok hash ∧
      l' = updateLedgerHash sha { l with transactionTreeHash := hash } := by
  obtain ⟨hash, hhash, hl⟩ := bind_eq_ok.mp h
  exact ⟨hash, hhash, (Except.ok.inj hl).symm⟩

/-- The root of a ledger's tree has a hash. -/
theorem Trees.exists_updateAccountTreeHash (h : Trees sha s ta tt) :
    ∃ l, updateAccountTreeHash sha s.2 = .ok l :=
  ⟨_, bind_eq_ok.mpr ⟨_, getHash_of_resolves h.account.loaded h.account.resolves, rfl⟩⟩

theorem Trees.exists_updateTransactionTreeHash (h : Trees sha s ta tt) :
    ∃ l, updateTransactionTreeHash sha s.2 = .ok l :=
  ⟨_, bind_eq_ok.mpr ⟨_, getHash_of_resolves h.transaction.loaded h.transaction.resolves, rfl⟩⟩

/-- The update of a cached hash changes no tree. -/
theorem Advances.updateAccountTreeHash (h : Advances sha s ta tt s' ta' tt') {l : Ledger}
    (hl : updateAccountTreeHash sha s'.2 = .ok l) : Advances sha s ta tt (s'.1, l) ta' tt' := by
  obtain ⟨hash, _, rfl⟩ := updateAccountTreeHash_ok hl
  exact h.congr rfl rfl rfl

theorem Advances.updateTransactionTreeHash (h : Advances sha s ta tt s' ta' tt') {l : Ledger}
    (hl : updateTransactionTreeHash sha s'.2 = .ok l) :
    Advances sha s ta tt (s'.1, l) ta' tt' := by
  obtain ⟨hash, _, rfl⟩ := updateTransactionTreeHash_ok hl
  exact h.congr rfl rfl rfl

end Trees

section Records

/-- The balance that a leaf of the account tree holds. -/
def balanceIn (pb : Protobuf) (item : RadixMerkleTreeLeaf) : ℚ :=
  match Account.unserializer pb item.data with
  | .ok acc => acc.accountBalance
  | .error _ => 0

/-- The leaves of the account trie are the accounts of the books. -/
structure AccountRecords (pb : Protobuf) (ta : MerkleTrie) (b : Books) : Prop where
  data : ∀ k, (contents ta k).map RadixMerkleTreeLeaf.data =
    (b.accounts k).map (Account.serializer pb)
  total : ta.sum (fun l => balanceIn pb l.item) = b.total

/-- The index of a transaction: the digest of its serialization. -/
def txHash (sha : Bytes → Uint256) (pb : Protobuf) (tx : Transaction) : Uint256 :=
  sha (tx.serializer pb)

/-- The leaves of the transaction trie are the accepted transactions. -/
structure TransactionRecords (sha : Bytes → Uint256) (pb : Protobuf) (tt : MerkleTrie)
    (accepted : List Transaction) : Prop where
  data : ∀ k, (contents tt k).map RadixMerkleTreeLeaf.data =
    (accepted.find? fun tx => txHash sha pb tx = k).map (Transaction.serializer pb)
  nodup : (accepted.map (txHash sha pb)).Nodup

variable {ta tt : MerkleTrie} {b : Books} {accepted : List Transaction}

theorem balanceIn_serializer {item : RadixMerkleTreeLeaf} {acc : Account}
    (h : item.data = acc.serializer pb) : balanceIn pb item = acc.accountBalance := by
  simp [balanceIn, h]

/-- An address without an account is free in the tree. -/
theorem AccountRecords.contents_eq_none (h : AccountRecords pb ta b) {k : Uint256} :
    contents ta k = none ↔ b.accounts k = none := by
  have hdata := h.data k
  constructor
  · intro hk
    simpa [hk] using hdata.symm
  · intro hk
    simpa [hk] using hdata

theorem AccountRecords.balance_eq (h : AccountRecords pb ta b) (k : Uint256) :
    ((contents ta k).map (balanceIn pb)).getD 0 = b.balance k := by
  have hdata := h.data k
  unfold Books.balance
  revert hdata
  cases contents ta k with
  | none =>
    intro hdata
    rw [Option.map_eq_none_iff.mp hdata.symm]
    rfl
  | some item =>
    intro hdata
    obtain ⟨acc, hacc, hitem⟩ := Option.map_eq_some_iff.mp hdata.symm
    simp [hacc, balanceIn_serializer hitem.symm]

/-- A change of the account tree writes its account into the books. -/
theorem AccountRecords.write (h : AccountRecords pb ta b) (hv : Valid sha ta) {o : Change}
    (ho : (contents ta).Permits o) {acc : Account} (hi : o.index = acc.accountAddress)
    (hd : o.item.data = acc.serializer pb) :
    AccountRecords pb (changed sha ta o) (b.write acc) where
  data := by
    intro k
    rw [hv.contents_changed ho, Books.accounts_write, ← hi]
    by_cases hk : k = o.index
    · rw [if_pos hk, hk, Contents.write_self]
      simp [hd]
    · rw [if_neg hk, Contents.write_of_ne _ hk]
      exact h.data k
  total := by
    rw [hv.sum_changed ho (balanceIn pb), h.total, h.balance_eq, balanceIn_serializer hd,
      Books.total_write, hi]

/-- An added transaction is the newest. -/
theorem TransactionRecords.add (h : TransactionRecords sha pb tt accepted) (hv : Valid sha tt)
    {item : RadixMerkleTreeLeaf} {isTransaction : Bool}
    (ho : (contents tt).Permits (.addItem item isTransaction)) {tx : Transaction}
    (hi : item.index = txHash sha pb tx) (hd : item.data = tx.serializer pb) :
    TransactionRecords sha pb (changed sha tt (.addItem item isTransaction)) (tx :: accepted) where
  data := by
    intro k
    rw [hv.contents_changed ho, List.find?_cons, ← hi]
    by_cases hk : item.index = k
    · subst hk
      have hself := (contents tt).write_self (.addItem item isTransaction)
      rw [Change.index, Change.item] at hself
      simp [hself, hd]
    · have hother := (contents tt).write_of_ne (o := .addItem item isTransaction) (Ne.symm hk)
      simp only [hother, hk, decide_false]
      exact h.data k
  nodup := by
    rw [List.map_cons, List.nodup_cons]
    refine ⟨?_, h.nodup⟩
    intro hmem
    obtain ⟨tx', hmem, htx'⟩ := List.mem_map.mp hmem
    have hdata := h.data item.index
    rw [show contents tt item.index = none from ho, Option.map_none, eq_comm,
      Option.map_eq_none_iff, List.find?_eq_none] at hdata
    exact hdata tx' hmem (by simp [htx', hi])

end Records

/-- A ledger whose trees hold the accounts of the books and the accepted transactions. -/
structure Reflects (sha : Bytes → Uint256) (pb : Protobuf) (s : State) (b : Books)
    (accepted : List Transaction) (ta tt : MerkleTrie) : Prop where
  trees : Trees sha s ta tt
  accounts : AccountRecords pb ta b
  transactions : TransactionRecords sha pb tt accepted

/-- The books and the accepted transactions after an `add_transaction_entry`. -/
def post (sha : Bytes → Uint256) (pb : Protobuf) (seq : BitVec 32)
    (p : Books × List Transaction) (tx : Transaction) : Books × List Transaction :=
  match p.1.accounts tx.sourceAddress, p.1.accounts tx.destinationAddress with
  | some source, some destination =>
    if source.accountBalance - tx.paymentAmount < 0 then p
    else
      let linked := tx.setPrevious source destination
      (p.1.pay tx source destination seq (txHash sha pb linked), linked :: p.2)
  | _, _ => p

/-- The books and the accepted transactions after a call. -/
def postStep (sha : Bytes → Uint256) (pb : Protobuf) (seq : BitVec 32)
    (p : Books × List Transaction) : Step → Books × List Transaction
  | .createAccount accPub => (p.1.write (newAccount (sha accPub)), p.2)
  | .addTransactionEntry tx => post sha pb seq p tx

/-- The books and the accepted transactions after a run on an empty ledger. -/
def posted (sha : Bytes → Uint256) (pb : Protobuf) (steps : List Step) :
    Books × List Transaction :=
  steps.foldl (postStep sha pb 1) (Books.empty, [])

end Ledger

end Bubi
