import Bubi.Ledger.Conservation
import Bubi.Ledger.Usage

/-!
# The frame of a transfer

An accepted transfer writes two accounts and one transaction. Read through `peek_item`,
every other account and every earlier transaction keeps its bytes, whatever the writes
did to the shape of the two trees and whatever part of them is loaded.
-/

namespace Bubi.Ledger

open Bubi.Core MerkleTrie

section Data

variable (sha : Bytes → Uint256)

/-- The bytes that a tree holds under an index. -/
def storedData (db : Database) (root : RadixMerkleTreeNode) (k : Uint256) :
    Except Fault (Option Bytes) := do
  let r ← RadixMerkleTree.peekItem sha db root k
  .ok (r.2.2.map RadixMerkleTreeLeaf.data)

/-- The bytes of an account. -/
def accountData (s : State) (k : Uint256) : Except Fault (Option Bytes) :=
  storedData sha s.1 s.2.accountTree k

/-- The bytes of a transaction. -/
def transactionData (s : State) (k : Uint256) : Except Fault (Option Bytes) :=
  storedData sha s.1 s.2.transactionTree k

/-- What an accepted transfer does to a ledger, with the two accounts as they were before and
the bytes of the new transaction. -/
structure Transferred (pb : Protobuf) (s s' : State) (tx : Transaction)
    (source destination : Account) (bytes : Bytes) : Prop where
  /-- Every other account keeps its bytes. -/
  others : ∀ k, k ≠ tx.sourceAddress → k ≠ tx.destinationAddress →
    accountData sha s' k = accountData sha s k
  /-- No account is added or removed. -/
  present : ∀ k, (∃ data, accountData sha s' k = .ok (some data)) ↔
    ∃ data, accountData sha s k = .ok (some data)
  /-- The index of the transaction was free. -/
  free : transactionData sha s (sha bytes) = .ok none
  added : transactionData sha s' (sha bytes) = .ok (some bytes)
  /-- Every earlier transaction keeps its bytes, and no other one is added. -/
  kept : ∀ k, k ≠ sha bytes → transactionData sha s' k = transactionData sha s k
  /-- The new transaction is the request with the links of the two accounts. -/
  decoded : Transaction.unserializer pb bytes = .ok
    { sourceAddress := tx.sourceAddress
      destinationAddress := tx.destinationAddress
      paymentAmount := tx.paymentAmount
      sourcePreviousLedgerSeq := source.previousLedgerSeq
      sourcePreviousTxHash := source.previousTxHash
      destinationPreviousLedgerSeq := destination.previousLedgerSeq
      destinationPreviousTxHash := destination.previousTxHash }
  /-- Both accounts link to the new transaction. -/
  linked : ∀ k, k = tx.sourceAddress ∨ k = tx.destinationAddress →
    ∃ acc, entry sha pb s' k = some acc ∧ acc.previousLedgerSeq = s.2.ledgerSequence ∧
      acc.previousTxHash = sha bytes

end Data

variable {sha : Bytes → Uint256} {pb : Protobuf}

theorem storedData_eq {s : Database × RadixMerkleTreeNode} {t : MerkleTrie}
    (h : Simulates sha s t) (hvalid : Valid sha t) (k : Uint256) :
    storedData sha s.1 s.2 k = .ok ((contents t k).map RadixMerkleTreeLeaf.data) := by
  obtain ⟨r, hr⟩ : ∃ r, RadixMerkleTree.lookup sha .ok s.1 s.2 k = .ok r :=
    h.exists_lookup hvalid fun item _ => ⟨item, rfl⟩
  obtain ⟨hfound, _⟩ := h.lookup_ok hvalid hr
  have hitem : r.2.2 = contents t k := by
    revert hfound
    cases contents t k with
    | none => exact id
    | some item =>
      rintro ⟨v, hv, hrv⟩
      rw [hrv, Except.ok.inj hv]
  rw [storedData, RadixMerkleTree.peekItem, hr, ok_bind, hitem]

section Reflects

variable {s s' : State} {b : Books} {accepted : List Transaction} {ta tt : MerkleTrie}

theorem Reflects.accountData_eq (h : Reflects sha pb s b accepted ta tt) (k : Uint256) :
    accountData sha s k = .ok ((b.accounts k).map (Account.serializer pb)) := by
  have hdata := storedData_eq h.trees.account h.trees.accountValid k
  rw [h.accounts.data] at hdata
  exact hdata

theorem Reflects.transactionData_eq (h : Reflects sha pb s b accepted ta tt) (k : Uint256) :
    transactionData sha s k =
      .ok ((accepted.find? fun tx => txHash sha pb tx = k).map (Transaction.serializer pb)) := by
  have hdata := storedData_eq h.trees.transaction h.trees.transactionValid k
  rw [h.transactions.data] at hdata
  exact hdata

/-- An address has bytes when it has an account. -/
theorem Reflects.exists_accountData (h : Reflects sha pb s b accepted ta tt) {k : Uint256} :
    (∃ data, accountData sha s k = .ok (some data)) ↔ (b.accounts k).isSome = true := by
  rw [h.accountData_eq]
  cases b.accounts k with
  | none => simp
  | some acc => simp

/-- The new transaction stands under a free index and hides none of the others. -/
theorem find?_cons_txHash {tx : Transaction}
    (hnodup : ((tx :: accepted).map (txHash sha pb)).Nodup) :
    (accepted.find? fun tx' => txHash sha pb tx' = txHash sha pb tx) = none ∧
      ∀ k, k ≠ txHash sha pb tx →
        ((tx :: accepted).find? fun tx' => txHash sha pb tx' = k) =
          accepted.find? fun tx' => txHash sha pb tx' = k := by
  refine ⟨List.find?_eq_none.mpr fun tx' htx' hhash => ?_, fun k hk => ?_⟩
  · rw [List.map_cons, List.nodup_cons] at hnodup
    refine hnodup.1 (List.mem_map.mpr ⟨tx', htx', of_decide_eq_true hhash⟩)
  · rw [List.find?_cons_of_neg]
    simpa using Ne.symm hk

/-- A transfer that returns 0 did what it should. -/
theorem Reflects.transferred (h : Reflects sha pb s b accepted ta tt) {tx : Transaction}
    {r : State × Transaction × ℕ} (hr : addTransactionEntry sha pb s tx = .ok r)
    (hcode : r.2.2 = 0) :
    ∃ source destination bytes, b.accounts tx.sourceAddress = some source ∧
      b.accounts tx.destinationAddress = some destination ∧
      Transferred sha pb s r.1 tx source destination bytes := by
  obtain ⟨source, hs, ⟨_, hrefused, _⟩ | ⟨_, destination, hd, _, ta', tt', hadv, ha, ht⟩⟩ :=
    h.addTransactionEntry_ok hr
  · rw [hrefused] at hcode
    cases hcode
  · set new := tx.setPrevious source destination with hnew
    have hafter : Reflects sha pb r.1 _ (new :: accepted) ta' tt' := ⟨hadv.trees, ha, ht⟩
    have haccounts := fun k => Books.accounts_pay hs hd s.2.ledgerSequence (txHash sha pb new) k
    obtain ⟨hfree, hkept⟩ := find?_cons_txHash ht.nodup
    refine ⟨source, destination, new.serializer pb, hs, hd, ?_, ?_, ?_, ?_, ?_, ?_, ?_⟩
    · intro k hks hkd
      rw [hafter.accountData_eq, h.accountData_eq, haccounts, if_neg hkd, if_neg hks]
    · intro k
      rw [hafter.exists_accountData, h.exists_accountData, haccounts]
      split
      · next hk => simp [hk, hd]
      · split
        · next hk => simp [hk, hs]
        · rfl
    · change transactionData sha s (txHash sha pb new) = _
      rw [h.transactionData_eq, hfree]
      rfl
    · change transactionData sha r.1 (txHash sha pb new) = _
      rw [hafter.transactionData_eq, List.find?_cons_of_pos (by simp)]
      rfl
    · intro k hk
      rw [hafter.transactionData_eq, h.transactionData_eq, hkept k hk]
    · rw [Transaction.unserializer_serializer, hnew]
      rfl
    · intro k hk
      rw [hafter.entry_eq, haccounts]
      split
      · exact ⟨_, rfl, rfl, rfl⟩
      · next hkd =>
        rw [if_pos (hk.resolve_right hkd)]
        exact ⟨_, rfl, rfl, rfl⟩

end Reflects

/-- On every ledger in use, whatever is loaded of it, a transfer for which
`add_transaction_entry` returns 0 leaves the bytes of every other account and of every earlier
transaction as they are, adds and removes no account, adds one transaction, the request with
the links that its accounts had, under the digest of its bytes, and links both accounts to
it, also when they are one. -/
theorem transfer_frame (sha : Bytes → Uint256) (pb : Protobuf) (db : Database)
    (us : List Usage) (r : State × List Transaction) (hr : runUsages sha pb db us = .ok r)
    (hintact : Intact sha pb db us) (tx : Transaction) (v : State × Transaction × ℕ)
    (hv : addTransactionEntry sha pb r.1 tx = .ok v) (hcode : v.2.2 = 0) :
    ∃ source destination bytes, entry sha pb r.1 tx.sourceAddress = some source ∧
      entry sha pb r.1 tx.destinationAddress = some destination ∧
      Transferred sha pb r.1 v.1 tx source destination bytes := by
  obtain ⟨b, ta, tt, h⟩ := runUsages_inUse hr hintact
  rw [h.reflects.entry_eq, h.reflects.entry_eq]
  exact h.reflects.transferred hv hcode

/-- In a reloaded ledger a payment to oneself. -/
theorem transfer_frame_savedLedger :
    ∃ r v bytes, runUsages checksum plainProtobuf (fun _ => none) savedLedger = .ok r ∧
      addTransactionEntry checksum plainProtobuf r.1 (samplePayment 2 2 30) = .ok v ∧
      transactionData checksum r.1 (checksum bytes) = .ok none ∧
      transactionData checksum v.1 (checksum bytes) = .ok (some bytes) := by
  have hok : (do
      let r ← runUsages checksum plainProtobuf (fun _ => none) savedLedger
      let v ← addTransactionEntry checksum plainProtobuf r.1 (samplePayment 2 2 30)
      .ok v.2.2) = .ok 0 :=
    eq_ok_of_toOption (by decide +kernel)
  obtain ⟨r, hr, hok⟩ := bind_eq_ok.mp hok
  obtain ⟨v, hv, hok⟩ := bind_eq_ok.mp hok
  obtain ⟨source, destination, bytes, _, _, htransferred⟩ := transfer_frame _ _ _ _ r hr
    intact_savedLedger (samplePayment 2 2 30) v hv (Except.ok.inj hok)
  exact ⟨r, v, bytes, hr, hv, htransferred.free, htransferred.added⟩

end Bubi.Ledger
