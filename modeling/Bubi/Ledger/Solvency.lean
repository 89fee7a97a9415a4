import Bubi.Ledger.Posting
import Bubi.Tree.Backup

/-!
# Solvency

`add_balance` refuses to leave a balance below zero, and both accounts of a transaction
go through it. The second refusal is ignored by its caller, which then writes the account
back with its old balance, and a payment to the payer itself keeps the copy of the
destination. No balance in the account tree is ever negative.
-/

namespace Bubi

open Bubi.Core

namespace Books

/-- No account is overdrawn. -/
def Solvent (b : Books) : Prop := ∀ k acc, b.accounts k = some acc → 0 ≤ acc.accountBalance

theorem solvent_empty : empty.Solvent := by
  intro k acc h
  cases h

theorem Solvent.write {b : Books} (h : b.Solvent) {acc : Account} (hacc : 0 ≤ acc.accountBalance) :
    (b.write acc).Solvent := by
  intro k acc' hk
  rw [accounts_write] at hk
  split at hk
  · rwa [← Option.some.inj hk]
  · exact h k acc' hk

end Books

/-- `add_balance` leaves no negative balance, whether it refuses or not. -/
theorem Account.addBalance_nonneg {acc : Account} (h : 0 ≤ acc.accountBalance) (amount : ℚ) :
    0 ≤ (acc.addBalance amount).1.accountBalance := by
  rw [addBalance_balance]
  split
  · exact h
  · next hle => exact not_lt.mp hle

/-- An accepted transaction overdraws neither side. -/
theorem Books.Solvent.pay {b : Books} (h : b.Solvent) {tx : Transaction}
    {source destination : Account} (hs : b.accounts tx.sourceAddress = some source)
    (hd : b.accounts tx.destinationAddress = some destination) (seq : BitVec 32)
    (hash : Uint256) : (b.pay tx source destination seq hash).Solvent := by
  unfold Books.pay
  refine (h.write ?_).write ?_
  · exact Account.addBalance_nonneg (h _ _ hs) _
  · exact Account.addBalance_nonneg (h _ _ hd) _

namespace Ledger

open RadixMerkleTree

variable {sha : Bytes → Uint256} {pb : Protobuf}

/-- A call overdraws no account. -/
theorem postStep_solvent {seq : BitVec 32} {p : Books × List Transaction} (h : p.1.Solvent)
    (o : Step) : (postStep sha pb seq p o).1.Solvent := by
  cases o with
  | createAccount accPub =>
    apply h.write
    change (0 : ℚ) ≤ 1000
    norm_num
  | addTransactionEntry tx =>
    rw [postStep, post]
    split
    · next source destination hs hd =>
      split
      · exact h
      · exact h.pay hs hd seq _
    · exact h

theorem posted_solvent (steps : List Step) : (posted sha pb steps).1.Solvent := by
  induction steps using List.reverseRecOn with
  | nil => exact Books.solvent_empty
  | append_singleton pre o ih =>
    rw [posted_snoc]
    exact postStep_solvent ih o

/-- In every ledger reached from an empty one, each leaf of the account tree holds an account
with a balance of at least zero, whatever the signs of the amounts and whichever accounts
the transactions name. -/
theorem no_overdraft (sha : Bytes → Uint256) (pb : Protobuf) (db : Database) (steps : List Step)
    (r : State × List Transaction) (hr : run sha pb db steps = .ok r) :
    ∀ d ∈ reached r.1.2.accountTree, ∀ item, d.item = some item →
      ∃ acc, Account.unserializer pb item.data = .ok acc ∧ acc.accountAddress = item.index ∧
        0 ≤ acc.accountBalance := by
  intro d hd item hitem
  obtain ⟨ta, tt, hreflects, _⟩ := (run_inStep hr).reflects
  obtain ⟨l, hl, _, rfl⟩ := hreflects.trees.account.resolves.exists_leaf hd hitem
  have hdata := hreflects.accounts.data l.key
  rw [hreflects.trees.accountValid.contents_key hl, Option.map_some, eq_comm,
    Option.map_eq_some_iff] at hdata
  obtain ⟨acc, hacc, hserial⟩ := hdata
  refine ⟨acc, ?_, (posted sha pb steps).1.address_eq _ _ hacc, posted_solvent steps _ _ hacc⟩
  rw [← hserial, Account.unserializer_serializer]

/-- A negative amount, a payment to oneself, a rejected one, and a negative amount that the
destination refuses. -/
def overdraftRun : List Step :=
  [.createAccount (sampleName 1), .createAccount (sampleName 2),
    .addTransactionEntry (samplePayment 1 2 (-50)), .addTransactionEntry (samplePayment 2 2 900),
    .addTransactionEntry (samplePayment 2 1 5000), .addTransactionEntry (samplePayment 1 2 (-9000))]

theorem no_overdraft_overdraftRun :
    ∃ r, run checksum plainProtobuf (fun _ => none) overdraftRun = .ok r ∧
      ∀ d ∈ reached r.1.2.accountTree, ∀ item, d.item = some item →
        ∃ acc, Account.unserializer plainProtobuf item.data = .ok acc ∧
          acc.accountAddress = item.index ∧ 0 ≤ acc.accountBalance := by
  obtain ⟨r, hr⟩ : ∃ r, run checksum plainProtobuf (fun _ => none) overdraftRun = .ok r :=
    exists_of_isOk (by decide +kernel)
  exact ⟨r, hr, no_overdraft _ _ _ _ r hr⟩

end Ledger

end Bubi
