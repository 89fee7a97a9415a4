import Bubi.Ledger.Alike
import Bubi.Ledger.Conservation
import Bubi.Ledger.Freshness
import Bubi.Ledger.Usage

/-!
# Unknown accounts

`get_account_entry` returns a null pointer for an address without an account, and its
callers use the pointer without a look at it. A transaction reads the source first and
the destination only after the source has paid, so an unknown destination is harmless
exactly when the source cannot pay. Everything that a history follows from an existing
account exists.
-/

namespace Bubi.Ledger

open Bubi.Core MerkleTrie

variable {sha : Bytes → Uint256} {pb : Protobuf}

/-- `add_transaction_entry` dereferences no null pointer, and where an account is missing it
returns an error code and changes nothing. -/
def Tolerates (sha : Bytes → Uint256) (pb : Protobuf) (s : State) (tx : Transaction) : Prop :=
  addTransactionEntry sha pb s tx ≠ .error .nullDeref ∧
    (entry sha pb s tx.sourceAddress = none ∨ entry sha pb s tx.destinationAddress = none →
      ∃ r, addTransactionEntry sha pb s tx = .ok r ∧ r.2.2 ≠ 0 ∧ Alike sha s r.1)

section Reflects

variable {s : State} {b : Books} {accepted : List Transaction} {ta tt : MerkleTrie}

/-- A transaction that the source cannot pay is refused, whoever it goes to. -/
theorem Reflects.addTransactionEntry_refused (h : Reflects sha pb s b accepted ta tt)
    {tx : Transaction} {source : Account} (hs : b.accounts tx.sourceAddress = some source)
    (hlt : source.accountBalance - tx.paymentAmount < 0) :
    ∃ s', addTransactionEntry sha pb s tx = .ok (s', tx, 1) ∧ Alike sha s s' := by
  obtain ⟨s', hadv, heq⟩ := h.addTransactionEntry_eq tx
  rw [hs] at heq
  dsimp only at heq
  rw [if_pos hlt] at heq
  refine ⟨s', heq, ⟨ta, tt, h.trees, hadv.trees⟩, ?_⟩
  exact (addTransactionEntry_rejected heq Nat.one_ne_zero).symm

theorem Reflects.tolerates_iff (h : Reflects sha pb s b accepted ta tt) (tx : Transaction) :
    Tolerates sha pb s tx ↔ ∃ source, b.accounts tx.sourceAddress = some source ∧
      (b.accounts tx.destinationAddress ≠ none ∨ source.accountBalance < tx.paymentAmount) := by
  obtain ⟨s', _, heq⟩ := h.addTransactionEntry_eq tx
  unfold Tolerates
  rw [h.entry_eq, h.entry_eq]
  cases hs : b.accounts tx.sourceAddress with
  | none =>
    rw [hs] at heq
    refine iff_of_false (fun htolerates => htolerates.1 heq) ?_
    rintro ⟨source, hsource, _⟩
    cases hsource
  | some source =>
    rcases lt_or_ge (source.accountBalance - tx.paymentAmount) 0 with hlt | hle
    · obtain ⟨s'', hrefused, halike⟩ := h.addTransactionEntry_refused hs hlt
      refine iff_of_true ⟨?_, fun _ => ⟨_, hrefused, Nat.one_ne_zero, halike⟩⟩
        ⟨source, rfl, Or.inr (sub_neg.mp hlt)⟩
      rw [hrefused]
      simp
    · cases hd : b.accounts tx.destinationAddress with
      | none =>
        rw [hs, hd] at heq
        dsimp only at heq
        rw [if_neg (not_lt.mpr hle)] at heq
        refine iff_of_false (fun htolerates => htolerates.1 heq) ?_
        rintro ⟨source', hsource, hdestination | hlt⟩
        · exact hdestination rfl
        · rw [← Option.some.inj hsource] at hlt
          exact absurd (sub_nonneg.mp hle) (not_le.mpr hlt)
      | some destination =>
        refine iff_of_true ⟨?_, ?_⟩ ⟨source, rfl, Or.inl (Option.some_ne_none _)⟩
        · exact h.addTransactionEntry_ne_error hs hd (by decide) (by decide)
            fun hassertion => absurd hassertion (by decide)
        · rintro (hnone | hnone) <;> cases hnone

theorem Reflects.getBalance_ne_nullDeref_iff (h : Reflects sha pb s b accepted ta tt)
    {accPub : Bytes} (hlength : accPub.length < 2 ^ 31) :
    getBalance sha pb s accPub ≠ .error .nullDeref ↔ b.accounts (sha accPub) ≠ none := by
  obtain ⟨w, hw⟩ := exists_getAccountEntry h.trees h.accounts (sha accPub)
  obtain ⟨_, hentry⟩ := getAccountEntry_ok h.trees h.accounts hw
  rw [getBalance, stringAddressToUint256_eq hlength, ok_bind, hw, ok_bind, hentry]
  cases b.accounts (sha accPub) with
  | none => exact iff_of_false (fun hne => hne rfl) (fun hne => hne rfl)
  | some acc => exact iff_of_true (by simp) (Option.some_ne_none acc)

/-- A fault of the loop is met by every longer run of it. -/
theorem historyLoop_error_add {k hash : Uint256} {seq : BitVec 32} {fuel : ℕ} {f : Fault}
    {res : List Transaction} (hf : historyLoop sha pb k fuel s seq hash res = .error f) (n : ℕ) :
    historyLoop sha pb k (fuel + n) s seq hash res = .error f := by
  induction fuel generalizing s seq hash res with
  | zero => cases hf
  | succ fuel ih =>
    rw [Nat.add_right_comm, historyLoop]
    rw [historyLoop] at hf
    split at hf
    · cases hf
    · next hseq =>
      rw [if_neg hseq]
      cases hr : getTransactionEntry sha pb s hash with
      | error e =>
        rw [hr] at hf
        exact hf
      | ok r =>
        rw [hr, ok_bind] at hf
        rw [ok_bind]
        revert hf
        cases r.2 with
        | none => exact id
        | some tx =>
          dsimp only
          intro hf
          split
          · next hsource =>
            rw [if_pos hsource] at hf
            exact ih hf
          · next hsource =>
            rw [if_neg hsource] at hf
            exact ih hf

/-- The history of an existing account meets no null pointer, however often its loop runs. -/
theorem Reflects.historyLoop_ne_error (h : Reflects sha pb s b accepted ta tt)
    (hc : Chained sha pb accepted) (k : Uint256) (fuel : ℕ) (f : Fault) :
    historyLoop sha pb k fuel s (link sha pb k accepted).1 (link sha pb k accepted).2 [] ≠
      .error f := by
  intro hf
  have herror := historyLoop_error_add hf ((accepted.filter (involves k)).length + 1)
  have hlong : (accepted.filter (involves k)).length <
      fuel + ((accepted.filter (involves k)).length + 1) := by omega
  obtain ⟨s', hok⟩ := h.historyLoop_eq (List.Subset.refl accepted) hc hlong []
  rw [hok] at herror
  cases herror

theorem Reflects.getTransactionHistory_ne_nullDeref_iff (h : Reflects sha pb s b accepted ta tt)
    (hlinked : Linked sha pb (b, accepted)) {accPub : Bytes} (hlength : accPub.length < 2 ^ 31) :
    (∀ fuel, getTransactionHistory sha pb fuel s accPub ≠ .error .nullDeref) ↔
      b.accounts (sha accPub) ≠ none := by
  obtain ⟨w, hw⟩ := exists_getAccountEntry h.trees h.accounts (sha accPub)
  obtain ⟨hadv, hentry⟩ := getAccountEntry_ok h.trees h.accounts hw
  have hafter : Reflects sha pb w.1 b accepted ta tt := ⟨hadv.trees, h.accounts, h.transactions⟩
  simp only [getTransactionHistory, stringAddressToUint256_eq hlength, ok_bind, hw, hentry]
  cases hacc : b.accounts (sha accPub) with
  | none => exact iff_of_false (fun hne => hne 0 rfl) (fun hne => hne rfl)
  | some acc =>
    refine iff_of_true (fun fuel => ?_) (Option.some_ne_none acc)
    have hlink := hlinked.account _ _ hacc
    have hloop := hafter.historyLoop_ne_error hlinked.chained (sha accPub) fuel .nullDeref
    rw [← hlink] at hloop
    exact hloop

end Reflects

/-- On every ledger in use, `add_transaction_entry` handles missing accounts exactly for a
transaction whose source exists and whose destination exists or is not paid, and `get_balance`
and `get_transaction_history` meet no null pointer exactly for an existing account. -/
theorem unknown_accounts_tolerated_iff (sha : Bytes → Uint256) (pb : Protobuf) (db : Database)
    (us : List Usage) (r : State × List Transaction) (hr : runUsages sha pb db us = .ok r)
    (hintact : Intact sha pb db us) :
    (∀ tx, Tolerates sha pb r.1 tx ↔
      ∃ source, entry sha pb r.1 tx.sourceAddress = some source ∧
        (entry sha pb r.1 tx.destinationAddress ≠ none ∨
          source.accountBalance < tx.paymentAmount)) ∧
    ∀ accPub : Bytes, accPub.length < 2 ^ 31 →
      (getBalance sha pb r.1 accPub ≠ .error .nullDeref ↔
        entry sha pb r.1 (sha accPub) ≠ none) ∧
      ((∀ fuel, getTransactionHistory sha pb fuel r.1 accPub ≠ .error .nullDeref) ↔
        entry sha pb r.1 (sha accPub) ≠ none) := by
  obtain ⟨b, ta, tt, h⟩ := runUsages_inUse hr hintact
  refine ⟨fun tx => ?_, fun accPub hlength => ?_⟩
  · rw [h.reflects.entry_eq, h.reflects.entry_eq]
    exact h.reflects.tolerates_iff tx
  · rw [h.reflects.entry_eq]
    exact ⟨h.reflects.getBalance_ne_nullDeref_iff hlength,
      h.reflects.getTransactionHistory_ne_nullDeref_iff h.linked hlength⟩

/-- In a reloaded ledger a payment to an unknown account that its source cannot make. -/
theorem unknown_accounts_savedLedger :
    ∃ r, runUsages checksum plainProtobuf (fun _ => none) savedLedger = .ok r ∧
      entry checksum plainProtobuf r.1 (checksum (sampleName 9)) = none ∧
      Tolerates checksum plainProtobuf r.1 (samplePayment 1 9 5000) := by
  have hok : (do
      let r ← runUsages checksum plainProtobuf (fun _ => none) savedLedger
      .ok ((entry checksum plainProtobuf r.1 (checksum (sampleName 9))).isNone &&
        (entry checksum plainProtobuf r.1 (checksum (sampleName 1))).any
          fun source : Account => source.accountBalance < 5000)) = .ok true :=
    eq_ok_of_toOption (by decide +kernel)
  obtain ⟨r, hr, hok⟩ := bind_eq_ok.mp hok
  obtain ⟨hnone, hany⟩ := (Bool.and_eq_true _ _).mp (Except.ok.inj hok)
  obtain ⟨source, hsource, hlt⟩ := (Option.any_eq_true _ _).mp hany
  refine ⟨r, hr, Option.isNone_iff_eq_none.mp hnone,
    ((unknown_accounts_tolerated_iff _ _ _ _ r hr intact_savedLedger).1 _).mpr
      ⟨source, hsource, Or.inr (of_decide_eq_true hlt)⟩⟩

/-- Payments from and to an unknown account, its balance and its history. -/
theorem unknown_account_dereferenced :
    ∃ r, runUsages checksum plainProtobuf (fun _ => none) (threeAccounts.map .step) = .ok r ∧
      addTransactionEntry checksum plainProtobuf r.1 (samplePayment 9 1 10) = .error .nullDeref ∧
      addTransactionEntry checksum plainProtobuf r.1 (samplePayment 1 9 10) = .error .nullDeref ∧
      getBalance checksum plainProtobuf r.1 (sampleName 9) = .error .nullDeref ∧
      getTransactionHistory checksum plainProtobuf 1 r.1 (sampleName 9) = .error .nullDeref := by
  have hok : (do
      let r ← runUsages checksum plainProtobuf (fun _ => none) (threeAccounts.map .step)
      .ok (fault (addTransactionEntry checksum plainProtobuf r.1 (samplePayment 9 1 10)),
        fault (addTransactionEntry checksum plainProtobuf r.1 (samplePayment 1 9 10)),
        fault (getBalance checksum plainProtobuf r.1 (sampleName 9)),
        fault (getTransactionHistory checksum plainProtobuf 1 r.1 (sampleName 9)))) =
      .ok (some .nullDeref, some .nullDeref, some .nullDeref, some .nullDeref) :=
    eq_ok_of_toOption (by decide +kernel)
  obtain ⟨r, hr, hok⟩ := bind_eq_ok.mp hok
  simp only [Except.ok.injEq, Prod.mk.injEq] at hok
  exact ⟨r, hr, eq_error_of_fault hok.1, eq_error_of_fault hok.2.1, eq_error_of_fault hok.2.2.1,
    eq_error_of_fault hok.2.2.2⟩

end Bubi.Ledger
