import Bubi.Ledger.Posting

/-!
# Equal ledgers

Two ledgers are alike when their trees stand for the same tries and their headers agree,
whatever part of its trees each of them has loaded. A call on one of two ledgers that are
alike fails or returns as on the other, and leaves them alike.
-/

namespace Bubi

open Bubi.Core

namespace Ledger

open MerkleTrie

/-- Everything of a ledger but its trees. -/
def withoutTrees (l : Ledger) : Ledger := { l with transactionTree := .null, accountTree := .null }

/-- Two ledgers with the same trees and headers. -/
structure Alike (sha : Bytes → Uint256) (s s' : State) : Prop where
  trees : ∃ ta tt, Trees sha s ta tt ∧ Trees sha s' ta tt
  header : s.2.withoutTrees = s'.2.withoutTrees

variable {sha : Bytes → Uint256} {pb : Protobuf} {s s' : State}

theorem Trees.alike {ta tt : MerkleTrie} (h : Trees sha s ta tt) : Alike sha s s :=
  ⟨⟨ta, tt, h, h⟩, rfl⟩

theorem Alike.hash (h : Alike sha s s') : s.2.hash = s'.2.hash := by
  have hheader := congrArg Ledger.hash h.header
  exact hheader

section Trees

/-- A lookup in the account tree. -/
theorem Alike.lookupAccount (h : Alike sha s s') {α : Type}
    (found : RadixMerkleTreeLeaf → Except Fault α) (hash : Uint256) :
    Rel (fun r r' => Alike sha (r.1, { s.2 with accountTree := r.2.1 })
        (r'.1, { s'.2 with accountTree := r'.2.1 }) ∧ r.2.2 = r'.2.2)
      (RadixMerkleTree.lookup sha found s.1 s.2.accountTree hash)
      (RadixMerkleTree.lookup sha found s'.1 s'.2.accountTree hash) := by
  obtain ⟨⟨ta, tt, ht, ht'⟩, hheader⟩ := h
  have hrel := lookup_rel ht.account.resolves ht.account.loaded ht.account.nodup found hash
  have hrel' := lookup_rel ht'.account.resolves ht'.account.loaded ht'.account.nodup found hash
  refine (hrel.join hrel').mono fun r r' hr => ?_
  obtain ⟨v, _, ⟨hv, hl, hm⟩, hv', hl', hm'⟩ := hr
  exact ⟨⟨⟨ta, tt, (ht.moveAccount hm hl ht.accountValid).trees,
    (ht'.moveAccount hm' hl' ht.accountValid).trees⟩, hheader⟩, hv.trans hv'.symm⟩

theorem Alike.lookupTransaction (h : Alike sha s s') {α : Type}
    (found : RadixMerkleTreeLeaf → Except Fault α) (hash : Uint256) :
    Rel (fun r r' => Alike sha (r.1, { s.2 with transactionTree := r.2.1 })
        (r'.1, { s'.2 with transactionTree := r'.2.1 }) ∧ r.2.2 = r'.2.2)
      (RadixMerkleTree.lookup sha found s.1 s.2.transactionTree hash)
      (RadixMerkleTree.lookup sha found s'.1 s'.2.transactionTree hash) := by
  obtain ⟨⟨ta, tt, ht, ht'⟩, hheader⟩ := h
  have hrel :=
    lookup_rel ht.transaction.resolves ht.transaction.loaded ht.transaction.nodup found hash
  have hrel' :=
    lookup_rel ht'.transaction.resolves ht'.transaction.loaded ht'.transaction.nodup found hash
  refine (hrel.join hrel').mono fun r r' hr => ?_
  obtain ⟨v, _, ⟨hv, hl, hm⟩, hv', hl', hm'⟩ := hr
  exact ⟨⟨⟨ta, tt, (ht.moveTransaction hm hl ht.transactionValid).trees,
    (ht'.moveTransaction hm' hl' ht.transactionValid).trees⟩, hheader⟩, hv.trans hv'.symm⟩

/-- A change of the account tree. -/
theorem Alike.changeAccount (h : Alike sha s s') (o : Change) :
    Rel (fun w w' => Alike sha (w.1, { s.2 with accountTree := w.2 })
        (w'.1, { s'.2 with accountTree := w'.2 }))
      (RadixMerkleTree.change sha (s.1, s.2.accountTree) o)
      (RadixMerkleTree.change sha (s'.1, s'.2.accountTree) o) := by
  obtain ⟨⟨ta, tt, ht, ht'⟩, hheader⟩ := h
  have hrel := change_refines ht.account.resolves ht.account.loaded ht.account.nodup o
  have hrel' := change_refines ht'.account.resolves ht'.account.loaded ht'.account.nodup o
  refine (hrel.join hrel').mono fun w w' hw => ?_
  obtain ⟨ta', hta', ⟨hl, hm⟩, hl', hm'⟩ := hw
  obtain ⟨ho, rfl⟩ := ht.accountValid.change_ok hta'
  have hvalid := ht.accountValid.changed ho
  exact ⟨⟨_, tt, (ht.moveAccount hm hl hvalid).trees, (ht'.moveAccount hm' hl' hvalid).trees⟩,
    hheader⟩

/-- A change of the transaction tree. -/
theorem Alike.changeTransaction (h : Alike sha s s') (o : Change) :
    Rel (fun w w' => Alike sha (w.1, { s.2 with transactionTree := w.2 })
        (w'.1, { s'.2 with transactionTree := w'.2 }))
      (RadixMerkleTree.change sha (s.1, s.2.transactionTree) o)
      (RadixMerkleTree.change sha (s'.1, s'.2.transactionTree) o) := by
  obtain ⟨⟨ta, tt, ht, ht'⟩, hheader⟩ := h
  have hrel := change_refines ht.transaction.resolves ht.transaction.loaded ht.transaction.nodup o
  have hrel' :=
    change_refines ht'.transaction.resolves ht'.transaction.loaded ht'.transaction.nodup o
  refine (hrel.join hrel').mono fun w w' hw => ?_
  obtain ⟨tt', htt', ⟨hl, hm⟩, hl', hm'⟩ := hw
  obtain ⟨ho, rfl⟩ := ht.transactionValid.change_ok htt'
  have hvalid := ht.transactionValid.changed ho
  exact ⟨⟨ta, _, (ht.moveTransaction hm hl hvalid).trees,
    (ht'.moveTransaction hm' hl' hvalid).trees⟩, hheader⟩

/-- Equal trees have one hash. -/
theorem Alike.updateAccountTreeHash (h : Alike sha s s') :
    Rel (fun l l' => Alike sha (s.1, l) (s'.1, l')) (updateAccountTreeHash sha s.2)
      (updateAccountTreeHash sha s'.2) := by
  obtain ⟨⟨ta, tt, ht, ht'⟩, hheader⟩ := h
  rw [Ledger.updateAccountTreeHash, Ledger.updateAccountTreeHash,
    getHash_of_resolves ht.account.loaded ht.account.resolves,
    getHash_of_resolves ht'.account.loaded ht'.account.resolves]
  refine .ok ⟨⟨ta, tt, ht.congr rfl rfl, ht'.congr rfl rfl⟩, ?_⟩
  exact congrArg
    (fun l : Ledger => updateLedgerHash sha { l with accountTreeHash := digest sha ta }) hheader

theorem Alike.updateTransactionTreeHash (h : Alike sha s s') :
    Rel (fun l l' => Alike sha (s.1, l) (s'.1, l')) (updateTransactionTreeHash sha s.2)
      (updateTransactionTreeHash sha s'.2) := by
  obtain ⟨⟨ta, tt, ht, ht'⟩, hheader⟩ := h
  rw [Ledger.updateTransactionTreeHash, Ledger.updateTransactionTreeHash,
    getHash_of_resolves ht.transaction.loaded ht.transaction.resolves,
    getHash_of_resolves ht'.transaction.loaded ht'.transaction.resolves]
  refine .ok ⟨⟨ta, tt, ht.congr rfl rfl, ht'.congr rfl rfl⟩, ?_⟩
  exact congrArg
    (fun l : Ledger => updateLedgerHash sha { l with transactionTreeHash := digest sha tt }) hheader

end Trees

section Calls

/-- `get_account_entry` returns the same account. -/
theorem Alike.getAccountEntry (h : Alike sha s s') (hash : Uint256) :
    Rel (fun r r' => Alike sha r.1 r'.1 ∧ r.2 = r'.2) (getAccountEntry sha pb s hash)
      (getAccountEntry sha pb s' hash) :=
  (h.lookupAccount _ hash).bind fun _ _ hr => .ok hr

/-- `get_transaction_entry` returns the same transaction. -/
theorem Alike.getTransactionEntry (h : Alike sha s s') (hash : Uint256) :
    Rel (fun r r' => Alike sha r.1 r'.1 ∧ r.2 = r'.2) (getTransactionEntry sha pb s hash)
      (getTransactionEntry sha pb s' hash) :=
  (h.lookupTransaction _ hash).bind fun _ _ hr => .ok hr

theorem Alike.addAccountTreeEntry (h : Alike sha s s') (tag : Uint256) (acc : Account) :
    Rel (Alike sha) (addAccountTreeEntry sha pb s tag acc)
      (addAccountTreeEntry sha pb s' tag acc) := by
  unfold Ledger.addAccountTreeEntry
  cases Serializer.ofString (acc.serializer pb) with
  | error e => exact .error e
  | ok data =>
    refine (h.changeAccount (.addItem _ _)).bind fun w w' hw => ?_
    exact hw.updateAccountTreeHash.bind fun _ _ hl => .ok hl

theorem Alike.updateAccountTreeEntry (h : Alike sha s s') (item : RadixMerkleTreeLeaf) :
    Rel (Alike sha) (updateAccountTreeEntry sha s item) (updateAccountTreeEntry sha s' item) := by
  refine (h.changeAccount (.updateGivenItem item false)).bind fun w w' hw => ?_
  exact hw.updateAccountTreeHash.bind fun _ _ hl => .ok hl

theorem Alike.ledgerSequence (h : Alike sha s s') :
    s.2.ledgerSequence = s'.2.ledgerSequence := by
  have hheader := congrArg Ledger.ledgerSequence h.header
  exact hheader

theorem Alike.postTransaction (h : Alike sha s s') (tx : Transaction)
    (source destination : Account) :
    Rel (fun r r' => Alike sha r.1 r'.1 ∧ r.2 = r'.2)
      (postTransaction sha pb s tx source destination)
      (postTransaction sha pb s' tx source destination) := by
  unfold Ledger.postTransaction
  dsimp only
  cases Serializer.ofString ((tx.setPrevious source destination).serializer pb) with
  | error e => exact .error e
  | ok data =>
    refine (h.changeTransaction (.addItem _ _)).bind fun w w' hw => ?_
    refine hw.updateTransactionTreeHash.bind fun l l' hl => ?_
    rw [hl.ledgerSequence]
    cases Serializer.ofString
        ((source.setPrevious l'.ledgerSequence (sha data.1)).serializer pb) with
    | error e => exact .error e
    | ok ss =>
      cases Serializer.ofString
          ((destination.setPrevious l'.ledgerSequence (sha data.1)).serializer pb) with
      | error e => exact .error e
      | ok ds =>
        refine (hl.updateAccountTreeEntry _).bind fun s₁ s₁' hs₁ => ?_
        refine (hs₁.updateAccountTreeEntry _).bind fun s₂ s₂' hs₂ => ?_
        exact hs₂.updateAccountTreeHash.bind fun _ _ hl => .ok ⟨hl, rfl⟩

/-- A transaction is answered alike, and posted with the same links. -/
theorem Alike.addTransactionEntry (h : Alike sha s s') (tx : Transaction) :
    Rel (fun r r' => Alike sha r.1 r'.1 ∧ r.2 = r'.2) (addTransactionEntry sha pb s tx)
      (addTransactionEntry sha pb s' tx) := by
  unfold Ledger.addTransactionEntry
  refine (h.getAccountEntry _).bind fun source source' hsource => ?_
  refine (hsource.1.getAccountEntry _).bind fun destination destination' hdestination => ?_
  rw [hsource.2, hdestination.2]
  cases source'.2 with
  | none => exact .error _
  | some sourceAccount =>
    dsimp only
    split
    · cases destination'.2 with
      | none => exact .error _
      | some destinationAccount =>
        refine (hdestination.1.postTransaction tx _ _).bind fun r r' hr => ?_
        rw [hr.2]
        exact .ok ⟨hr.1, rfl⟩
    · exact .ok ⟨hdestination.1, rfl⟩

theorem Alike.createAccount (h : Alike sha s s') (accPub : Bytes) :
    Rel (Alike sha) (createAccount sha pb s accPub) (createAccount sha pb s' accPub) := by
  unfold Ledger.createAccount
  cases stringAddressToUint256 sha accPub with
  | error e => exact .error e
  | ok hash => exact h.addAccountTreeEntry hash _

end Calls

section Unchanged

variable {b : Books} {accepted : List Transaction} {ta tt : MerkleTrie} {tx : Transaction}
  {r : State × Transaction × ℕ}

theorem getAccountEntry_header {hash : Uint256} {v : State × Option Account}
    (hv : getAccountEntry sha pb s hash = .ok v) : v.1.2.withoutTrees = s.2.withoutTrees := by
  obtain ⟨w, _, hv⟩ := bind_eq_ok.mp hv
  cases hv
  rfl

/-- A rejected transaction only reads its accounts. -/
theorem addTransactionEntry_rejected (hr : addTransactionEntry sha pb s tx = .ok r)
    (hcode : r.2.2 ≠ 0) : r.1.2.withoutTrees = s.2.withoutTrees := by
  obtain ⟨source, destination, hsource, hdestination, ⟨_, hr⟩ | ⟨haccepted, _⟩⟩ :=
    addTransactionEntry_cases hr
  · rw [hr]
    exact (getAccountEntry_header hdestination).trans (getAccountEntry_header hsource)
  · exact absurd haccepted hcode

/-- A transaction changes the ledger exactly when it is accepted, that is when the source's
balance covers it. -/
theorem Reflects.addTransactionEntry_alike_iff (h : Reflects sha pb s b accepted ta tt)
    (hr : addTransactionEntry sha pb s tx = .ok r) :
    (Alike sha s r.1 ↔ r.2.2 ≠ 0) ∧
      (r.2.2 ≠ 0 ↔ ∃ source, b.accounts tx.sourceAddress = some source ∧
        source.accountBalance < tx.paymentAmount) := by
  obtain ⟨source, hsource, ⟨hlt, hcode, hadv⟩ |
    ⟨hle, destination, _, hcode, ta', tt', hadv, _, ht⟩⟩ := h.addTransactionEntry_ok hr
  · have hrejected : r.2.2 ≠ 0 := by
      rw [hcode]
      exact Nat.one_ne_zero
    refine ⟨iff_of_true ⟨⟨ta, tt, h.trees, hadv.trees⟩, ?_⟩ hrejected,
      iff_of_true hrejected ⟨source, hsource, sub_neg.mp hlt⟩⟩
    exact (addTransactionEntry_rejected hr hrejected).symm
  · have haccepted : ¬ r.2.2 ≠ 0 := by
      rw [hcode]
      exact not_not_intro rfl
    refine ⟨iff_of_false (fun halike => ?_) haccepted, iff_of_false haccepted ?_⟩
    · -- The transaction is found under its index afterwards, and was not before.
      set linked := tx.setPrevious source destination
      obtain ⟨v, hv⟩ := exists_getTransactionEntry h.trees h.transactions (txHash sha pb linked)
      obtain ⟨v', hv', _, hsame⟩ := (halike.getTransactionEntry _).exists_ok hv
      have hbefore := (getTransactionEntry_ok h.trees h.transactions hv).2
      have hafter := (getTransactionEntry_ok hadv.trees ht hv').2
      rw [List.find?_cons_of_pos (by simp)] at hafter
      obtain ⟨hfresh, _⟩ := List.nodup_cons.mp ht.nodup
      have hfound := hbefore.symm.trans (hsame.trans hafter)
      exact hfresh (List.mem_map.mpr ⟨linked, List.mem_of_find?_eq_some hfound, rfl⟩)
    · rintro ⟨source', hsource', hlt⟩
      rw [Option.some.inj (hsource.symm.trans hsource')] at hle
      exact absurd (sub_nonneg.mp hle) (not_le.mpr hlt)

/-- A new account always changes the ledger. -/
theorem Reflects.createAccount_not_alike (h : Reflects sha pb s b accepted ta tt) {accPub : Bytes}
    (hs' : createAccount sha pb s accPub = .ok s') : ¬ Alike sha s s' := by
  intro halike
  obtain ⟨hfree, ta', hadv, ha⟩ := h.createAccount_ok hs'
  obtain ⟨v, hv⟩ := exists_getAccountEntry h.trees h.accounts (sha accPub)
  obtain ⟨v', hv', _, hsame⟩ := (halike.getAccountEntry (sha accPub)).exists_ok hv
  have hbefore := (getAccountEntry_ok h.trees h.accounts hv).2
  have hafter := (getAccountEntry_ok hadv.trees ha hv').2
  have haddress : sha accPub = (newAccount (sha accPub)).accountAddress := rfl
  rw [← hsame, hbefore, hfree, Books.accounts_write, if_pos haddress] at hafter
  cases hafter

end Unchanged

end Ledger

end Bubi
