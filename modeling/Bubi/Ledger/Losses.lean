import Bubi.Ledger.Conservation

/-!
# Who can lose money

The balances before and after an `add_transaction_entry`. Its only check is that of the
source's new balance, so a negative amount takes money from the destination, and a
transaction between two copies of one account raises the source's own balance.
-/

namespace Bubi.Ledger

open Bubi.Core MerkleTrie

section Definitions

variable (sha : Bytes → Uint256) (pb : Protobuf)

/-- The balance of the account that `get_account_entry` returns; no account has none. -/
def balanceOf (s : State) (hash : Uint256) : ℚ :=
  ((entry sha pb s hash).map Account.accountBalance).getD 0

/-- No account but the source has lost money, and the source has not gained any. -/
def OnlySourceLoses (s s' : State) (tx : Transaction) : Prop :=
  (∀ k ≠ tx.sourceAddress, balanceOf sha pb s k ≤ balanceOf sha pb s' k) ∧
    balanceOf sha pb s' tx.sourceAddress ≤ balanceOf sha pb s tx.sourceAddress

/-- A transaction that the source cannot pay, or that pays another account no negative amount,
or that pays its own source no positive one. -/
def Fair (s : State) (tx : Transaction) : Prop :=
  balanceOf sha pb s tx.sourceAddress < tx.paymentAmount ∨
    (tx.sourceAddress ≠ tx.destinationAddress ∧ 0 ≤ tx.paymentAmount) ∨
    (tx.sourceAddress = tx.destinationAddress ∧ tx.paymentAmount ≤ 0)

/-- The same of a call. -/
def FairStep (s : State) : Step → Prop
  | .createAccount _ => True
  | .addTransactionEntry tx => Fair sha pb s tx

end Definitions

variable {sha : Bytes → Uint256} {pb : Protobuf} {s : State} {b : Books}
  {accepted : List Transaction} {ta tt : MerkleTrie}

theorem Reflects.balanceOf_eq (h : Reflects sha pb s b accepted ta tt) (k : Uint256) :
    balanceOf sha pb s k = b.balance k := by
  rw [balanceOf, h.entry_eq, Books.balance]

/-- On the books an accepted transaction takes money from its source alone exactly when its
amount has the right sign. -/
theorem pay_onlySourceLoses_iff {tx : Transaction} {source destination : Account} {seq : BitVec 32}
    {hash : Uint256} (hs : b.accounts tx.sourceAddress = some source)
    (hd : b.accounts tx.destinationAddress = some destination)
    (hle : 0 ≤ source.accountBalance - tx.paymentAmount) :
    ((∀ k ≠ tx.sourceAddress, b.balance k ≤ (b.pay tx source destination seq hash).balance k) ∧
      (b.pay tx source destination seq hash).balance tx.sourceAddress ≤
        b.balance tx.sourceAddress) ↔
    (tx.sourceAddress ≠ tx.destinationAddress ∧ 0 ≤ tx.paymentAmount) ∨
      (tx.sourceAddress = tx.destinationAddress ∧ tx.paymentAmount ≤ 0) := by
  simp only [Books.balance_pay hs hd hle, Books.balance_eq hs]
  by_cases heq : tx.sourceAddress = tx.destinationAddress
  · -- One account: no other is written.
    obtain rfl : source = destination := by
      rw [heq, hd] at hs
      exact (Option.some.inj hs).symm
    simp only [← heq, ne_eq, not_true_eq_false, false_and, true_and, false_or, if_true]
    constructor
    · rintro ⟨_, hsource⟩
      split at hsource <;> linarith
    · intro hamount
      refine ⟨fun k hk => ?_, ?_⟩
      · rw [if_neg hk, if_neg hk]
      · split <;> linarith
  · simp only [heq, ne_eq, not_false_eq_true, true_and, false_and, or_false, if_false, if_true]
    constructor
    · rintro ⟨_, hsource⟩
      linarith
    · intro hamount
      refine ⟨fun k hk => ?_, by linarith⟩
      rw [if_neg hk]
      split
      · next hkd =>
        rw [hkd, Books.balance_eq hd]
        split
        · exact le_rfl
        · linarith
      · exact le_rfl

/-- A returned `add_transaction_entry` takes money from its source alone exactly when it is
fair. -/
theorem Reflects.onlySourceLoses_iff (h : Reflects sha pb s b accepted ta tt) {tx : Transaction}
    {r : State × Transaction × ℕ} (hr : addTransactionEntry sha pb s tx = .ok r) :
    OnlySourceLoses sha pb s r.1 tx ↔ Fair sha pb s tx := by
  obtain ⟨source, hs, ⟨hlt, _, hadv⟩ | ⟨hle, destination, hd, _, ta', tt', hadv, ha, ht⟩⟩ :=
    h.addTransactionEntry_ok hr
  · have hafter : Reflects sha pb r.1 b accepted ta tt := ⟨hadv.trees, h.accounts, h.transactions⟩
    refine iff_of_true ?_ (Or.inl ?_)
    · simp [OnlySourceLoses, hafter.balanceOf_eq, h.balanceOf_eq]
    · rw [h.balanceOf_eq, Books.balance_eq hs]
      linarith
  · have hafter := Reflects.mk hadv.trees ha ht
    simp only [OnlySourceLoses, Fair, hafter.balanceOf_eq, h.balanceOf_eq]
    rw [pay_onlySourceLoses_iff hs hd hle, Books.balance_eq hs]
    have hpaid : ¬ source.accountBalance < tx.paymentAmount := by linarith
    simp only [hpaid, false_or]

/-- A fair call takes nothing from an account that it does not name as a source. -/
theorem Reflects.balanceOf_le_step (h : Reflects sha pb s b accepted ta tt) {o : Step}
    {r : State × List Transaction} (hr : Ledger.step sha pb (s, accepted) o = .ok r)
    (hfair : FairStep sha pb s o) {k : Uint256}
    (hk : ∀ tx, o = .addTransactionEntry tx → tx.sourceAddress ≠ k) :
    balanceOf sha pb s k ≤ balanceOf sha pb r.1 k := by
  cases o with
  | createAccount accPub =>
    obtain ⟨s', hs', hr⟩ := bind_eq_ok.mp hr
    cases hr
    obtain ⟨hfree, ta', hadv, ha⟩ := h.createAccount_ok hs'
    have hafter := Reflects.mk hadv.trees ha h.transactions
    rw [h.balanceOf_eq, hafter.balanceOf_eq, Books.balance_write]
    split
    · next hself =>
      have hzero : b.balance k = 0 := by
        rw [hself]
        simp [Books.balance, newAccount, hfree]
      rw [hzero]
      simp [newAccount]
    · exact le_rfl
  | addTransactionEntry tx =>
    obtain ⟨r', hr', hr⟩ := bind_eq_ok.mp hr
    cases hr
    exact ((h.onlySourceLoses_iff hr').mpr hfair).1 k (Ne.symm (hk tx rfl))

/-- A run of fair calls takes nothing from an account that it does not name as a source. -/
theorem InStep.balanceOf_le_run {r r' : State × List Transaction} {p : Books × List Transaction}
    (h : InStep sha pb r p) {more : List Step} (hrun : more.foldlM (Ledger.step sha pb) r = .ok r')
    (hfair : ∀ pre o, pre ++ [o] <+: more → ∀ m, pre.foldlM (Ledger.step sha pb) r = .ok m →
      FairStep sha pb m.1 o) {k : Uint256}
    (hk : ∀ tx, Step.addTransactionEntry tx ∈ more → tx.sourceAddress ≠ k) :
    balanceOf sha pb r.1 k ≤ balanceOf sha pb r'.1 k := by
  induction more generalizing r p with
  | nil =>
    obtain rfl := foldlM_nil_ok.mp hrun
    exact le_rfl
  | cons o more ih =>
    obtain ⟨m, hm, hrest⟩ := foldlM_cons_ok.mp hrun
    have hfirst : balanceOf sha pb r.1 k ≤ balanceOf sha pb m.1 k := by
      have hnow := hfair [] o (List.prefix_append [o] more) r (foldlM_nil_ok.mpr rfl)
      obtain ⟨s, accepted⟩ := r
      obtain ⟨ta, tt, hreflects, _⟩ := h.reflects
      rw [← h.accepted] at hreflects
      exact hreflects.balanceOf_le_step hm hnow fun tx ho => hk tx (ho ▸ List.mem_cons_self)
    refine hfirst.trans (ih (h.step hm) hrest ?_ fun tx htx => hk tx (List.mem_cons_of_mem o htx))
    intro pre o' hpre m' hm'
    refine hfair (o :: pre) o' ?_ m' (foldlM_cons_ok.mpr ⟨m, hm, hm'⟩)
    exact List.prefix_cons_inj o |>.mpr hpre

/-- Only source accounts lose money, and no source gains any, by a transaction on a reachable
ledger exactly when the transaction is fair: the source cannot pay it, or it pays another
account an amount that is not negative, or it pays its own source one that is not
positive. Over a run of fair calls an account loses money only by transactions that name it
as their source. -/
theorem only_source_loses_iff (sha : Bytes → Uint256) (pb : Protobuf) (db : Database)
    (steps : List Step) (r : State × List Transaction) (hr : run sha pb db steps = .ok r) :
    (∀ tx r', addTransactionEntry sha pb r.1 tx = .ok r' →
      (OnlySourceLoses sha pb r.1 r'.1 tx ↔ Fair sha pb r.1 tx)) ∧
    ∀ more r', more.foldlM (step sha pb) r = .ok r' →
      (∀ pre o, pre ++ [o] <+: more → ∀ m, pre.foldlM (step sha pb) r = .ok m →
        FairStep sha pb m.1 o) →
      ∀ k, (∀ tx, Step.addTransactionEntry tx ∈ more → tx.sourceAddress ≠ k) →
        balanceOf sha pb r.1 k ≤ balanceOf sha pb r'.1 k := by
  have hstep := run_inStep hr
  obtain ⟨ta, tt, hreflects, _⟩ := hstep.reflects
  constructor
  · intro tx r' hr'
    exact hreflects.onlySourceLoses_iff hr'
  · intro more r' hrun hfair k hk
    exact hstep.balanceOf_le_run hrun hfair hk

theorem only_source_loses_transferRun :
    ∃ r, run checksum plainProtobuf (fun _ => none) transferRun = .ok r ∧
      ∀ tx r', addTransactionEntry checksum plainProtobuf r.1 tx = .ok r' →
        (OnlySourceLoses checksum plainProtobuf r.1 r'.1 tx ↔
          Fair checksum plainProtobuf r.1 tx) := by
  obtain ⟨r, hr⟩ := exists_transferRun
  exact ⟨r, hr, (only_source_loses_iff _ _ _ _ r hr).1⟩

/-- A payment of -500 is accepted: its source gains 500 and its destination loses 500. -/
theorem negativePayment_takes_money :
    (do
      let before ← run checksum plainProtobuf (fun _ => none)
        [.createAccount (sampleName 1), .createAccount (sampleName 2)]
      let after ← addTransactionEntry checksum plainProtobuf before.1 (samplePayment 1 2 (-500))
      .ok ([balanceOf checksum plainProtobuf before.1 (checksum (sampleName 1)),
          balanceOf checksum plainProtobuf before.1 (checksum (sampleName 2))],
        after.2.2,
        [balanceOf checksum plainProtobuf after.1 (checksum (sampleName 1)),
          balanceOf checksum plainProtobuf after.1 (checksum (sampleName 2))])).toOption =
      some ([1000, 1000], 0, [1500, 500]) := by
  decide +kernel

end Bubi.Ledger
