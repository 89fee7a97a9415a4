import Bubi.Ledger.Conservation
import Bubi.Ledger.Usage

/-!
# Balances and histories

The balance of an account is kept beside its transactions, not computed from them. In every
ledger in use it is nevertheless what the history of the account makes of the amount that
the account was created with, and no older part of a history leaves a negative balance.
-/

namespace Bubi.Ledger

open Bubi.Core MerkleTrie

section Replay

/-- What a transaction does to the balance of an account: the destination is credited last, and
not at all if its balance would become negative. -/
def settle (k : Uint256) (tx : Transaction) (balance : ℚ) : ℚ :=
  if tx.destinationAddress = k then
    if balance + tx.paymentAmount < 0 then balance else balance + tx.paymentAmount
  else if tx.sourceAddress = k then balance - tx.paymentAmount
  else balance

/-- The balance of an account after transactions, the newest first. -/
def replay (k : Uint256) (history : List Transaction) : ℚ := history.foldr (settle k) 1000

/-- The sum of the amounts that an account received. -/
def received (k : Uint256) (history : List Transaction) : ℚ :=
  ((history.filter fun tx => tx.destinationAddress = k).map Transaction.paymentAmount).sum

/-- The sum of the amounts that an account sent to others. -/
def sent (k : Uint256) (history : List Transaction) : ℚ :=
  ((history.filter fun tx => tx.sourceAddress = k ∧ tx.destinationAddress ≠ k).map
    Transaction.paymentAmount).sum

variable {k : Uint256} {tx : Transaction} {history : List Transaction}

@[simp] theorem replay_nil (k : Uint256) : replay k [] = 1000 := rfl

@[simp] theorem replay_cons (k : Uint256) (tx : Transaction) (history : List Transaction) :
    replay k (tx :: history) = settle k tx (replay k history) := rfl

theorem settle_of_not_involved (h : involves k tx = false) (balance : ℚ) :
    settle k tx balance = balance := by
  have hnot : ¬ (tx.sourceAddress = k ∨ tx.destinationAddress = k) := fun hk => by
    rw [involves_iff.mpr hk] at h
    cases h
  rw [settle, if_neg fun hk => hnot (.inr hk), if_neg fun hk => hnot (.inl hk)]

/-- The transactions of other accounts do not matter. -/
theorem replay_filter (k : Uint256) (history : List Transaction) :
    replay k (history.filter (involves k)) = replay k history := by
  induction history with
  | nil => rfl
  | cons tx history ih =>
    cases h : involves k tx with
    | true => rw [List.filter_cons_of_pos h, replay_cons, replay_cons, ih]
    | false =>
      rw [List.filter_cons_of_neg (by simp [h]), replay_cons, settle_of_not_involved h, ih]

theorem replay_of_not_involved (h : ∀ tx ∈ history, involves k tx = false) :
    replay k history = 1000 := by
  rw [← replay_filter, List.filter_eq_nil_iff.mpr fun tx htx => by simp [h tx htx], replay_nil]

/-- Where no amount and no older balance is negative, every credit counts. -/
theorem replay_eq_sum (hamounts : ∀ tx ∈ history, 0 ≤ tx.paymentAmount)
    (hsolvent : ∀ older, older <:+ history → 0 ≤ replay k older) :
    replay k history = 1000 + received k history - sent k history := by
  induction history with
  | nil => simp [received, sent]
  | cons tx history ih =>
    have hrest := ih (fun tx' htx' => hamounts tx' (List.mem_cons_of_mem _ htx')) fun older ho =>
      hsolvent older (ho.trans (List.suffix_cons tx history))
    have hbalance := hsolvent history (List.suffix_cons tx history)
    have hamount := hamounts tx List.mem_cons_self
    rw [replay_cons, settle]
    by_cases hd : tx.destinationAddress = k
    · rw [if_pos hd, if_neg (by linarith), hrest]
      simp [received, sent, hd]
      ring
    · rw [if_neg hd]
      by_cases hs : tx.sourceAddress = k
      · rw [if_pos hs, hrest]
        simp [received, sent, hd, hs]
        ring
      · rw [if_neg hs, hrest]
        simp [received, sent, hd, hs]

end Replay

/-- The balances are what the transactions make of them, and never were negative. -/
structure Audited (p : Books × List Transaction) : Prop where
  balance : ∀ k acc, p.1.accounts k = some acc → p.1.balance k = replay k p.2
  solvent : ∀ k older, older <:+ p.2 → 0 ≤ replay k older

variable {sha : Bytes → Uint256} {pb : Protobuf} {b : Books} {accepted : List Transaction}

section Steps

theorem audited_empty : Audited (Books.empty, []) where
  balance := by
    intro k acc hacc
    cases hacc
  solvent := by
    intro k older holder
    rw [List.suffix_nil.mp holder]
    norm_num

/-- A new account has the amount that it was created with. -/
theorem Audited.write (h : Audited (b, accepted)) (hlinked : Linked sha pb (b, accepted))
    {hash : Uint256} (hfree : b.accounts hash = none) :
    Audited (b.write (newAccount hash), accepted) where
  balance := by
    intro k acc hacc
    dsimp only at hacc ⊢
    rw [Books.balance_write]
    by_cases hk : k = (newAccount hash).accountAddress
    · rw [if_pos hk, replay_of_not_involved]
      · rfl
      · intro tx htx
        by_contra hinvolved
        rw [Bool.not_eq_false] at hinvolved
        exact hlinked.involved tx htx k hinvolved (hk ▸ hfree)
    · rw [if_neg hk]
      rw [Books.accounts_write, if_neg hk] at hacc
      exact h.balance k acc hacc
  solvent := h.solvent

/-- An accepted transaction settles the balances of its two accounts. -/
theorem Audited.pay (h : Audited (b, accepted)) {tx : Transaction} {source destination : Account}
    (hs : b.accounts tx.sourceAddress = some source)
    (hd : b.accounts tx.destinationAddress = some destination)
    (hle : 0 ≤ source.accountBalance - tx.paymentAmount) (seq : BitVec 32) (hash : Uint256) :
    Audited (b.pay tx source destination seq hash,
      tx.setPrevious source destination :: accepted) := by
  have hsource : source.accountBalance = replay tx.sourceAddress accepted :=
    (Books.balance_eq hs).symm.trans (h.balance _ _ hs)
  have hdestination : destination.accountBalance = replay tx.destinationAddress accepted :=
    (Books.balance_eq hd).symm.trans (h.balance _ _ hd)
  have hsettle : ∀ k balance, settle k (tx.setPrevious source destination) balance =
      settle k tx balance := fun _ _ => rfl
  refine ⟨fun k acc hacc => ?_, fun k older holder => ?_⟩
  · dsimp only at hacc ⊢
    rw [Books.balance_pay hs hd hle, replay_cons, hsettle, settle]
    by_cases hkd : k = tx.destinationAddress
    · rw [if_pos hkd, if_pos hkd.symm, hdestination, hkd]
    · rw [if_neg hkd, if_neg (Ne.symm hkd)]
      by_cases hks : k = tx.sourceAddress
      · rw [if_pos hks, if_pos hks.symm, hsource, hks]
      · rw [if_neg hks, if_neg (Ne.symm hks)]
        rw [Books.accounts_pay hs hd, if_neg hkd, if_neg hks] at hacc
        exact h.balance k acc hacc
  · rcases List.suffix_cons_iff.mp holder with rfl | holder
    · have hbalance := h.solvent k accepted List.suffix_rfl
      rw [replay_cons, hsettle, settle]
      split
      · split
        · exact hbalance
        · linarith
      · split
        · next hks =>
          rw [← hks, ← hsource]
          exact hle
        · exact hbalance
    · exact h.solvent k older holder

/-- A call that returns keeps the balances right. -/
theorem Reflects.audited {s : State} {ta tt : MerkleTrie}
    (h : Reflects sha pb s b accepted ta tt) (hlinked : Linked sha pb (b, accepted))
    (haudited : Audited (b, accepted)) {o : Step} {r : State × List Transaction}
    (hr : Ledger.step sha pb (s, accepted) o = .ok r) (seq : BitVec 32) :
    Audited (postStep sha pb seq (b, accepted) o) := by
  cases o with
  | createAccount accPub =>
    obtain ⟨w, hw, _⟩ := bind_eq_ok.mp hr
    exact haudited.write hlinked (h.createAccount_ok hw).1
  | addTransactionEntry tx =>
    obtain ⟨w, hw, _⟩ := bind_eq_ok.mp hr
    obtain ⟨source, hs, ⟨hlt, _⟩ | ⟨hle, destination, hd, _⟩⟩ := h.addTransactionEntry_ok hw
    · rwa [postStep, post_rejected hs hlt]
    · rw [postStep, post_accepted hs hd hle]
      exact haudited.pay hs hd hle seq _

end Steps

variable {r : State × List Transaction} {ta tt : MerkleTrie}

/-- Every ledger in use has books whose balances are right. -/
theorem runUsages_audited {db : Database} {us : List Usage} (hr : runUsages sha pb db us = .ok r)
    (hintact : Intact sha pb db us) :
    ∃ b ta tt, InUse sha pb r b ta tt ∧ Audited (b, r.2) := by
  obtain ⟨l, hl, hr⟩ := bind_eq_ok.mp hr
  obtain ⟨ta, tt, hnew⟩ := @inUse_new sha pb db l hl
  refine @run_invariant_steps _ _ _ _
    (fun r => ∃ b ta tt, InUse sha pb r b ta tt ∧ Audited (b, r.2)) us _ ?_ r
    ⟨_, ta, tt, hnew, audited_empty⟩ hr
  rintro pre u post m m' hus hpre ⟨b, ta, tt, h, haudited⟩ hm
  cases u with
  | step o =>
    obtain ⟨ta', tt', h'⟩ := h.step hm
    refine ⟨_, ta', tt', h', ?_⟩
    have haccepted := (h.reflects.step hm).1
    rw [h.sequence] at haccepted
    rw [haccepted]
    exact h.reflects.audited h.linked haudited hm 1
  | getAccountEntry hash =>
    obtain ⟨v, hv, hm⟩ := bind_eq_ok.mp hm
    cases hm
    obtain ⟨hadv, _⟩ := getAccountEntry_ok h.reflects.trees h.reflects.accounts hv
    exact ⟨b, ta, tt, h.advance hadv (h.current.getAccountEntry hv), haudited⟩
  | getTransactionEntry hash =>
    obtain ⟨v, hv, hm⟩ := bind_eq_ok.mp hm
    cases hm
    obtain ⟨hadv, _⟩ := getTransactionEntry_ok h.reflects.trees h.reflects.transactions hv
    exact ⟨b, ta, tt, h.advance hadv (h.current.getTransactionEntry hv), haudited⟩
  | restart =>
    have hdistinct := hintact pre post m hus (bind_eq_ok.mpr ⟨l, hl, hpre⟩)
    have h' := h.restart hdistinct hm
    obtain ⟨saved, _, hm⟩ := bind_eq_ok.mp hm
    obtain ⟨s, _, hm⟩ := bind_eq_ok.mp hm
    cases hm
    exact ⟨b, ta, tt, h', haudited⟩

theorem run_audited {db : Database} {steps : List Step} (hr : run sha pb db steps = .ok r) :
    ∃ b ta tt, InUse sha pb r b ta tt ∧ Audited (b, r.2) := by
  rw [← runUsages_map_step] at hr
  refine runUsages_audited hr fun pre post m hsplit => ?_
  have hmem : Usage.restart ∈ steps.map Usage.step := by
    rw [hsplit]
    exact List.mem_append_right _ List.mem_cons_self
  obtain ⟨_, _, heq⟩ := List.mem_map.mp hmem
  cases heq

section Transfers

/-- What a transaction is about: not the links that the ledger sets. -/
def terms (tx : Transaction) : Uint256 × Uint256 × ℚ :=
  (tx.sourceAddress, tx.destinationAddress, tx.paymentAmount)

theorem settle_congr {k : Uint256} {tx tx' : Transaction} (h : terms tx = terms tx') :
    settle k tx = settle k tx' := by
  obtain ⟨hs, hd, ha⟩ : tx.sourceAddress = tx'.sourceAddress ∧
      tx.destinationAddress = tx'.destinationAddress ∧ tx.paymentAmount = tx'.paymentAmount := by
    simpa [terms] using h
  funext balance
  rw [settle, settle, hs, hd, ha]

/-- The links do not matter for the balances. -/
theorem replay_congr {k : Uint256} {history history' : List Transaction}
    (h : history.map terms = history'.map terms) : replay k history = replay k history' := by
  induction history generalizing history' with
  | nil => rw [List.map_eq_nil_iff.mp h.symm]
  | cons tx history ih =>
    obtain ⟨tx', rest, rfl, htx, hrest⟩ := List.map_eq_cons_iff.mp h.symm
    rw [replay_cons, replay_cons, settle_congr htx.symm, ih hrest.symm]

/-- The caller's transaction gets its links. -/
theorem terms_addTransactionEntry {s : State} {tx : Transaction} {v : State × Transaction × ℕ}
    (hv : addTransactionEntry sha pb s tx = .ok v) : terms v.2.1 = terms tx := by
  obtain ⟨source, _, hv⟩ := bind_eq_ok.mp hv
  obtain ⟨destination, _, hv⟩ := bind_eq_ok.mp hv
  split at hv
  · cases hv
  · dsimp only at hv
    split at hv
    · split at hv
      · cases hv
      · obtain ⟨p, hp, hv⟩ := bind_eq_ok.mp hv
        cases hv
        obtain ⟨_, _, hp⟩ := bind_eq_ok.mp hp
        obtain ⟨_, _, hp⟩ := bind_eq_ok.mp hp
        obtain ⟨_, _, hp⟩ := bind_eq_ok.mp hp
        obtain ⟨_, _, hp⟩ := bind_eq_ok.mp hp
        obtain ⟨_, _, hp⟩ := bind_eq_ok.mp hp
        obtain ⟨_, _, hp⟩ := bind_eq_ok.mp hp
        obtain ⟨_, _, hp⟩ := bind_eq_ok.mp hp
        obtain ⟨_, _, hp⟩ := bind_eq_ok.mp hp
        cases hp
        rfl
    · cases hv
      rfl

/-- The accepted transactions of a run are some of its transfers, the newest first. -/
theorem exists_transfers {ν : Type} {s s' : State} {log : List (ν × Step)}
    {accepted : List Transaction}
    (hr : (log.map Prod.snd).foldlM (Ledger.step sha pb) (s, []) = .ok (s', accepted)) :
    ∃ transfers : List (ν × Transaction),
      (transfers.map fun x => (x.1, Step.addTransactionEntry x.2)).Sublist log.reverse ∧
      transfers.map (fun x => terms x.2) = accepted.map terms := by
  induction log using List.reverseRecOn generalizing s' accepted with
  | nil =>
    cases hr
    exact ⟨[], .slnil, rfl⟩
  | append_singleton log x ih =>
    rw [List.map_append] at hr
    obtain ⟨⟨s₁, accepted₁⟩, hr₁, hr⟩ := foldlM_append_ok.mp hr
    obtain ⟨transfers, hsub, hterms⟩ := ih hr₁
    obtain ⟨m, hm, hr⟩ := foldlM_cons_ok.mp hr
    cases hr
    have hsub' : (transfers.map fun x => (x.1, Step.addTransactionEntry x.2)).Sublist
        (log ++ [x]).reverse := by
      rw [List.reverse_append]
      exact hsub.cons x
    obtain ⟨number, o⟩ := x
    cases o with
    | createAccount accPub =>
      obtain ⟨_, _, hm⟩ := bind_eq_ok.mp hm
      cases hm
      exact ⟨transfers, hsub', hterms⟩
    | addTransactionEntry tx =>
      obtain ⟨v, hv, hm⟩ := bind_eq_ok.mp hm
      cases hm
      by_cases hzero : v.2.2 = 0
      · refine ⟨(number, tx) :: transfers, ?_, ?_⟩
        · rw [List.reverse_append]
          exact hsub.cons_cons _
        · rw [if_pos hzero, List.map_cons, List.map_cons, hterms, terms_addTransactionEntry hv]
      · rw [if_neg hzero]
        exact ⟨transfers, hsub', hterms⟩

end Transfers

section Answers

variable {accPub : Bytes} {acc : Account}

/-- The history of an existing account. -/
theorem InUse.getTransactionHistory_eq (h : InUse sha pb r b ta tt)
    (hlength : accPub.length < 2 ^ 31) (hacc : b.accounts (sha accPub) = some acc) {fuel : ℕ}
    (hfuel : r.2.length < fuel) :
    ∃ s, getTransactionHistory sha pb fuel r.1 accPub =
      .ok (some (s, r.2.filter (involves (sha accPub)))) := by
  have hreflects := h.reflects
  obtain ⟨w, hw⟩ := exists_getAccountEntry hreflects.trees hreflects.accounts (sha accPub)
  obtain ⟨hadv, hentry⟩ := getAccountEntry_ok hreflects.trees hreflects.accounts hw
  have hafter : Reflects sha pb w.1 b r.2 ta tt :=
    ⟨hadv.trees, hreflects.accounts, hreflects.transactions⟩
  obtain ⟨s, hloop⟩ := hafter.historyLoop_eq (List.Subset.refl _) h.linked.chained
    ((List.length_filter_le (involves (sha accPub)) r.2).trans_lt hfuel) []
  rw [← h.linked.account _ _ hacc] at hloop
  refine ⟨s, ?_⟩
  rw [getTransactionHistory, stringAddressToUint256_eq hlength, ok_bind, hw, ok_bind, hentry, hacc]
  exact hloop

/-- The balance of an existing account. -/
theorem InUse.getBalance_eq (h : InUse sha pb r b ta tt) (hlength : accPub.length < 2 ^ 31)
    (hacc : b.accounts (sha accPub) = some acc) :
    ∃ s, getBalance sha pb r.1 accPub = .ok (s, b.balance (sha accPub)) := by
  obtain ⟨w, hw⟩ := exists_getAccountEntry h.reflects.trees h.reflects.accounts (sha accPub)
  obtain ⟨_, hentry⟩ := getAccountEntry_ok h.reflects.trees h.reflects.accounts hw
  refine ⟨w.1, ?_⟩
  rw [getBalance, stringAddressToUint256_eq hlength, ok_bind, hw, ok_bind, hentry, hacc,
    Books.balance_eq hacc]

end Answers

/-- On every ledger in use, saved and loaded any number of times, the balance of an account is what
its history makes of the 1000 that it was created with. Where the history has no negative amount,
it is 1000 and what was received, without what was sent to others. -/
theorem balance_replays_history (sha : Bytes → Uint256) (pb : Protobuf) (db : Database)
    (us : List Usage) (r : State × List Transaction) (hr : runUsages sha pb db us = .ok r)
    (hintact : Intact sha pb db us) (accPub : Bytes) (hlength : accPub.length < 2 ^ 31)
    (hexists : entry sha pb r.1 (sha accPub) ≠ none) (fuel : ℕ) (hfuel : r.2.length < fuel) :
    ∃ s s' history, getTransactionHistory sha pb fuel r.1 accPub = .ok (some (s, history)) ∧
      getBalance sha pb r.1 accPub = .ok (s', replay (sha accPub) history) ∧
      ((∀ tx ∈ history, 0 ≤ tx.paymentAmount) →
        replay (sha accPub) history =
          1000 + received (sha accPub) history - sent (sha accPub) history) := by
  obtain ⟨b, ta, tt, huse, haudited⟩ := runUsages_audited hr hintact
  rw [huse.reflects.entry_eq] at hexists
  obtain ⟨acc, hacc⟩ := Option.ne_none_iff_exists'.mp hexists
  obtain ⟨s, hhistory⟩ := huse.getTransactionHistory_eq hlength hacc hfuel
  obtain ⟨s', hbalance⟩ := huse.getBalance_eq hlength hacc
  refine ⟨s, s', _, hhistory, ?_, fun hamounts => replay_eq_sum hamounts fun older holder => ?_⟩
  · have heq : b.balance (sha accPub) = replay (sha accPub) r.2 := haudited.balance _ _ hacc
    rw [hbalance, heq, replay_filter]
  · obtain ⟨newer, hsplit⟩ := holder
    obtain ⟨_, older', hr', _, rfl⟩ := List.filter_eq_append_iff.mp hsplit.symm
    rw [replay_filter]
    exact haudited.solvent _ older' ⟨_, hr'.symm⟩

theorem balance_replays_savedLedger :
    ∃ r s s' history, runUsages checksum plainProtobuf (fun _ => none) savedLedger = .ok r ∧
      getTransactionHistory checksum plainProtobuf (r.2.length + 1) r.1 (sampleName 1) =
        .ok (some (s, history)) ∧
      getBalance checksum plainProtobuf r.1 (sampleName 1) =
        .ok (s', replay (checksum (sampleName 1)) history) := by
  have hok : (do
      let r ← runUsages checksum plainProtobuf (fun _ => none) savedLedger
      .ok (entry checksum plainProtobuf r.1 (checksum (sampleName 1))).isSome) = .ok true :=
    eq_ok_of_toOption (by decide +kernel)
  obtain ⟨r, hr, hsome⟩ := bind_eq_ok.mp hok
  have hexists := Option.isSome_iff_ne_none.mp (Except.ok.inj hsome)
  obtain ⟨s, s', history, hhistory, hbalance, _⟩ := balance_replays_history checksum plainProtobuf
    (fun _ => none) savedLedger r hr intact_savedLedger (sampleName 1) (by decide) hexists
    (r.2.length + 1) (Nat.lt_succ_self _)
  exact ⟨r, s, s', history, hr, hhistory, hbalance⟩

end Bubi.Ledger
