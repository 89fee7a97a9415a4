import Bubi.Ledger.Posting

/-!
# Transaction histories

Every account links to the newest accepted transaction that involves it, and every
accepted transaction links, on each of its two sides, to the next older one. The links
are read off the list of accepted transactions, so following them from an account
visits exactly its transactions and ends.
-/

namespace Bubi.Ledger

open Bubi.Core MerkleTrie

/-- Whether an account is the source or the destination of a transaction. -/
def involves (k : Uint256) (tx : Transaction) : Bool :=
  tx.sourceAddress = k ∨ tx.destinationAddress = k

section Links

variable (sha : Bytes → Uint256) (pb : Protobuf)

/-- The sequence number and the hash that an account links to. -/
def link (k : Uint256) : List Transaction → BitVec 32 × Uint256
  | [] => (0, Uint256.zero)
  | tx :: accepted => if involves k tx then (1, txHash sha pb tx) else link k accepted

/-- Both sides of every transaction link to the next older transaction of their account. -/
def Chained : List Transaction → Prop
  | [] => True
  | tx :: accepted =>
    (tx.sourcePreviousLedgerSeq, tx.sourcePreviousTxHash) =
        link sha pb tx.sourceAddress accepted ∧
      (tx.destinationPreviousLedgerSeq, tx.destinationPreviousTxHash) =
        link sha pb tx.destinationAddress accepted ∧
      Chained accepted

/-- The books and the accepted transactions are linked. -/
structure Linked (p : Books × List Transaction) : Prop where
  /-- Every account links to its newest transaction. -/
  account : ∀ k acc, p.1.accounts k = some acc →
    (acc.previousLedgerSeq, acc.previousTxHash) = link sha pb k p.2
  /-- Only existing accounts have transactions. -/
  involved : ∀ tx ∈ p.2, ∀ k, involves k tx = true → p.1.accounts k ≠ none
  chained : Chained sha pb p.2

end Links

variable {sha : Bytes → Uint256} {pb : Protobuf}

theorem involves_iff {k : Uint256} {tx : Transaction} :
    involves k tx = true ↔ tx.sourceAddress = k ∨ tx.destinationAddress = k :=
  decide_eq_true_iff

@[simp] theorem involves_setPrevious (k : Uint256) (tx : Transaction)
    (source destination : Account) :
    involves k (tx.setPrevious source destination) = involves k tx :=
  rfl

/-- An account without transactions links to none. -/
theorem link_of_not_involved {k : Uint256} {accepted : List Transaction}
    (h : ∀ tx ∈ accepted, involves k tx = false) : link sha pb k accepted = (0, Uint256.zero) := by
  induction accepted with
  | nil => rfl
  | cons tx accepted ih =>
    rw [link, h tx List.mem_cons_self]
    exact ih fun tx' htx' => h tx' (List.mem_cons_of_mem tx htx')

section Step

variable {b : Books} {accepted : List Transaction}

/-- A new account has no transactions yet. -/
theorem Linked.write (h : Linked sha pb (b, accepted)) {hash : Uint256}
    (hfree : b.accounts hash = none) : Linked sha pb (b.write (newAccount hash), accepted) where
  account := by
    intro k acc hacc
    rw [Books.accounts_write] at hacc
    split at hacc
    · next hk =>
      obtain rfl : k = hash := hk
      rw [← Option.some.inj hacc]
      refine (link_of_not_involved fun tx htx => ?_).symm
      apply Bool.eq_false_iff.mpr
      intro hinv
      exact h.involved tx htx k hinv hfree
    · exact h.account k acc hacc
  involved := by
    intro tx htx k hinv
    rw [Books.accounts_write]
    split
    · simp
    · exact h.involved tx htx k hinv
  chained := h.chained

/-- An accepted transaction becomes the newest one of its two accounts. -/
theorem Linked.pay (h : Linked sha pb (b, accepted)) {tx : Transaction}
    {source destination : Account} (hs : b.accounts tx.sourceAddress = some source)
    (hd : b.accounts tx.destinationAddress = some destination) :
    Linked sha pb
      (b.pay tx source destination 1 (txHash sha pb (tx.setPrevious source destination)),
        tx.setPrevious source destination :: accepted) := by
  refine ⟨?_, ?_, h.account _ _ hs, h.account _ _ hd, h.chained⟩
  · intro k acc hacc
    rw [Books.accounts_pay hs hd] at hacc
    rw [link, involves_setPrevious]
    split at hacc
    · next hk =>
      rw [if_pos (involves_iff.mpr (Or.inr hk.symm)), ← Option.some.inj hacc]
      rfl
    · next hkd =>
      split at hacc
      · next hk =>
        rw [if_pos (involves_iff.mpr (Or.inl hk.symm)), ← Option.some.inj hacc]
        rfl
      · next hks =>
        have hnot : ¬ involves k tx = true := by
          rw [involves_iff, not_or]
          exact ⟨Ne.symm hks, Ne.symm hkd⟩
        rw [if_neg hnot]
        exact h.account k acc hacc
  · intro tx' htx' k hinv
    rw [Books.accounts_pay hs hd]
    split
    · simp
    · next hkd =>
      split
      · simp
      · next hks =>
        rcases List.mem_cons.mp htx' with rfl | htx'
        · rcases involves_iff.mp hinv with hk | hk
          · exact absurd hk.symm hks
          · exact absurd hk.symm hkd
        · exact h.involved tx' htx' k hinv

end Step

/-- A call that returns keeps the links. -/
theorem Reflects.linked {s : State} {b : Books} {accepted : List Transaction}
    {ta tt : MerkleTrie} (h : Reflects sha pb s b accepted ta tt)
    (hl : Linked sha pb (b, accepted)) {o : Step} {r : State × List Transaction}
    (hr : Ledger.step sha pb (s, accepted) o = .ok r) :
    Linked sha pb (postStep sha pb 1 (b, accepted) o) := by
  cases o with
  | createAccount accPub =>
    obtain ⟨s', hs', _⟩ := bind_eq_ok.mp hr
    exact hl.write (h.createAccount_ok hs').1
  | addTransactionEntry tx =>
    obtain ⟨r', hr', _⟩ := bind_eq_ok.mp hr
    obtain ⟨source, hs, ⟨hlt, _⟩ | ⟨hle, destination, hd, _⟩⟩ := h.addTransactionEntry_ok hr'
    · rw [postStep, post_rejected hs hlt]
      exact hl
    · rw [postStep, post_accepted hs hd hle]
      exact hl.pay hs hd

/-- An empty ledger has nothing to link. -/
theorem linked_empty : Linked sha pb (Books.empty, []) := by
  refine ⟨?_, ?_, trivial⟩
  · intro k acc hacc
    cases hacc
  · intro tx htx
    cases htx

theorem InStep.linked {r r' : State × List Transaction} {p : Books × List Transaction}
    (h : InStep sha pb r p) (hl : Linked sha pb p) {o : Step}
    (hr : Ledger.step sha pb r o = .ok r') : Linked sha pb (postStep sha pb 1 p o) := by
  obtain ⟨s, accepted⟩ := r
  obtain ⟨b, accepted'⟩ := p
  obtain ⟨rfl, ⟨ta, tt, hreflects, _⟩, _⟩ := h
  exact hreflects.linked hl hr

/-- A run on an empty ledger links all its transactions. -/
theorem run_linked {db : Database} {steps : List Step} {r : State × List Transaction}
    (hr : run sha pb db steps = .ok r) : Linked sha pb (posted sha pb steps) := by
  obtain ⟨l, hl, hr⟩ := bind_eq_ok.mp hr
  have hboth : InStep sha pb r (posted sha pb steps) ∧ Linked sha pb (posted sha pb steps) :=
    @run_simulation _ _ _ _ (step sha pb) (postStep sha pb 1)
      (fun r p => InStep sha pb r p ∧ Linked sha pb p)
      (fun s o s' t hs hstep => ⟨hs.1.step hstep, hs.1.linked hs.2 hstep⟩) steps _ r _
      ⟨inStep_new db hl, linked_empty⟩ hr
  exact hboth.2

section Loop

variable {s : State} {b : Books} {accepted : List Transaction} {ta tt : MerkleTrie}

/-- An accepted transaction is found under its hash. -/
theorem find?_txHash {tx : Transaction} (hnodup : (accepted.map (txHash sha pb)).Nodup)
    (hmem : tx ∈ accepted) :
    (accepted.find? fun tx' => txHash sha pb tx' = txHash sha pb tx) = some tx := by
  have hsome : (accepted.find? fun tx' => txHash sha pb tx' = txHash sha pb tx).isSome = true :=
    List.find?_isSome.mpr ⟨tx, hmem, by simp⟩
  obtain ⟨tx', htx'⟩ := Option.isSome_iff_exists.mp hsome
  have hhash : txHash sha pb tx' = txHash sha pb tx := by simpa using List.find?_some htx'
  rw [htx', List.inj_on_of_nodup_map hnodup (List.mem_of_find?_eq_some htx') hmem hhash]

/-- A lookup of an accepted transaction returns it. -/
theorem Reflects.exists_transaction (h : Reflects sha pb s b accepted ta tt) {tx : Transaction}
    (hmem : tx ∈ accepted) :
    ∃ s', getTransactionEntry sha pb s (txHash sha pb tx) = .ok (s', some tx) ∧
      Reflects sha pb s' b accepted ta tt := by
  obtain ⟨r, hr⟩ := exists_getTransactionEntry h.trees h.transactions (txHash sha pb tx)
  obtain ⟨hadv, hfound⟩ := getTransactionEntry_ok h.trees h.transactions hr
  rw [find?_txHash h.transactions.nodup hmem] at hfound
  refine ⟨r.1, ?_, hadv.trees, h.accounts, h.transactions⟩
  rw [hr, ← hfound]

/-- One round of the loop on an accepted transaction follows the link of the account's side. -/
theorem historyLoop_succ {k : Uint256} {fuel : ℕ} {tx : Transaction} {s' : State}
    (hentry : getTransactionEntry sha pb s (txHash sha pb tx) = .ok (s', some tx))
    {older : List Transaction} (hc : Chained sha pb (tx :: older)) (hk : involves k tx = true)
    (res : List Transaction) :
    historyLoop sha pb k (fuel + 1) s 1 (txHash sha pb tx) res =
      historyLoop sha pb k fuel s' (link sha pb k older).1 (link sha pb k older).2
        (res ++ [tx]) := by
  obtain ⟨hsource, hdestination, _⟩ := hc
  rw [historyLoop, if_neg (by decide), hentry, ok_bind]
  by_cases hks : k = tx.sourceAddress
  · simp only [if_pos hks]
    rw [hks, ← hsource]
  · have hkd : tx.destinationAddress = k := (involves_iff.mp hk).resolve_left (Ne.symm hks)
    simp only [if_neg hks]
    rw [← hkd, ← hdestination]

/-- The loop from the link of an account over the older transactions of a ledger collects
those that involve it. -/
theorem Reflects.historyLoop_eq (h : Reflects sha pb s b accepted ta tt) {k : Uint256}
    {older : List Transaction} (hsub : older ⊆ accepted) (hc : Chained sha pb older) {fuel : ℕ}
    (hfuel : (older.filter (involves k)).length < fuel) (res : List Transaction) :
    ∃ s', historyLoop sha pb k fuel s (link sha pb k older).1 (link sha pb k older).2 res =
      .ok (some (s', res ++ older.filter (involves k))) := by
  induction older generalizing s fuel res with
  | nil =>
    obtain ⟨fuel, rfl⟩ := Nat.exists_eq_succ_of_ne_zero (Nat.ne_zero_of_lt hfuel)
    refine ⟨s, ?_⟩
    rw [link, historyLoop, if_pos rfl]
    simp
  | cons tx older ih =>
    have hrest : older ⊆ accepted := fun tx' htx' => hsub (List.mem_cons_of_mem tx htx')
    cases hk : involves k tx with
    | false =>
      rw [List.filter_cons_of_neg (by simp [hk])] at hfuel ⊢
      rw [link, hk]
      exact ih h hrest hc.2.2 hfuel res
    | true =>
      rw [List.filter_cons_of_pos hk] at hfuel ⊢
      obtain ⟨fuel, rfl⟩ := Nat.exists_eq_succ_of_ne_zero (Nat.ne_zero_of_lt hfuel)
      obtain ⟨s', hentry, hreflects⟩ := h.exists_transaction (hsub List.mem_cons_self)
      have hshort : (older.filter (involves k)).length < fuel := by
        rw [List.length_cons] at hfuel
        omega
      obtain ⟨s'', hloop⟩ := ih hreflects hrest hc.2.2 hshort (res ++ [tx])
      refine ⟨s'', ?_⟩
      rw [link, hk, if_pos rfl, historyLoop_succ hentry hc hk, hloop]
      simp

end Loop

/-- A call removes no account. -/
theorem postStep_isSome {seq : BitVec 32} {p : Books × List Transaction} (o : Step) {k : Uint256}
    (h : (p.1.accounts k).isSome = true) :
    ((postStep sha pb seq p o).1.accounts k).isSome = true := by
  have hwrite : ∀ (b : Books) (acc : Account), (b.accounts k).isSome = true →
      ((b.write acc).accounts k).isSome = true := by
    intro b acc hb
    rw [Books.accounts_write]
    split
    · rfl
    · exact hb
  cases o with
  | createAccount accPub => exact hwrite _ _ h
  | addTransactionEntry tx =>
    rw [postStep, post]
    split
    · split
      · exact h
      · exact hwrite _ _ (hwrite _ _ h)
    · exact h

/-- A created account exists, and its name is short enough to be copied. -/
theorem exists_of_created {db : Database} {steps : List Step} {r : State × List Transaction}
    (hr : run sha pb db steps = .ok r) {accPub : Bytes} (hmem : Step.createAccount accPub ∈ steps) :
    accPub.length < 2 ^ 31 ∧ ((posted sha pb steps).1.accounts (sha accPub)).isSome = true := by
  induction steps using List.reverseRecOn generalizing r with
  | nil => cases hmem
  | append_singleton pre o ih =>
    obtain ⟨m, hm, hstep⟩ := run_snoc_ok.mp hr
    rw [posted_snoc]
    rcases List.mem_append.mp hmem with hmem | hmem
    · obtain ⟨hlength, hsome⟩ := ih hm hmem
      exact ⟨hlength, postStep_isSome o hsome⟩
    · obtain rfl := List.mem_singleton.mp hmem
      obtain ⟨s', hs', _⟩ := bind_eq_ok.mp hstep
      obtain ⟨hash, hhash, _⟩ := bind_eq_ok.mp hs'
      obtain ⟨data, hdata, _⟩ := bind_eq_ok.mp hhash
      refine ⟨ofString_ok hdata ▸ data.2, ?_⟩
      simp [postStep, Books.accounts_write, newAccount]

/-- On every ledger reached from an empty one, `get_transaction_history` of a created account
returns as soon as its loop may run often enough, and its result is exactly the accepted
transactions that name the account as source or destination, each once, the newest first. -/
theorem transaction_history_exact (sha : Bytes → Uint256) (pb : Protobuf) (db : Database)
    (steps : List Step) (r : State × List Transaction) (hr : run sha pb db steps = .ok r)
    (accPub : Bytes) (hcreated : Step.createAccount accPub ∈ steps) :
    (∀ fuel, r.2.length < fuel →
      ∃ s', getTransactionHistory sha pb fuel r.1 accPub =
        .ok (some (s', r.2.filter (involves (sha accPub))))) ∧
    r.2.Nodup := by
  have hstep := run_inStep hr
  have hlinked := run_linked hr
  obtain ⟨ta, tt, hreflects, _⟩ := hstep.reflects
  rw [← hstep.accepted] at hreflects
  refine ⟨fun fuel hfuel => ?_, hreflects.transactions.nodup.of_map _⟩
  obtain ⟨hlength, hsome⟩ := exists_of_created hr hcreated
  obtain ⟨acc, hacc⟩ := Option.isSome_iff_exists.mp hsome
  obtain ⟨w, hw⟩ := exists_getAccountEntry hreflects.trees hreflects.accounts (sha accPub)
  obtain ⟨hadv, hentry⟩ := getAccountEntry_ok hreflects.trees hreflects.accounts hw
  have hlink := hlinked.account _ _ hacc
  have hchained := hlinked.chained
  rw [← hstep.accepted] at hlink hchained
  have hafter : Reflects sha pb w.1 (posted sha pb steps).1 r.2 ta tt :=
    ⟨hadv.trees, hreflects.accounts, hreflects.transactions⟩
  obtain ⟨s', hloop⟩ := hafter.historyLoop_eq (List.Subset.refl _) hchained
    ((List.length_filter_le (involves (sha accPub)) r.2).trans_lt hfuel) []
  refine ⟨s', ?_⟩
  rw [getTransactionHistory, stringAddressToUint256_eq hlength, ok_bind, hw, ok_bind, hentry, hacc]
  rw [← hlink] at hloop
  exact hloop

/-- Payments in both directions, one to the payer itself and one that is rejected. -/
def historyRun : List Step :=
  [.createAccount (sampleName 1), .createAccount (sampleName 2),
    .addTransactionEntry (samplePayment 1 2 100), .addTransactionEntry (samplePayment 2 2 30),
    .addTransactionEntry (samplePayment 2 1 5000), .addTransactionEntry (samplePayment 2 1 50)]

theorem transaction_history_historyRun :
    ∃ r, run checksum plainProtobuf (fun _ => none) historyRun = .ok r ∧
      r.2.map Transaction.paymentAmount = [50, 30, 100] ∧
      ∃ s', getTransactionHistory checksum plainProtobuf 10 r.1 (sampleName 1) =
        .ok (some (s', r.2.filter (involves (checksum (sampleName 1))))) := by
  have hok : (do
      let r ← run checksum plainProtobuf (fun _ => none) historyRun
      .ok (r.2.map Transaction.paymentAmount)) = .ok [50, 30, 100] :=
    eq_ok_of_toOption (by decide +kernel)
  obtain ⟨r, hr, hamounts⟩ := bind_eq_ok.mp hok
  replace hamounts := Except.ok.inj hamounts
  have hlength : r.2.length < 10 := by
    rw [← List.length_map Transaction.paymentAmount, hamounts]
    decide
  exact ⟨r, hr, hamounts, (transaction_history_exact _ _ _ _ r hr (sampleName 1)
    (by simp [historyRun])).1 10 hlength⟩

end Bubi.Ledger
