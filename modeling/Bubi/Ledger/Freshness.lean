import Bubi.Ledger.History

/-!
# Fresh transaction indexes

The index of a transaction is the digest of its serialization, and only its links tell
two equal payments apart. An account that pays again links to a transaction which is
newer than everything its earlier payments could link to, so no serialization repeats:
`add_item` never meets an index that it already has.
-/

namespace Bubi.Ledger

open Bubi.Core MerkleTrie

variable {sha : Bytes → Uint256} {pb : Protobuf}

section Links

variable {k : Uint256} {accepted : List Transaction}

/-- An account without a link has no transactions; otherwise it links to one of them. -/
theorem link_cases (sha : Bytes → Uint256) (pb : Protobuf) (k : Uint256)
    (accepted : List Transaction) :
    link sha pb k accepted = (0, Uint256.zero) ∨
      ∃ tx ∈ accepted, link sha pb k accepted = (1, txHash sha pb tx) := by
  induction accepted with
  | nil => exact Or.inl rfl
  | cons tx accepted ih =>
    rw [link]
    split
    · exact Or.inr ⟨tx, List.mem_cons_self, rfl⟩
    · rcases ih with hnone | ⟨tx', hmem, hlink⟩
      · exact Or.inl hnone
      · exact Or.inr ⟨tx', List.mem_cons_of_mem tx hmem, hlink⟩

/-- The link of an account looks no further back than its newest transaction. -/
theorem exists_link_append {tx : Transaction} (hk : involves k tx = true)
    (newer older : List Transaction) :
    ∃ tx' ∈ newer ++ [tx], link sha pb k (newer ++ tx :: older) = (1, txHash sha pb tx') := by
  induction newer with
  | nil =>
    refine ⟨tx, List.mem_singleton.mpr rfl, ?_⟩
    rw [List.nil_append, link, hk, if_pos rfl]
  | cons tx' newer ih =>
    rw [List.cons_append, List.cons_append, link]
    split
    · exact ⟨tx', List.mem_cons_self, rfl⟩
    · obtain ⟨tx'', hmem, hlink⟩ := ih
      exact ⟨tx'', List.mem_cons_of_mem tx' hmem, hlink⟩

theorem Chained.of_append {newer older : List Transaction}
    (h : Chained sha pb (newer ++ older)) : Chained sha pb older := by
  induction newer with
  | nil => exact h
  | cons tx newer ih => exact ih h.2.2

/-- An account never presents again the link that it had when an earlier transaction left it. -/
theorem Linked.source_link_ne {b : Books} (h : Linked sha pb (b, accepted))
    (hnodup : (accepted.map (txHash sha pb)).Nodup) {acc : Account}
    (hacc : b.accounts k = some acc) {tx : Transaction} (htx : tx ∈ accepted)
    (hk : tx.sourceAddress = k) :
    (tx.sourcePreviousLedgerSeq, tx.sourcePreviousTxHash) ≠
      (acc.previousLedgerSeq, acc.previousTxHash) := by
  intro heq
  obtain ⟨newer, older, rfl⟩ := List.append_of_mem htx
  have hold : (tx.sourcePreviousLedgerSeq, tx.sourcePreviousTxHash) = link sha pb k older := by
    rw [← hk]
    exact h.chained.of_append.1
  obtain ⟨late, hlate, hlink⟩ : ∃ tx' ∈ newer ++ [tx],
      link sha pb k (newer ++ tx :: older) = (1, txHash sha pb tx') :=
    exists_link_append (involves_iff.mpr (Or.inl hk)) newer older
  have hnow : link sha pb k older = (1, txHash sha pb late) := by
    rw [← hold, heq, h.account k acc hacc, hlink]
  rcases link_cases sha pb k older with hnone | ⟨early, hearly, hearlier⟩
  · rw [hnone] at hnow
    have hseq : (0 : BitVec 32) = 1 := congrArg Prod.fst hnow
    exact absurd hseq (by decide)
  · -- One hash stands both before and behind the cut of a list without repetitions.
    rw [hearlier] at hnow
    have hsame : txHash sha pb early = txHash sha pb late := congrArg Prod.snd hnow
    rw [show newer ++ tx :: older = (newer ++ [tx]) ++ older by simp, List.map_append,
      List.nodup_append'] at hnodup
    exact hnodup.2.2 (List.mem_map_of_mem hlate) (hsame ▸ List.mem_map_of_mem hearly)

/-- The transaction that a payment becomes is none of the accepted ones. -/
theorem Linked.setPrevious_notMem {b : Books} (h : Linked sha pb (b, accepted))
    (hnodup : (accepted.map (txHash sha pb)).Nodup) {tx : Transaction}
    {source : Account} (hs : b.accounts tx.sourceAddress = some source) (destination : Account) :
    tx.setPrevious source destination ∉ accepted :=
  fun hmem => h.source_link_ne hnodup hs hmem rfl rfl

end Links

section Faults

variable {s : State} {b : Books} {accepted : List Transaction} {ta tt : MerkleTrie} {f : Fault}

theorem ofString_ne_error (hrange : f ≠ .outOfRange) (str : Bytes) :
    Serializer.ofString str ≠ .error f := by
  unfold Serializer.ofString
  split
  · simp
  · exact fun h => hrange (Except.error.inj h).symm

theorem updateAccountTreeHash_ne_error (h : Trees sha s ta tt) :
    updateAccountTreeHash sha s.2 ≠ .error f := by
  obtain ⟨l, hl⟩ := h.exists_updateAccountTreeHash
  simp [hl]

theorem updateTransactionTreeHash_ne_error (h : Trees sha s ta tt) :
    updateTransactionTreeHash sha s.2 ≠ .error f := by
  obtain ⟨l, hl⟩ := h.exists_updateTransactionTreeHash
  simp [hl]

/-- An existing account is written back, unless its hash stays as it was. -/
theorem updateAccountTreeEntry_ne_error (h : Trees sha s ta tt) (ha : AccountRecords pb ta b)
    {item : RadixMerkleTreeLeaf} (hitem : b.accounts item.index ≠ none)
    (hunchanged : f ≠ .unchanged) : updateAccountTreeEntry sha s item ≠ .error f := by
  refine bind_ne_error ?_ fun w hw => ?_
  · intro hch
    have hcases : f = .unchanged ∨ f = .assertion ∧ _ :=
      h.account.change_error h.accountValid (o := .updateGivenItem item false) hch
    exact (hcases.resolve_left hunchanged).2 (mt ha.contents_eq_none.mp hitem)
  · obtain ⟨ho, hload, hmoves⟩ :=
      h.account.change_ok h.accountValid (o := .updateGivenItem item false) hw
    have hmoved := h.moveAccount hmoves hload (h.accountValid.changed ho)
    refine bind_ne_error ?_ fun _ _ => by simp
    exact updateAccountTreeHash_ne_error hmoved.trees

/-- A transaction between existing accounts is posted, unless a string is too long, a hash
stays as it was, or its index is taken. -/
theorem postTransaction_ne_error (h : Trees sha s ta tt) (ha : AccountRecords pb ta b)
    {tx : Transaction} {source destination : Account}
    (hs : b.accounts source.accountAddress ≠ none)
    (hd : b.accounts destination.accountAddress ≠ none) (hrange : f ≠ .outOfRange)
    (hunchanged : f ≠ .unchanged)
    (hfree : f = .assertion →
      contents tt (txHash sha pb (tx.setPrevious source destination)) = none) :
    postTransaction sha pb s tx source destination ≠ .error f := by
  refine bind_ne_error (ofString_ne_error hrange _) fun data hdata => ?_
  have hhash : sha data.1 = txHash sha pb (tx.setPrevious source destination) := by
    rw [ofString_ok hdata]
    rfl
  refine bind_ne_error ?_ fun w hw => ?_
  · intro hch
    have hcases : f = .unchanged ∨ f = .assertion ∧ ¬ contents tt (sha data.1) = none :=
      h.transaction.change_error h.transactionValid (o := .addItem _ true) hch
    obtain ⟨hassertion, htaken⟩ := hcases.resolve_left hunchanged
    rw [hhash] at htaken
    exact htaken (hfree hassertion)
  · obtain ⟨ho, hload, hmoves⟩ := h.transaction.change_ok h.transactionValid (o := .addItem _ _) hw
    have hmoved := h.moveTransaction hmoves hload (h.transactionValid.changed ho)
    refine bind_ne_error ?_ fun l hl => ?_
    · exact updateTransactionTreeHash_ne_error hmoved.trees
    have hadd := hmoved.updateTransactionTreeHash hl
    refine bind_ne_error (ofString_ne_error hrange _) fun ss hss =>
      bind_ne_error (ofString_ne_error hrange _) fun ds hds => ?_
    refine bind_ne_error (updateAccountTreeEntry_ne_error hadd.trees ha hs hunchanged)
      fun s₁ hs₁ => ?_
    obtain ⟨ta₁, hadv₁, ha₁⟩ := updateAccountTreeEntry_ok hadd.trees ha rfl (ofString_ok hss) hs₁
    refine bind_ne_error (updateAccountTreeEntry_ne_error hadv₁.trees ha₁ ?_ hunchanged)
      fun s₂ hs₂ => ?_
    · rw [Books.accounts_write]
      split
      · simp
      · exact hd
    · obtain ⟨ta₂, hadv₂, _⟩ :=
        updateAccountTreeEntry_ok hadv₁.trees ha₁ rfl (ofString_ok hds) hs₂
      exact bind_ne_error (updateAccountTreeHash_ne_error hadv₂.trees) fun _ _ => by simp

/-- A transaction between existing accounts fails only where it is posted. -/
theorem Reflects.addTransactionEntry_ne_error (h : Reflects sha pb s b accepted ta tt)
    {tx : Transaction} {source destination : Account}
    (hs : b.accounts tx.sourceAddress = some source)
    (hd : b.accounts tx.destinationAddress = some destination) (hrange : f ≠ .outOfRange)
    (hunchanged : f ≠ .unchanged)
    (hfree : f = .assertion →
      contents tt (txHash sha pb (tx.setPrevious source destination)) = none) :
    addTransactionEntry sha pb s tx ≠ .error f := by
  obtain ⟨s₂, hadv, heq⟩ := h.addTransactionEntry_eq tx
  rw [heq, hs, hd]
  dsimp only
  split
  · simp
  · refine bind_ne_error ?_ fun _ _ => by simp
    refine postTransaction_ne_error hadv.trees h.accounts ?_ ?_ hrange hunchanged ?_
    · rw [Account.addBalance_address, b.address_eq _ _ hs, hs]
      simp
    · rw [Account.addBalance_address, b.address_eq _ _ hd, hd]
      simp
    · rwa [Transaction.setPrevious_addBalance]

end Faults

/-- On every ledger reached from an empty one, the index that `add_transaction_entry` computes
for a payment between existing accounts is not in the transaction tree, also when the same
payment was made before or an account pays itself. So the call does not stop at the
assertion of `add_item` on an equal index, and every accepted transaction is still found. -/
theorem transaction_index_fresh (sha : Bytes → Uint256) (pb : Protobuf) (db : Database)
    (steps : List Step) (r : State × List Transaction) (hr : run sha pb db steps = .ok r)
    (tx : Transaction) (s₁ s₂ : State) (source destination : Account)
    (hs : getAccountEntry sha pb r.1 tx.sourceAddress = .ok (s₁, some source))
    (hd : getAccountEntry sha pb s₁ tx.destinationAddress = .ok (s₂, some destination))
    (hinj : Set.InjOn sha
      {x | ∃ tx' ∈ tx.setPrevious source destination :: r.2, x = tx'.serializer pb}) :
    RadixMerkleTree.hasItem sha s₂.1 s₂.2.transactionTree
        (txHash sha pb (tx.setPrevious source destination)) =
      .ok (s₂.1, s₂.2.transactionTree, false) ∧
    addTransactionEntry sha pb r.1 tx ≠ .error .assertion ∧
    ∀ tx' ∈ r.2, ∃ s', getTransactionEntry sha pb r.1 (txHash sha pb tx') = .ok (s', some tx') := by
  have hstep := run_inStep hr
  have hlinked : Linked sha pb ((posted sha pb steps).1, r.2) := by
    rw [hstep.accepted]
    exact run_linked hr
  obtain ⟨ta, tt, hreflects, hloaded⟩ := hstep.reflects
  rw [← hstep.accepted] at hreflects
  obtain ⟨hadv₁, hsource⟩ := getAccountEntry_ok hreflects.trees hreflects.accounts hs
  obtain ⟨hadv₂, hdestination⟩ := getAccountEntry_ok hadv₁.trees hreflects.accounts hd
  have hnotMem : tx.setPrevious source destination ∉ r.2 :=
    hlinked.setPrevious_notMem hreflects.transactions.nodup hsource.symm destination
  have hfree : contents tt (txHash sha pb (tx.setPrevious source destination)) = none := by
    have hdata := hreflects.transactions.data (txHash sha pb (tx.setPrevious source destination))
    rw [List.find?_eq_none.mpr, Option.map_none, Option.map_eq_none_iff] at hdata
    · exact hdata
    · intro tx' htx' hhash
      have hserial := hinj ⟨tx', List.mem_cons_of_mem _ htx', rfl⟩ ⟨_, List.mem_cons_self, rfl⟩
        (of_decide_eq_true hhash)
      rw [Transaction.serializer_injective pb hserial] at htx'
      exact hnotMem htx'
  refine ⟨?_, hreflects.addTransactionEntry_ne_error hsource.symm hdestination.symm (by decide)
    (by decide) fun _ => hfree, ?_⟩
  · have hsub := (hadv₁.trans hadv₂).drains.sub
    rw [hloaded] at hsub
    obtain ⟨_, hpending⟩ := List.append_eq_nil_iff.mp (List.subset_nil.mp hsub)
    have htree : s₂.2.transactionTree = embed sha tt :=
      hadv₂.trees.transaction.eq_embed hpending
    rw [htree, (hreflects.trees.transactionValid.represents s₂.1).hasItem, hfree]
    rfl
  · intro tx' htx'
    obtain ⟨s', hfound, _⟩ := hreflects.exists_transaction htx'
    exact ⟨s', hfound⟩

/-- A payment and a payment to oneself. -/
def repeatedRun : List Step :=
  [.createAccount (sampleName 1), .createAccount (sampleName 2),
    .addTransactionEntry (samplePayment 1 2 100), .addTransactionEntry (samplePayment 1 1 30)]

/-- The same payment once more. -/
theorem transaction_index_fresh_repeatedRun :
    ∃ r s₁ s₂ source destination,
      run checksum plainProtobuf (fun _ => none) repeatedRun = .ok r ∧
      getAccountEntry checksum plainProtobuf r.1 (checksum (sampleName 1)) =
        .ok (s₁, some source) ∧
      getAccountEntry checksum plainProtobuf s₁ (checksum (sampleName 2)) =
        .ok (s₂, some destination) ∧
      RadixMerkleTree.hasItem checksum s₂.1 s₂.2.transactionTree (txHash checksum plainProtobuf
          ((samplePayment 1 2 100).setPrevious source destination)) =
        .ok (s₂.1, s₂.2.transactionTree, false) := by
  have hok : (do
      let r ← run checksum plainProtobuf (fun _ => none) repeatedRun
      let source ← getAccountEntry checksum plainProtobuf r.1 (checksum (sampleName 1))
      let destination ← getAccountEntry checksum plainProtobuf source.1 (checksum (sampleName 2))
      .ok (source.2.any fun source => destination.2.any fun destination =>
        let xs := ((samplePayment 1 2 100).setPrevious source destination :: r.2).map
          (Transaction.serializer plainProtobuf)
        decide (∀ x ∈ xs, ∀ y ∈ xs, checksum x = checksum y → x = y))) = .ok true :=
    eq_ok_of_toOption (by decide +kernel)
  obtain ⟨r, hr, hok⟩ := bind_eq_ok.mp hok
  obtain ⟨⟨s₁, source⟩, hs, hok⟩ := bind_eq_ok.mp hok
  obtain ⟨⟨s₂, destination⟩, hd, hok⟩ := bind_eq_ok.mp hok
  obtain ⟨source, rfl, hany⟩ := (Option.any_eq_true _ _).mp (Except.ok.inj hok)
  obtain ⟨destination, rfl, hinj⟩ := (Option.any_eq_true _ _).mp hany
  replace hinj := of_decide_eq_true hinj
  refine ⟨r, s₁, s₂, source, destination, hr, hs, hd, (transaction_index_fresh _ _ _ _ r hr
    (samplePayment 1 2 100) s₁ s₂ source destination hs hd ?_).1⟩
  rintro _ ⟨tx, htx, rfl⟩ _ ⟨tx', htx', rfl⟩ hsha
  exact hinj _ (List.mem_map_of_mem htx) _ (List.mem_map_of_mem htx') hsha

end Bubi.Ledger
