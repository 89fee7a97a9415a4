import Bubi.Ledger.Books

/-!
# Postings

Each call of the ledger that returns, read on the books: a lookup returns the account or
the transaction under its key, `create_account` writes a new account, and
`add_transaction_entry` either changes nothing or writes back both of its copies. A run
keeps the ledger and the books in step.
-/

namespace Bubi.Ledger

open Bubi.Core MerkleTrie

variable {sha : Bytes → Uint256} {pb : Protobuf} {s s' : State} {ta tt : MerkleTrie} {b : Books}
  {accepted : List Transaction}

/-- The record that a lookup decodes is the one that was serialized. -/
theorem decoded_eq {β : Type} {unserializer : Bytes → Except Fault β} {serializer : β → Bytes}
    (hinv : ∀ v, unserializer (serializer v) = .ok v) {t : MerkleTrie} {k : Uint256}
    {entry : Option β} (hdata : (contents t k).map RadixMerkleTreeLeaf.data = entry.map serializer)
    {r : Option β}
    (hr : match contents t k with
      | none => r = none
      | some item => ∃ v, unserializer item.data = .ok v ∧ r = some v) : r = entry := by
  revert hdata hr
  cases contents t k with
  | none =>
    intro hdata hr
    rw [Option.map_eq_none_iff.mp hdata.symm]
    exact hr
  | some item =>
    intro hdata hr
    obtain ⟨v, hv, rfl⟩ := hr
    obtain ⟨w, rfl, hw⟩ := Option.map_eq_some_iff.mp hdata.symm
    rw [← hw, hinv] at hv
    rw [Except.ok.inj hv]

theorem getAccountEntry_ok (h : Trees sha s ta tt) (ha : AccountRecords pb ta b) {hash : Uint256}
    {r : State × Option Account} (hr : getAccountEntry sha pb s hash = .ok r) :
    Advances sha s ta tt r.1 ta tt ∧ r.2 = b.accounts hash := by
  obtain ⟨w, hw, hr⟩ := bind_eq_ok.mp hr
  obtain ⟨hentry, hload, hmoves⟩ := h.account.lookup_ok h.accountValid hw
  cases hr
  exact ⟨h.moveAccount hmoves hload h.accountValid,
    decoded_eq (Account.unserializer_serializer pb) (ha.data hash) hentry⟩

theorem getTransactionEntry_ok (h : Trees sha s ta tt)
    (ht : TransactionRecords sha pb tt accepted) {hash : Uint256} {r : State × Option Transaction}
    (hr : getTransactionEntry sha pb s hash = .ok r) :
    Advances sha s ta tt r.1 ta tt ∧
      r.2 = accepted.find? fun tx => txHash sha pb tx = hash := by
  obtain ⟨w, hw, hr⟩ := bind_eq_ok.mp hr
  obtain ⟨hentry, hload, hmoves⟩ := h.transaction.lookup_ok h.transactionValid hw
  cases hr
  exact ⟨h.moveTransaction hmoves hload h.transactionValid,
    decoded_eq (Transaction.unserializer_serializer pb) (ht.data hash) hentry⟩

/-- Every record in a trie whose items are serialized can be decoded. -/
theorem exists_decoded {β : Type} {unserializer : Bytes → Except Fault β} {serializer : β → Bytes}
    (hinv : ∀ v, unserializer (serializer v) = .ok v) {t : MerkleTrie} {k : Uint256}
    {entry : Option β} (hdata : (contents t k).map RadixMerkleTreeLeaf.data = entry.map serializer)
    {item : RadixMerkleTreeLeaf} (hitem : contents t k = some item) :
    ∃ v, unserializer item.data = .ok v := by
  rw [hitem, Option.map_some, eq_comm, Option.map_eq_some_iff] at hdata
  obtain ⟨v, _, hv⟩ := hdata
  exact ⟨v, by rw [← hv, hinv]⟩

/-- `get_account_entry` returns. -/
theorem exists_getAccountEntry (h : Trees sha s ta tt) (ha : AccountRecords pb ta b)
    (hash : Uint256) : ∃ r, getAccountEntry sha pb s hash = .ok r := by
  obtain ⟨w, hw⟩ := h.account.exists_lookup h.accountValid fun item hitem =>
    exists_decoded (Account.unserializer_serializer pb) (ha.data hash) hitem
  exact ⟨_, bind_eq_ok.mpr ⟨w, hw, rfl⟩⟩

/-- `get_transaction_entry` returns. -/
theorem exists_getTransactionEntry (h : Trees sha s ta tt)
    (ht : TransactionRecords sha pb tt accepted) (hash : Uint256) :
    ∃ r, getTransactionEntry sha pb s hash = .ok r := by
  obtain ⟨w, hw⟩ := h.transaction.exists_lookup h.transactionValid fun item hitem =>
    exists_decoded (Transaction.unserializer_serializer pb) (ht.data hash) hitem
  exact ⟨_, bind_eq_ok.mpr ⟨w, hw, rfl⟩⟩

theorem ofString_ok {str : Bytes} {data : { data : Bytes // data.length < 2 ^ 31 }}
    (h : Serializer.ofString str = .ok data) : data.1 = str := by
  unfold Serializer.ofString at h
  split at h
  · rw [← Except.ok.inj h]
  · cases h

theorem stringAddressToUint256_eq {accPub : Bytes} (hlength : accPub.length < 2 ^ 31) :
    stringAddressToUint256 sha accPub = .ok (sha accPub) := by
  unfold stringAddressToUint256 Serializer.ofString
  rw [dif_pos hlength]
  rfl

/-- A new account is written under a free address. -/
theorem addAccountTreeEntry_ok (h : Trees sha s ta tt) (ha : AccountRecords pb ta b) {acc : Account}
    (hr : addAccountTreeEntry sha pb s acc.accountAddress acc = .ok s') :
    b.accounts acc.accountAddress = none ∧
      ∃ ta', Advances sha s ta tt s' ta' tt ∧ AccountRecords pb ta' (b.write acc) := by
  obtain ⟨data, hdata, hr⟩ := bind_eq_ok.mp hr
  obtain ⟨w, hw, hr⟩ := bind_eq_ok.mp hr
  obtain ⟨l, hl, hr⟩ := bind_eq_ok.mp hr
  cases hr
  obtain ⟨ho, hload, hmoves⟩ := h.account.change_ok h.accountValid (o := .addItem _ _) hw
  have hadvances := h.moveAccount hmoves hload (h.accountValid.changed ho)
  exact ⟨ha.contents_eq_none.mp ho, _, hadvances.updateAccountTreeHash hl,
    ha.write h.accountValid ho rfl (ofString_ok hdata)⟩

/-- An account that is written back replaces the one under its address. -/
theorem updateAccountTreeEntry_ok (h : Trees sha s ta tt) (ha : AccountRecords pb ta b)
    {item : RadixMerkleTreeLeaf} {acc : Account} (hi : item.index = acc.accountAddress)
    (hd : item.data = acc.serializer pb) (hr : updateAccountTreeEntry sha s item = .ok s') :
    ∃ ta', Advances sha s ta tt s' ta' tt ∧ AccountRecords pb ta' (b.write acc) := by
  obtain ⟨w, hw, hr⟩ := bind_eq_ok.mp hr
  obtain ⟨l, hl, hr⟩ := bind_eq_ok.mp hr
  cases hr
  obtain ⟨ho, hload, hmoves⟩ := h.account.change_ok h.accountValid (o := .updateGivenItem _ _) hw
  have hadvances := h.moveAccount hmoves hload (h.accountValid.changed ho)
  exact ⟨_, hadvances.updateAccountTreeHash hl, ha.write h.accountValid ho hi hd⟩

/-- A transaction that is added to the transaction tree is the newest. -/
theorem addItem_transaction_ok (h : Trees sha s ta tt) (ht : TransactionRecords sha pb tt accepted)
    {tx : Transaction} {data : { data : Bytes // data.length < 2 ^ 31 }}
    (hdata : Serializer.ofString (tx.serializer pb) = .ok data)
    {w : Database × RadixMerkleTreeNode}
    (hw : RadixMerkleTree.addItem sha s.1 s.2.transactionTree ⟨sha data.1, data.1, data.2⟩ true =
      .ok w) {l : Ledger}
    (hl : updateTransactionTreeHash sha { s.2 with transactionTree := w.2 } = .ok l) :
    ∃ tt', Advances sha s ta tt (w.1, l) ta tt' ∧
      TransactionRecords sha pb tt' (tx :: accepted) := by
  have hstr := ofString_ok hdata
  have hhash : sha data.1 = txHash sha pb tx := by
    rw [hstr]
    rfl
  obtain ⟨ho, hload, hmoves⟩ := h.transaction.change_ok h.transactionValid (o := .addItem _ _) hw
  exact ⟨_, (h.moveTransaction hmoves hload
    (h.transactionValid.changed ho)).updateTransactionTreeHash hl,
    ht.add h.transactionValid ho hhash hstr⟩

/-- An accepted transaction is added to the transaction tree, then the two accounts are
written back, the source first. -/
theorem postTransaction_ok (h : Trees sha s ta tt) (ha : AccountRecords pb ta b)
    (ht : TransactionRecords sha pb tt accepted) {tx : Transaction} {source destination : Account}
    {r : State × Transaction} (hr : postTransaction sha pb s tx source destination = .ok r) :
    r.2 = tx.setPrevious source destination ∧
      ∃ ta' tt', Advances sha s ta tt r.1 ta' tt' ∧
        AccountRecords pb ta'
          ((b.write (source.setPrevious s.2.ledgerSequence (txHash sha pb r.2))).write
            (destination.setPrevious s.2.ledgerSequence (txHash sha pb r.2))) ∧
        TransactionRecords sha pb tt' (r.2 :: accepted) := by
  obtain ⟨data, hdata, hr⟩ := bind_eq_ok.mp hr
  obtain ⟨w, hw, hr⟩ := bind_eq_ok.mp hr
  obtain ⟨l, hl, hr⟩ := bind_eq_ok.mp hr
  obtain ⟨ss, hss, hr⟩ := bind_eq_ok.mp hr
  obtain ⟨ds, hds, hr⟩ := bind_eq_ok.mp hr
  obtain ⟨s₁, hs₁, hr⟩ := bind_eq_ok.mp hr
  obtain ⟨s₂, hs₂, hr⟩ := bind_eq_ok.mp hr
  obtain ⟨l₃, hl₃, hr⟩ := bind_eq_ok.mp hr
  cases hr
  have hhash : sha data.1 = txHash sha pb (tx.setPrevious source destination) := by
    rw [ofString_ok hdata]
    rfl
  obtain ⟨tt', hadd, hrecords⟩ := addItem_transaction_ok h ht hdata hw hl
  have hseq : l.ledgerSequence = s.2.ledgerSequence := hadd.sequence
  rw [hhash, hseq] at hss hds hs₁ hs₂
  obtain ⟨ta₁, hadv₁, ha₁⟩ := updateAccountTreeEntry_ok hadd.trees ha rfl (ofString_ok hss) hs₁
  obtain ⟨ta₂, hadv₂, ha₂⟩ := updateAccountTreeEntry_ok hadv₁.trees ha₁ rfl (ofString_ok hds) hs₂
  exact ⟨rfl, ta₂, tt', ((hadd.trans hadv₁).trans hadv₂).updateAccountTreeHash hl₃, ha₂, hrecords⟩

/-- A rejected transaction changes nothing. -/
theorem post_rejected {seq : BitVec 32} {tx : Transaction} {source : Account}
    (hs : b.accounts tx.sourceAddress = some source)
    (hlt : source.accountBalance - tx.paymentAmount < 0) :
    post sha pb seq (b, accepted) tx = (b, accepted) := by
  unfold post
  simp only [hs]
  cases b.accounts tx.destinationAddress with
  | none => rfl
  | some destination => exact if_pos hlt

theorem post_accepted {seq : BitVec 32} {tx : Transaction} {source destination : Account}
    (hs : b.accounts tx.sourceAddress = some source)
    (hd : b.accounts tx.destinationAddress = some destination)
    (hle : 0 ≤ source.accountBalance - tx.paymentAmount) :
    post sha pb seq (b, accepted) tx =
      (b.pay tx source destination seq (txHash sha pb (tx.setPrevious source destination)),
        tx.setPrevious source destination :: accepted) := by
  unfold post
  simp only [hs, hd]
  exact if_neg (not_lt.mpr hle)

/-- `add_transaction_entry` read on the books: it looks both accounts up, needs the source to
decide, and the destination only when the source can pay. -/
theorem Reflects.addTransactionEntry_eq (h : Reflects sha pb s b accepted ta tt)
    (tx : Transaction) :
    ∃ s₂, Advances sha s ta tt s₂ ta tt ∧ addTransactionEntry sha pb s tx =
      match b.accounts tx.sourceAddress with
      | none => .error .nullDeref
      | some source =>
        if source.accountBalance - tx.paymentAmount < 0 then .ok (s₂, tx, 1)
        else
          match b.accounts tx.destinationAddress with
          | none => .error .nullDeref
          | some destination => (do
            let r ← postTransaction sha pb s₂ tx (source.addBalance (-tx.paymentAmount)).1
              (destination.addBalance tx.paymentAmount).1
            .ok (r.1, r.2, 0)) := by
  obtain ⟨r₁, hr₁⟩ := exists_getAccountEntry h.trees h.accounts tx.sourceAddress
  obtain ⟨hadv₁, hsource⟩ := getAccountEntry_ok h.trees h.accounts hr₁
  obtain ⟨r₂, hr₂⟩ := exists_getAccountEntry hadv₁.trees h.accounts tx.destinationAddress
  obtain ⟨hadv₂, hdestination⟩ := getAccountEntry_ok hadv₁.trees h.accounts hr₂
  refine ⟨r₂.1, hadv₁.trans hadv₂, ?_⟩
  rw [addTransactionEntry, hr₁, ok_bind, hr₂, ok_bind, hsource, hdestination]
  cases b.accounts tx.sourceAddress with
  | none => rfl
  | some source =>
    dsimp only
    rcases lt_or_ge (source.accountBalance - tx.paymentAmount) 0 with hlt | hle
    · rw [Account.addBalance_neg_of_lt hlt, if_pos hlt]
      rfl
    · rw [Account.addBalance_neg_of_le hle, if_neg (not_lt.mpr hle)]
      rfl

/-- What a returned `add_transaction_entry` did: it found the source, and either rejected the
transaction or found the destination as well and posted it. -/
theorem Reflects.addTransactionEntry_ok (h : Reflects sha pb s b accepted ta tt) {tx : Transaction}
    {r : State × Transaction × ℕ} (hr : addTransactionEntry sha pb s tx = .ok r) :
    ∃ source, b.accounts tx.sourceAddress = some source ∧
      ((source.accountBalance - tx.paymentAmount < 0 ∧ r.2 = (tx, 1) ∧
          Advances sha s ta tt r.1 ta tt) ∨
        (0 ≤ source.accountBalance - tx.paymentAmount ∧
          ∃ destination, b.accounts tx.destinationAddress = some destination ∧
            r.2 = (tx.setPrevious source destination, 0) ∧
            ∃ ta' tt', Advances sha s ta tt r.1 ta' tt' ∧
              AccountRecords pb ta' (b.pay tx source destination s.2.ledgerSequence
                (txHash sha pb (tx.setPrevious source destination))) ∧
              TransactionRecords sha pb tt' (tx.setPrevious source destination :: accepted))) := by
  obtain ⟨s₂, hadv, heq⟩ := h.addTransactionEntry_eq tx
  rw [heq] at hr
  cases hs : b.accounts tx.sourceAddress with
  | none =>
    rw [hs] at hr
    cases hr
  | some source =>
    rw [hs] at hr
    refine ⟨source, rfl, ?_⟩
    dsimp only at hr
    split at hr
    · next hlt =>
      cases hr
      exact Or.inl ⟨hlt, rfl, hadv⟩
    · next hle =>
      cases hd : b.accounts tx.destinationAddress with
      | none =>
        rw [hd] at hr
        cases hr
      | some destination =>
        rw [hd] at hr
        obtain ⟨r₃, hr₃, hr⟩ := bind_eq_ok.mp hr
        cases hr
        obtain ⟨htx, ta', tt', hadv₃, ha, ht⟩ :=
          postTransaction_ok hadv.trees h.accounts h.transactions hr₃
        rw [Transaction.setPrevious_addBalance] at htx
        rw [htx, hadv.sequence] at ha
        rw [htx] at ht
        exact Or.inr ⟨not_lt.mp hle, destination, rfl, by rw [htx], ta', tt', hadv.trans hadv₃, ha,
          ht⟩

/-- A returned `create_account` wrote a new account under a free address. -/
theorem Reflects.createAccount_ok (h : Reflects sha pb s b accepted ta tt) {accPub : Bytes}
    (hr : createAccount sha pb s accPub = .ok s') :
    b.accounts (sha accPub) = none ∧
      ∃ ta', Advances sha s ta tt s' ta' tt ∧
        AccountRecords pb ta' (b.write (newAccount (sha accPub))) := by
  obtain ⟨hash, hhash, hr⟩ := bind_eq_ok.mp hr
  obtain ⟨data, hdata, hhash⟩ := bind_eq_ok.mp hhash
  cases hhash
  rw [ofString_ok hdata] at hr
  exact @addAccountTreeEntry_ok sha pb s s' ta tt b h.trees h.accounts (newAccount (sha accPub)) hr

/-- A call that returns posts to the books. -/
theorem Reflects.step (h : Reflects sha pb s b accepted ta tt) {o : Step}
    {r : State × List Transaction} (hr : Ledger.step sha pb (s, accepted) o = .ok r) :
    r.2 = (postStep sha pb s.2.ledgerSequence (b, accepted) o).2 ∧
      ∃ ta' tt', Advances sha s ta tt r.1 ta' tt' ∧
        Reflects sha pb r.1 (postStep sha pb s.2.ledgerSequence (b, accepted) o).1 r.2 ta' tt' := by
  cases o with
  | createAccount accPub =>
    obtain ⟨s', hs', hr⟩ := bind_eq_ok.mp hr
    cases hr
    obtain ⟨_, ta', hadv, ha⟩ := h.createAccount_ok hs'
    exact ⟨rfl, ta', tt, hadv, hadv.trees, ha, h.transactions⟩
  | addTransactionEntry tx =>
    obtain ⟨r', hr', hr⟩ := bind_eq_ok.mp hr
    obtain ⟨source, hs, ⟨hlt, hcode, hadv⟩ |
      ⟨hle, destination, hd, hcode, ta', tt', hadv, ha, ht⟩⟩ := h.addTransactionEntry_ok hr'
    · rw [hcode] at hr
      cases hr
      rw [postStep, post_rejected hs hlt]
      exact ⟨rfl, ta, tt, hadv, hadv.trees, h.accounts, h.transactions⟩
    · rw [hcode] at hr
      cases hr
      rw [postStep, post_accepted hs hd hle]
      exact ⟨rfl, ta', tt', hadv, hadv.trees, ha, ht⟩

section Run

/-- A ledger that grew from an empty one, in step with its books: nothing of it was ever
unloaded, and its sequence number is still the first. -/
structure InStep (sha : Bytes → Uint256) (pb : Protobuf) (r : State × List Transaction)
    (p : Books × List Transaction) : Prop where
  accepted : r.2 = p.2
  reflects : ∃ ta tt, Reflects sha pb r.1 p.1 p.2 ta tt ∧ pendingOf sha r.1.2 ta tt = []
  sequence : r.1.2.ledgerSequence = 1

theorem new_ok (sha : Bytes → Uint256) :
    ∃ l, new sha = .ok l ∧ l.accountTree = embed sha (MerkleTrie.new false) ∧
      l.transactionTree = embed sha (MerkleTrie.new true) ∧ l.ledgerSequence = 1 :=
  ⟨_, rfl, new_eq false, new_eq true, rfl⟩

/-- An empty ledger has empty books. -/
theorem inStep_new (db : Database) {l : Ledger} (hl : new sha = .ok l) :
    InStep sha pb ((db, l), []) (Books.empty, []) := by
  obtain ⟨l', hl', ha, ht, hseq⟩ := new_ok sha
  obtain rfl : l' = l := Except.ok.inj (hl'.symm.trans hl)
  have haccount := @valid_new sha false
  have htransaction := @valid_new sha true
  refine ⟨rfl, ⟨MerkleTrie.new false, MerkleTrie.new true, ⟨⟨?_, ?_, ?_, haccount, htransaction⟩,
    ⟨fun k => rfl, ?_⟩, ⟨fun k => rfl, List.nodup_nil⟩⟩, ?_⟩, hseq⟩
  · rw [ha]
    exact simulates_embed db haccount.isEmpty_eq
  · rw [ht]
    exact simulates_embed db htransaction.isEmpty_eq
  · rw [ha, pending_embed]
    exact List.disjoint_nil_left _
  · exact Trie.sum_bare _ _
  · rw [pendingOf, ha, ht, pending_embed, pending_embed]
    rfl

/-- One call keeps the ledger in step with its books. -/
theorem InStep.step {r r' : State × List Transaction} {p : Books × List Transaction}
    (h : InStep sha pb r p) {o : Step} (hr : Ledger.step sha pb r o = .ok r') :
    InStep sha pb r' (postStep sha pb 1 p o) := by
  obtain ⟨s, accepted⟩ := r
  obtain ⟨b, accepted'⟩ := p
  obtain ⟨rfl, ⟨ta, tt, hreflects, hloaded⟩, hseq⟩ := h
  obtain ⟨haccepted, ta', tt', hadv, hreflects'⟩ := hreflects.step hr
  rw [show s.2.ledgerSequence = 1 from hseq] at haccepted hreflects'
  have hsub := hadv.drains.sub
  rw [hloaded] at hsub
  refine ⟨haccepted, ⟨ta', tt', ?_, List.subset_nil.mp hsub⟩, hadv.sequence.trans hseq⟩
  rwa [← haccepted]

/-- A run on an empty ledger keeps it in step with its books. -/
theorem run_inStep {db : Database} {steps : List Step} {r : State × List Transaction}
    (hr : run sha pb db steps = .ok r) : InStep sha pb r (posted sha pb steps) := by
  obtain ⟨l, hl, hr⟩ := bind_eq_ok.mp hr
  exact run_simulation (fun s o s' t hs hstep => hs.step hstep) (inStep_new db hl) hr

theorem run_append_ok {db : Database} {pre post : List Step} {r : State × List Transaction} :
    run sha pb db (pre ++ post) = .ok r ↔
      ∃ m, run sha pb db pre = .ok m ∧ post.foldlM (step sha pb) m = .ok r := by
  obtain ⟨l, hl, _⟩ := new_ok sha
  rw [run, run, hl, ok_bind, ok_bind]
  exact foldlM_append_ok

theorem run_snoc_ok {db : Database} {pre : List Step} {o : Step} {r : State × List Transaction} :
    run sha pb db (pre ++ [o]) = .ok r ↔
      ∃ m, run sha pb db pre = .ok m ∧ step sha pb m o = .ok r := by
  rw [run_append_ok]
  simp only [foldlM_cons_ok, foldlM_nil_ok, exists_eq_right]

theorem posted_snoc (pre : List Step) (o : Step) :
    posted sha pb (pre ++ [o]) = postStep sha pb 1 (posted sha pb pre) o :=
  List.foldl_append ..

end Run

end Bubi.Ledger
