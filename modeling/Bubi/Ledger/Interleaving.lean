import Bubi.Core.Overlap
import Bubi.Ledger.Freshness
import Bubi.Ledger.Losses

/-!
# Two threads on one ledger

`ThreadSocketHandler` and `ThreadMessageHandler` both call `add_transaction_entry` on the
ledger behind `last_ledger`. Neither holds a lock over the call, so between any two of its
accesses to the trees the other thread may run. Each access is one step here, and the five
steps of a call without an interruption are `add_transaction_entry`. On the books the
threads are two clerks who copy accounts, record a transaction and write their copies
back; and the balances of the books follow two transfers step by step.
-/

namespace Bubi.Ledger

open Bubi.Core MerkleTrie

/-- Where a thread stands in its call of `add_transaction_entry`, with its local variables. -/
inductive Thread where
  | start
  /-- Behind the first `get_account_entry`. -/
  | gotSource (sourceAccount : Option Account)
  /-- Behind the second `get_account_entry` and the two `add_balance`. -/
  | accepted (sourceAccount destinationAccount : Account)
  /-- Behind `add_item`, with the two items that are to be written back. -/
  | added (tx : Transaction) (sItem dItem : RadixMerkleTreeLeaf)
  /-- Behind the first `update_account_tree_entry`. -/
  | updatedSource (tx : Transaction) (dItem : RadixMerkleTreeLeaf)
  | returned (tx : Transaction) (code : ℕ)

/-- The call is over. -/
def Thread.isReturned : Thread → Bool
  | .returned _ _ => true
  | _ => false

section Model

variable (sha : Bytes → Uint256) (pb : Protobuf)

/-- One access of `add_transaction_entry` to the shared trees, with the local statements behind
it. A thread that has returned stays as it is. -/
def Thread.step (tx : Transaction) (s : State) : Thread → Except Fault (State × Thread)
  | .start => do
    let r ← getAccountEntry sha pb s tx.sourceAddress
    .ok (r.1, .gotSource r.2)
  | .gotSource source => do
    let r ← getAccountEntry sha pb s tx.destinationAddress
    match source with
    | none => .error .nullDeref
    | some sourceAccount =>
      let paid := sourceAccount.addBalance (-tx.paymentAmount)
      if paid.2 then
        match r.2 with
        | none => .error .nullDeref
        | some destinationAccount =>
          .ok (r.1, .accepted paid.1 (destinationAccount.addBalance tx.paymentAmount).1)
      else .ok (r.1, .returned tx 1)
  | .accepted sourceAccount destinationAccount => do
    let tx := tx.setPrevious sourceAccount destinationAccount
    let data ← Serializer.ofString (tx.serializer pb)
    let hash := sha data.1
    let r ← RadixMerkleTree.addItem sha s.1 s.2.transactionTree (.ofSerializer hash data) true
    let l ← updateTransactionTreeHash sha { s.2 with transactionTree := r.2 }
    let sourceAccount := sourceAccount.setPrevious l.ledgerSequence hash
    let destinationAccount := destinationAccount.setPrevious l.ledgerSequence hash
    let ss ← Serializer.ofString (sourceAccount.serializer pb)
    let ds ← Serializer.ofString (destinationAccount.serializer pb)
    .ok ((r.1, l), .added tx (.ofSerializer sourceAccount.accountAddress ss)
      (.ofSerializer destinationAccount.accountAddress ds))
  | .added tx sItem dItem => do
    let s ← updateAccountTreeEntry sha s sItem
    .ok (s, .updatedSource tx dItem)
  | .updatedSource tx dItem => do
    let s ← updateAccountTreeEntry sha s dItem
    let l ← updateAccountTreeHash sha s.2
    .ok ((s.1, l), .returned tx 0)
  | .returned tx code => .ok (s, .returned tx code)

/-- The turn of one of the two threads. -/
def turn (tx : Bool → Transaction) (w : State × (Bool → Thread)) (who : Bool) :
    Except Fault (State × (Bool → Thread)) := do
  let r ← (w.2 who).step sha pb (tx who) w.1
  .ok (r.1, Function.update w.2 who r.2)

/-- Two calls from their start, by a schedule of the turns of the two threads. -/
def interleave (tx : Bool → Transaction) (s : State) (schedule : List Bool) :
    Except Fault (State × (Bool → Thread)) :=
  schedule.foldlM (turn sha pb tx) (s, fun _ => .start)

/-- The two calls one after the other. -/
def serial (tx : Bool → Transaction) (s : State) (first : Bool) : Except Fault State := do
  let r ← addTransactionEntry sha pb s (tx first)
  let r' ← addTransactionEntry sha pb r.1 (tx !first)
  .ok r'.1

/-- No interleaving stops at a fault, and every one in which both calls have returned ends with
the balances of a serial order. -/
def NoLostUpdate (tx : Bool → Transaction) (s : State) : Prop :=
  ∀ schedule, ∃ w, interleave sha pb tx s schedule = .ok w ∧
    ((∀ who, (w.2 who).isReturned = true) →
      ∃ first r, serial sha pb tx s first = .ok r ∧
        ∀ k, balanceOf sha pb w.1 k = balanceOf sha pb r k)

end Model

variable {sha : Bytes → Uint256} {pb : Protobuf} {s : State} {b : Books}
  {accepted : List Transaction} {ta tt : MerkleTrie} {tx : Bool → Transaction}

section Alone

/-- Turns of a thread that has returned. -/
theorem foldlM_turn_returned (tx : Bool → Transaction) (s : State) {threads : Bool → Thread}
    {who : Bool} {tx' : Transaction} {code : ℕ} (h : threads who = .returned tx' code) (n : ℕ) :
    (List.replicate n who).foldlM (turn sha pb tx) (s, threads) = .ok (s, threads) := by
  have hturn : turn sha pb tx (s, threads) who = .ok (s, threads) := by
    unfold turn
    dsimp only
    rw [h, Thread.step, ok_bind, ← h, Function.update_eq_self]
  induction n with
  | zero => rfl
  | succ n ih => rw [List.replicate_succ, List.foldlM_cons, hturn, ok_bind, ih]

/-- Three turns behind the check of the balance are the posting of the transaction. -/
theorem foldlM_turn_accepted (tx : Bool → Transaction) (s : State) {threads : Bool → Thread}
    {who : Bool} {source destination : Account} (h : threads who = .accepted source destination) :
    (List.replicate 3 who).foldlM (turn sha pb tx) (s, threads) = (do
      let r ← postTransaction sha pb s (tx who) source destination
      .ok (r.1, Function.update threads who (.returned r.2 0))) := by
  simp only [List.replicate, List.foldlM_cons, List.foldlM_nil, turn, h, Thread.step, bind_assoc,
    ok_bind, Function.update_self, Function.update_idem, postTransaction]
  rfl

/-- Five turns of a thread from its start are one `add_transaction_entry`. -/
theorem foldlM_turn_start (tx : Bool → Transaction) (s : State) {threads : Bool → Thread}
    {who : Bool} (h : threads who = .start) :
    (List.replicate 5 who).foldlM (turn sha pb tx) (s, threads) = (do
      let r ← addTransactionEntry sha pb s (tx who)
      .ok (r.1, Function.update threads who (.returned r.2.1 r.2.2))) := by
  rw [List.replicate_succ, List.foldlM_cons, List.replicate_succ]
  simp only [List.foldlM_cons]
  simp only [turn, h, Thread.step, bind_assoc, ok_bind, Function.update_self,
    Function.update_idem, addTransactionEntry]
  refine bind_congr fun r₁ => bind_congr fun r₂ => ?_
  cases r₁.2 with
  | none => rfl
  | some source =>
    dsimp only
    by_cases hpaid : (source.addBalance (-(tx who).paymentAmount)).2 = true
    · rw [if_pos hpaid, if_pos hpaid]
      cases r₂.2 with
      | none => rfl
      | some destination =>
        dsimp only
        rw [ok_bind, foldlM_turn_accepted tx _ (Function.update_self ..)]
        simp only [Function.update_idem, bind_assoc, ok_bind]
    · rw [if_neg hpaid, if_neg hpaid, ok_bind, ok_bind]
      exact foldlM_turn_returned tx _ (Function.update_self ..) 3

/-- The serial orders are interleavings. -/
theorem serial_ok_iff {first : Bool} {r : State} :
    serial sha pb tx s first = .ok r ↔
      ∃ threads, interleave sha pb tx s (List.replicate 5 first ++ List.replicate 5 (!first)) =
        .ok (r, threads) := by
  have hstart : ∀ thread, Function.update (fun _ => Thread.start) first thread (!first) =
      .start := fun _ => Function.update_of_ne (Bool.not_ne_self first) ..
  rw [interleave, List.foldlM_append, foldlM_turn_start tx s rfl, bind_assoc]
  simp only [ok_bind, serial, foldlM_turn_start tx _ (hstart _)]
  constructor
  · intro h
    obtain ⟨r₁, hr₁, h⟩ := bind_eq_ok.mp h
    obtain ⟨r₂, hr₂, h⟩ := bind_eq_ok.mp h
    cases h
    exact ⟨_, bind_eq_ok.mpr ⟨r₁, hr₁, bind_eq_ok.mpr ⟨r₂, hr₂, rfl⟩⟩⟩
  · rintro ⟨threads, h⟩
    obtain ⟨r₁, hr₁, h⟩ := bind_eq_ok.mp h
    obtain ⟨r₂, hr₂, h⟩ := bind_eq_ok.mp h
    cases h
    exact bind_eq_ok.mpr ⟨r₁, hr₁, bind_eq_ok.mpr ⟨r₂, hr₂, rfl⟩⟩

end Alone

section Clerks

/-- Where a clerk stands, with the copies of the accounts. -/
inductive Clerk where
  | start
  /-- The source is copied. -/
  | copied (source : Account)
  /-- Both accounts are copied, and the copies changed. -/
  | ready (source destination : Account)
  /-- The transaction is recorded, and the copies linked to it. -/
  | recorded (source destination : Account)
  /-- The source is written back. -/
  | half (destination : Account)
  | done (code : ℕ)

variable (sha : Bytes → Uint256) (pb : Protobuf)

/-- One access to the books and the accepted transactions. -/
def Clerk.step (tx : Transaction) (p : Books × List Transaction) :
    Clerk → Except Fault ((Books × List Transaction) × Clerk)
  | .start =>
    match p.1.accounts tx.sourceAddress with
    | none => .error .nullDeref
    | some source => .ok (p, .copied source)
  | .copied source =>
    match p.1.accounts tx.destinationAddress with
    | none => .error .nullDeref
    | some destination =>
      if source.accountBalance - tx.paymentAmount < 0 then .ok (p, .done 1)
      else .ok (p, .ready (source.addBalance (-tx.paymentAmount)).1
        (destination.addBalance tx.paymentAmount).1)
  | .ready source destination =>
    if txHash sha pb (tx.setPrevious source destination) ∈ p.2.map (txHash sha pb) then
      .error .assertion
    else
      .ok ((p.1, tx.setPrevious source destination :: p.2),
        .recorded (source.setPrevious 1 (txHash sha pb (tx.setPrevious source destination)))
          (destination.setPrevious 1 (txHash sha pb (tx.setPrevious source destination))))
  | .recorded source destination => .ok ((p.1.write source, p.2), .half destination)
  | .half destination => .ok ((p.1.write destination, p.2), .done 0)
  | .done code => .ok (p, .done code)

/-- The turn of one of two clerks. -/
def Clerk.turn (tx : Bool → Transaction) (v : (Books × List Transaction) × (Bool → Clerk))
    (who : Bool) : Except Fault ((Books × List Transaction) × (Bool → Clerk)) := do
  let r ← (v.2 who).step sha pb (tx who) v.1
  .ok (r.1, Function.update v.2 who r.2)

/-- Two clerks from their start, by a schedule of their turns. -/
def Clerk.interleave (tx : Bool → Transaction) (p : Books × List Transaction)
    (schedule : List Bool) : Except Fault ((Books × List Transaction) × (Bool → Clerk)) :=
  schedule.foldlM (turn sha pb tx) (p, fun _ => .start)

/-- The copies are those of the accounts that the transaction names. -/
def Clerk.Named (tx : Transaction) : Clerk → Prop
  | .start => True
  | .copied source => source.accountAddress = tx.sourceAddress
  | .ready source destination => source.accountAddress = tx.sourceAddress ∧
      destination.accountAddress = tx.destinationAddress
  | .recorded source destination => source.accountAddress = tx.sourceAddress ∧
      destination.accountAddress = tx.destinationAddress
  | .half destination => destination.accountAddress = tx.destinationAddress
  | .done _ => True

/-- The accounts that the two transactions name exist. -/
def Exist (tx : Bool → Transaction) (b : Books) : Prop :=
  ∀ who, b.accounts (tx who).sourceAddress ≠ none ∧ b.accounts (tx who).destinationAddress ≠ none

end Clerks

section Refinement

/-- The item by which an account is written back. -/
structure Carries (pb : Protobuf) (item : RadixMerkleTreeLeaf) (acc : Account) : Prop where
  index : item.index = acc.accountAddress
  data : item.data = acc.serializer pb

/-- A thread stands where the clerk does, with the same copies. -/
inductive Thread.Stands (pb : Protobuf) : Thread → Clerk → Prop where
  | start : Stands pb .start .start
  | gotSource {source : Account} : Stands pb (.gotSource (some source)) (.copied source)
  | accepted {source destination : Account} :
      Stands pb (.accepted source destination) (.ready source destination)
  | added {tx : Transaction} {sItem dItem : RadixMerkleTreeLeaf} {source destination : Account}
      (hs : Carries pb sItem source) (hd : Carries pb dItem destination) :
      Stands pb (.added tx sItem dItem) (.recorded source destination)
  | updatedSource {tx : Transaction} {dItem : RadixMerkleTreeLeaf} {destination : Account}
      (hd : Carries pb dItem destination) :
      Stands pb (.updatedSource tx dItem) (.half destination)
  | returned {tx : Transaction} {code : ℕ} : Stands pb (.returned tx code) (.done code)

/-- A ledger with one thread on it, and books with one clerk on them. -/
structure Stand (sha : Bytes → Uint256) (pb : Protobuf) (tx : Transaction)
    (addresses : Finset Uint256) (r : State × Thread)
    (q : (Books × List Transaction) × Clerk) : Prop where
  thread : r.2.Stands pb q.2
  named : q.2.Named tx
  sequence : r.1.2.ledgerSequence = 1
  ledger : ∃ ta tt, Reflects sha pb r.1 q.1.1 q.1.2 ta tt
  addresses : addresses ⊆ q.1.1.addresses

/-- The faults of two digests that coincide and of a string that is too long. -/
def Coincides (f : Fault) : Prop := f = .unchanged ∨ f = .outOfRange

/-- The first outcome is one of these faults, or both outcomes agree. -/
def Refines {a b : Type} (P : a → b → Prop) (x : Except Fault a) (y : Except Fault b) : Prop :=
  (∃ f, x = .error f ∧ Coincides f) ∨ Rel P x y

theorem Refines.bind {a b c d : Type} {P : a → b → Prop} {Q : c → d → Prop} {x : Except Fault a}
    {y : Except Fault b} {g : a → Except Fault c} {g' : b → Except Fault d} (h : Refines P x y)
    (hg : ∀ v w, P v w → Refines Q (g v) (g' w)) : Refines Q (x >>= g) (y >>= g') := by
  rcases h with ⟨f, hf, hcoincides⟩ | hrel
  · refine Or.inl ⟨f, ?_, hcoincides⟩
    rw [hf, error_bind]
  · cases hrel with
    | ok hvw => exact hg _ _ hvw
    | error e => exact Or.inr (.error e)

/-- A call that fails with such a fault only. -/
theorem refines_of_ne_error {a c d : Type} {Q : c → d → Prop} {x : Except Fault a}
    {g : a → Except Fault c} {y : Except Fault d}
    (hx : ∀ f, ¬ Coincides f → x ≠ .error f) (hg : ∀ v, x = .ok v → Refines Q (g v) y) :
    Refines Q (x >>= g) y := by
  cases hcase : x with
  | error f =>
    refine Or.inl ⟨f, rfl, ?_⟩
    by_contra hnot
    exact hx f hnot hcase
  | ok v => exact hg v hcase

theorem ofString_coincides {f : Fault} (hf : ¬ Coincides f) (str : Bytes) :
    Serializer.ofString str ≠ .error f :=
  ofString_ne_error (fun h => hf (Or.inr h)) str

/-- The indexes that are taken are those of the accepted transactions. -/
theorem TransactionRecords.contents_eq_none_iff (h : TransactionRecords sha pb tt accepted)
    (k : Uint256) : contents tt k = none ↔ k ∉ accepted.map (txHash sha pb) := by
  have hdata := h.data k
  rw [← Option.map_eq_none_iff (f := RadixMerkleTreeLeaf.data), hdata, Option.map_eq_none_iff,
    List.find?_eq_none, List.mem_map]
  simp only [decide_eq_true_eq]
  exact ⟨fun hfree ⟨tx, htx, hk⟩ => hfree tx htx hk, fun hfree tx htx hk => hfree ⟨tx, htx, hk⟩⟩

section Accesses

variable {tx : Transaction}

/-- The first `get_account_entry`. -/
theorem Reflects.refines_start (h : Reflects sha pb s b accepted ta tt)
    (hseq : s.2.ledgerSequence = 1) (hs : b.accounts tx.sourceAddress ≠ none) :
    Refines (Stand sha pb tx b.addresses) (Thread.step sha pb tx s .start)
      (Clerk.step sha pb tx (b, accepted) .start) := by
  obtain ⟨r, hr⟩ := exists_getAccountEntry h.trees h.accounts tx.sourceAddress
  obtain ⟨hadv, hentry⟩ := getAccountEntry_ok h.trees h.accounts hr
  obtain ⟨source, hsource⟩ := Option.ne_none_iff_exists'.mp hs
  rw [Thread.step, hr, ok_bind, hentry, Clerk.step, hsource]
  exact Or.inr (.ok ⟨.gotSource, b.address_eq _ _ hsource, hadv.sequence.trans hseq,
    ⟨ta, tt, hadv.trees, h.accounts, h.transactions⟩, Finset.Subset.refl _⟩)

/-- The second `get_account_entry` and the check of the copies. -/
theorem Reflects.refines_gotSource (h : Reflects sha pb s b accepted ta tt)
    (hseq : s.2.ledgerSequence = 1) (hd : b.accounts tx.destinationAddress ≠ none)
    {source : Account} (hsource : source.accountAddress = tx.sourceAddress) :
    Refines (Stand sha pb tx b.addresses) (Thread.step sha pb tx s (.gotSource (some source)))
      (Clerk.step sha pb tx (b, accepted) (.copied source)) := by
  obtain ⟨r, hr⟩ := exists_getAccountEntry h.trees h.accounts tx.destinationAddress
  obtain ⟨hadv, hentry⟩ := getAccountEntry_ok h.trees h.accounts hr
  obtain ⟨destination, hdestination⟩ := Option.ne_none_iff_exists'.mp hd
  have hreflects : Reflects sha pb r.1 b accepted ta tt := ⟨hadv.trees, h.accounts, h.transactions⟩
  rw [Thread.step, hr, ok_bind, hentry, Clerk.step, hdestination]
  dsimp only
  rcases lt_or_ge (source.accountBalance - tx.paymentAmount) 0 with hlt | hle
  · rw [Account.addBalance_neg_of_lt hlt, if_neg Bool.false_ne_true, if_pos hlt]
    exact Or.inr (.ok ⟨.returned, trivial, hadv.sequence.trans hseq, ⟨ta, tt, hreflects⟩,
      Finset.Subset.refl _⟩)
  · rw [if_pos (Account.addBalance_neg_of_le hle), if_neg (not_lt.mpr hle)]
    refine Or.inr (.ok ⟨.accepted, ⟨?_, ?_⟩, hadv.sequence.trans hseq, ⟨ta, tt, hreflects⟩,
      Finset.Subset.refl _⟩)
    · rw [Account.addBalance_address, hsource]
    · rw [Account.addBalance_address, b.address_eq _ _ hdestination]

/-- `add_item`, which stops where the index is taken. -/
theorem Reflects.refines_accepted (h : Reflects sha pb s b accepted ta tt)
    (hseq : s.2.ledgerSequence = 1) {source destination : Account}
    (hnamed : (Clerk.ready source destination).Named tx) :
    Refines (Stand sha pb tx b.addresses)
      (Thread.step sha pb tx s (.accepted source destination))
      (Clerk.step sha pb tx (b, accepted) (.ready source destination)) := by
  refine refines_of_ne_error (fun f hf => ofString_coincides hf _) fun data hdata => ?_
  have hhash : sha data.1 = txHash sha pb (tx.setPrevious source destination) := by
    rw [ofString_ok hdata]
    rfl
  rw [Clerk.step]
  dsimp only
  cases hw : RadixMerkleTree.addItem sha s.1 s.2.transactionTree
      (RadixMerkleTreeLeaf.ofSerializer (sha data.1) data) true with
  | error f =>
    have hcases : f = .unchanged ∨ f = .assertion ∧ ¬ contents tt (sha data.1) = none :=
      h.trees.transaction.change_error h.trees.transactionValid (o := .addItem _ true) hw
    rw [error_bind]
    rcases hcases with rfl | ⟨rfl, htaken⟩
    · exact Or.inl ⟨_, rfl, Or.inl rfl⟩
    · rw [h.transactions.contents_eq_none_iff, not_not, hhash] at htaken
      rw [if_pos htaken]
      exact Or.inr (.error _)
  | ok w =>
    obtain ⟨ho, hload, hmoves⟩ :=
      h.trees.transaction.change_ok h.trees.transactionValid (o := .addItem _ _) hw
    have hmoved := h.trees.moveTransaction hmoves hload (h.trees.transactionValid.changed ho)
    obtain ⟨l, hl⟩ := hmoved.trees.exists_updateTransactionTreeHash
    obtain ⟨tt', hadv, hrecords⟩ := addItem_transaction_ok h.trees h.transactions hdata hw hl
    have hfree : txHash sha pb (tx.setPrevious source destination) ∉
        accepted.map (txHash sha pb) := by
      have hnodup := hrecords.nodup
      rw [List.map_cons] at hnodup
      exact (List.nodup_cons.mp hnodup).1
    have hlseq : l.ledgerSequence = 1 := hadv.sequence.trans hseq
    rw [ok_bind, hl, ok_bind, if_neg hfree, hhash, hlseq]
    refine refines_of_ne_error (fun f hf => ofString_coincides hf _) fun ss hss => ?_
    refine refines_of_ne_error (fun f hf => ofString_coincides hf _) fun ds hds => ?_
    exact Or.inr (.ok ⟨.added ⟨rfl, ofString_ok hss⟩ ⟨rfl, ofString_ok hds⟩, hnamed, hlseq,
      ⟨ta, tt', hadv.trees, h.accounts, hrecords⟩, Finset.Subset.refl _⟩)

/-- `update_account_tree_entry` of an existing account. -/
theorem Reflects.refines_update (h : Reflects sha pb s b accepted ta tt)
    (hseq : s.2.ledgerSequence = 1) {item : RadixMerkleTreeLeaf} {acc : Account}
    (hitem : Carries pb item acc) (hacc : b.accounts acc.accountAddress ≠ none) {c d : Type}
    {Q : c → d → Prop} {g : State → Except Fault c} {y : Except Fault d}
    (hg : ∀ s' ta', Reflects sha pb s' (b.write acc) accepted ta' tt → s'.2.ledgerSequence = 1 →
      Refines Q (g s') y) :
    Refines Q (updateAccountTreeEntry sha s item >>= g) y := by
  refine refines_of_ne_error (fun f hf => ?_) fun s' hs' => ?_
  · rw [← hitem.index] at hacc
    exact updateAccountTreeEntry_ne_error h.trees h.accounts hacc fun hunchanged =>
      hf (Or.inl hunchanged)
  · obtain ⟨ta', hadv, ha⟩ :=
      updateAccountTreeEntry_ok h.trees h.accounts hitem.index hitem.data hs'
    exact hg s' ta' ⟨hadv.trees, ha, h.transactions⟩ (hadv.sequence.trans hseq)

/-- An access of a thread is the access of its clerk. -/
theorem Reflects.refines_step (h : Reflects sha pb s b accepted ta tt)
    (hseq : s.2.ledgerSequence = 1) (hs : b.accounts tx.sourceAddress ≠ none)
    (hd : b.accounts tx.destinationAddress ≠ none) {thread : Thread} {clerk : Clerk}
    (hstands : thread.Stands pb clerk) (hnamed : clerk.Named tx) :
    Refines (Stand sha pb tx b.addresses) (thread.step sha pb tx s)
      (clerk.step sha pb tx (b, accepted)) := by
  cases hstands with
  | start => exact h.refines_start hseq hs
  | gotSource => exact h.refines_gotSource hseq hd hnamed
  | accepted => exact h.refines_accepted hseq hnamed
  | added hsItem hdItem =>
    refine h.refines_update hseq hsItem (hnamed.1.symm ▸ hs) fun s' ta' hreflects hseq' => ?_
    exact Or.inr (.ok ⟨.updatedSource hdItem, hnamed.2, hseq', ⟨ta', tt, hreflects⟩,
      Finset.subset_insert _ _⟩)
  | updatedSource hdItem =>
    have hd' : b.accounts _ ≠ none := hnamed.symm ▸ hd
    refine h.refines_update hseq hdItem hd' fun s' ta' hreflects hseq' => ?_
    obtain ⟨l, hl⟩ := hreflects.trees.exists_updateAccountTreeHash
    have hadv := hreflects.trees.refl.updateAccountTreeHash hl
    rw [hl, ok_bind]
    exact Or.inr (.ok ⟨.returned, trivial, hadv.sequence.trans hseq',
      ⟨ta', tt, hadv.trees, hreflects.accounts, hreflects.transactions⟩,
      Finset.subset_insert _ _⟩)
  | returned =>
    exact Or.inr (.ok ⟨.returned, trivial, hseq, ⟨ta, tt, h⟩, Finset.Subset.refl _⟩)

end Accesses

/-- Two threads on a ledger, and two clerks on its books. -/
structure Tracks (sha : Bytes → Uint256) (pb : Protobuf) (tx : Bool → Transaction)
    (w : State × (Bool → Thread)) (v : (Books × List Transaction) × (Bool → Clerk)) : Prop where
  threads : ∀ who, (w.2 who).Stands pb (v.2 who)
  named : ∀ who, (v.2 who).Named (tx who)
  sequence : w.1.2.ledgerSequence = 1
  ledger : ∃ ta tt, Reflects sha pb w.1 v.1.1 v.1.2 ta tt
  exist : Exist tx v.1.1

theorem Exist.mono {b' : Books} (h : Exist tx b) (hsub : b.addresses ⊆ b'.addresses) :
    Exist tx b' := by
  have hmem : ∀ {b : Books} {k}, b.accounts k ≠ none ↔ k ∈ b.addresses := fun {b k} => by
    rw [b.mem_addresses, Option.isSome_iff_ne_none]
  exact fun who => ⟨hmem.mpr (hsub (hmem.mp (h who).1)), hmem.mpr (hsub (hmem.mp (h who).2))⟩

/-- A turn of a thread is the turn of its clerk. -/
theorem Tracks.refines_turn {w : State × (Bool → Thread)}
    {v : (Books × List Transaction) × (Bool → Clerk)} (h : Tracks sha pb tx w v) (who : Bool) :
    Refines (Tracks sha pb tx) (turn sha pb tx w who) (Clerk.turn sha pb tx v who) := by
  obtain ⟨ta, tt, hreflects⟩ := h.ledger
  refine (hreflects.refines_step h.sequence (h.exist who).1 (h.exist who).2 (h.threads who)
    (h.named who)).bind fun r q hstand => Or.inr (.ok ⟨fun other => ?_, fun other => ?_,
      hstand.sequence, hstand.ledger, h.exist.mono hstand.addresses⟩)
  · dsimp only
    by_cases hother : other = who
    · rw [hother, Function.update_self, Function.update_self]
      exact hstand.thread
    · rw [Function.update_of_ne hother, Function.update_of_ne hother]
      exact h.threads other
  · dsimp only
    by_cases hother : other = who
    · rw [hother, Function.update_self]
      exact hstand.named
    · rw [Function.update_of_ne hother]
      exact h.named other

/-- Whole interleavings correspond, up to the first coincidence of digests. -/
theorem Reflects.interleave_refines (h : Reflects sha pb s b accepted ta tt)
    (hseq : s.2.ledgerSequence = 1) (hexist : Exist tx b) (schedule : List Bool) :
    Refines (Tracks sha pb tx) (interleave sha pb tx s schedule)
      (Clerk.interleave sha pb tx (b, accepted) schedule) := by
  induction schedule using List.reverseRecOn with
  | nil =>
    exact Or.inr (.ok ⟨fun _ => .start, fun _ => trivial, hseq, ⟨ta, tt, h⟩, hexist⟩)
  | append_singleton pre who ih =>
    unfold interleave Clerk.interleave at ih ⊢
    rw [List.foldlM_append, List.foldlM_append]
    refine ih.bind fun w v hv => ?_
    rw [List.foldlM_cons, List.foldlM_cons]
    exact (hv.refines_turn who).bind fun w' v' hv' => Or.inr (.ok hv')

end Refinement

section Projection

/-- The transfer between two entries that a transaction stands for. -/
def transferOf (tx : Transaction) (h : tx.sourceAddress ≠ tx.destinationAddress) :
    Transfer Uint256 ℚ :=
  ⟨tx.sourceAddress, tx.destinationAddress, tx.paymentAmount, h⟩

/-- The transfers of the two threads. -/
def transfers (tx : Bool → Transaction)
    (hne : ∀ who, (tx who).sourceAddress ≠ (tx who).destinationAddress) (who : Bool) :
    Transfer Uint256 ℚ :=
  transferOf (tx who) (hne who)

/-- Where the transfer of a clerk stands. -/
def Clerk.phase : Clerk → Phase ℚ
  | .start => .start
  | .copied source => .read source.accountBalance
  | .ready source destination => .ready source.accountBalance destination.accountBalance
  | .recorded source destination => .added source.accountBalance destination.accountBalance
  | .half destination => .half destination.accountBalance
  | .done code => .done (code == 0)

/-- A written account replaces its balance. -/
theorem balance_write_eq (b : Books) (acc : Account) {k : Uint256} (hk : acc.accountAddress = k) :
    (b.write acc).balance = Function.update b.balance k acc.accountBalance := by
  funext k'
  rw [Books.balance_write, Function.update_apply, hk]

/-- An access of a clerk is the access of its transfer to the balances. -/
theorem Clerk.step_phase {tx : Transaction} (hne : tx.sourceAddress ≠ tx.destinationAddress)
    {p : Books × List Transaction} {clerk : Clerk} (hnamed : clerk.Named tx)
    {r : (Books × List Transaction) × Clerk} (hr : clerk.step sha pb tx p = .ok r) :
    r.2.Named tx ∧
      (r.1.1.balance, r.2.phase) = (transferOf tx hne).step p.1.balance clerk.phase := by
  cases clerk with
  | start =>
    unfold Clerk.step at hr
    cases hs : p.1.accounts tx.sourceAddress with
    | none =>
      rw [hs] at hr
      cases hr
    | some source =>
      rw [hs] at hr
      cases hr
      refine ⟨p.1.address_eq _ _ hs, ?_⟩
      change (p.1.balance, Phase.read source.accountBalance) =
        (p.1.balance, .read (p.1.balance tx.sourceAddress))
      rw [Books.balance_eq hs]
  | copied source =>
    unfold Clerk.step at hr
    cases hd : p.1.accounts tx.destinationAddress with
    | none =>
      rw [hd] at hr
      cases hr
    | some destination =>
      rw [hd] at hr
      dsimp only at hr
      rcases lt_or_ge (source.accountBalance - tx.paymentAmount) 0 with hlt | hle
      · rw [if_pos hlt] at hr
        cases hr
        exact ⟨trivial, (Transfer.step_read_of_lt (t := transferOf tx hne) hlt).symm⟩
      · rw [if_neg (not_lt.mpr hle)] at hr
        cases hr
        have hcredit : (destination.addBalance tx.paymentAmount).1.accountBalance =
            Transfer.credit (p.1.balance tx.destinationAddress) tx.paymentAmount := by
          rw [Books.balance_eq hd]
          exact Account.addBalance_balance ..
        refine ⟨⟨?_, ?_⟩, ?_⟩
        · rw [Account.addBalance_address]
          exact hnamed
        · rw [Account.addBalance_address, p.1.address_eq _ _ hd]
        · dsimp only [Clerk.phase]
          rw [Account.addBalance_neg_balance hle, hcredit]
          exact (Transfer.step_read_of_le (t := transferOf tx hne) hle).symm
  | ready source destination =>
    rw [Clerk.step] at hr
    split at hr
    · cases hr
    · cases hr
      exact ⟨hnamed, rfl⟩
  | recorded source destination =>
    cases hr
    refine ⟨hnamed.2, Prod.ext ?_ rfl⟩
    exact balance_write_eq p.1 source hnamed.1
  | half destination =>
    cases hr
    refine ⟨trivial, Prod.ext ?_ rfl⟩
    exact balance_write_eq p.1 destination hnamed
  | done code =>
    cases hr
    exact ⟨trivial, rfl⟩

variable (hne : ∀ who, (tx who).sourceAddress ≠ (tx who).destinationAddress)

/-- Two clerks and the two transfers on the balances of their books. -/
def Projects (tx : Bool → Transaction) (v : (Books × List Transaction) × (Bool → Clerk))
    (q : (Uint256 → ℚ) × (Bool → Phase ℚ)) : Prop :=
  (∀ who, (v.2 who).Named (tx who)) ∧ v.1.1.balance = q.1 ∧ ∀ who, (v.2 who).phase = q.2 who

theorem Projects.turn {v v' : (Books × List Transaction) × (Bool → Clerk)} {who : Bool}
    {q : (Uint256 → ℚ) × (Bool → Phase ℚ)} (h : Projects tx v q)
    (hv : Clerk.turn sha pb tx v who = .ok v') :
    Projects tx v' (Transfer.turn (transfers tx hne) q who) := by
  obtain ⟨hnamed, hbalance, hphases⟩ := h
  obtain ⟨r, hr, hv⟩ := bind_eq_ok.mp hv
  cases hv
  obtain ⟨hnamed', hstep⟩ := Clerk.step_phase (hne who) (hnamed who) hr
  rw [hbalance, hphases who] at hstep
  refine ⟨fun other => ?_, congrArg Prod.fst hstep, fun other => ?_⟩
  · dsimp only
    by_cases hother : other = who
    · rw [hother, Function.update_self]
      exact hnamed'
    · rw [Function.update_of_ne hother]
      exact hnamed other
  · by_cases hother : other = who
    · rw [hother, Transfer.turn_self]
      dsimp only
      rw [Function.update_self]
      exact congrArg Prod.snd hstep
    · rw [Transfer.turn_other q hother]
      dsimp only
      rw [Function.update_of_ne hother]
      exact hphases other

/-- Whole interleavings of the clerks are those of the transfers. -/
theorem Clerk.interleave_projects {p : Books × List Transaction} {schedule : List Bool}
    {v : (Books × List Transaction) × (Bool → Clerk)}
    (hv : Clerk.interleave sha pb tx p schedule = .ok v) :
    Projects tx v (Transfer.interleave (transfers tx hne) p.1.balance schedule) := by
  have hstart : Projects tx (p, fun _ => .start) (p.1.balance, fun _ => .start) :=
    ⟨fun _ => trivial, rfl, fun _ => rfl⟩
  have hstep : ∀ v who v' q, Projects tx v q → Clerk.turn sha pb tx v who = .ok v' →
      Projects tx v' (Transfer.turn (transfers tx hne) q who) :=
    fun _ _ _ _ hq hturn => Projects.turn hne hq hturn
  exact run_simulation hstep hstart hv

/-- A thread has returned exactly when its transfer is done. -/
theorem Thread.Stands.isReturned_iff {thread : Thread} {clerk : Clerk}
    (h : thread.Stands pb clerk) :
    thread.isReturned = true ↔ ∃ success, clerk.phase = .done success := by
  cases h <;> simp [Thread.isReturned, Clerk.phase]

/-- The balances and the phases of an interleaving of the two threads. -/
theorem Reflects.interleave_balances (h : Reflects sha pb s b accepted ta tt)
    (hseq : s.2.ledgerSequence = 1) (hexist : Exist tx b) {schedule : List Bool}
    {w : State × (Bool → Thread)} (hw : interleave sha pb tx s schedule = .ok w) :
    balanceOf sha pb w.1 = (Transfer.interleave (transfers tx hne) b.balance schedule).1 ∧
      ∀ who, (w.2 who).isReturned = true ↔ ∃ success,
        (Transfer.interleave (transfers tx hne) b.balance schedule).2 who = .done success := by
  have hrefines := h.interleave_refines hseq hexist schedule
  rw [hw] at hrefines
  obtain ⟨v, hv, htracks⟩ := (hrefines.resolve_left (by simp)).exists_ok rfl
  obtain ⟨_, hbalance, hphases⟩ := Clerk.interleave_projects hne hv
  obtain ⟨ta', tt', hreflects⟩ := htracks.ledger
  refine ⟨?_, fun who => ?_⟩
  · rw [← hbalance]
    exact funext hreflects.balanceOf_eq
  · rw [(htracks.threads who).isReturned_iff, hphases who]

/-- The balances of a serial order. -/
theorem Reflects.serial_balanceOf (h : Reflects sha pb s b accepted ta tt)
    (hseq : s.2.ledgerSequence = 1) (hexist : Exist tx b) {first : Bool} {r : State}
    (hr : serial sha pb tx s first = .ok r) :
    balanceOf sha pb r = Transfer.alone (transfers tx hne !first)
      (Transfer.alone (transfers tx hne first) b.balance) := by
  obtain ⟨threads, hthreads⟩ := serial_ok_iff.mp hr
  exact (h.interleave_balances hne hseq hexist hthreads).1.trans (Transfer.interleave_serial ..)

/-- Where every interleaving returns, no update is lost exactly if those of the transfers are
serial. -/
theorem Reflects.noLostUpdate_iff (h : Reflects sha pb s b accepted ta tt)
    (hseq : s.2.ledgerSequence = 1) (hexist : Exist tx b) :
    NoLostUpdate sha pb tx s ↔
      (∀ schedule, ∃ w, interleave sha pb tx s schedule = .ok w) ∧
        Transfer.Serializable (transfers tx hne) b.balance := by
  constructor
  · intro hkept
    refine ⟨fun schedule => ?_, fun schedule success hdone => ?_⟩
    · obtain ⟨w, hw, _⟩ := hkept schedule
      exact ⟨w, hw⟩
    · obtain ⟨w, hw, hserial⟩ := hkept schedule
      obtain ⟨hbalances, hreturned⟩ := h.interleave_balances hne hseq hexist hw
      obtain ⟨first, r, hr, hequal⟩ := hserial fun who =>
        (hreturned who).mpr ⟨success who, hdone who⟩
      refine ⟨first, ?_⟩
      rw [← hbalances, ← h.serial_balanceOf hne hseq hexist hr]
      exact funext hequal
  · rintro ⟨hreturns, hserializable⟩ schedule
    obtain ⟨w, hw⟩ := hreturns schedule
    obtain ⟨hbalances, hreturned⟩ := h.interleave_balances hne hseq hexist hw
    refine ⟨w, hw, fun hboth => ?_⟩
    choose success hdone using fun who => (hreturned who).mp (hboth who)
    obtain ⟨first, hfirst⟩ := hserializable schedule success hdone
    obtain ⟨w', hw'⟩ := hreturns (List.replicate 5 first ++ List.replicate 5 (!first))
    have hr : serial sha pb tx s first = .ok w'.1 := serial_ok_iff.mpr ⟨w'.2, hw'⟩
    refine ⟨first, w'.1, hr, fun k => ?_⟩
    rw [hbalances, hfirst, h.serial_balanceOf hne hseq hexist hr]

end Projection

end Bubi.Ledger
