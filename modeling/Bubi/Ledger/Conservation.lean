import Bubi.Ledger.Posting
import Mathlib.Algebra.BigOperators.Fin
import Mathlib.Tactic.Linarith
import Mathlib.Tactic.Ring

/-!
# Conservation of money

The sum of all balances in the account tree, and the single balances, over a run on an
empty ledger. A transaction between two copies of one account writes the destination's
copy last, and the result of the destination's `add_balance` is ignored, so the sum is
kept exactly under a condition on the two balances and the amount.
-/

namespace Bubi

open Bubi.Core

namespace Books

variable {b : Books} {tx : Transaction} {source destination : Account} {seq : BitVec 32}
  {hash : Uint256}

theorem balance_eq {k : Uint256} {acc : Account} (h : b.accounts k = some acc) :
    b.balance k = acc.accountBalance := by
  simp [balance, h]

/-- The balances after an accepted transaction. -/
theorem balance_pay (hs : b.accounts tx.sourceAddress = some source)
    (hd : b.accounts tx.destinationAddress = some destination)
    (hle : 0 ≤ source.accountBalance - tx.paymentAmount) (k : Uint256) :
    (b.pay tx source destination seq hash).balance k =
      if k = tx.destinationAddress then
        if destination.accountBalance + tx.paymentAmount < 0 then destination.accountBalance
        else destination.accountBalance + tx.paymentAmount
      else if k = tx.sourceAddress then source.accountBalance - tx.paymentAmount
      else b.balance k := by
  unfold balance
  rw [accounts_pay hs hd]
  split
  · exact Account.addBalance_balance destination tx.paymentAmount
  · split
    · exact Account.addBalance_neg_balance hle
    · rfl

/-- What an accepted transaction adds to the sum of all balances. -/
theorem total_pay (hs : b.accounts tx.sourceAddress = some source)
    (hd : b.accounts tx.destinationAddress = some destination)
    (hle : 0 ≤ source.accountBalance - tx.paymentAmount) :
    (b.pay tx source destination seq hash).total = b.total +
      if tx.sourceAddress = tx.destinationAddress then
        if source.accountBalance + tx.paymentAmount < 0 then 0 else tx.paymentAmount
      else if destination.accountBalance + tx.paymentAmount < 0 then -tx.paymentAmount else 0 := by
  have hsource := b.address_eq _ _ hs
  have hdestination := b.address_eq _ _ hd
  unfold pay
  simp only [total_write, balance_write, Account.setPrevious_address, Account.addBalance_address,
    Account.setPrevious_balance, Account.addBalance_neg_balance hle, hsource, hdestination,
    balance_eq hs]
  rw [Account.addBalance_balance]
  by_cases heq : tx.sourceAddress = tx.destinationAddress
  · -- Both copies were decoded from one account.
    obtain rfl : source = destination := by
      rw [heq, hd] at hs
      exact (Option.some.inj hs).symm
    rw [if_pos heq.symm, if_pos heq]
    split <;> ring
  · rw [if_neg (Ne.symm heq), if_neg heq, balance_eq hd]
    split <;> ring

/-- An accepted transaction keeps the sum exactly when it moves nothing, or reaches another
account, or leaves its one account as it was. -/
theorem total_pay_eq_iff (hs : b.accounts tx.sourceAddress = some source)
    (hd : b.accounts tx.destinationAddress = some destination)
    (hle : 0 ≤ source.accountBalance - tx.paymentAmount) :
    (b.pay tx source destination seq hash).total = b.total ↔
      tx.paymentAmount = 0 ∨
      (tx.sourceAddress ≠ tx.destinationAddress ∧
        0 ≤ destination.accountBalance + tx.paymentAmount) ∨
      (tx.sourceAddress = tx.destinationAddress ∧
        source.accountBalance + tx.paymentAmount < 0) := by
  rw [total_pay hs hd hle]
  by_cases heq : tx.sourceAddress = tx.destinationAddress
  · by_cases hneg : source.accountBalance + tx.paymentAmount < 0
    · simp [heq, hneg]
    · simp [heq, hneg]
  · by_cases hneg : destination.accountBalance + tx.paymentAmount < 0
    · simp [heq, hneg]
    · simp [heq, hneg, not_lt.mp hneg]

end Books

namespace Ledger

open MerkleTrie

section Total

variable (sha : Bytes → Uint256) (pb : Protobuf)

/-- The accounts of a tree in memory, as the `dfs` of `bubi_server.cpp` visits them. -/
def dfs : RadixMerkleTreeNode → Except Fault (List Account)
  | .null => .error .nullDeref
  | .node d children =>
    if d.isInner then
      (List.finRange 16).foldlM
        (fun res i =>
          if d.isEmptyBranch i then .ok res
          else do
            let accs ← dfs (children i)
            .ok (res ++ accs)) []
    else
      match d.item with
      | none => .error .nullDeref
      | some item => do
        let acc ← Account.unserializer pb item.data
        .ok [acc]

/-- The sum of the balances of all accounts in a tree in memory. -/
def totalBalance (tree : RadixMerkleTreeNode) : Except Fault ℚ := do
  let accs ← dfs pb tree
  .ok (accs.map Account.accountBalance).sum

/-- Whether a call issues the balance of a new account. -/
def Step.creates : Step → Bool
  | .createAccount _ => true
  | .addTransactionEntry _ => false

/-- The number of accounts that a run created. -/
def created (steps : List Step) : ℕ := steps.countP Step.creates

/-- The account that `get_account_entry` returns. -/
def entry (s : State) (hash : Uint256) : Option Account :=
  match getAccountEntry sha pb s hash with
  | .ok r => r.2
  | .error _ => none

/-- A call that keeps the sum of all balances, up to what it issues: a transaction that is
rejected, moves nothing, reaches another account, or would overdraw its one account. -/
def Conserves (s : State) : Step → Prop
  | .createAccount _ => True
  | .addTransactionEntry tx =>
    ∀ source destination, entry sha pb s tx.sourceAddress = some source →
      entry sha pb s tx.destinationAddress = some destination →
      source.accountBalance - tx.paymentAmount < 0 ∨
      tx.paymentAmount = 0 ∨
      (tx.sourceAddress ≠ tx.destinationAddress ∧
        0 ≤ destination.accountBalance + tx.paymentAmount) ∨
      (tx.sourceAddress = tx.destinationAddress ∧
        source.accountBalance + tx.paymentAmount < 0)

end Total

variable {sha : Bytes → Uint256} {pb : Protobuf}

/-- The traversal of a fully loaded tree collects the balances of its leaves. -/
theorem dfs_embed {t : MerkleTrie} (ht : t.isEmpty = false)
    (hdecoded : ∀ l ∈ t, ∃ acc, Account.unserializer pb l.item.data = .ok acc) :
    ∃ accs, dfs pb (embed sha t) = .ok accs ∧
      (accs.map Account.accountBalance).sum = t.sum fun l => balanceIn pb l.item := by
  induction t with
  | empty => cases ht
  | leaf l =>
    obtain ⟨acc, hacc⟩ := hdecoded l (Trie.mem_leaf.mpr rfl)
    refine ⟨[acc], ?_, by simp [Trie.sum, balanceIn, hacc]⟩
    rw [embed, dfs, isInner_leaf]
    simp [LeafNode.data, hacc]
  | inner a c ih =>
    -- The loop over the branches, from any list of accounts collected so far.
    have hloop : ∀ (is : List (Fin 16)) (res : List Account),
        ∃ accs, is.foldlM
            (fun res i =>
              if (innerData sha a c).isEmptyBranch i then .ok res
              else do
                let accs ← dfs pb (embed sha (c i))
                .ok (res ++ accs)) res = .ok (res ++ accs) ∧
          (accs.map Account.accountBalance).sum =
            (is.map fun i => (c i).sum fun l => balanceIn pb l.item).sum := by
      intro is
      induction is with
      | nil =>
        intro res
        exact ⟨[], by simp [pure, Except.pure], rfl⟩
      | cons i is ihis =>
        intro res
        rw [List.foldlM_cons, isEmptyBranch_innerData]
        cases hempty : (c i).isEmpty with
        | true =>
          obtain ⟨accs, hfold, hsum⟩ := ihis res
          have hzero : ((c i).sum fun l => balanceIn pb l.item) = 0 := by
            rw [Trie.isEmpty_iff.mp hempty]
            rfl
          refine ⟨accs, ?_, ?_⟩
          · rw [if_pos rfl, ok_bind]
            exact hfold
          · rw [hsum, List.map_cons, List.sum_cons, hzero, zero_add]
        | false =>
          obtain ⟨accs, hdfs, hsum⟩ :=
            ih i hempty fun l hl => hdecoded l (Trie.mem_inner.mpr ⟨i, hl⟩)
          obtain ⟨accs', hfold, hsum'⟩ := ihis (res ++ accs)
          refine ⟨accs ++ accs', ?_, ?_⟩
          · rw [if_neg Bool.false_ne_true, hdfs, ok_bind, ok_bind, ← List.append_assoc]
            exact hfold
          · rw [List.map_append, List.sum_append, hsum, hsum', List.map_cons, List.sum_cons]
    obtain ⟨accs, hfold, hsum⟩ := hloop (List.finRange 16) []
    refine ⟨accs, ?_, ?_⟩
    · rw [embed, dfs, isInner_innerData, if_pos rfl]
      exact hfold
    · rw [hsum, Trie.sum, Fin.sum_univ_def]

section Reflects

variable {s : State} {b : Books} {accepted : List Transaction} {ta tt : MerkleTrie}

theorem Reflects.entry_eq (h : Reflects sha pb s b accepted ta tt) (k : Uint256) :
    entry sha pb s k = b.accounts k := by
  obtain ⟨w, hw⟩ := exists_getAccountEntry h.trees h.accounts k
  obtain ⟨_, hentry⟩ := getAccountEntry_ok h.trees h.accounts hw
  rw [entry, hw]
  exact hentry

theorem Reflects.total_step_iff (h : Reflects sha pb s b accepted ta tt) (seq : BitVec 32)
    {r' : State × List Transaction} {o : Step}
    (hr : Ledger.step sha pb (s, accepted) o = .ok r') :
    (postStep sha pb seq (b, accepted) o).1.total = b.total + 1000 * created [o] ↔
      Conserves sha pb s o := by
  cases o with
  | createAccount accPub =>
    obtain ⟨s', hs', _⟩ := bind_eq_ok.mp hr
    obtain ⟨hfree, _⟩ := h.createAccount_ok hs'
    have hzero : b.balance (sha accPub) = 0 := by simp [Books.balance, hfree]
    simp [postStep, Books.total_write, newAccount, hzero, Conserves, created, Step.creates]
  | addTransactionEntry tx =>
    obtain ⟨r'', hr'', _⟩ := bind_eq_ok.mp hr
    have hnone : created [Step.addTransactionEntry tx] = 0 := rfl
    rw [hnone, Nat.cast_zero, mul_zero, add_zero, Conserves, h.entry_eq, h.entry_eq, postStep]
    obtain ⟨source, hs, ⟨hlt, _⟩ | ⟨hle, destination, hd, _⟩⟩ := h.addTransactionEntry_ok hr''
    · rw [post_rejected hs hlt]
      refine iff_of_true rfl ?_
      intro source' destination hs' _
      rw [hs] at hs'
      exact Or.inl (Option.some.inj hs' ▸ hlt)
    · rw [post_accepted hs hd hle, Books.total_pay_eq_iff hs hd hle]
      constructor
      · intro hkeep source' destination' hs' hd'
        rw [hs] at hs'
        rw [hd] at hd'
        rw [← Option.some.inj hs', ← Option.some.inj hd']
        exact Or.inr hkeep
      · intro hkeep
        exact (hkeep source destination hs hd).resolve_left (not_lt.mpr hle)

end Reflects

section InStep

variable {r : State × List Transaction} {p : Books × List Transaction}

/-- The accounts in the tree sum up to the total of the books. -/
theorem InStep.totalBalance_eq (h : InStep sha pb r p) :
    totalBalance pb r.1.2.accountTree = .ok p.1.total := by
  obtain ⟨ta, tt, hreflects, hloaded⟩ := h.reflects
  obtain ⟨hpending, _⟩ := List.append_eq_nil_iff.mp hloaded
  have hvalid := hreflects.trees.accountValid
  have hdecoded : ∀ l ∈ ta, ∃ acc, Account.unserializer pb l.item.data = .ok acc := by
    intro l hl
    exact exists_decoded (Account.unserializer_serializer pb) (hreflects.accounts.data l.key)
      (hvalid.contents_key hl)
  obtain ⟨accs, hdfs, hsum⟩ := @dfs_embed sha pb ta hvalid.isEmpty_eq hdecoded
  have htree : r.1.2.accountTree = embed sha ta := hreflects.trees.account.eq_embed hpending
  rw [totalBalance, htree, hdfs, ok_bind, hsum, hreflects.accounts.total]

/-- `get_account_entry` reads the books. -/
theorem InStep.entry_eq (h : InStep sha pb r p) (k : Uint256) :
    entry sha pb r.1 k = p.1.accounts k := by
  obtain ⟨ta, tt, hreflects, _⟩ := h.reflects
  exact hreflects.entry_eq k

/-- A step adds to the total what it issues exactly when it conserves money. -/
theorem InStep.total_step_iff (h : InStep sha pb r p) {r' : State × List Transaction} {o : Step}
    (hr : Ledger.step sha pb r o = .ok r') :
    (postStep sha pb 1 p o).1.total = p.1.total + 1000 * created [o] ↔ Conserves sha pb r.1 o := by
  obtain ⟨s, accepted⟩ := r
  obtain ⟨b, accepted'⟩ := p
  obtain ⟨haccepted, ⟨ta, tt, hreflects, _⟩, _⟩ := h
  obtain rfl : accepted = accepted' := haccepted
  exact hreflects.total_step_iff 1 hr

end InStep

theorem created_snoc (pre : List Step) (o : Step) :
    created (pre ++ [o]) = created pre + created [o] :=
  List.countP_append ..

/-- Money is conserved along a run on an empty ledger, that is after each of its calls the
balances in the account tree sum up to 1000 for each created account, exactly when every
call of the run conserves it: a transaction must be rejected, move nothing, reach another
account without overdrawing it, or overdraw the one account that it names twice. -/
theorem total_conserved_iff (sha : Bytes → Uint256) (pb : Protobuf) (db : Database)
    (steps : List Step) (r : State × List Transaction) (hr : run sha pb db steps = .ok r) :
    (∀ pre, pre <+: steps → ∀ r', run sha pb db pre = .ok r' →
      totalBalance pb r'.1.2.accountTree = .ok (1000 * created pre)) ↔
    ∀ pre o, pre ++ [o] <+: steps → ∀ r', run sha pb db pre = .ok r' →
      Conserves sha pb r'.1 o := by
  -- A call in the middle of the run starts and ends in states of the run.
  have hsplit : ∀ pre o, pre ++ [o] <+: steps →
      ∃ m m', run sha pb db pre = .ok m ∧ step sha pb m o = .ok m' ∧
        run sha pb db (pre ++ [o]) = .ok m' := by
    rintro pre o ⟨post, rfl⟩
    obtain ⟨m', hm', _⟩ := run_append_ok.mp hr
    obtain ⟨m, hm, hstep⟩ := run_snoc_ok.mp hm'
    exact ⟨m, m', hm, hstep, hm'⟩
  constructor
  · intro hkeep pre o hpre r' hr'
    obtain ⟨m, m', hm, hstep, hm'⟩ := hsplit pre o hpre
    obtain rfl : m = r' := Except.ok.inj (hm.symm.trans hr')
    have hbefore := hkeep pre ((List.prefix_append pre [o]).trans hpre) m hm
    have hafter := hkeep (pre ++ [o]) hpre m' hm'
    rw [(run_inStep hm).totalBalance_eq, Except.ok.injEq] at hbefore
    rw [(run_inStep hm').totalBalance_eq, Except.ok.injEq, posted_snoc, created_snoc] at hafter
    refine ((run_inStep hm).total_step_iff hstep).mp ?_
    rw [hafter, hbefore]
    push_cast
    ring
  · intro hconserves pre
    induction pre using List.reverseRecOn with
    | nil =>
      intro _ r' hr'
      rw [(run_inStep hr').totalBalance_eq]
      simp [posted, Books.total, Books.empty, created]
    | append_singleton pre o ih =>
      intro hpre r' hr'
      obtain ⟨m, m', hm, hstep, hm'⟩ := hsplit pre o hpre
      obtain rfl : m' = r' := Except.ok.inj (hm'.symm.trans hr')
      have hbefore := ih ((List.prefix_append pre [o]).trans hpre) m hm
      rw [(run_inStep hm).totalBalance_eq, Except.ok.injEq] at hbefore
      have hstep := ((run_inStep hm).total_step_iff hstep).mpr (hconserves pre o hpre m hm)
      rw [(run_inStep hr').totalBalance_eq, posted_snoc, hstep, hbefore, created_snoc]
      push_cast
      ring_nf

/-- Two accounts and a payment of 100 from the first to the second. -/
def transferRun : List Step :=
  [.createAccount (sampleName 1), .createAccount (sampleName 2),
    .addTransactionEntry (samplePayment 1 2 100)]

theorem exists_transferRun :
    ∃ r, run checksum plainProtobuf (fun _ => none) transferRun = .ok r :=
  exists_of_isOk (by decide +kernel)

theorem total_conserved_transferRun :
    ∃ r, run checksum plainProtobuf (fun _ => none) transferRun = .ok r ∧
      ((∀ pre, pre <+: transferRun →
          ∀ r', run checksum plainProtobuf (fun _ => none) pre = .ok r' →
            totalBalance plainProtobuf r'.1.2.accountTree = .ok (1000 * created pre)) ↔
        ∀ pre o, pre ++ [o] <+: transferRun →
          ∀ r', run checksum plainProtobuf (fun _ => none) pre = .ok r' →
            Conserves checksum plainProtobuf r'.1 o) := by
  obtain ⟨r, hr⟩ := exists_transferRun
  exact ⟨r, hr, total_conserved_iff _ _ _ _ r hr⟩

/-- A payment of 100 from an account to itself leaves 1100 where 1000 were issued. -/
theorem selfPayment_creates_money :
    created [.createAccount (sampleName 1), .addTransactionEntry (samplePayment 1 1 100)] = 1 ∧
    (do
      let r ← run checksum plainProtobuf (fun _ => none)
        [.createAccount (sampleName 1), .addTransactionEntry (samplePayment 1 1 100)]
      totalBalance plainProtobuf r.1.2.accountTree).toOption = some 1100 := by
  decide +kernel

end Ledger

end Bubi
