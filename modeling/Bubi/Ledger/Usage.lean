import Bubi.Ledger.History
import Bubi.Ledger.Restart

/-!
# Ledgers in use

The ledger behind `last_ledger` over the life of a node: accounts are created and
transactions added, both are looked up, and the process stops and starts again. As long as
no two nodes of the trees carry the same hash where the process stops, every ledger in use
has its books, its transactions are linked and its cached hashes are current.
-/

namespace Bubi.Ledger

open Bubi.Core MerkleTrie

section Runs

variable (sha : Bytes → Uint256) (pb : Protobuf)

/-- What happens to the ledger behind `last_ledger`. -/
inductive Usage where
  | step (o : Step)
  | getAccountEntry (hash : Uint256)
  | getTransactionEntry (hash : Uint256)
  /-- The end of the process and the start of the next. -/
  | restart

/-- One use of the ledger, with the accepted transactions so far, the newest first. -/
def usage (r : State × List Transaction) : Usage → Except Fault (State × List Transaction)
  | .step o => step sha pb r o
  | .getAccountEntry hash => do
    let v ← getAccountEntry sha pb r.1 hash
    .ok (v.1, r.2)
  | .getTransactionEntry hash => do
    let v ← getTransactionEntry sha pb r.1 hash
    .ok (v.1, r.2)
  | .restart => do
    let saved ← save r.1
    let s ← load sha saved.1 saved.2
    .ok (s, r.2)

/-- An empty ledger in use. -/
def runUsages (db : Database) (us : List Usage) : Except Fault (State × List Transaction) := do
  let l ← new sha
  us.foldlM (usage sha pb) ((db, l), [])

/-- No two nodes of the trees, loaded or not, carry the same hash. -/
def DistinctNodes (s : State) : Prop :=
  ∀ ta tt, Trees sha s ta tt → (hashes sha ta ++ hashes sha tt).Nodup

/-- Wherever the process stops, no two nodes of the trees carry the same hash. -/
def Intact (db : Database) (us : List Usage) : Prop :=
  ∀ pre post r, us = pre ++ .restart :: post → runUsages sha pb db pre = .ok r →
    DistinctNodes sha r.1

/-- A ledger in use, with its books. -/
structure InUse (r : State × List Transaction) (b : Books) (ta tt : MerkleTrie) : Prop where
  reflects : Reflects sha pb r.1 b r.2 ta tt
  linked : Linked sha pb (b, r.2)
  current : Current r.1.2
  sequence : r.1.2.ledgerSequence = 1

end Runs

variable {sha : Bytes → Uint256} {pb : Protobuf} {r r' : State × List Transaction} {b : Books}
  {ta tt : MerkleTrie}

section Steps

theorem inUse_new (db : Database) {l : Ledger} (hl : new sha = .ok l) :
    ∃ ta tt, InUse sha pb ((db, l), []) Books.empty ta tt := by
  have hnew : InStep sha pb ((db, l), []) (Books.empty, []) := inStep_new db hl
  obtain ⟨ta, tt, hreflects, _⟩ := hnew.reflects
  exact ⟨ta, tt, hreflects, linked_empty, current_new hl, hnew.sequence⟩

/-- A call posts to the books. -/
theorem InUse.step (h : InUse sha pb r b ta tt) {o : Step}
    (hr : Ledger.step sha pb r o = .ok r') :
    ∃ ta' tt', InUse sha pb r' (postStep sha pb 1 (b, r.2) o).1 ta' tt' := by
  obtain ⟨haccepted, ta', tt', hadv, hreflects⟩ := h.reflects.step hr
  have hlinked := h.reflects.linked h.linked hr
  rw [h.sequence] at haccepted hreflects
  refine ⟨ta', tt', hreflects, ?_, h.current.step hr, hadv.sequence.trans h.sequence⟩
  rw [haccepted]
  exact hlinked

/-- A lookup loads nodes and keeps the books. -/
theorem InUse.advance (h : InUse sha pb r b ta tt) {s : State}
    (hadv : Advances sha r.1 ta tt s ta tt) (hcurrent : Current s.2) :
    InUse sha pb (s, r.2) b ta tt where
  reflects := ⟨hadv.trees, h.reflects.accounts, h.reflects.transactions⟩
  linked := h.linked
  current := hcurrent
  sequence := hadv.sequence.trans h.sequence

/-- A stop and the next start keep the books. -/
theorem InUse.restart (h : InUse sha pb r b ta tt) (hdistinct : DistinctNodes sha r.1)
    (hr : usage sha pb r .restart = .ok r') : InUse sha pb r' b ta tt := by
  obtain ⟨db, row, s, hsave, hload, hreflects, hcurrent, hsequence⟩ :=
    h.reflects.restart h.current (hdistinct ta tt h.reflects.trees)
  rw [usage, hsave, ok_bind, hload, ok_bind] at hr
  cases hr
  exact ⟨hreflects, h.linked, hcurrent, hsequence.trans h.sequence⟩

theorem InUse.usage (h : InUse sha pb r b ta tt) {u : Usage}
    (hu : u = .restart → DistinctNodes sha r.1) (hr : Ledger.usage sha pb r u = .ok r') :
    ∃ b' ta' tt', InUse sha pb r' b' ta' tt' := by
  cases u with
  | step o => exact ⟨_, h.step hr⟩
  | getAccountEntry hash =>
    obtain ⟨v, hv, hr⟩ := bind_eq_ok.mp hr
    cases hr
    obtain ⟨hadv, _⟩ := getAccountEntry_ok h.reflects.trees h.reflects.accounts hv
    exact ⟨b, ta, tt, h.advance hadv (h.current.getAccountEntry hv)⟩
  | getTransactionEntry hash =>
    obtain ⟨v, hv, hr⟩ := bind_eq_ok.mp hr
    cases hr
    obtain ⟨hadv, _⟩ := getTransactionEntry_ok h.reflects.trees h.reflects.transactions hv
    exact ⟨b, ta, tt, h.advance hadv (h.current.getTransactionEntry hv)⟩
  | restart => exact ⟨b, ta, tt, h.restart (hu rfl) hr⟩

end Steps

/-- Every ledger in use has its books. -/
theorem runUsages_inUse {db : Database} {us : List Usage} (hr : runUsages sha pb db us = .ok r)
    (hintact : Intact sha pb db us) : ∃ b ta tt, InUse sha pb r b ta tt := by
  obtain ⟨l, hl, hr⟩ := bind_eq_ok.mp hr
  refine @run_invariant_steps _ _ _ _ (fun r => ∃ b ta tt, InUse sha pb r b ta tt) us _ ?_ r
    ⟨_, inUse_new db hl⟩ hr
  rintro pre u post m m' hus hpre ⟨b, ta, tt, h⟩ hm
  refine h.usage (fun hu => hintact pre post m (hu ▸ hus) ?_) hm
  exact bind_eq_ok.mpr ⟨l, hl, hpre⟩

section Loaded

/-- The hashes of all loaded nodes of both trees. -/
def loadedHashes (s : State) : List Uint256 :=
  (RadixMerkleTree.reached s.2.accountTree ++
    RadixMerkleTree.reached s.2.transactionTree).map NodeData.hash

/-- In a ledger that was never unloaded the loaded nodes are all there are. -/
theorem InStep.distinctNodes {p : Books × List Transaction} (h : InStep sha pb r p)
    (hn : (loadedHashes r.1).Nodup) : DistinctNodes sha r.1 := by
  intro ta' tt' htrees'
  obtain ⟨ta, tt, hreflects, hloaded⟩ := h.reflects
  have htrees := hreflects.trees
  obtain ⟨hpa, hpt⟩ := List.append_eq_nil_iff.mp hloaded
  have ha : ta = ta' := htrees.account.trie_eq hpa htrees'.account
    (htrees.accountValid.isEmpty_eq.trans htrees'.accountValid.isEmpty_eq.symm)
  have ht : tt = tt' := htrees.transaction.trie_eq hpt htrees'.transaction
    (htrees.transactionValid.isEmpty_eq.trans htrees'.transactionValid.isEmpty_eq.symm)
  rw [← ha, ← ht]
  have haccount := htrees.account.resolves.hashes_perm
  have htransaction := htrees.transaction.resolves.hashes_perm
  rw [hpa, List.append_nil] at haccount
  rw [hpt, List.append_nil] at htransaction
  rw [loadedHashes, List.map_append] at hn
  exact (haccount.append htransaction).nodup_iff.mp hn

theorem runUsages_map_step (db : Database) (steps : List Step) :
    runUsages sha pb db (steps.map .step) = run sha pb db steps := by
  unfold runUsages run
  simp only [List.foldlM_map]
  rfl

/-- A ledger that is stopped once, with everything loaded. -/
theorem intact_of_run {db : Database} {steps : List Step} {us : List Usage}
    (hus : Usage.restart ∉ us)
    (hn : ∀ r, run sha pb db steps = .ok r → (loadedHashes r.1).Nodup) :
    Intact sha pb db (steps.map .step ++ .restart :: us) := by
  intro pre post r hsplit hr
  have hsteps : Usage.restart ∉ steps.map Usage.step := by simp
  obtain ⟨rfl, _, _⟩ := (List.append_cons_inj_of_notMem hsteps hus).mp hsplit
  rw [runUsages_map_step] at hr
  exact (run_inStep hr).distinctNodes (hn r hr)

end Loaded

/-- Three accounts and a payment, where the model is evaluated. -/
def paidLedger : List Step := threeAccounts ++ [Step.addTransactionEntry (samplePayment 1 2 100)]

/-- The same, saved and loaded again. -/
def savedLedger : List Usage := paidLedger.map .step ++ [.restart]

theorem intact_savedLedger : Intact checksum plainProtobuf (fun _ => none) savedLedger := by
  refine intact_of_run List.not_mem_nil fun r hr => ?_
  have hok : (do
      let r ← run checksum plainProtobuf (fun _ => none) paidLedger
      .ok (decide (loadedHashes r.1).Nodup)) = .ok true :=
    eq_ok_of_toOption (by decide +kernel)
  rw [hr] at hok
  exact of_decide_eq_true (Except.ok.inj hok)

end Bubi.Ledger
