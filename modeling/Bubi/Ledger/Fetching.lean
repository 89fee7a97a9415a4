import Bubi.Ledger.Actions
import Bubi.Ledger.Durability
import Bubi.Ledger.StoreKeys
import Bubi.Tree.Canonical
import Bubi.Tree.Fetching

/-!
# Loading a whole ledger

`fetch_from_db` loads both trees of the ledger in use when the server starts. It ends, it
takes from the store exactly the nodes that were not loaded, and afterwards no call reads
the store: every call returns what it would have returned without it, and the ledger is
saved as it would have been saved without it.
-/

namespace Bubi

open Bubi.Core

namespace Ledger

open MerkleTrie RadixMerkleTree

section Model

variable (sha : Bytes → Uint256)

/-- `fetch_from_db`, with at most the given number of rounds of each of its loops. -/
def fetchFromDb (fuel : ℕ) (s : State) : Except Fault (Option State) := do
  match ← fetchTree sha fuel (s.1, s.2.accountTree) with
  | none => .ok none
  | some account =>
    match ← fetchTree sha fuel (account.1, s.2.transactionTree) with
    | none => .ok none
    | some transaction =>
      .ok (some (transaction.1,
        { s.2 with accountTree := account.2, transactionTree := transaction.2 }))

end Model

variable {sha : Bytes → Uint256} {pb : Protobuf} {s s' : State} {ta tt : MerkleTrie}

/-- `fetch_from_db` ends on every ledger, and loads both of its trees. -/
theorem Trees.fetchFromDb (h : Trees sha s ta tt) {fuel : ℕ}
    (hfuel : (hashes sha ta ++ hashes sha tt).length ≤ fuel) :
    ∃ s', fetchFromDb sha fuel s = .ok (some s') ∧ Advances sha s ta tt s' ta tt ∧
      pendingOf sha s'.2 ta tt = [] ∧ s'.2.withoutTrees = s.2.withoutTrees := by
  rw [List.length_append] at hfuel
  obtain ⟨account, haccount, hmoves, hloaded⟩ :=
    h.account.fetchTree h.accountValid.isEmpty_eq (show (hashes sha ta).length ≤ fuel by omega)
  have hadv := h.moveAccount hmoves (hloaded ▸ loaded_embed h.accountValid.isEmpty_eq)
    h.accountValid
  obtain ⟨transaction, htransaction, hmoves', hloaded'⟩ :=
    hadv.trees.transaction.fetchTree h.transactionValid.isEmpty_eq
      (show (hashes sha tt).length ≤ fuel by omega)
  have hadv' := hadv.trees.moveTransaction hmoves'
    (hloaded' ▸ loaded_embed h.transactionValid.isEmpty_eq) h.transactionValid
  refine ⟨_, ?_, hadv.trans hadv', ?_, rfl⟩
  · rw [Ledger.fetchFromDb, haccount, ok_bind]
    dsimp only at htransaction ⊢
    rw [htransaction, ok_bind]
  · dsimp only [pendingOf]
    rw [hloaded, hloaded', pending_embed, pending_embed, List.append_nil]

/-- More rounds make no difference to a `fetch_from_db` that has ended. -/
theorem fetchFromDb_mono {fuel fuel' : ℕ} (h : fetchFromDb sha fuel s = .ok (some s'))
    (hle : fuel ≤ fuel') : fetchFromDb sha fuel' s = .ok (some s') := by
  obtain ⟨account, haccount, h⟩ := bind_eq_ok.mp h
  cases account with
  | none => cases h
  | some account =>
    obtain ⟨transaction, htransaction, h⟩ := bind_eq_ok.mp h
    cases transaction with
    | none => cases h
    | some transaction =>
      rw [fetchFromDb, fetchTree, fetchLoop_mono haccount hle, ok_bind]
      dsimp only
      rw [fetchTree, fetchLoop_mono htransaction hle, ok_bind]
      exact h

/-- What `fetch_from_db` loads, whenever it ends. -/
theorem Trees.fetchFromDb_ok (h : Trees sha s ta tt) {fuel : ℕ}
    (hs' : Ledger.fetchFromDb sha fuel s = .ok (some s')) :
    Advances sha s ta tt s' ta tt ∧ pendingOf sha s'.2 ta tt = [] ∧
      s'.2.withoutTrees = s.2.withoutTrees := by
  obtain ⟨w, hw, hloaded⟩ := h.fetchFromDb (Nat.le_add_left _ fuel)
  rw [fetchFromDb_mono hs' (Nat.le_add_right fuel _)] at hw
  cases hw
  exact hloaded

/-- The root hashes stay as they were. -/
theorem Trees.current (h : Trees sha s ta tt) (h' : Trees sha s' ta tt)
    (hheader : s'.2.withoutTrees = s.2.withoutTrees) (hcurrent : Current s.2) : Current s'.2 where
  account := by
    have hhash : s'.2.accountTreeHash = s.2.accountTreeHash :=
      @congrArg _ _ s'.2.withoutTrees s.2.withoutTrees accountTreeHash hheader
    have hroot := getHash_of_resolves h.account.loaded h.account.resolves
    have hroot' := getHash_of_resolves h'.account.loaded h'.account.resolves
    rw [hhash]
    exact hroot'.trans (hroot.symm.trans hcurrent.account)
  transaction := by
    have hhash : s'.2.transactionTreeHash = s.2.transactionTreeHash :=
      @congrArg _ _ s'.2.withoutTrees s.2.withoutTrees transactionTreeHash hheader
    have hroot := getHash_of_resolves h.transaction.loaded h.transaction.resolves
    have hroot' := getHash_of_resolves h'.transaction.loaded h'.transaction.resolves
    rw [hhash]
    exact hroot'.trans (hroot.symm.trans hcurrent.transaction)

section Saving

/-- Stores that hold the same trie agree on its nodes. -/
theorem eq_of_stored {db db' : Database} {t : MerkleTrie} (h : Stored sha db t)
    (h' : Stored sha db' t) {x : Uint256} (hx : x ∈ hashes sha t) :
    db x.toString = db' x.toString := by
  induction t with
  | empty => cases hx
  | leaf l =>
    obtain ⟨value, hvalue, hdb⟩ := h
    obtain ⟨value', hvalue', hdb'⟩ := h'
    rw [hvalue] at hvalue'
    cases hvalue'
    rw [List.mem_singleton.mp hx]
    exact hdb.trans hdb'.symm
  | inner a c ih =>
    rcases List.mem_cons.mp hx with rfl | hx
    · obtain ⟨value, hvalue, hdb⟩ := h.1
      obtain ⟨value', hvalue', hdb'⟩ := h'.1
      rw [hvalue] at hvalue'
      cases hvalue'
      exact hdb.trans hdb'.symm
    · obtain ⟨i, _, hi⟩ := List.mem_flatMap.mp hx
      exact ih i (h.2 i) (h'.2 i) hi

/-- A backup writes no keys but those of the nodes of its tree. -/
theorem backup_kept {db db' : Database} {n : RadixMerkleTreeNode} {t : MerkleTrie}
    (h : Simulates sha (db, n) t) {db₁ : Database} (hdb' : backupToDatabase db₁ n = .ok db')
    {k : Bytes} (hk : ∀ x ∈ hashes sha t, x.toString ≠ k) : db' k = db₁ k := by
  have hloaded : isLoaded n = true := by
    cases n with
    | null => exact absurd h.loaded not_loaded_null
    | node d children => rfl
  rw [backupToDatabase_eq db₁ hloaded] at hdb'
  refine Database.storeBatch_kept hdb' fun d hd => hk d.hash (h.resolves.hash_mem ?_)
  exact (batch_perm n).mem_iff.mp hd

/-- A save writes no keys but those of the nodes of the two trees. -/
theorem Trees.save_kept (h : Trees sha s ta tt) {saved : Database × Row}
    (hsave : Ledger.save s = .ok saved) {k : Bytes}
    (hk : ∀ x ∈ hashes sha ta ++ hashes sha tt, x.toString ≠ k) : saved.1 k = s.1 k := by
  obtain ⟨db₁, hdb₁, hsave⟩ := bind_eq_ok.mp hsave
  obtain ⟨db₂, hdb₂, hsave⟩ := bind_eq_ok.mp hsave
  cases hsave
  have hlast := backup_kept h.transaction hdb₂ fun x hx => hk x (List.mem_append_right _ hx)
  have hfirst := backup_kept h.account hdb₁ fun x hx => hk x (List.mem_append_left _ hx)
  exact hlast.trans hfirst

/-- The nodes that are not loaded are nodes of the trees. -/
theorem Trees.pendingOf_subset (h : Trees sha s ta tt) :
    pendingOf sha s.2 ta tt ⊆ hashes sha ta ++ hashes sha tt := by
  refine List.append_subset.mpr ⟨fun x hx => ?_, fun x hx => ?_⟩
  · exact List.mem_append_left _
      (h.account.resolves.hashes_perm.mem_iff.mp (List.mem_append_right _ hx))
  · exact List.mem_append_right _
      (h.transaction.resolves.hashes_perm.mem_iff.mp (List.mem_append_right _ hx))

/-- A ledger of which only more nodes were loaded is saved as before. -/
theorem Advances.save_eq (h : Trees sha s ta tt) (hadv : Advances sha s ta tt s' ta tt)
    (hheader : s'.2.withoutTrees = s.2.withoutTrees)
    (hn : (hashes sha ta ++ hashes sha tt).Nodup) : save s' = save s := by
  obtain ⟨db, hsave, ha, ht⟩ := h.save hn
  obtain ⟨db', hsave', ha', ht'⟩ := hadv.trees.save hn
  have hrow : addLedgerToDatabase s'.2 = addLedgerToDatabase s.2 := by
    change addLedgerToDatabase s'.2.withoutTrees = addLedgerToDatabase s.2.withoutTrees
    rw [hheader]
  have hdb : db' = db := by
    funext k
    by_cases hk : ∃ x ∈ hashes sha ta ++ hashes sha tt, x.toString = k
    · obtain ⟨x, hx, rfl⟩ := hk
      rcases List.mem_append.mp hx with hx | hx
      · exact eq_of_stored ha' ha hx
      · exact eq_of_stored ht' ht hx
    · push Not at hk
      have hstore : s'.1 k = s.1 k :=
        hadv.drains.kept k fun x hx hxk => absurd hxk (hk x (h.pendingOf_subset hx))
      exact (hadv.trees.save_kept hsave' hk).trans (hstore.trans (h.save_kept hsave hk).symm)
  rw [hsave, hsave', hrow, hdb]

end Saving

section Loaded

/-- In a fully loaded tree no child is missing. -/
theorem exists_child_of_embed {t : MerkleTrie} {q : List (Fin 16)} {d : NodeData}
    {children : Fin 16 → RadixMerkleTreeNode} {i : Fin 16}
    (hq : (embed sha t).follow q = .node d children) (hi : d.isEmptyBranch i = false) :
    ∃ e cs, children i = .node e cs := by
  rw [follow_embed] at hq
  cases ht : t.follow q with
  | empty =>
    rw [ht] at hq
    cases hq
  | leaf l =>
    rw [ht] at hq
    cases hq
    rw [isEmptyBranch_leaf] at hi
    cases hi
  | inner a c =>
    rw [ht] at hq
    cases hq
    rw [isEmptyBranch_innerData] at hi
    dsimp only
    cases hchild : c i with
    | empty => simp [hchild] at hi
    | leaf l => exact ⟨_, _, rfl⟩
    | inner a' c' => exact ⟨_, _, rfl⟩

/-- In trees without pending nodes every branch that is not empty has its node in memory. -/
theorem Trees.exists_child {s : State} {ta tt : MerkleTrie} (h : Trees sha s ta tt)
    (hp : pendingOf sha s.2 ta tt = []) :
    ∀ root ∈ [s.2.accountTree, s.2.transactionTree], ∀ q d children i,
      root.follow q = .node d children → d.isEmptyBranch i = false →
        ∃ e cs, children i = .node e cs := by
  obtain ⟨haccount, htransaction⟩ := h.eq_embed hp
  intro root hroot q d children i hq hi
  rcases List.mem_cons.mp hroot with rfl | hroot
  · rw [haccount] at hq
    exact exists_child_of_embed hq hi
  · rw [List.mem_singleton.mp hroot, htransaction] at hq
    exact exists_child_of_embed hq hi

end Loaded

/-- `fetch_from_db` ends on every ledger in use in which no two nodes carried the same hash where
the process stopped. Afterwards every branch that is not empty has its node in memory, and calls
one after the other return what they would have returned before, or fail alike. None of them
reads the store, the listing by the timer returns after them, and a ledger that is saved at
once is saved as it would have been saved before. -/
theorem fetch_from_db_loads_all (sha : Bytes → Uint256) (pb : Protobuf) (db : Database)
    (us : List Usage) (r : State × List Transaction) (hr : runUsages sha pb db us = .ok r)
    (hintact : Intact sha pb db us) :
    ∃ rounds, ∀ fuel, rounds ≤ fuel → ∃ s, fetchFromDb sha fuel r.1 = .ok (some s) ∧
      (∀ root ∈ [s.2.accountTree, s.2.transactionTree], ∀ q d children i,
        root.follow q = .node d children → d.isEmptyBranch i = false →
          ∃ e cs, children i = .node e cs) ∧
      (∀ as, .printAccounts ∉ as →
        Rel (fun v w => v.2 = w.2) (actions sha pb r.1 as) (actions sha pb s as)) ∧
      (∀ as v, actions sha pb s as = .ok v →
        v.1.1 = s.1 ∧ ∃ accs, act sha pb v.1 .printAccounts = .ok (v.1, .accounts accs)) ∧
      (DistinctNodes sha r.1 → save s = save r.1) := by
  obtain ⟨b, ta, tt, huse⟩ := runUsages_inUse hr hintact
  have htrees := huse.reflects.trees
  refine ⟨(hashes sha ta ++ hashes sha tt).length, fun fuel hfuel => ?_⟩
  obtain ⟨s, hfetch, hadv, hp, hheader⟩ := htrees.fetchFromDb hfuel
  have hcurrent : Current s.2 := htrees.current hadv.trees hheader huse.current
  have hmemory : InMemory sha pb s (b, r.2) := ⟨ta, tt, huse.advance hadv hcurrent, hp⟩
  refine ⟨s, hfetch, ?_, ?_, ?_, fun hdistinct => ?_⟩
  · exact hadv.trees.exists_child hp
  · intro as has
    have halike : Alike sha r.1 s := ⟨⟨ta, tt, htrees, hadv.trees⟩, hheader.symm⟩
    exact (halike.actions has).mono fun v w hvw => hvw.2
  · intro as v hv
    obtain ⟨p', _, ⟨ta', tt', huse', hp'⟩, hstore⟩ := hmemory.actions hv
    refine ⟨hstore, ?_⟩
    obtain ⟨accs, haccs, _⟩ := huse'.reflects.dfs_ok (huse'.reflects.trees.eq_embed hp').1
    exact ⟨accs, bind_eq_ok.mpr ⟨accs, haccs, rfl⟩⟩
  · exact Advances.save_eq htrees hadv hheader (hdistinct ta tt htrees)

theorem fetch_from_db_savedLedger :
    ∃ r, runUsages checksum plainProtobuf (fun _ => none) savedLedger = .ok r ∧
      ∃ rounds, ∀ fuel, rounds ≤ fuel → ∃ s, fetchFromDb checksum fuel r.1 = .ok (some s) ∧
        Rel (fun v w => v.2 = w.2)
          (actions checksum plainProtobuf r.1 [.getBalance (sampleName 1)])
          (actions checksum plainProtobuf s [.getBalance (sampleName 1)]) := by
  obtain ⟨r, hr⟩ : ∃ r, runUsages checksum plainProtobuf (fun _ => none) savedLedger = .ok r :=
    exists_of_isOk (by decide +kernel)
  obtain ⟨rounds, hrounds⟩ := fetch_from_db_loads_all checksum plainProtobuf (fun _ => none)
    savedLedger r hr intact_savedLedger
  refine ⟨r, hr, rounds, fun fuel hfuel => ?_⟩
  obtain ⟨s, hs, _, hactions, _⟩ := hrounds fuel hfuel
  exact ⟨s, hs, hactions _ (by simp)⟩

end Ledger

end Bubi
