import Bubi.Ledger.Server

/-!
# A server that is killed while it stops

`exit` makes four writes: the row of the ledger, the nodes of its account tree, those of its
transaction tree, and a key of the store. Each is atomic, but the four are not. A kill between the
first write and the third leaves a disk on which the next start fails.
-/

namespace Bubi

open Bubi.Core

namespace Server

open Ledger MerkleTrie

section Model

/-- The writes of `exit` in their order: `add_ledger_to_database` in `~Ledger`, the batches of
`~RadixMerkleTree` for the account tree and the transaction tree, and the `Put` of
`~RocksdbImp`. -/
def exitWrites (r : Running) : List (Disk → Except Fault Disk) :=
  [fun d => .ok { d with table := some (BubiLedger.addLedgerToDatabase r.table r.state.2).1 },
    fun d => do
      let store ← RadixMerkleTree.backupToDatabase d.store r.state.2.accountTree
      .ok { d with store },
    fun d => do
      let store ← RadixMerkleTree.backupToDatabase d.store r.state.2.transactionTree
      .ok { d with store },
    fun d => .ok { d with store := Function.update d.store closeKey (some closeValue) }]

/-- What is on the disk when a server is killed after so many writes of its `exit`. -/
def killed (r : Running) (n : ℕ) : Except Fault Disk :=
  ((exitWrites r).take n).foldlM (fun d write => write d) ⟨r.state.1, some r.table⟩

/-- A start succeeds where `init` finds 0 in the place of the value that `recover_ledger` does not
return, and the server has these books and serves its calls as they do; with another value `init`
returns 1. -/
def StartsAs (sha : Bytes → Uint256) (pb : Protobuf) (d : Disk) (p : Books × List Transaction) :
    Prop :=
  (∃ n, ∀ rounds, n ≤ rounds → ∃ r, init sha rounds 0 d = .ok (some (r, 0)) ∧
    (∀ hash, entry sha pb r.state hash = p.1.accounts hash) ∧
    ∀ as v, actions sha pb r.state as = .ok v → ∃ p', ServesAll sha pb p as v.2 p') ∧
  ∀ rounds leftover, leftover ≠ 0 → ∃ r, init sha rounds leftover d = .ok (some (r, 1))

/-- Every start ends in the failed assertion of `fetch`. -/
def FailsToStart (sha : Bytes → Uint256) (d : Disk) : Prop :=
  ∀ rounds leftover, init sha rounds leftover d = .error .missingKey

end Model

variable {sha : Bytes → Uint256} {pb : Protobuf} {db : Database} {ta tt : MerkleTrie}
  {p : Books × List Transaction} {r : Running} {d : Disk}

/-- The first three writes are what `save` does to the store, beside the row. -/
theorem killed_three (r : Running) :
    killed r 3 = (do
      let saved ← save r.state
      .ok ⟨saved.1, some (BubiLedger.addLedgerToDatabase r.table r.state.2).1⟩) := by
  simp [killed, exitWrites, save]

/-- A server that is killed after all writes has stopped. -/
theorem killed_of_le {n : ℕ} (hn : 4 ≤ n) (r : Running) : killed r n = exit r := by
  simp [killed, exitWrites, exit, save, List.take_of_length_le, hn]

theorem Kept.startsAs (h : Kept sha pb d p) : StartsAs sha pb d p := by
  obtain ⟨n, hinit⟩ := h.exists_init
  refine ⟨⟨n, fun rounds hrounds => ?_⟩,
    fun rounds leftover hleftover => h.init_leftover hleftover rounds⟩
  obtain ⟨r, hr⟩ := hinit rounds hrounds
  obtain ⟨ta, tt, hruns, ⟨hleftover, _⟩ | ⟨_, _, hp⟩⟩ := h.init_ok hr
  · exact absurd rfl hleftover
  · refine ⟨r, hr, hruns.inUse.reflects.entry_eq, fun as v hv => ?_⟩
    obtain ⟨p', _, _, hserves, _⟩ := hruns.actions hp hv
    exact ⟨p', hserves⟩

/-- With only the account tree written, the constructor finds no root for the other tree. -/
theorem load_account_only {s : State} (h : Trees sha s ta tt) (hcurrent : Current s.2)
    (hn : (hashes sha ta).Nodup) (ha : Stored sha db ta)
    (ht : db (digest sha tt).toString = none) :
    Ledger.load sha db (Ledger.addLedgerToDatabase s.2) = .error .missingKey := by
  obtain ⟨hadigest, htdigest⟩ := digests_of_current h hcurrent
  obtain ⟨data, children, hfetch, _⟩ := Moves.of_stored h.accountValid.isEmpty_eq ha hn
  -- Taking the account root out of the store does not bring the other root back.
  have hgone : Function.update db (digest sha ta).toString none (digest sha tt).toString =
      none := by
    rw [Function.update_apply, ht, ite_self]
  have hfetch' : Database.fetch sha (Function.update db (digest sha ta).toString none)
      (digest sha tt) = .error .missingKey := by
    rw [Database.fetch, hgone]
  unfold Ledger.load
  simp only [Ledger.addLedgerToDatabase, Uint256.binaryInit_toString, ok_bind,
    RadixMerkleTree.load, hadigest, htdigest, hfetch, hfetch', error_bind]

/-- A kill after the first write leaves the new row without its roots. -/
theorem Runs.killed_one (h : Runs sha pb r p ta tt) (hp : pendingOf sha r.state.2 ta tt = []) :
    ∃ d, killed r 1 = .ok d ∧ FailsToStart sha d := by
  refine ⟨_, rfl, fun rounds leftover => ?_⟩
  have htidy : Tidy r.state.1 [] := by
    rw [← hp]
    exact h.tidy
  exact init_of_load_error (h.oneRow.rows_eq h.inUse.sequence)
    (htidy.uprooted r.state.2).load_eq rounds leftover

/-- A kill after the second write leaves the row without the root of the transactions. -/
theorem Runs.killed_two (h : Runs sha pb r p ta tt) (hp : pendingOf sha r.state.2 ta tt = [])
    (hdistinct : (loadedHashes r.state).Nodup) :
    ∃ d, killed r 2 = .ok d ∧ FailsToStart sha d := by
  have htrees : Trees sha r.state ta tt := h.inUse.reflects.trees
  obtain ⟨hna, _, hdisjoint⟩ := List.nodup_append'.mp (h.nodup hdistinct)
  obtain ⟨db, hdb, _, hstored, hkept⟩ :=
    htrees.account.resolves.backup_stored htrees.account.loaded hna
  have hroot : digest sha tt ∈ hashes sha tt := by
    rw [hashes_of_root htrees.transactionValid (NodeData.ofFlag sha true)]
    exact List.mem_cons_self
  have hgone : db (digest sha tt).toString = none := by
    rw [hkept _ fun hx => hdisjoint hx hroot]
    by_contra hx
    have htidy := h.tidy _ hx
    rw [hp] at htidy
    rcases htidy with hclose | ⟨x, hx', _⟩
    · exact toString_ne_closeKey _ hclose
    · cases hx'
  refine ⟨⟨db, some (BubiLedger.addLedgerToDatabase r.table r.state.2).1⟩, ?_,
    fun rounds leftover => ?_⟩
  · simp [killed, exitWrites, hdb]
  · exact init_of_load_error (h.oneRow.rows_eq h.inUse.sequence)
      (load_account_only htrees h.inUse.current hna hstored hgone) rounds leftover

/-- A kill after both trees are written comes too late to do harm. -/
theorem Runs.killed_late (h : Runs sha pb r p ta tt) (hdistinct : (loadedHashes r.state).Nodup)
    {n : ℕ} (hn : 3 ≤ n) : ∃ d, killed r n = .ok d ∧ StartsAs sha pb d p := by
  rcases hn.eq_or_lt with rfl | hn
  · obtain ⟨saved, hsave, hsaved⟩ := h.save hdistinct
    refine ⟨_, ?_, (Kept.saved hsaved).startsAs⟩
    rw [killed_three, hsave, ok_bind]
  · obtain ⟨d, t, hexit, hsaved⟩ := h.exit hdistinct
    exact ⟨d, (killed_of_le hn r).trans hexit, (Kept.saved hsaved).startsAs⟩

/-- The table that a server has opened is the one it found. -/
theorem main_table {rounds : ℕ} {x : Session} {replies : List Reply}
    (hr : main sha pb rounds d x = .ok (some (r, replies))) :
    r.table = (createIfNotExist d.table).1 := by
  obtain ⟨started, hinit, hr⟩ := bind_eq_ok.mp hr
  cases started with
  | none => cases hr
  | some started =>
    obtain ⟨r₀, code⟩ := started
    have htable := init_table hinit
    dsimp only at hr
    by_cases hcode : code ≠ 0
    · rw [if_pos hcode] at hr
      cases hr
      exact htable
    · rw [if_neg hcode] at hr
      obtain ⟨v, _, hr⟩ := bind_eq_ok.mp hr
      cases hr
      exact htable

/-- After servers have run and stopped, one starts, serves calls and is killed in its `exit`. When
both trees are written by then, the next server starts and has the books after all calls. When
nothing is written and no server ran before, the next one starts with empty books. In every other
case the next start fails. -/
theorem exit_killed (sha : Bytes → Uint256) (pb : Protobuf) (rounds : ℕ) (xs : List Session)
    (d : Disk) (replies : List Reply)
    (hr : sessions sha pb rounds Disk.empty xs = .ok (some (d, replies)))
    (hdistinct : DistinctStops sha pb rounds Disk.empty xs) (rounds' : ℕ) (as : List Action)
    (r : Running) (replies' : List Reply)
    (hmain : main sha pb rounds' d ⟨0, as⟩ = .ok (some (r, replies')))
    (hnodup : (loadedHashes r.state).Nodup) (n : ℕ) :
    ∃ p d', ServesAll sha pb (Books.empty, []) (xs.flatMap Session.served ++ as)
        (replies ++ replies') p ∧ killed r n = .ok d' ∧
      (3 ≤ n → StartsAs sha pb d' p) ∧
      (n = 0 ∧ xs = [] → StartsAs sha pb d' (Books.empty, [])) ∧
      (n < 3 ∧ ¬ (n = 0 ∧ xs = []) → FailsToStart sha d') := by
  obtain ⟨p₀, hserves₀, hkept, hlast⟩ := kept_empty.sessions hr hdistinct
  obtain ⟨p, ta, tt, hserves, hruns, hp⟩ := hkept.main hmain
  have hp := hp rfl
  have hall := hserves₀.append hserves
  have htable := main_table hmain
  -- One case for each disk that a kill can leave.
  obtain rfl | rfl | rfl | hn : n = 0 ∨ n = 1 ∨ n = 2 ∨ 3 ≤ n := by omega
  · have htidy : Tidy r.state.1 [] := by
      rw [← hp]
      exact hruns.tidy
    refine ⟨p, _, hall, rfl, by omega, ?_, ?_⟩
    · rintro ⟨-, rfl⟩
      cases hr
      refine (Kept.fresh htidy fun t ht => ?_).startsAs
      cases ht
      rw [htable]
      rfl
    · rintro ⟨-, hne⟩
      obtain ⟨t, s, _, _, hsaved⟩ := hlast fun hxs => hne ⟨rfl, hxs⟩
      rw [hsaved.table] at htable
      intro rounds'' leftover
      rw [htable]
      exact init_of_load_error hsaved.rows (htidy.uprooted s.2).load_eq rounds'' leftover
  · obtain ⟨d', hd', hfails⟩ := hruns.killed_one hp
    exact ⟨p, d', hall, hd', by omega, by omega, fun _ => hfails⟩
  · obtain ⟨d', hd', hfails⟩ := hruns.killed_two hp hnodup
    exact ⟨p, d', hall, hd', by omega, by omega, fun _ => hfails⟩
  · obtain ⟨d', hd', hstarts⟩ := hruns.killed_late hnodup hn
    exact ⟨p, d', hall, hd', fun _ => hstarts, by omega, by omega⟩

/-- A fourth server on that disk creates one more account and is killed after it has written the
account tree. -/
theorem exit_killed_threeServers :
    ∃ d replies r replies' d', sessions checksum plainProtobuf 20 Disk.empty threeServers =
        .ok (some (d, replies)) ∧
      main checksum plainProtobuf 20 d ⟨0, [.createAccount (sampleName 3)]⟩ =
        .ok (some (r, replies')) ∧
      killed r 2 = .ok d' ∧ FailsToStart checksum d' := by
  have hok : (do
      let stopped ← sessions checksum plainProtobuf 20 Disk.empty threeServers
      stopped.elim (.ok false) fun stopped => do
        let served ← main checksum plainProtobuf 20 stopped.1 ⟨0, [.createAccount (sampleName 3)]⟩
        served.elim (.ok false) fun served =>
          .ok (decide (loadedHashes served.1.state).Nodup)) = .ok true :=
    eq_ok_of_toOption (by decide +kernel)
  obtain ⟨stopped, hr, hok⟩ := bind_eq_ok.mp hok
  cases stopped with
  | none => cases hok
  | some stopped =>
    obtain ⟨d, replies⟩ := stopped
    obtain ⟨served, hmain, hok⟩ := bind_eq_ok.mp hok
    cases served with
    | none => cases hok
    | some served =>
      obtain ⟨r, replies'⟩ := served
      obtain ⟨p, d', _, hd', _, _, hfails⟩ := exit_killed checksum plainProtobuf 20 threeServers d
        replies hr distinctStops_threeServers 20 _ r replies' hmain
        (of_decide_eq_true (Except.ok.inj hok)) 2
      exact ⟨d, replies, r, replies', d', hr, hmain, hd', hfails (by decide)⟩

end Server

end Bubi
