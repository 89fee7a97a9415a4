import Bubi.Ledger.Fetching
import Bubi.Ledger.Table

/-!
# A server from start to stop

`main` recovers the ledger from the disk, loads all of it and serves calls until a signal
stops the process; its destructors then write the header and both trees back. Servers that
follow each other on one disk answer their calls like one ledger that never stops. Between
a start and a stop the store holds no node at all.
-/

namespace Bubi

open Bubi.Core

/-- What a server leaves behind: the keys of rocksdb, and the table of sqlite, if there is one. -/
structure Disk where
  store : Database
  table : Option BubiLedger.Table

/-- A disk on which no server has run. -/
def Disk.empty : Disk := ⟨fun _ => none, none⟩

namespace Server

open Ledger MerkleTrie

/-- A server with its ledger and the table that it has opened. -/
structure Running where
  state : State
  table : BubiLedger.Table

/-- A server from its start to its stop: what `init` finds in the place of the value that
`recover_ledger` does not return, and the calls that are made. -/
structure Session where
  leftover : ℕ
  actions : List Action

/-- The calls that are served: none when `init` has failed. -/
def Session.served (x : Session) : List Action := if x.leftover = 0 then x.actions else []

/-- The key that the destructor of `RocksdbImp` writes, and its value. -/
def closeKey : Bytes := ascii ['a', 's', 'd', 'a', 'f']

/-- The value under that key. -/
def closeValue : Bytes := ascii ['s', 'd', 'f', 's', 'a', 'f', 'd', 's', 'a', 'f']

section Model

variable (sha : Bytes → Uint256) (pb : Protobuf)

/-- `create_if_not_exist`, with its return value. -/
def createIfNotExist : Option BubiLedger.Table → BubiLedger.Table × ℕ
  | none => (.empty BubiLedger.key, 0)
  | some t => (t, 1)

/-- `recover_ledger`. The table exists when `load_last_ledger` reads it, so it does not return 1. -/
def recoverLedger (d : Disk) : Except Fault Running := do
  let table := (createIfNotExist d.table).1
  let state ← BubiLedger.loadLastLedger sha d.store table
  .ok { state, table }

/-- `init`, with its return value and at most the given number of rounds of the loops of
`fetch_from_db`. -/
def init (rounds leftover : ℕ) (d : Disk) : Except Fault (Option (Running × ℕ)) := do
  let p ← recoverLedger sha d
  if leftover ≠ 0 then .ok (some (p, 1))
  else
    match ← fetchFromDb sha rounds p.state with
    | none => .ok none
    | some state => .ok (some ({ p with state }, 0))

/-- `exit`: the destructors of `last_ledger` and its trees, and then that of the store. -/
def exit (p : Running) : Except Fault Disk := do
  let saved ← save p.state
  .ok
    { store := Function.update saved.1 closeKey (some closeValue)
      table := some (BubiLedger.addLedgerToDatabase p.table p.state.2).1 }

/-- `main` up to the signal that ends it, or up to its return when `init` has failed. -/
def main (rounds : ℕ) (d : Disk) (x : Session) : Except Fault (Option (Running × List Reply)) := do
  match ← init sha rounds x.leftover d with
  | none => .ok none
  | some (p, code) =>
    if code ≠ 0 then .ok (some (p, []))
    else do
      let r ← Ledger.actions sha pb p.state x.actions
      .ok (some ({ p with state := r.1 }, r.2))

/-- A server that runs and stops. -/
def session (rounds : ℕ) (d : Disk) (x : Session) : Except Fault (Option (Disk × List Reply)) := do
  match ← main sha pb rounds d x with
  | none => .ok none
  | some (p, replies) => do
    let d ← exit p
    .ok (some (d, replies))

/-- Servers that run after each other on one disk. -/
def sessions (rounds : ℕ) : Disk → List Session → Except Fault (Option (Disk × List Reply))
  | d, [] => .ok (some (d, []))
  | d, x :: xs => do
    match ← session sha pb rounds d x with
    | none => .ok none
    | some (d, replies) =>
      match ← sessions rounds d xs with
      | none => .ok none
      | some (d, rest) => .ok (some (d, replies ++ rest))

/-- Wherever a server stops, no two nodes that it has in memory carry the same hash. -/
def DistinctStops (rounds : ℕ) : Disk → List Session → Prop
  | _, [] => True
  | d, x :: xs =>
    (match main sha pb rounds d x with
      | .ok (some (p, _)) => (loadedHashes p.state).Nodup
      | _ => True) ∧
      match session sha pb rounds d x with
      | .ok (some (d', _)) => DistinctStops rounds d' xs
      | _ => True

instance decidableDistinctStops (rounds : ℕ) :
    (d : Disk) → (xs : List Session) → Decidable (DistinctStops sha pb rounds d xs)
  | _, [] => isTrue trivial
  | d, x :: xs =>
    have : Decidable (match main sha pb rounds d x with
        | .ok (some (p, _)) => (loadedHashes p.state).Nodup
        | _ => True) :=
      match main sha pb rounds d x with
      | .ok (some (p, _)) => inferInstanceAs (Decidable (loadedHashes p.state).Nodup)
      | .ok none => isTrue trivial
      | .error _ => isTrue trivial
    have : Decidable (match session sha pb rounds d x with
        | .ok (some (d', _)) => DistinctStops sha pb rounds d' xs
        | _ => True) :=
      match session sha pb rounds d x with
      | .ok (some (d', _)) => decidableDistinctStops rounds d' xs
      | .ok none => isTrue trivial
      | .error _ => isTrue trivial
    inferInstanceAs (Decidable (_ ∧ _))

end Model

variable {sha : Bytes → Uint256} {pb : Protobuf} {db db' : Database} {ta tt : MerkleTrie}
  {p : Books × List Transaction} {r : Running} {d : Disk}

section Table

/-- Every row of the table is that of the ledger with sequence number 1. -/
def OneRow (t : BubiLedger.Table) : Prop := ∀ row ∈ t.rows, row .ledgerSequence = .integer 1

theorem OneRow.key_eq {t : BubiLedger.Table} (h : OneRow t) {l : Ledger}
    (hl : l.ledgerSequence = 1) {row : BubiLedger.Record} (hrow : row ∈ t.rows) :
    BubiLedger.key row = BubiLedger.keyOf l := by
  simp [BubiLedger.key, BubiLedger.keyOf, h row hrow, hl]

/-- The row of the ledger is written over the one that is there. -/
theorem OneRow.rows_eq {t : BubiLedger.Table} (h : OneRow t) {l : Ledger}
    (hl : l.ledgerSequence = 1) :
    (BubiLedger.addLedgerToDatabase t l).1.rows =
      [BubiLedger.record (Ledger.addLedgerToDatabase l)] := by
  obtain ⟨_, hsaved, hothers⟩ := BubiLedger.addLedgerToDatabase_saved t l
  generalize (BubiLedger.addLedgerToDatabase t l).1 = t' at hsaved hothers
  have hkeys : ∀ row ∈ t'.rows, BubiLedger.key row = BubiLedger.keyOf l := by
    intro row hrow
    by_contra hne
    exact hne (h.key_eq hl ((hothers row hne).mp hrow))
  have hunique := t'.unique
  match hrows : t'.rows with
  | [] =>
    rw [hrows] at hsaved
    cases hsaved
  | [row] =>
    rw [hrows] at hsaved
    rw [List.mem_singleton.mp hsaved]
  | row :: row' :: rest =>
    rw [hrows] at hunique hkeys
    have hrow := hkeys row List.mem_cons_self
    have hrow' := hkeys row' (List.mem_cons_of_mem _ List.mem_cons_self)
    simp [hrow, hrow'] at hunique

theorem oneRow_record {t : BubiLedger.Table} {l : Ledger} (hl : l.ledgerSequence = 1)
    (h : t.rows = [BubiLedger.record (Ledger.addLedgerToDatabase l)]) : OneRow t := by
  intro row hrow
  rw [h, List.mem_singleton] at hrow
  simp [hrow, BubiLedger.record, Ledger.addLedgerToDatabase, hl]

/-- A table with one row gives it back. -/
theorem loadLastLedger_of_rows {t : BubiLedger.Table} {l : Ledger}
    (h : t.rows = [BubiLedger.record (Ledger.addLedgerToDatabase l)]) (db : Database) :
    BubiLedger.loadLastLedger sha db t = Ledger.load sha db (Ledger.addLedgerToDatabase l) := by
  have hlast : t.last = some (BubiLedger.record (Ledger.addLedgerToDatabase l)) := by
    refine t.last_eq (by rw [h]; exact List.mem_singleton_self _) fun row hrow => ?_
    rw [h, List.mem_singleton] at hrow
    rw [hrow]
  unfold BubiLedger.loadLastLedger
  rw [hlast]
  exact (BubiLedger.loadLastLedgerCallBack_record sha db l).trans
    (BubiLedger.construct_eq_load sha db l)

end Table

section Store

/-- Nothing is stored but the given nodes and what the destructor of the store writes. -/
def Tidy (db : Database) (xs : List Uint256) : Prop :=
  ∀ k, db k ≠ none → k = closeKey ∨ ∃ x ∈ xs, x.toString = k

/-- No hash is printed as that key. -/
theorem toString_ne_closeKey (x : Uint256) : x.toString ≠ closeKey := by
  intro hx
  have hread := Uint256.binaryInit_toString x
  rw [hx] at hread
  have hfails : (Uint256.binaryInit closeKey).isOk = false := by decide
  rw [hread] at hfails
  cases hfails

theorem Tidy.drains {xs xs' : List Uint256} (h : Tidy db xs) (hdrains : db.Drains xs db' xs') :
    Tidy db' xs' := by
  intro k hk
  by_cases hx : ∃ x ∈ xs, x.toString = k
  · obtain ⟨x, hx, rfl⟩ := hx
    by_cases hx' : x ∈ xs'
    · exact .inr ⟨x, hx', rfl⟩
    · exact absurd (hdrains.gone x hx hx') hk
  · push Not at hx
    rw [hdrains.kept k fun x hx' hxk => absurd hxk (hx x hx')] at hk
    rcases h k hk with hk | ⟨x, hx', hxk⟩
    · exact .inl hk
    · exact absurd hxk (hx x hx')

/-- A store without nodes has no root of any ledger. -/
theorem Tidy.uprooted (h : Tidy db []) (l : Ledger) :
    Uprooted db (Ledger.addLedgerToDatabase l) := by
  have hgone : ∀ x : Uint256, db x.toString = none := by
    intro x
    by_contra hx
    rcases h _ hx with hclose | ⟨y, hy, _⟩
    · exact toString_ne_closeKey x hclose
    · cases hy
  exact ⟨_, _, _, _, Uint256.binaryInit_toString _, Uint256.binaryInit_toString _,
    Uint256.binaryInit_toString _, Uint256.binaryInit_toString _, hgone _, hgone _⟩

/-- The constructor of a ledger loads the two roots. -/
theorem load_roots {row : Row} {s : State} (h : Ledger.load sha db row = .ok s) :
    ∃ da dt, s.2.accountTree = .node da RadixMerkleTreeNode.noChildren ∧
      s.2.transactionTree = .node dt RadixMerkleTreeNode.noChildren ∧
      s.1 = Function.update (Function.update db s.2.accountTreeHash.toString none)
        s.2.transactionTreeHash.toString none := by
  obtain ⟨hash, _, h⟩ := bind_eq_ok.mp h
  obtain ⟨parentHash, _, h⟩ := bind_eq_ok.mp h
  obtain ⟨transactionTreeHash, _, h⟩ := bind_eq_ok.mp h
  obtain ⟨accountTreeHash, _, h⟩ := bind_eq_ok.mp h
  obtain ⟨account, haccount, h⟩ := bind_eq_ok.mp h
  obtain ⟨transaction, htransaction, h⟩ := bind_eq_ok.mp h
  cases h
  obtain ⟨da, hda, _, hdb⟩ := Database.fetch_eq haccount
  obtain ⟨dt, hdt, _, hdb'⟩ := Database.fetch_eq htransaction
  exact ⟨da, dt, hda, hdt, by rw [hdb', hdb]⟩

/-- When only the root is loaded, all other nodes are pending. -/
theorem hashes_of_root {t : MerkleTrie} (h : Valid sha t) (d : NodeData) :
    hashes sha t =
      digest sha t :: pending sha (.node d RadixMerkleTreeNode.noChildren) t := by
  obtain ⟨a, c, rfl⟩ := h.rooted
  rw [hashes, pending]
  simp only [RadixMerkleTreeNode.noChildren, pending_null]

/-- Cached hashes that are current are those of the trees. -/
theorem digests_of_current {s : State} (h : Trees sha s ta tt) (hcurrent : Current s.2) :
    s.2.accountTreeHash = digest sha ta ∧ s.2.transactionTreeHash = digest sha tt :=
  ⟨Except.ok.inj (hcurrent.account.symm.trans
      (getHash_of_resolves h.account.loaded h.account.resolves)),
    Except.ok.inj (hcurrent.transaction.symm.trans
      (getHash_of_resolves h.transaction.loaded h.transaction.resolves))⟩

theorem Tidy.load {row : Row} {s : State} (h : Tidy db (hashes sha ta ++ hashes sha tt))
    (hload : Ledger.load sha db row = .ok s) (htrees : Trees sha s ta tt)
    (hcurrent : Current s.2) : Tidy s.1 (pendingOf sha s.2 ta tt) := by
  obtain ⟨da, dt, hda, hdt, hdb⟩ := load_roots hload
  obtain ⟨haccount, htransaction⟩ := digests_of_current htrees hcurrent
  rw [hashes_of_root htrees.accountValid da, hashes_of_root htrees.transactionValid dt] at h
  rw [pendingOf, hda, hdt]
  intro k hk
  rw [hdb, haccount, htransaction] at hk
  have hkt : k ≠ (digest sha tt).toString := by
    rintro rfl
    exact hk (Function.update_self _ _ _)
  rw [Function.update_of_ne hkt] at hk
  have hka : k ≠ (digest sha ta).toString := by
    rintro rfl
    exact hk (Function.update_self _ _ _)
  rw [Function.update_of_ne hka] at hk
  rcases h k hk with hk | ⟨x, hx, rfl⟩
  · exact .inl hk
  · refine .inr ⟨x, ?_, rfl⟩
    rcases List.mem_append.mp hx with hx | hx
    · rcases List.mem_cons.mp hx with rfl | hx
      · exact absurd rfl hka
      · exact List.mem_append_left _ hx
    · rcases List.mem_cons.mp hx with rfl | hx
      · exact absurd rfl hkt
      · exact List.mem_append_right _ hx

end Store

section Lifecycle

/-- The nodes of a tree that is loaded are all there are. -/
theorem nodup_of_loaded {s : State} (h : Trees sha s ta tt) (hp : pendingOf sha s.2 ta tt = [])
    (hn : (loadedHashes s).Nodup) : (hashes sha ta ++ hashes sha tt).Nodup := by
  obtain ⟨hpa, hpt⟩ := List.append_eq_nil_iff.mp hp
  have haccount := h.account.resolves.hashes_perm
  have htransaction := h.transaction.resolves.hashes_perm
  rw [hpa, List.append_nil] at haccount
  rw [hpt, List.append_nil] at htransaction
  rw [loadedHashes, List.map_append] at hn
  exact (haccount.append htransaction).nodup_iff.mp hn

/-- A server that runs, with its books. -/
structure Runs (sha : Bytes → Uint256) (pb : Protobuf) (r : Running)
    (p : Books × List Transaction) (ta tt : MerkleTrie) : Prop where
  inUse : InUse sha pb (r.state, p.2) p.1 ta tt
  tidy : Tidy r.state.1 (pendingOf sha r.state.2 ta tt)
  oneRow : OneRow r.table
  /-- The nodes are loaded, or are those of a ledger that was saved. -/
  distinct : pendingOf sha r.state.2 ta tt = [] ∨ (hashes sha ta ++ hashes sha tt).Nodup

/-- A ledger that is saved with its header, all its nodes and nothing else. -/
structure Saved (sha : Bytes → Uint256) (pb : Protobuf) (d : Disk)
    (p : Books × List Transaction) (t : BubiLedger.Table) (s : State) (ta tt : MerkleTrie) :
    Prop where
  table : d.table = some t
  rows : t.rows = [BubiLedger.record (Ledger.addLedgerToDatabase s.2)]
  inUse : InUse sha pb (s, p.2) p.1 ta tt
  nodup : (hashes sha ta ++ hashes sha tt).Nodup
  account : Stored sha d.store ta
  transaction : Stored sha d.store tt
  tidy : Tidy d.store (hashes sha ta ++ hashes sha tt)

/-- A disk that keeps books: no ledger was saved yet, or the last one is saved. -/
inductive Kept (sha : Bytes → Uint256) (pb : Protobuf) (d : Disk) :
    Books × List Transaction → Prop
  | fresh (hstore : Tidy d.store []) (htable : ∀ t, d.table = some t → t.rows = []) :
    Kept sha pb d (Books.empty, [])
  | saved {p : Books × List Transaction} {t : BubiLedger.Table} {s : State} {ta tt : MerkleTrie}
      (h : Saved sha pb d p t s ta tt) : Kept sha pb d p

/-- A server recovers what the disk keeps. -/
theorem Kept.recoverLedger (h : Kept sha pb d p) :
    ∃ r ta tt, recoverLedger sha d = .ok r ∧ Runs sha pb r p ta tt := by
  cases h with
  | fresh hstore htable =>
    obtain ⟨l, hl, _⟩ := new_ok sha
    have hnew : InStep sha pb ((d.store, l), []) (Books.empty, []) := inStep_new d.store hl
    obtain ⟨ta, tt, hreflects, hp⟩ := hnew.reflects
    have hempty : (createIfNotExist d.table).1.rows = [] := by
      cases htable' : d.table with
      | none => rfl
      | some t => exact htable t htable'
    refine ⟨⟨(d.store, l), (createIfNotExist d.table).1⟩, ta, tt, ?_,
      ⟨hreflects, linked_empty, current_new hl, hnew.sequence⟩, ?_, ?_, .inl hp⟩
    · have hlast : (createIfNotExist d.table).1.last = none := List.argmax_eq_none.mpr hempty
      rw [Server.recoverLedger, BubiLedger.loadLastLedger, hlast]
      dsimp only
      rw [hl]
      rfl
    · intro k hk
      rcases hstore k hk with hk | ⟨x, hx, _⟩
      · exact .inl hk
      · cases hx
    · intro row hrow
      rw [hempty] at hrow
      cases hrow
  | @saved _ t s ta tt h =>
    obtain ⟨s', hload, htrees, hcurrent, hsequence⟩ :=
      h.inUse.reflects.trees.load h.inUse.current h.nodup h.account h.transaction
    refine ⟨⟨s', t⟩, ta, tt, ?_, ⟨⟨htrees, ?_, ?_⟩, h.inUse.linked, hcurrent, ?_⟩, ?_, ?_,
      .inr h.nodup⟩
    · rw [Server.recoverLedger, h.table, createIfNotExist, loadLastLedger_of_rows h.rows, hload]
      rfl
    · exact h.inUse.reflects.accounts
    · exact h.inUse.reflects.transactions
    · exact hsequence.trans h.inUse.sequence
    · exact h.tidy.load hload htrees hcurrent
    · exact oneRow_record h.inUse.sequence h.rows

/-- The nodes of the two trees of a server carry different hashes. -/
theorem Runs.nodup (h : Runs sha pb r p ta tt) (hdistinct : (loadedHashes r.state).Nodup) :
    (hashes sha ta ++ hashes sha tt).Nodup := by
  rcases h.distinct with hp | hnodup
  · exact nodup_of_loaded h.inUse.reflects.trees hp hdistinct
  · exact hnodup

/-- The row and the two trees are all that a later start needs. -/
theorem Runs.save (h : Runs sha pb r p ta tt) (hdistinct : (loadedHashes r.state).Nodup) :
    ∃ saved, save r.state = .ok saved ∧
      Saved sha pb ⟨saved.1, some (BubiLedger.addLedgerToDatabase r.table r.state.2).1⟩ p
        (BubiLedger.addLedgerToDatabase r.table r.state.2).1 r.state ta tt := by
  have htrees : Trees sha r.state ta tt := h.inUse.reflects.trees
  obtain ⟨db, hsave, haccount, htransaction⟩ := htrees.save (h.nodup hdistinct)
  refine ⟨_, hsave, rfl, h.oneRow.rows_eq h.inUse.sequence, h.inUse, h.nodup hdistinct, haccount,
    htransaction, fun k hk => ?_⟩
  by_cases hx : ∃ x ∈ hashes sha ta ++ hashes sha tt, x.toString = k
  · exact .inr hx
  · push Not at hx
    have hkept : db k = r.state.1 k := htrees.save_kept hsave hx
    dsimp only at hk
    rw [hkept] at hk
    rcases h.tidy k hk with hk | ⟨x, hx', hxk⟩
    · exact .inl hk
    · exact absurd hxk (hx x (htrees.pendingOf_subset hx'))

/-- What the destructor of the store writes is no part of a ledger. -/
theorem Saved.close {t : BubiLedger.Table} {s : State} (h : Saved sha pb d p t s ta tt) :
    Saved sha pb { d with store := Function.update d.store closeKey (some closeValue) } p t s
      ta tt := by
  have hcongr : ∀ x : Uint256, Function.update d.store closeKey (some closeValue) x.toString =
      d.store x.toString := fun x => Function.update_of_ne (toString_ne_closeKey x) _ _
  refine ⟨h.table, h.rows, h.inUse, h.nodup, h.account.congr fun x _ => hcongr x,
    h.transaction.congr fun x _ => hcongr x, fun k hk => ?_⟩
  by_cases hclose : k = closeKey
  · exact .inl hclose
  · dsimp only at hk
    rw [Function.update_of_ne hclose] at hk
    exact h.tidy k hk

/-- A server that stops leaves its books on the disk. -/
theorem Runs.exit (h : Runs sha pb r p ta tt) (hdistinct : (loadedHashes r.state).Nodup) :
    ∃ d t, exit r = .ok d ∧ Saved sha pb d p t r.state ta tt := by
  obtain ⟨saved, hsave, hsaved⟩ := h.save hdistinct
  refine ⟨_, _, ?_, hsaved.close⟩
  rw [Server.exit, hsave]
  rfl

/-- `fetch_from_db` keeps the books and leaves no node in the store. -/
theorem Runs.fetchFromDb (h : Runs sha pb r p ta tt) {rounds : ℕ} {s : State}
    (hs : fetchFromDb sha rounds r.state = .ok (some s)) :
    Runs sha pb { r with state := s } p ta tt ∧ pendingOf sha s.2 ta tt = [] := by
  have htrees : Trees sha r.state ta tt := h.inUse.reflects.trees
  obtain ⟨hadv, hp, hheader⟩ := htrees.fetchFromDb_ok hs
  refine ⟨⟨h.inUse.advance hadv ?_, h.tidy.drains hadv.drains, h.oneRow, .inl hp⟩, hp⟩
  exact htrees.current hadv.trees hheader h.inUse.current

/-- The calls that are served leave no node in the store either. -/
theorem Runs.actions (h : Runs sha pb r p ta tt) (hp : pendingOf sha r.state.2 ta tt = [])
    {as : List Action} {v : State × List Reply} (hv : actions sha pb r.state as = .ok v) :
    ∃ p' ta' tt', ServesAll sha pb p as v.2 p' ∧ Runs sha pb { r with state := v.1 } p' ta' tt' ∧
      pendingOf sha v.1.2 ta' tt' = [] := by
  obtain ⟨p', hserves, ⟨ta', tt', huse, hp'⟩, hstore⟩ :=
    InMemory.actions ⟨ta, tt, h.inUse, hp⟩ hv
  refine ⟨p', ta', tt', hserves, ⟨huse, ?_, h.oneRow, .inl hp'⟩, hp'⟩
  have htidy := h.tidy
  rw [hp] at htidy
  dsimp only
  rwa [hp', hstore]

/-- The table that a server has opened. -/
theorem init_table {rounds leftover code : ℕ}
    (hr : init sha rounds leftover d = .ok (some (r, code))) :
    r.table = (createIfNotExist d.table).1 := by
  obtain ⟨r₀, hrecover, hr⟩ := bind_eq_ok.mp hr
  obtain ⟨s, _, hrecover⟩ := bind_eq_ok.mp hrecover
  cases hrecover
  by_cases hleftover : leftover ≠ 0
  · rw [if_pos hleftover] at hr
    cases hr
    rfl
  · rw [if_neg hleftover] at hr
    obtain ⟨fetched, _, hr⟩ := bind_eq_ok.mp hr
    cases fetched with
    | none => cases hr
    | some s' =>
      cases hr
      rfl

/-- A start fails where the ledger of the one row cannot be loaded. -/
theorem init_of_load_error {t : BubiLedger.Table} {l : Ledger} {e : Fault}
    (hrows : t.rows = [BubiLedger.record (Ledger.addLedgerToDatabase l)])
    (hload : Ledger.load sha db (Ledger.addLedgerToDatabase l) = .error e) (rounds leftover : ℕ) :
    init sha rounds leftover ⟨db, some t⟩ = .error e := by
  rw [init, recoverLedger, createIfNotExist, loadLastLedger_of_rows hrows, hload, error_bind,
    error_bind]

/-- What a start does to a disk that keeps books. -/
theorem Kept.init_ok (h : Kept sha pb d p) {rounds leftover code : ℕ}
    (hr : init sha rounds leftover d = .ok (some (r, code))) :
    ∃ ta tt, Runs sha pb r p ta tt ∧ (leftover ≠ 0 ∧ code = 1 ∨
      leftover = 0 ∧ code = 0 ∧ pendingOf sha r.state.2 ta tt = []) := by
  obtain ⟨r₀, ta, tt, hrecover, hruns⟩ := h.recoverLedger
  rw [init, hrecover, ok_bind] at hr
  by_cases hleftover : leftover ≠ 0
  · rw [if_pos hleftover] at hr
    cases hr
    exact ⟨ta, tt, hruns, .inl ⟨hleftover, rfl⟩⟩
  · rw [if_neg hleftover] at hr
    obtain ⟨fetched, hfetched, hr⟩ := bind_eq_ok.mp hr
    cases fetched with
    | none => cases hr
    | some s =>
      cases hr
      obtain ⟨hruns', hp⟩ := hruns.fetchFromDb hfetched
      exact ⟨ta, tt, hruns', .inr ⟨not_not.mp hleftover, rfl, hp⟩⟩

/-- Where `init` finds another value than 0 in the place of the one that `recover_ledger` does not
return, it returns 1. -/
theorem Kept.init_leftover (h : Kept sha pb d p) {leftover : ℕ} (hleftover : leftover ≠ 0)
    (rounds : ℕ) : ∃ r, init sha rounds leftover d = .ok (some (r, 1)) := by
  obtain ⟨r, _, _, hrecover, _⟩ := h.recoverLedger
  refine ⟨r, ?_⟩
  rw [init, hrecover, ok_bind, if_pos hleftover]

/-- A start on a disk that keeps books succeeds where it finds 0 there. -/
theorem Kept.exists_init (h : Kept sha pb d p) :
    ∃ n, ∀ rounds, n ≤ rounds → ∃ r, init sha rounds 0 d = .ok (some (r, 0)) := by
  obtain ⟨r, ta, tt, hrecover, hruns⟩ := h.recoverLedger
  refine ⟨(hashes sha ta ++ hashes sha tt).length, fun rounds hrounds => ?_⟩
  obtain ⟨s, hs, _⟩ := hruns.inUse.reflects.trees.fetchFromDb hrounds
  refine ⟨{ r with state := s }, ?_⟩
  rw [init, hrecover, ok_bind, if_neg (not_not.mpr rfl), hs]
  rfl

/-- A server serves its calls as the books do that it found on the disk. -/
theorem Kept.main (h : Kept sha pb d p) {rounds : ℕ} {x : Session} {replies : List Reply}
    (hr : main sha pb rounds d x = .ok (some (r, replies))) :
    ∃ p' ta tt, ServesAll sha pb p x.served replies p' ∧ Runs sha pb r p' ta tt ∧
      (x.leftover = 0 → pendingOf sha r.state.2 ta tt = []) := by
  obtain ⟨started, hinit, hr⟩ := bind_eq_ok.mp hr
  cases started with
  | none => cases hr
  | some started =>
    obtain ⟨r₀, code⟩ := started
    obtain ⟨ta, tt, hruns, ⟨hleftover, rfl⟩ | ⟨hleftover, rfl, hp⟩⟩ := h.init_ok hinit
    · cases hr
      refine ⟨p, ta, tt, ?_, hruns, fun h => absurd h hleftover⟩
      rw [Session.served, if_neg hleftover]
      exact .nil p
    · obtain ⟨v, hv, hr⟩ := bind_eq_ok.mp hr
      cases hr
      obtain ⟨p', ta', tt', hserves, hruns', hp'⟩ := hruns.actions hp hv
      refine ⟨p', ta', tt', ?_, hruns', fun _ => hp'⟩
      rwa [Session.served, if_pos hleftover]

/-- And it saves them. -/
theorem Kept.session (h : Kept sha pb d p) {rounds : ℕ} {x : Session} {d' : Disk}
    {replies : List Reply} (hr : session sha pb rounds d x = .ok (some (d', replies)))
    (hdistinct : match Server.main sha pb rounds d x with
      | .ok (some (r, _)) => (loadedHashes r.state).Nodup
      | _ => True) :
    ∃ p' t s ta tt, ServesAll sha pb p x.served replies p' ∧ Saved sha pb d' p' t s ta tt := by
  obtain ⟨stopped, hmain, hr⟩ := bind_eq_ok.mp hr
  cases stopped with
  | none => cases hr
  | some stopped =>
    obtain ⟨r, replies'⟩ := stopped
    obtain ⟨d'', hexit, hr⟩ := bind_eq_ok.mp hr
    cases hr
    obtain ⟨p', ta, tt, hserves, hruns, _⟩ := h.main hmain
    rw [hmain] at hdistinct
    obtain ⟨d₁, t, hexit', hsaved⟩ := hruns.exit hdistinct
    rw [hexit'] at hexit
    cases hexit
    exact ⟨p', t, r.state, ta, tt, hserves, hsaved⟩

/-- Servers that run after each other serve their calls as one set of books. -/
theorem Kept.sessions {rounds : ℕ} {xs : List Session} {d' : Disk} {replies : List Reply}
    (h : Kept sha pb d p) (hr : sessions sha pb rounds d xs = .ok (some (d', replies)))
    (hdistinct : DistinctStops sha pb rounds d xs) :
    ∃ p', ServesAll sha pb p (xs.flatMap Session.served) replies p' ∧ Kept sha pb d' p' ∧
      (xs ≠ [] → ∃ t s ta tt, Saved sha pb d' p' t s ta tt) := by
  induction xs generalizing d p replies with
  | nil =>
    cases hr
    exact ⟨p, .nil p, h, fun hne => absurd rfl hne⟩
  | cons x xs ih =>
    obtain ⟨first, hfirst, hr⟩ := bind_eq_ok.mp hr
    cases first with
    | none => cases hr
    | some first =>
      obtain ⟨d₁, replies₁⟩ := first
      obtain ⟨rest, hrest, hr⟩ := bind_eq_ok.mp hr
      cases rest with
      | none => cases hr
      | some rest =>
        cases hr
        obtain ⟨p₁, t, s, ta, tt, hserves₁, hsaved⟩ := h.session hfirst hdistinct.1
        have hdistinct' := hdistinct.2
        rw [hfirst] at hdistinct'
        obtain ⟨p₂, hserves₂, hkept, hlast⟩ := ih (.saved hsaved) hrest hdistinct'
        refine ⟨p₂, hserves₁.append hserves₂, hkept, fun _ => ?_⟩
        cases xs with
        | nil =>
          cases hrest
          cases hserves₂
          exact ⟨t, s, ta, tt, hsaved⟩
        | cons x' xs => exact hlast (List.cons_ne_nil x' xs)

theorem kept_empty : Kept sha pb Disk.empty (Books.empty, []) := by
  refine .fresh (fun k hk => absurd rfl hk) fun t ht => ?_
  cases ht

end Lifecycle

/-- Servers that run after each other on an empty disk, and stop where no two nodes in memory carry
the same hash, answer all their calls as the books do that never stop. The next server, where
its `init` finds 0 in the place of the value that `recover_ledger` does not return, starts, has
every account of these books, and lists them in the order of their addresses; where it finds
another value, its `init` returns 1. -/
theorem sessions_serve_as_books (sha : Bytes → Uint256) (pb : Protobuf) (rounds : ℕ)
    (xs : List Session) (d : Disk) (replies : List Reply)
    (hr : sessions sha pb rounds Disk.empty xs = .ok (some (d, replies)))
    (hdistinct : DistinctStops sha pb rounds Disk.empty xs) :
    ∃ p, ServesAll sha pb (Books.empty, []) (xs.flatMap Session.served) replies p ∧
      (∃ n, ∀ rounds', n ≤ rounds' → ∃ r, init sha rounds' 0 d = .ok (some (r, 0)) ∧
        (∀ hash, entry sha pb r.state hash = p.1.accounts hash) ∧
        ∃ accs, act sha pb r.state .printAccounts = .ok (r.state, .accounts accs) ∧
          Lists p.1 accs) ∧
      ∀ rounds' leftover, leftover ≠ 0 →
        ∃ r, init sha rounds' leftover d = .ok (some (r, 1)) := by
  obtain ⟨p, hserves, hkept, _⟩ := kept_empty.sessions hr hdistinct
  obtain ⟨n, hinit⟩ := hkept.exists_init
  refine ⟨p, hserves, ⟨n, fun rounds' hrounds => ?_⟩,
    fun rounds' leftover hleftover => hkept.init_leftover hleftover rounds'⟩
  obtain ⟨r, hr⟩ := hinit rounds' hrounds
  refine ⟨r, hr, ?_⟩
  obtain ⟨ta, tt, hruns, ⟨hleftover, _⟩ | ⟨_, _, hp⟩⟩ := hkept.init_ok hr
  · exact absurd rfl hleftover
  · have hreflects : Reflects sha pb r.state p.1 p.2 ta tt := hruns.inUse.reflects
    obtain ⟨accs, haccs, hlists⟩ := hreflects.dfs_ok (hreflects.trees.eq_embed hp).1
    exact ⟨hreflects.entry_eq, accs, bind_eq_ok.mpr ⟨accs, haccs, rfl⟩, hlists⟩

/-- A server that creates two accounts and posts a payment, one whose `init` fails, and one that is
asked for a balance and lists the accounts. -/
def threeServers : List Session :=
  [⟨0, [.createAccount (sampleName 1), .createAccount (sampleName 2),
      .addTransactionEntry (samplePayment 1 2 100)]⟩,
    ⟨1, []⟩, ⟨0, [.getBalance (sampleName 1), .printAccounts]⟩]

theorem distinctStops_threeServers :
    DistinctStops checksum plainProtobuf 20 Disk.empty threeServers := by
  decide +kernel

theorem exists_threeServers :
    ∃ d replies, sessions checksum plainProtobuf 20 Disk.empty threeServers =
      .ok (some (d, replies)) := by
  have hok : (do
      let r ← sessions checksum plainProtobuf 20 Disk.empty threeServers
      .ok r.isSome) = .ok true := eq_ok_of_toOption (by decide +kernel)
  obtain ⟨r, hr, hsome⟩ := bind_eq_ok.mp hok
  obtain ⟨⟨d, replies⟩, rfl⟩ := Option.isSome_iff_exists.mp (Except.ok.inj hsome)
  exact ⟨d, replies, hr⟩

theorem sessions_serve_threeServers :
    ∃ d replies p, sessions checksum plainProtobuf 20 Disk.empty threeServers =
        .ok (some (d, replies)) ∧
      ServesAll checksum plainProtobuf (Books.empty, []) (threeServers.flatMap Session.served)
        replies p := by
  obtain ⟨d, replies, hr⟩ := exists_threeServers
  obtain ⟨p, hserves, _⟩ := sessions_serve_as_books checksum plainProtobuf 20 threeServers d
    replies hr distinctStops_threeServers
  exact ⟨d, replies, p, hr, hserves⟩

/-- After servers have run and stopped the table has one row. The next server, once it has
started, holds the node of every branch that is not empty in memory and none in the store, before
and after any calls. If it is killed between two calls, no later start on what is left
succeeds. -/
theorem started_server_holds_all (sha : Bytes → Uint256) (pb : Protobuf) (rounds : ℕ)
    (xs : List Session) (d : Disk) (replies : List Reply) (hne : xs ≠ [])
    (hr : sessions sha pb rounds Disk.empty xs = .ok (some (d, replies)))
    (hdistinct : DistinctStops sha pb rounds Disk.empty xs) :
    (∃ t, d.table = some t ∧ t.rows.length = 1) ∧
      ∀ rounds' r, init sha rounds' 0 d = .ok (some (r, 0)) →
        ∀ as v, actions sha pb r.state as = .ok v →
          (∀ root ∈ [v.1.2.accountTree, v.1.2.transactionTree], ∀ q d children i,
            root.follow q = .node d children → d.isEmptyBranch i = false →
              ∃ e cs, children i = .node e cs) ∧
          (∀ k, v.1.1 k ≠ none → k = closeKey) ∧
          ∀ rounds'' leftover,
            init sha rounds'' leftover ⟨v.1.1, some r.table⟩ = .error .missingKey := by
  obtain ⟨p, hserves, hkept, hlast⟩ := kept_empty.sessions hr hdistinct
  obtain ⟨t, s, ta, tt, hsaved⟩ := hlast hne
  refine ⟨⟨t, hsaved.table, by rw [hsaved.rows]; rfl⟩, fun rounds' r hr as v hv => ?_⟩
  obtain ⟨ta', tt', hruns, ⟨hleftover, _⟩ | ⟨_, _, hp⟩⟩ := hkept.init_ok hr
  · exact absurd rfl hleftover
  · obtain ⟨_, ta'', tt'', _, hruns', hp'⟩ := hruns.actions hp hv
    have htidy : Tidy v.1.1 [] := by
      rw [← hp']
      exact hruns'.tidy
    refine ⟨hruns'.inUse.reflects.trees.exists_child hp', fun k hk => ?_,
      fun rounds'' leftover => ?_⟩
    · rcases htidy k hk with hk | ⟨x, hx, _⟩
      · exact hk
      · cases hx
    · have htable : r.table = t := by
        rw [init_table hr, hsaved.table]
        rfl
      rw [htable]
      exact init_of_load_error hsaved.rows (htidy.uprooted s.2).load_eq rounds'' leftover

/-- A fourth server on that disk starts and creates one more account. -/
theorem started_server_threeServers :
    ∃ d replies r v, sessions checksum plainProtobuf 20 Disk.empty threeServers =
        .ok (some (d, replies)) ∧
      init checksum 20 0 d = .ok (some (r, 0)) ∧
      actions checksum plainProtobuf r.state [.createAccount (sampleName 3)] = .ok v ∧
      (∀ root ∈ [v.1.2.accountTree, v.1.2.transactionTree], ∀ q d children i,
        root.follow q = .node d children → d.isEmptyBranch i = false →
          ∃ e cs, children i = .node e cs) ∧
      (∀ k, v.1.1 k ≠ none → k = closeKey) ∧
      ∀ rounds leftover,
        init checksum rounds leftover ⟨v.1.1, some r.table⟩ = .error .missingKey := by
  have hok : (do
      let stopped ← sessions checksum plainProtobuf 20 Disk.empty threeServers
      let started ← stopped.elim (.error .noReturn) fun x => init checksum 20 0 x.1
      started.elim (.error .noReturn) fun x => do
        let _ ← actions checksum plainProtobuf x.1.state [.createAccount (sampleName 3)]
        .ok (decide (x.2 = 0))) = .ok true :=
    eq_ok_of_toOption (by decide +kernel)
  obtain ⟨stopped, hstopped, hok⟩ := bind_eq_ok.mp hok
  obtain ⟨started, hstarted, hok⟩ := bind_eq_ok.mp hok
  cases stopped with
  | none => cases hstarted
  | some stopped =>
    cases started with
    | none => cases hok
    | some started =>
      obtain ⟨d, replies⟩ := stopped
      obtain ⟨r, code⟩ := started
      obtain ⟨v, hv, hok⟩ := bind_eq_ok.mp hok
      obtain rfl : code = 0 := of_decide_eq_true (Except.ok.inj hok)
      obtain ⟨_, hall⟩ := started_server_holds_all checksum plainProtobuf 20 threeServers d
        replies (List.cons_ne_nil _ _) hstopped distinctStops_threeServers
      exact ⟨d, replies, r, v, hstopped, hstarted, hv, hall 20 r hstarted _ v hv⟩

end Server

end Bubi
