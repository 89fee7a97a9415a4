import Bubi.Core.Decimal
import Bubi.Core.KeyedTable
import Bubi.Ledger.Restart

/-!
# The table of ledgers

`add_ledger_to_database` prints the header of a ledger into an `insert`, or into an
`update` where the sequence number has a row already. `load_last_ledger` selects the row
with the greatest sequence number, reads its texts column by column and calls the loading
constructor. The statements are executed as standard SQL on integers and text.
-/

namespace Bubi

open Bubi.Core

namespace BubiLedger

/-- The columns, in the order of `create table`. -/
inductive Column where
  | ledgerSequence
  | hash
  | phash
  | txhash
  | accounthash
  | totalCoins
  | closeTime
  deriving DecidableEq

/-- The columns that `select *` names. -/
def Column.all : List Column :=
  [.ledgerSequence, .hash, .phash, .txhash, .accounthash, .totalCoins, .closeTime]

/-- The value of a column. -/
inductive Value where
  | null
  | integer (n : ℤ)
  | text (s : Bytes)
  deriving DecidableEq

/-- The text of a value as `sqlite3_exec` passes it, a null pointer for `NULL`. -/
def Value.argv : Value → Option Bytes
  | .null => none
  | .integer n => some (if n < 0 then 0x2d :: Decimal.print n.natAbs else Decimal.print n.natAbs)
  | .text s => some s

/-- A row. -/
abbrev Record := Column → Value

/-- The primary key. -/
def key (r : Record) : WithBot ℤ :=
  match r .ledgerSequence with
  | .integer n => n
  | _ => ⊥

/-- The table `BubiLedger`. -/
abbrev Table := KeyedTable key

/-- A literal, as it is printed into a statement. -/
inductive Literal where
  | number (digits : Bytes)
  | quoted (characters : Bytes)

/-- The value of a literal. -/
def Literal.value : Literal → Value
  | .number digits => .integer (Decimal.number digits)
  | .quoted characters => .text characters

/-- The two statements of `add_ledger_to_database`. -/
inductive Statement where
  /-- `insert into BubiLedger (columns) values (values)`. -/
  | insert (columns : List Column) (values : List Literal)
  /-- `update BubiLedger set assignments where ledger_sequence=sequence`. -/
  | update (assignments : List (Column × Literal)) (sequence : Literal)

/-- Columns get values. -/
def assign (r : Record) (assignments : List (Column × Literal)) : Record :=
  assignments.foldl (fun r p => Function.update r p.1 p.2.value) r

/-- What a statement does, unless it fails. -/
def Statement.run (t : Table) : Statement → Option Table
  | .insert columns values =>
    if columns.length = values.length then
      t.insert (assign (fun _ => .null) (columns.zip values))
    else none
  | .update assignments sequence =>
    match sequence.value with
    | .integer n => t.update n fun r => assign r assignments
    | _ => some t

/-- `SqliteImp::exec_sql`: 0, or 1 where the statement has failed. -/
def execSql (t : Table) (s : Statement) : Table × ℕ :=
  match s.run t with
  | some t' => (t', 0)
  | none => (t, 1)

/-- The `insert` of a ledger. -/
def insertStatement (l : Ledger) : Statement :=
  .insert [.ledgerSequence, .hash, .phash, .txhash, .accounthash, .totalCoins, .closeTime]
    [.number (Decimal.print l.ledgerSequence.toNat), .quoted l.hash.toString,
      .quoted l.parentHash.toString, .quoted l.transactionTreeHash.toString,
      .quoted l.accountTreeHash.toString, .number (Decimal.print l.totalCoins.toNat),
      .number (Decimal.print l.closeTime.toNat)]

/-- The assignments of the `update` of a ledger. -/
def assignments (l : Ledger) : List (Column × Literal) :=
  [(.hash, .quoted l.hash.toString), (.phash, .quoted l.parentHash.toString),
    (.txhash, .quoted l.transactionTreeHash.toString),
    (.accounthash, .quoted l.accountTreeHash.toString),
    (.totalCoins, .number (Decimal.print l.totalCoins.toNat)),
    (.closeTime, .number (Decimal.print l.closeTime.toNat))]

/-- The `update` of a ledger. -/
def updateStatement (l : Ledger) : Statement :=
  .update (assignments l) (.number (Decimal.print l.ledgerSequence.toNat))

/-- `Ledger::add_ledger_to_database`, with its return value. -/
def addLedgerToDatabase (t : Table) (l : Ledger) : Table × ℕ :=
  let inserted := execSql t (insertStatement l)
  if inserted.2 ≠ 0 then
    let updated := execSql inserted.1 (updateStatement l)
    if updated.2 ≠ 0 then (updated.1, 1) else (updated.1, 0)
  else (inserted.1, 0)

/-- White space that `operator>>` skips. -/
def isSpace (c : UInt8) : Bool := c = 0x20 || (decide (0x09 ≤ c.toNat) && decide (c.toNat ≤ 0x0d))

/-- The sign in front of a number, and what follows it. -/
def sign : Bytes → Bool × Bytes
  | 0x2d :: ch => (true, ch)
  | 0x2b :: ch => (false, ch)
  | ch => (false, ch)

/-- `char_to_uint32_t`, with the value of the variable, if it was set: an empty or blank text
leaves it alone, a number that is too large becomes the largest one, and a text that has no digits
becomes 0. -/
def charToUint32T (val : Option (BitVec 32)) (ch : Bytes) : Option (BitVec 32) :=
  let text := ch.dropWhile isSpace
  if text.isEmpty then val
  else
    let signed := sign text
    let n := Decimal.number (signed.2.takeWhile Decimal.isDigit)
    if 2 ^ 32 ≤ n then some (BitVec.allOnes 32)
    else if signed.1 then some (-BitVec.ofNat 32 n) else some (BitVec.ofNat 32 n)

/-- The value of a variable that is read. -/
def readVariable : Option (BitVec 32) → Except Fault (BitVec 32)
  | none => .error .uninitialised
  | some val => .ok val

/-- A text of `argv` that is read. -/
def notNull : Option Bytes → Except Fault Bytes
  | none => .error .nullDeref
  | some ch => .ok ch

/-- The loading constructor of `Ledger`. -/
def construct (sha : Bytes → Uint256) (db : Database)
    (hash parentHash transactionTreeHash accountTreeHash : Uint256)
    (totalCoin ledgerSequence closeTime : BitVec 32) : Except Fault Ledger.State := do
  let account ← RadixMerkleTree.load sha db accountTreeHash
  let transaction ← RadixMerkleTree.load sha account.1 transactionTreeHash
  .ok (transaction.1,
    { hash
      parentHash
      transactionTreeHash
      accountTreeHash
      totalCoins := totalCoin
      ledgerSequence
      closeTime
      transactionTree := transaction.2
      accountTree := account.2 })

/-- `load_last_ledger_call_back`; its variables have no value before they are read from texts. -/
def loadLastLedgerCallBack (sha : Bytes → Uint256) (db : Database) :
    List (Option Bytes) → Except Fault Ledger.State
  | [argv₀, argv₁, argv₂, argv₃, argv₄, argv₅, argv₆] => do
    let ledgerSequence ← notNull argv₀
    let hash ← notNull argv₁ >>= Uint256.binaryInit
    let parentHash ← notNull argv₂ >>= Uint256.binaryInit
    let transactionTreeHash ← notNull argv₃ >>= Uint256.binaryInit
    let accountTreeHash ← notNull argv₄ >>= Uint256.binaryInit
    let totalCoin ← notNull argv₅
    let closeTime ← notNull argv₆
    let totalCoin ← readVariable (charToUint32T none totalCoin)
    let ledgerSequence ← readVariable (charToUint32T none ledgerSequence)
    let closeTime ← readVariable (charToUint32T none closeTime)
    construct sha db hash parentHash transactionTreeHash accountTreeHash totalCoin ledgerSequence
      closeTime
  | _ => .error .assertion

/-- `load_last_ledger` in a process that has no ledger yet. -/
def loadLastLedger (sha : Bytes → Uint256) (db : Database) (t : Table) :
    Except Fault Ledger.State :=
  match t.last with
  | none => do
    let l ← Ledger.new sha
    .ok (db, l)
  | some r => loadLastLedgerCallBack sha db (Column.all.map fun column => (r column).argv)

/-- The values of a row. -/
def record (row : Row) : Record
  | .ledgerSequence => .integer row.ledgerSequence.toNat
  | .hash => .text row.hash
  | .phash => .text row.phash
  | .txhash => .text row.txhash
  | .accounthash => .text row.accounthash
  | .totalCoins => .integer row.totalCoins.toNat
  | .closeTime => .integer row.closeTime.toNat

/-- The key of the row of a ledger. -/
def keyOf (l : Ledger) : WithBot ℤ := WithBot.some (l.ledgerSequence.toNat : ℤ)

variable {sha : Bytes → Uint256} {db : Database} {t : Table} {l : Ledger}

section Save

/-- The `insert` writes the row of the ledger. -/
theorem run_insertStatement (t : Table) (l : Ledger) :
    (insertStatement l).run t = t.insert (record (Ledger.addLedgerToDatabase l)) := by
  unfold insertStatement Statement.run
  dsimp only
  refine (if_pos rfl).trans (congrArg t.insert ?_)
  funext column
  cases column <;> simp [assign, record, Ledger.addLedgerToDatabase, Literal.value,
    Decimal.number_print]

theorem eq_integer_of_key {r : Record} {n : ℤ} (h : key r = n) :
    r .ledgerSequence = .integer n := by
  unfold key at h
  split at h
  · rename_i heq
    rw [heq, WithBot.coe_inj.mp h]
  · cases h

/-- The `update` writes it over the row with the same sequence number. -/
theorem assign_assignments {r : Record} (hr : key r = keyOf l) :
    assign r (assignments l) = record (Ledger.addLedgerToDatabase l) := by
  have hsequence := eq_integer_of_key hr
  funext column
  cases column <;> simp [assign, assignments, record, Ledger.addLedgerToDatabase, Literal.value,
    Decimal.number_print, hsequence]

theorem run_updateStatement (t : Table) (l : Ledger) :
    (updateStatement l).run t =
      t.update (l.ledgerSequence.toNat : ℤ) fun r => assign r (assignments l) := by
  simp only [updateStatement, Statement.run, Literal.value, Decimal.number_print]

/-- A ledger is saved in its row, and the rows with other sequence numbers stay as they are. -/
theorem addLedgerToDatabase_saved (t : Table) (l : Ledger) :
    (addLedgerToDatabase t l).2 = 0 ∧
      record (Ledger.addLedgerToDatabase l) ∈ (addLedgerToDatabase t l).1.rows ∧
      ∀ r, key r ≠ keyOf l →
        (r ∈ (addLedgerToDatabase t l).1.rows ↔ r ∈ t.rows) := by
  have hkey : key (record (Ledger.addLedgerToDatabase l)) = keyOf l := rfl
  have hassign : ∀ r, key r = keyOf l →
      assign r (assignments l) = record (Ledger.addLedgerToDatabase l) :=
    fun _ hr => assign_assignments hr
  obtain ⟨t', hstatements, hsaved⟩ := t.exists_insert_or_update hkey hassign
  have heq : addLedgerToDatabase t l = (t', 0) := by
    unfold addLedgerToDatabase execSql
    rw [run_insertStatement]
    rcases hstatements with hinsert | ⟨hinsert, hupdate⟩
    · rw [hinsert]
      rfl
    · simp only [hinsert, run_updateStatement, hupdate]
      rfl
  rw [heq]
  exact ⟨rfl, hsaved⟩

end Save

section Load

/-- Digits are not skipped. -/
theorem dropWhile_of_isDigit {c : UInt8} (hc : Decimal.isDigit c = true) (ch : Bytes) :
    (c :: ch).dropWhile isSpace = c :: ch := by
  have hspace : isSpace c = false := by
    simp only [Decimal.isDigit, Bool.and_eq_true, decide_eq_true_eq] at hc
    simp only [isSpace, Bool.or_eq_false_iff, decide_eq_false_iff_not, Bool.and_eq_false_iff]
    refine ⟨?_, Or.inr (by omega)⟩
    rintro rfl
    exact absurd hc.1 (by decide)
  rw [List.dropWhile_cons_of_neg (by rw [hspace]; decide)]

/-- Digits are no sign. -/
theorem sign_of_isDigit {c : UInt8} (hc : Decimal.isDigit c = true) (ch : Bytes) :
    sign (c :: ch) = (false, c :: ch) := by
  unfold sign
  split
  · rename_i heq
    cases heq
    exact absurd hc (by decide)
  · rename_i heq
    cases heq
    exact absurd hc (by decide)
  · rfl

/-- A printed number is read back, whatever the variable was. -/
theorem charToUint32T_print (val : Option (BitVec 32)) (v : BitVec 32) :
    charToUint32T val (Decimal.print v.toNat) = some v := by
  obtain ⟨c, ch, hprint⟩ := List.exists_cons_of_ne_nil (Decimal.print_ne_nil v.toNat)
  have hc : Decimal.isDigit c = true :=
    Decimal.isDigit_of_mem_print (hprint ▸ List.mem_cons_self)
  have hskip := dropWhile_of_isDigit hc ch
  have hsign := sign_of_isDigit hc ch
  rw [← hprint] at hskip hsign
  have hempty : (Decimal.print v.toNat).isEmpty = false := by rw [hprint, List.isEmpty_cons]
  unfold charToUint32T
  dsimp only
  rw [hskip, hempty, hsign]
  dsimp only
  rw [if_neg (by decide), Decimal.takeWhile_print, Decimal.number_print, if_neg v.isLt.not_ge,
    if_neg (by decide), BitVec.ofNat_toNat, BitVec.setWidth_eq]

theorem argv_integer (n : ℕ) : (Value.integer n).argv = some (Decimal.print n) := by
  rw [Value.argv, if_neg (by omega), Int.natAbs_natCast]

theorem argv_text (s : Bytes) : (Value.text s).argv = some s := rfl

/-- The row of a ledger is read back. -/
theorem loadLastLedgerCallBack_record (sha : Bytes → Uint256) (db : Database) (l : Ledger) :
    loadLastLedgerCallBack sha db
        (Column.all.map fun column => (record (Ledger.addLedgerToDatabase l) column).argv) =
      construct sha db l.hash l.parentHash l.transactionTreeHash l.accountTreeHash l.totalCoins
        l.ledgerSequence l.closeTime := by
  simp only [Column.all, List.map_cons, List.map_nil, record, Ledger.addLedgerToDatabase,
    argv_integer, argv_text, loadLastLedgerCallBack, notNull, ok_bind,
    Uint256.binaryInit_toString, charToUint32T_print, readVariable]

/-- The table and the single row of a save load the same ledger. -/
theorem construct_eq_load (sha : Bytes → Uint256) (db : Database) (l : Ledger) :
    construct sha db l.hash l.parentHash l.transactionTreeHash l.accountTreeHash l.totalCoins
      l.ledgerSequence l.closeTime = Ledger.load sha db (Ledger.addLedgerToDatabase l) := by
  simp only [Ledger.load, Ledger.addLedgerToDatabase, Uint256.binaryInit_toString, ok_bind,
    construct]

/-- The constructor returns where both roots are fetched, the account root first. -/
theorem exists_construct {hash parentHash transactionTreeHash accountTreeHash : Uint256}
    {totalCoin ledgerSequence closeTime : BitVec 32} :
    (∃ s, construct sha db hash parentHash transactionTreeHash accountTreeHash totalCoin
        ledgerSequence closeTime = .ok s) ↔
      ∃ account transaction, db.fetch sha accountTreeHash = .ok account ∧
        Database.fetch sha account.1 transactionTreeHash = .ok transaction := by
  constructor
  · rintro ⟨s, hs⟩
    obtain ⟨account, haccount, hs⟩ := bind_eq_ok.mp hs
    obtain ⟨transaction, htransaction, _⟩ := bind_eq_ok.mp hs
    exact ⟨account, transaction, haccount, htransaction⟩
  · rintro ⟨account, transaction, haccount, htransaction⟩
    exact ⟨_, bind_eq_ok.mpr ⟨account, haccount, bind_eq_ok.mpr ⟨transaction, htransaction, rfl⟩⟩⟩

/-- A saved ledger is the last one when no row has a larger sequence number. -/
theorem loadLastLedger_saved (sha : Bytes → Uint256) (db : Database)
    (hlast : t.BoundedBy (keyOf l)) :
    loadLastLedger sha db (addLedgerToDatabase t l).1 =
      construct sha db l.hash l.parentHash l.transactionTreeHash l.accountTreeHash l.totalCoins
        l.ledgerSequence l.closeTime := by
  obtain ⟨_, hsaved, hothers⟩ := addLedgerToDatabase_saved t l
  have hrow : (addLedgerToDatabase t l).1.last = some (record (Ledger.addLedgerToDatabase l)) := by
    refine KeyedTable.last_eq _ hsaved fun r hr => ?_
    by_cases hkey : key r = keyOf l
    · exact hkey.le
    · exact hlast r ((hothers r hkey).mp hr)
  unfold loadLastLedger
  rw [hrow]
  exact loadLastLedgerCallBack_record sha db l

/-- A ledger that was saved with both trees is loaded with them. -/
theorem loadLastLedger_of_save {s : Ledger.State} {ta tt : MerkleTrie}
    (h : Ledger.Trees sha s ta tt) (hcurrent : Ledger.Current s.2)
    (hn : (MerkleTrie.hashes sha ta ++ MerkleTrie.hashes sha tt).Nodup)
    (hlast : t.BoundedBy (keyOf s.2)) :
    ∃ db' s', Ledger.save s = .ok (db', Ledger.addLedgerToDatabase s.2) ∧
      loadLastLedger sha db' (addLedgerToDatabase t s.2).1 = .ok s' ∧
      Ledger.Trees sha s' ta tt := by
  obtain ⟨db', hsave, ha, ht⟩ := h.save hn
  obtain ⟨s', hload, htrees, _⟩ := h.load hcurrent hn ha ht
  refine ⟨db', s', hsave, ?_, htrees⟩
  rw [loadLastLedger_saved sha db' hlast, construct_eq_load]
  exact hload

end Load

/-- For every ledger and every table without a larger sequence number: the header is saved in the
row of its sequence number whether that exists or not, the other rows stay as they are, and
`load_last_ledger` calls the loading constructor with the saved values. It returns exactly when
that finds the account root and then the transaction root in the store, and the ledger that it
makes has the saved header. -/
theorem saved_header_loaded (sha : Bytes → Uint256) (db : Database) (t : Table) (l : Ledger)
    (hlast : t.BoundedBy (keyOf l)) :
    (addLedgerToDatabase t l).2 = 0 ∧
      record (Ledger.addLedgerToDatabase l) ∈ (addLedgerToDatabase t l).1.rows ∧
      (∀ r, key r ≠ keyOf l →
        (r ∈ (addLedgerToDatabase t l).1.rows ↔ r ∈ t.rows)) ∧
      loadLastLedger sha db (addLedgerToDatabase t l).1 =
        construct sha db l.hash l.parentHash l.transactionTreeHash l.accountTreeHash l.totalCoins
          l.ledgerSequence l.closeTime ∧
      ((∃ s, loadLastLedger sha db (addLedgerToDatabase t l).1 = .ok s) ↔
        ∃ account transaction, db.fetch sha l.accountTreeHash = .ok account ∧
          Database.fetch sha account.1 l.transactionTreeHash = .ok transaction) ∧
      ∀ s, loadLastLedger sha db (addLedgerToDatabase t l).1 = .ok s →
        s.2.hash = l.hash ∧ s.2.parentHash = l.parentHash ∧
          s.2.transactionTreeHash = l.transactionTreeHash ∧
          s.2.accountTreeHash = l.accountTreeHash ∧ s.2.totalCoins = l.totalCoins ∧
          s.2.ledgerSequence = l.ledgerSequence ∧ s.2.closeTime = l.closeTime := by
  obtain ⟨hreturned, hsaved, hothers⟩ := addLedgerToDatabase_saved t l
  have hload := loadLastLedger_saved sha db hlast
  refine ⟨hreturned, hsaved, hothers, hload, ?_, fun s hs => ?_⟩
  · rw [hload]
    exact exists_construct
  · rw [hload] at hs
    obtain ⟨account, _, hs⟩ := bind_eq_ok.mp hs
    obtain ⟨transaction, _, hs⟩ := bind_eq_ok.mp hs
    cases hs
    exact ⟨rfl, rfl, rfl, rfl, rfl, rfl, rfl⟩

/-- A row that has nothing but its sequence number. -/
def bareRow (n : ℤ) : Record := Function.update (fun _ => .null) .ledgerSequence (.integer n)

/-- A table that has a row for the sequence number of a new ledger. -/
def bareTable : Table := ⟨[bareRow 0, bareRow 1], by decide, by decide⟩

theorem saved_header_loaded_bareTable :
    ∃ l db s, Ledger.new checksum = .ok l ∧
      Ledger.save (fun _ => none, l) = .ok (db, Ledger.addLedgerToDatabase l) ∧
      bareRow 0 ∈ (addLedgerToDatabase bareTable l).1.rows ∧
      loadLastLedger checksum db (addLedgerToDatabase bareTable l).1 = .ok s ∧
      s.2.hash = l.hash ∧ s.2.totalCoins = l.totalCoins := by
  have hok : (do
      let l ← Ledger.new checksum
      let saved ← Ledger.save (fun _ => none, l)
      let account ← Database.fetch checksum saved.1 l.accountTreeHash
      let _ ← Database.fetch checksum account.1 l.transactionTreeHash
      .ok (decide (l.ledgerSequence = 1))) = .ok true :=
    eq_ok_of_toOption (by decide +kernel)
  obtain ⟨l, hl, hok⟩ := bind_eq_ok.mp hok
  obtain ⟨⟨db, row⟩, hsave, hok⟩ := bind_eq_ok.mp hok
  obtain ⟨account, haccount, hok⟩ := bind_eq_ok.mp hok
  obtain ⟨transaction, htransaction, hok⟩ := bind_eq_ok.mp hok
  have hsequence : l.ledgerSequence = 1 := of_decide_eq_true (Except.ok.inj hok)
  have hlast : bareTable.BoundedBy (keyOf l) := by
    rw [keyOf, hsequence]
    unfold KeyedTable.BoundedBy
    decide
  obtain ⟨_, _, hothers, _, hreturns, hheader⟩ :=
    saved_header_loaded checksum db bareTable l hlast
  obtain ⟨s, hs⟩ := hreturns.mpr ⟨account, transaction, haccount, htransaction⟩
  have hrow : row = Ledger.addLedgerToDatabase l := by
    obtain ⟨_, _, hsave⟩ := bind_eq_ok.mp hsave
    obtain ⟨_, _, hsave⟩ := bind_eq_ok.mp hsave
    cases hsave
    rfl
  refine ⟨l, db, s, hl, hrow ▸ hsave, ?_, hs, (hheader s hs).1, (hheader s hs).2.2.2.2.1⟩
  refine (hothers _ ?_).mpr List.mem_cons_self
  rw [keyOf, hsequence]
  decide

/-- The row of a ledger is saved before its trees are. -/
theorem unsaved_trees_not_loaded :
    ∃ l, Ledger.new checksum = .ok l ∧ (addLedgerToDatabase (.empty key) l).2 = 0 ∧
      ∀ s, loadLastLedger checksum (fun _ => none) (addLedgerToDatabase (.empty key) l).1 ≠
        .ok s := by
  obtain ⟨l, hl⟩ : ∃ l, Ledger.new checksum = .ok l := ⟨_, rfl⟩
  refine ⟨l, hl, (addLedgerToDatabase_saved _ l).1, fun s hs => ?_⟩
  have hlast : (KeyedTable.empty key).BoundedBy (keyOf l) := List.forall_mem_nil _
  rw [loadLastLedger_saved _ _ hlast] at hs
  obtain ⟨account, transaction, haccount, _⟩ := exists_construct.mp ⟨s, hs⟩
  cases haccount

end BubiLedger

end Bubi
