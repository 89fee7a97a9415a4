import Mathlib.Data.Rat.Defs
import Mathlib.Tactic.Common

/-!
# Self-delimiting byte formats

A format writes a value so that a reader finds its end in front of any further bytes.
Pairs and images of formats are formats. A parser of such a format that reads value
after value and keeps the last one inverts the writer, and on several written values it
returns the last. A reader that makes nothing larger than what it reads makes a parser of
this kind.
-/

namespace Bubi.Core

/-- A writer and a reader that consumes exactly what was written. -/
structure Wire (α : Type) where
  write : α → List UInt8
  read : List UInt8 → Option (α × List UInt8)
  read_write : ∀ a rest, read (write a ++ rest) = some (a, rest)
  read_nil : read [] = none

namespace Wire

variable {α β : Type}

/-- One value after the other. -/
def pair (w : Wire α) (v : Wire β) : Wire (α × β) where
  write p := w.write p.1 ++ v.write p.2
  read bytes := do
    let (a, rest) ← w.read bytes
    let (b, rest) ← v.read rest
    some ((a, b), rest)
  read_write := by
    intro p rest
    simp [List.append_assoc, w.read_write, v.read_write]
  read_nil := by simp [w.read_nil]

/-- A format of a type whose values are given by those of another. -/
def image (w : Wire α) (pack : α → β) (unpack : β → α)
    (pack_unpack : ∀ b, pack (unpack b) = b) : Wire β where
  write b := w.write (unpack b)
  read bytes := do
    let (a, rest) ← w.read bytes
    some (pack a, rest)
  read_write := by
    intro b rest
    simp [w.read_write, pack_unpack]
  read_nil := by simp [w.read_nil]

/-- A value behind a fixed byte. -/
def tag (byte : UInt8) (w : Wire α) : Wire α where
  write a := byte :: w.write a
  read bytes :=
    match bytes with
    | [] => none
    | b :: rest => if b = byte then w.read rest else none
  read_write := by
    intro a rest
    simp [w.read_write]
  read_nil := rfl

/-- The digits of a number to the base 255, at most the given number of them. -/
def natDigits : ℕ → ℕ → List UInt8
  | 0, _ => []
  | fuel + 1, n => if n = 0 then [] else UInt8.ofNat (n % 255) :: natDigits fuel (n / 255)

/-- The number of a row of digits that ends with the byte 255. -/
def readNat : List UInt8 → Option (ℕ × List UInt8)
  | [] => none
  | byte :: bytes =>
    if byte = 255 then some (0, bytes)
    else do
      let (n, rest) ← readNat bytes
      some (byte.toNat + 255 * n, rest)

theorem readNat_natDigits {fuel n : ℕ} (hn : n ≤ fuel) (rest : List UInt8) :
    readNat (natDigits fuel n ++ 255 :: rest) = some (n, rest) := by
  induction fuel generalizing n with
  | zero =>
    obtain rfl : n = 0 := by omega
    simp [natDigits, readNat]
  | succ fuel ih =>
    by_cases hzero : n = 0
    · simp [natDigits, hzero, readNat]
    · have hlt : n % 255 < 255 := Nat.mod_lt _ (by omega)
      have hbyte : (UInt8.ofNat (n % 255)).toNat = n % 255 := by
        rw [UInt8.toNat_ofNat']
        omega
      have hne : UInt8.ofNat (n % 255) ≠ 255 := by
        intro heq
        rw [heq] at hbyte
        have : (255 : UInt8).toNat = 255 := rfl
        omega
      rw [natDigits, if_neg hzero, List.cons_append, readNat, if_neg hne, ih (by omega), hbyte]
      have hdiv := Nat.mod_add_div n 255
      simp [hdiv]

/-- A number. -/
def nat : Wire ℕ where
  write n := natDigits n n ++ [255]
  read := readNat
  read_write := by
    intro n rest
    rw [List.append_assoc]
    exact readNat_natDigits le_rfl rest
  read_nil := rfl

/-- A byte string behind its length. -/
def bytes : Wire (List UInt8) where
  write s := nat.write s.length ++ s
  read input := do
    let (n, rest) ← nat.read input
    if n ≤ rest.length then some (rest.take n, rest.drop n) else none
  read_write := by
    intro s rest
    simp [List.append_assoc, nat.read_write]
  read_nil := by simp [nat.read_nil]

/-- A fraction, as its numerator's positive and negative part and its denominator. -/
def rat : Wire ℚ :=
  (nat.pair (nat.pair nat)).image (fun p => mkRat ((p.1 : ℤ) - p.2.1) p.2.2)
    (fun q => (q.num.toNat, (-q.num).toNat, q.den)) (by
      intro q
      have hnum : ((q.num.toNat : ℤ) - (-q.num).toNat) = q.num := by omega
      rw [hnum, Rat.mkRat_self])

/-- A fixed-width number. -/
def bitVec (w : ℕ) : Wire (BitVec w) :=
  nat.image (BitVec.ofNat w) BitVec.toNat (by simp)

/-- The last of the values written one after the other, over at most the given number. -/
def lastOf (w : Wire α) : ℕ → α → List UInt8 → α
  | 0, a, _ => a
  | fuel + 1, a, input =>
    match w.read input with
    | none => a
    | some (b, rest) => lastOf w fuel b rest

/-- The parser of a string of written values; a default stands for the empty string. -/
def parse [Inhabited α] (w : Wire α) (input : List UInt8) : α :=
  lastOf w input.length default input

theorem write_ne_nil (w : Wire α) (a : α) : w.write a ≠ [] := by
  intro h
  have hread := w.read_write a []
  rw [h, List.append_nil, w.read_nil] at hread
  cases hread

theorem length_le_flatMap_write (w : Wire α) (as : List α) :
    as.length ≤ (as.flatMap w.write).length := by
  induction as with
  | nil => simp
  | cons a as ih =>
    have hpos := List.length_pos_iff.mpr (w.write_ne_nil a)
    rw [List.flatMap_cons, List.length_append, List.length_cons]
    omega

theorem lastOf_flatMap_write (w : Wire α) (as : List α) {fuel : ℕ} (hfuel : as.length ≤ fuel)
    (a : α) : lastOf w fuel a (as.flatMap w.write) = as.getLastD a := by
  induction as generalizing fuel a with
  | nil =>
    cases fuel with
    | zero => rfl
    | succ fuel => simp [lastOf, w.read_nil]
  | cons b as ih =>
    cases fuel with
    | zero => simp at hfuel
    | succ fuel =>
      rw [List.flatMap_cons, lastOf, w.read_write]
      exact (ih (by simpa using hfuel) b).trans List.getLastD_cons.symm

/-- On written values the parser returns the last. -/
theorem parse_flatMap_write [Inhabited α] (w : Wire α) (as : List α) :
    w.parse (as.flatMap w.write) = as.getLastD default :=
  w.lastOf_flatMap_write as (w.length_le_flatMap_write as) default

/-- The parser inverts the writer. -/
theorem parse_write [Inhabited α] (w : Wire α) (a : α) : w.parse (w.write a) = a := by
  have h := w.parse_flatMap_write [a]
  simpa using h

/-- What is read is not larger than the bytes that it takes. -/
def Bounds (w : Wire α) (size : α → ℕ) : Prop :=
  ∀ input a rest, w.read input = some (a, rest) → size a + rest.length ≤ input.length

namespace Bounds

variable {w : Wire α} {v : Wire β} {size : α → ℕ} {size' : β → ℕ}

theorem pair (hw : w.Bounds size) (hv : v.Bounds size') :
    (w.pair v).Bounds fun p => size p.1 + size' p.2 := by
  intro input p rest h
  simp only [Wire.pair, Option.bind_eq_bind, Option.bind_eq_some_iff, Option.some.injEq,
    Prod.mk.injEq] at h
  obtain ⟨⟨a, middle⟩, ha, ⟨b, rest'⟩, hb, rfl, rfl⟩ := h
  have hfirst := hw input a middle ha
  have hsecond := hv middle b rest' hb
  dsimp only at hsecond ⊢
  omega

theorem image (hw : w.Bounds size) {pack : α → β} {unpack : β → α}
    {pack_unpack : ∀ b, pack (unpack b) = b} (hsize : ∀ a, size' (pack a) = size a) :
    (w.image pack unpack pack_unpack).Bounds size' := by
  intro input b rest h
  simp only [Wire.image, Option.bind_eq_bind, Option.bind_eq_some_iff, Option.some.injEq,
    Prod.mk.injEq] at h
  obtain ⟨⟨a, rest'⟩, ha, rfl, rfl⟩ := h
  rw [hsize]
  exact hw input a rest' ha

theorem tag {byte : UInt8} (hw : w.Bounds size) : (w.tag byte).Bounds size := by
  intro input a rest h
  cases input with
  | nil => cases h
  | cons b input =>
    simp only [Wire.tag, Option.ite_none_right_eq_some] at h
    exact (hw input a rest h.2).trans (Nat.le_succ _)

theorem nat : Wire.nat.Bounds fun _ => 0 := by
  intro input
  induction input with
  | nil =>
    intro n rest h
    cases h
  | cons byte bytes ih =>
    intro n rest h
    simp only [Wire.nat, readNat] at h
    split at h
    · cases h
      exact (Nat.zero_add _).le.trans (Nat.le_succ _)
    · simp only [Option.bind_eq_bind, Option.bind_eq_some_iff, Option.some.injEq,
        Prod.mk.injEq] at h
      obtain ⟨⟨m, rest'⟩, hm, _, rfl⟩ := h
      exact (ih m rest' hm).trans (Nat.le_succ _)

theorem bytes : Wire.bytes.Bounds List.length := by
  intro input s rest h
  simp only [Wire.bytes, Option.bind_eq_bind, Option.bind_eq_some_iff,
    Option.ite_none_right_eq_some, Option.some.injEq, Prod.mk.injEq] at h
  obtain ⟨⟨n, middle⟩, hn, _, rfl, rfl⟩ := h
  have hnumber : 0 + middle.length ≤ input.length := nat input n middle hn
  rw [← List.length_append, List.take_append_drop]
  rwa [Nat.zero_add] at hnumber

theorem bitVec {width : ℕ} : (Wire.bitVec width).Bounds fun _ => 0 :=
  nat.image fun _ => rfl

/-- The parser makes nothing that is larger than its input. -/
theorem parse [Inhabited α] (hw : w.Bounds size) (hdefault : size default = 0)
    (input : List UInt8) : size (w.parse input) ≤ input.length := by
  have hlast : ∀ fuel a rest, size a ≤ input.length → rest.length ≤ input.length →
      size (lastOf w fuel a rest) ≤ input.length := by
    intro fuel
    induction fuel with
    | zero => exact fun a rest ha _ => ha
    | succ fuel ih =>
      intro a rest ha hrest
      rw [lastOf]
      split
      · exact ha
      · rename_i b rest' hb
        have hread := hw rest b rest' hb
        exact ih b rest' (by omega) (by omega)
  exact hlast input.length default input (by omega) le_rfl

end Bounds

end Wire

end Bubi.Core
