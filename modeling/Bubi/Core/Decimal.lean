import Mathlib.Data.List.TakeWhile
import Mathlib.Data.Nat.Digits.Lemmas

/-!
# Decimal text

Numbers are printed with their decimal digits as ASCII characters, the most significant
first, and read back digit by digit.
-/

namespace Bubi.Core.Decimal

/-- The character of a digit. -/
def digit (d : ℕ) : UInt8 := UInt8.ofNat (0x30 + d)

/-- A character is a digit. -/
def isDigit (c : UInt8) : Bool := decide (0x30 ≤ c.toNat) && decide (c.toNat ≤ 0x39)

/-- The digits of a number, without leading zeros. -/
def print (n : ℕ) : List UInt8 :=
  if n = 0 then [digit 0] else (Nat.digits 10 n).reverse.map digit

/-- The number of a row of digits. -/
def number (text : List UInt8) : ℕ := text.foldl (fun n c => c.toNat - 0x30 + 10 * n) 0

theorem toNat_digit {d : ℕ} (hd : d < 10) : (digit d).toNat = 0x30 + d := by
  rw [digit, UInt8.toNat_ofNat']
  omega

theorem isDigit_digit {d : ℕ} (hd : d < 10) : isDigit (digit d) = true := by
  rw [isDigit, toNat_digit hd, Bool.and_eq_true, decide_eq_true_eq, decide_eq_true_eq]
  omega

theorem isDigit_of_mem_print {n : ℕ} {c : UInt8} (hc : c ∈ print n) : isDigit c = true := by
  unfold print at hc
  split at hc
  · rw [List.mem_singleton.mp hc]
    exact isDigit_digit (by decide)
  · obtain ⟨d, hd, rfl⟩ := List.mem_map.mp hc
    exact isDigit_digit (Nat.digits_lt_base (by decide) (List.mem_reverse.mp hd))

theorem print_ne_nil (n : ℕ) : print n ≠ [] := by
  unfold print
  split
  · exact List.cons_ne_nil _ _
  · rename_i hn
    rw [ne_eq, List.map_eq_nil_iff, List.reverse_eq_nil_iff]
    exact Nat.digits_ne_nil_iff_ne_zero.mpr hn

/-- The digits are read until another character. -/
theorem takeWhile_print (n : ℕ) : (print n).takeWhile isDigit = print n :=
  List.takeWhile_eq_self_iff.mpr fun _ hc => isDigit_of_mem_print hc

/-- A printed number is read back. -/
theorem number_print (n : ℕ) : number (print n) = n := by
  unfold print
  split
  · rename_i hn
    rw [hn]
    rfl
  · have hfold : ∀ ds : List ℕ, (∀ d ∈ ds, d < 10) →
        number (ds.reverse.map digit) = Nat.ofDigits 10 ds := by
      intro ds hds
      induction ds with
      | nil => rfl
      | cons d ds ih =>
        have hd : (digit d).toNat - 0x30 = d := by
          rw [toNat_digit (hds d List.mem_cons_self), Nat.add_sub_cancel_left]
        have ih := ih fun d' hd' => hds d' (List.mem_cons_of_mem _ hd')
        unfold number at ih ⊢
        rw [List.reverse_cons, List.map_append, List.foldl_append, ih, Nat.ofDigits_cons]
        exact congrArg (· + 10 * Nat.ofDigits 10 ds) hd
    rw [hfold _ fun d hd => Nat.digits_lt_base (by decide) hd, Nat.ofDigits_digits]

end Bubi.Core.Decimal
