import Bubi.Core.Trie
import Bubi.Core.Outcome
import Mathlib.Data.FinEnum
import Mathlib.Tactic.IntervalCases

/-!
# 256-bit values and their hexadecimal text

`base_uint<256>` is an array of 32 `char`s. Its bytes are kept unsigned, as every
reader of the source casts them. The hexadecimal printer and parser are inverse up to
the case of the digits, and the branch selector of the tree reads the 64 half-bytes from
the most significant one on, which makes a 256-bit value a key of a radix trie.
-/

namespace Bubi

/-- A `std::string`, a `std::vector<char>` or the bytes of a record. -/
abbrev Bytes := List UInt8

/-- The ways a call of the source fails to return. -/
inductive Fault where
  /-- An `assert` fails. -/
  | assertion
  /-- The `assert (false)` behind a `set_child` that reports an unchanged hash. -/
  | unchanged
  /-- The `assert (false)` of `RocksdbImp::fetch` for a key that is not stored. -/
  | missingKey
  /-- A read beyond the end of an array or a string. -/
  | outOfRange
  /-- A dereferenced null pointer. -/
  | nullDeref
  /-- Control reaches the end of a non-void function. -/
  | noReturn
  /-- A variable is read that was never set. -/
  | uninitialised
  deriving DecidableEq, Repr

/-- `base_uint<256>`. -/
structure Uint256 where
  /-- The bytes from `begin ()` to `end ()`. -/
  data : Bytes
  length_data : data.length = 32
  deriving DecidableEq

namespace Uint256

theorem ext {a b : Uint256} (h : a.data = b.data) : a = b := by
  cases a
  cases b
  cases h
  rfl

/-- `base_uint::zero`. -/
def zero : Uint256 := ⟨List.replicate 32 0, by simp⟩

/-- `base_uint::init`, which copies 32 bytes whatever follows them. -/
def init (ch : Bytes) : Except Fault Uint256 :=
  if h : 32 ≤ ch.length then .ok ⟨ch.take 32, by simp [h]⟩ else .error .outOfRange

theorem init_append (u : Uint256) (rest : Bytes) : init (u.data ++ rest) = .ok u := by
  have h : 32 ≤ (u.data ++ rest).length := by
    rw [List.length_append, u.length_data]
    omega
  rw [init, dif_pos h, Except.ok.injEq]
  apply ext
  exact List.take_left' u.length_data

/-- One lowercase digit of `sprintf ("%02x")`. -/
def hexDigit (n : ℕ) : UInt8 := UInt8.ofNat (if n < 10 then 0x30 + n else 0x61 + (n - 10))

/-- `base_uint::to_string`: two digits for each byte. -/
def hex (bs : Bytes) : Bytes :=
  bs.flatMap fun b => [hexDigit (b.toNat / 16), hexDigit (b.toNat % 16)]

/-- `base_uint::to_string`. -/
def toString (u : Uint256) : Bytes := hex u.data

/-- `hex_to_decimal`, which has no `return` for a character that is no hex digit. -/
def hexToDecimal (a : UInt8) : Except Fault ℕ :=
  if a.toNat ≤ 0x39 ∧ 0x30 ≤ a.toNat then .ok (a.toNat - 0x30)
  else if a.toNat ≤ 0x66 ∧ 0x61 ≤ a.toNat then .ok (a.toNat - 0x61 + 10)
  else if a.toNat ≤ 0x46 ∧ 0x41 ≤ a.toNat then .ok (a.toNat - 0x41 + 10)
  else .error .noReturn

/-- The loop of `base_uint::binary_init`. A string that ends early shows its
terminating null character, which is no hex digit. -/
def binaryBytes : (n : ℕ) → Bytes → Except Fault { bs : Bytes // bs.length = n }
  | 0, _ => .ok ⟨[], rfl⟩
  | _ + 1, [] => .error .noReturn
  | _ + 1, [a] => do
    let _ ← hexToDecimal a
    .error .noReturn
  | n + 1, a :: b :: ch => do
    let hi ← hexToDecimal a
    let lo ← hexToDecimal b
    let bs ← binaryBytes n ch
    .ok ⟨UInt8.ofNat ((hi <<< 4) + lo) :: bs.1, by rw [List.length_cons, bs.2]⟩

/-- `base_uint::binary_init` on the characters of a string. -/
def binaryInit (ch : Bytes) : Except Fault Uint256 := do
  let bs ← binaryBytes 32 ch
  .ok ⟨bs.1, bs.2⟩

/-- A character for which `hex_to_decimal` has a `return`. -/
def isHexDigit (a : UInt8) : Bool :=
  a.toNat ≤ 0x39 ∧ 0x30 ≤ a.toNat ∨ a.toNat ≤ 0x66 ∧ 0x61 ≤ a.toNat ∨
    a.toNat ≤ 0x46 ∧ 0x41 ≤ a.toNat

theorem exists_hexToDecimal {a : UInt8} : (∃ n, hexToDecimal a = .ok n) ↔ isHexDigit a = true := by
  unfold hexToDecimal isHexDigit
  rw [decide_eq_true_eq]
  split
  · next h => exact iff_of_true ⟨_, rfl⟩ (Or.inl h)
  · next h₁ =>
    split
    · next h => exact iff_of_true ⟨_, rfl⟩ (Or.inr (Or.inl h))
    · next h₂ =>
      split
      · next h => exact iff_of_true ⟨_, rfl⟩ (Or.inr (Or.inr h))
      · next h₃ =>
        refine iff_of_false ?_ (not_or.mpr ⟨h₁, not_or.mpr ⟨h₂, h₃⟩⟩)
        rintro ⟨n, hn⟩
        cases hn

/-- A string of which enough leading characters are hex digits. -/
def startsHex (length : ℕ) (ch : Bytes) : Bool :=
  length ≤ ch.length ∧ ∀ a ∈ ch.take length, isHexDigit a = true

theorem startsHex_add_two {n : ℕ} {a b : UInt8} {ch : Bytes} :
    startsHex (2 * (n + 1)) (a :: b :: ch) = true ↔
      isHexDigit a = true ∧ isHexDigit b = true ∧ startsHex (2 * n) ch = true := by
  unfold startsHex
  rw [decide_eq_true_eq, decide_eq_true_eq, Nat.mul_succ, List.take_succ_cons,
    List.take_succ_cons, List.length_cons, List.length_cons, List.forall_mem_cons,
    List.forall_mem_cons, Nat.add_le_add_iff_right]
  tauto

theorem exists_binaryBytes {n : ℕ} {ch : Bytes} :
    (∃ bs, binaryBytes n ch = .ok bs) ↔ startsHex (2 * n) ch = true := by
  induction n generalizing ch with
  | zero => exact iff_of_true ⟨_, rfl⟩ (decide_eq_true ⟨Nat.zero_le _, by simp⟩)
  | succ n ih =>
    match ch with
    | [] =>
      refine iff_of_false ?_ ?_
      · rintro ⟨bs, hbs⟩
        cases hbs
      · simp [startsHex]
    | [a] =>
      refine iff_of_false ?_ ?_
      · rintro ⟨bs, hbs⟩
        obtain ⟨v, _, hbs⟩ := Core.bind_eq_ok.mp hbs
        cases hbs
      · simp [startsHex]
        omega
    | a :: b :: ch =>
      rw [startsHex_add_two, ← exists_hexToDecimal, ← exists_hexToDecimal, ← ih]
      constructor
      · rintro ⟨bs, hbs⟩
        obtain ⟨hi, hhi, hbs⟩ := Core.bind_eq_ok.mp hbs
        obtain ⟨lo, hlo, hbs⟩ := Core.bind_eq_ok.mp hbs
        obtain ⟨rest, hrest, _⟩ := Core.bind_eq_ok.mp hbs
        exact ⟨⟨hi, hhi⟩, ⟨lo, hlo⟩, rest, hrest⟩
      · rintro ⟨⟨hi, hhi⟩, ⟨lo, hlo⟩, rest, hrest⟩
        exact ⟨_, Core.bind_eq_ok.mpr ⟨hi, hhi, Core.bind_eq_ok.mpr ⟨lo, hlo,
          Core.bind_eq_ok.mpr ⟨rest, hrest, rfl⟩⟩⟩⟩

/-- `binary_init` reads 64 characters, and each of them has to be a hex digit. -/
theorem exists_binaryInit {ch : Bytes} :
    (∃ u, binaryInit ch = .ok u) ↔ startsHex 64 ch = true := by
  rw [← @exists_binaryBytes 32]
  constructor
  · rintro ⟨u, hu⟩
    obtain ⟨bs, hbs, _⟩ := Core.bind_eq_ok.mp hu
    exact ⟨bs, hbs⟩
  · rintro ⟨bs, hbs⟩
    exact ⟨_, Core.bind_eq_ok.mpr ⟨bs, hbs, rfl⟩⟩

/-- A printed digit is read back. -/
theorem hexToDecimal_hexDigit {n : ℕ} (hn : n < 16) : hexToDecimal (hexDigit n) = .ok n := by
  interval_cases n <;> rfl

/-- A printed byte is read back. -/
theorem ofNat_halves (b : UInt8) : UInt8.ofNat (((b.toNat / 16) <<< 4) + b.toNat % 16) = b := by
  rw [Nat.shiftLeft_eq, show b.toNat / 16 * 2 ^ 4 + b.toNat % 16 = b.toNat by omega]
  exact UInt8.ofNat_toNat

/-- Printed bytes are read back. -/
theorem binaryBytes_hex {n : ℕ} (bs : Bytes) (hn : bs.length = n) :
    binaryBytes n (hex bs) = .ok ⟨bs, hn⟩ := by
  induction bs generalizing n with
  | nil =>
    cases hn
    rfl
  | cons b bs ih =>
    cases n with
    | zero => cases hn
    | succ n =>
      have hhi : b.toNat / 16 < 16 := by
        have := b.toNat_lt
        omega
      have hlo : b.toNat % 16 < 16 := Nat.mod_lt _ (by omega)
      change binaryBytes (n + 1)
        (hexDigit (b.toNat / 16) :: hexDigit (b.toNat % 16) :: hex bs) = _
      rw [binaryBytes, hexToDecimal_hexDigit hhi, hexToDecimal_hexDigit hlo,
        ih (Nat.succ.inj hn)]
      simp only [Core.ok_bind, ofNat_halves]

/-- The parser inverts the printer. -/
theorem binaryInit_toString (u : Uint256) : binaryInit u.toString = .ok u := by
  rw [binaryInit, toString, binaryBytes_hex u.data u.length_data]
  rfl

/-- Distinct values print distinctly. -/
theorem toString_injective : Function.Injective toString := by
  intro a b h
  have ha := binaryInit_toString a
  rw [h, binaryInit_toString b] at ha
  exact (Except.ok.inj ha).symm

/-- The lowercase form of a character. -/
def lower (a : UInt8) : UInt8 := if 0x41 ≤ a.toNat ∧ a.toNat ≤ 0x5a then a + 0x20 else a

/-- A digit is printed back in lower case. -/
theorem hexDigit_hexToDecimal {a : UInt8} {n : ℕ} (h : hexToDecimal a = .ok n) :
    n < 16 ∧ hexDigit n = lower a := by
  have ha := a.toNat_lt
  have hback : UInt8.ofNat a.toNat = a := UInt8.ofNat_toNat
  unfold hexToDecimal at h
  unfold hexDigit lower
  split at h
  · obtain rfl := Except.ok.inj h
    rw [if_pos (by omega), if_neg (by omega), Nat.add_sub_cancel' (by omega)]
    exact ⟨by omega, hback⟩
  · split at h
    · obtain rfl := Except.ok.inj h
      rw [if_neg (by omega), if_neg (by omega), Nat.add_sub_cancel, Nat.add_sub_cancel' (by omega)]
      exact ⟨by omega, hback⟩
    · split at h
      · obtain rfl := Except.ok.inj h
        rw [if_neg (by omega), if_pos (by omega), Nat.add_sub_cancel]
        refine ⟨by omega, ?_⟩
        apply UInt8.toNat_inj.mp
        rw [UInt8.toNat_ofNat', UInt8.toNat_add]
        have : (0x20 : UInt8).toNat = 0x20 := rfl
        omega
      · cases h

/-- The two halves of a byte that was put together from two digits. -/
theorem halves_ofNat {hi lo : ℕ} (hhi : hi < 16) (hlo : lo < 16) :
    (UInt8.ofNat ((hi <<< 4) + lo)).toNat / 16 = hi ∧
      (UInt8.ofNat ((hi <<< 4) + lo)).toNat % 16 = lo := by
  rw [UInt8.toNat_ofNat', Nat.shiftLeft_eq]
  omega

/-- Read digits are printed back in lower case. -/
theorem hex_binaryBytes {n : ℕ} {ch : Bytes} {bs : { bs : Bytes // bs.length = n }}
    (h : binaryBytes n ch = .ok bs) (hlength : ch.length = 2 * n) : hex bs.1 = ch.map lower := by
  induction n generalizing ch with
  | zero =>
    rw [List.length_eq_zero_iff.mp hlength]
    cases h
    rfl
  | succ n ih =>
    match ch with
    | [] => cases h
    | [a] =>
      rw [List.length_singleton] at hlength
      omega
    | a :: b :: ch =>
      obtain ⟨hi, hhi, h⟩ := Core.bind_eq_ok.mp h
      obtain ⟨lo, hlo, h⟩ := Core.bind_eq_ok.mp h
      obtain ⟨rest, hrest, h⟩ := Core.bind_eq_ok.mp h
      cases h
      obtain ⟨hhi, ha⟩ := hexDigit_hexToDecimal hhi
      obtain ⟨hlo, hb⟩ := hexDigit_hexToDecimal hlo
      obtain ⟨hdiv, hmod⟩ := halves_ofNat hhi hlo
      have hih := ih hrest (by simpa [Nat.mul_succ] using hlength)
      unfold hex at hih ⊢
      rw [List.flatMap_cons, hih, hdiv, hmod, ha, hb]
      rfl

/-- The printer inverts the parser, up to the case of the digits. -/
theorem exists_toString_eq {ch : Bytes} (hlength : ch.length = 64)
    (hdigits : ∀ a ∈ ch, isHexDigit a = true) :
    ∃ u, binaryInit ch = .ok u ∧ u.toString = ch.map lower := by
  have hstarts : startsHex 64 ch = true := by
    refine decide_eq_true ⟨hlength.ge, fun a ha => ?_⟩
    exact hdigits a (List.mem_of_mem_take ha)
  obtain ⟨u, hu⟩ := exists_binaryInit.mpr hstarts
  refine ⟨u, hu, ?_⟩
  obtain ⟨bs, hbs, hu⟩ := Core.bind_eq_ok.mp hu
  cases hu
  exact hex_binaryBytes hbs hlength

/-- A half-byte of a value, the most significant one first. -/
def digit (u : Uint256) (n : ℕ) : Fin 16 :=
  let byte := (u.data.getD (n / 2) 0).toNat
  if n % 2 = 1 then Fin.ofNat 16 byte else Fin.ofNat 16 (byte / 16)

/-- The two half-bytes of a position determine its byte. -/
theorem getD_of_digits (u : Uint256) (i : ℕ) :
    (u.data.getD i 0).toNat = 16 * (u.digit (2 * i)).val + (u.digit (2 * i + 1)).val := by
  have hb := (u.data.getD i 0).toNat_lt
  have he : (2 * i) / 2 = i := by omega
  have ho : (2 * i + 1) / 2 = i := by omega
  simp only [digit, he, ho, Nat.mul_mod_right, show (2 * i + 1) % 2 = 1 by omega,
    Fin.ofNat, ite_true, zero_ne_one, ite_false]
  omega

/-- Values with equal half-bytes are equal. -/
theorem ext_digit {a b : Uint256} (h : ∀ n < 64, a.digit n = b.digit n) : a = b := by
  apply ext
  apply List.ext_getElem (by rw [a.length_data, b.length_data])
  intro i hia hib
  have hi : i < 32 := by rwa [a.length_data] at hia
  have he : (a.data.getD i 0).toNat = (b.data.getD i 0).toNat := by
    rw [getD_of_digits, getD_of_digits, h _ (by omega), h _ (by omega)]
  have hbyte := UInt8.toNat_inj.mp he
  simpa [List.getD_eq_getElem?_getD, List.getElem?_eq_getElem hia,
    List.getElem?_eq_getElem hib] using hbyte

/-- The value of a number below `2 ^ 256`, most significant byte first. -/
def ofNat (n : ℕ) : Uint256 where
  data := (List.range 32).map fun i => UInt8.ofNat (n / 2 ^ (8 * (31 - i)))
  length_data := by simp

end Uint256

/-- The digit system of the tree: 64 half-bytes. -/
def radix : Core.Radix (Fin 16) Uint256 where
  digit := Uint256.digit
  width := 64
  ext _ _ h := Uint256.ext_digit h

/-- `RadixMerkleTree::select_branch`. -/
def selectBranch (hash : Uint256) (treeDepth : ℕ) : Except Fault (Fin 16) :=
  match hash.data[treeDepth >>> 1]? with
  | none => .error .outOfRange
  | some byte =>
    if treeDepth &&& 1 = 1 then .ok (Fin.ofNat 16 (byte.toNat &&& 0xF))
    else .ok (Fin.ofNat 16 (byte.toNat >>> 4))

/-- Inside the array the selector reads the half-byte at its depth. -/
theorem selectBranch_of_lt (hash : Uint256) {n : ℕ} (hn : n < 64) :
    selectBranch hash n = .ok (radix.digit hash n) := by
  have hlt : n / 2 < hash.data.length := by
    rw [hash.length_data]
    omega
  rw [selectBranch, Nat.shiftRight_eq_div_pow, pow_one, List.getElem?_eq_getElem hlt]
  simp only [Nat.and_one_is_mod, radix, Uint256.digit, List.getD_eq_getElem?_getD,
    List.getElem?_eq_getElem hlt, Option.getD_some, Nat.shiftRight_eq_div_pow]
  split
  · rw [Except.ok.injEq, Fin.ext_iff]
    simp only [Fin.ofNat]
    rw [show (0xF : ℕ) = 2 ^ 4 - 1 by rfl, Nat.and_two_pow_sub_one_eq_mod]
    omega
  · rfl

/-- Beyond the 64 half-bytes the selector reads outside the array. -/
theorem selectBranch_of_ge (hash : Uint256) {n : ℕ} (hn : 64 ≤ n) :
    selectBranch hash n = .error .outOfRange := by
  have hge : hash.data.length ≤ n / 2 := by
    rw [hash.length_data]
    omega
  rw [selectBranch, Nat.shiftRight_eq_div_pow, pow_one, List.getElem?_eq_none hge]

/-- A rolling checksum that takes the place of the digest where the model is evaluated. -/
def checksum (s : Bytes) : Uint256 :=
  Uint256.ofNat (s.foldl (fun n byte => (n * 257 + byte.toNat + 1) % (2 ^ 256 - 189)) 0)

end Bubi
