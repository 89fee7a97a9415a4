import Mathlib.Data.Fintype.BigOperators
import Mathlib.Data.List.Nodup
import Mathlib.Tactic.Common

/-!
# Radix tries with labelled inner nodes

Keys are read digit by digit. A leaf stands at the end of a prefix of its own key
and an inner node branches on the next digit. Insertion at an occupied leaf forks
the two keys: the old leaf's place becomes an inner node, every further shared
digit adds a chain node, and the displaced leaf is rebuilt through a relabelling.
Inner nodes carry a label that the fork chooses, so a trie may remember how it was
built; its leaves and its shape do not.
-/

namespace Bubi.Core

/-- A digit system for keys: finitely many digits determine the key. -/
structure Radix (ι κ : Type*) where
  /-- The digit at a position; positions from `width` on carry no information. -/
  digit : κ → ℕ → ι
  /-- The number of digits of a key. -/
  width : ℕ
  /-- Keys with equal digits are equal. -/
  ext : ∀ a b, (∀ n < width, digit a n = digit b n) → a = b

namespace Radix

variable {ι κ : Type*} (R : Radix ι κ)

/-- A key starts with the given digits. -/
def Under (p : List ι) (k : κ) : Prop := (List.range p.length).map (R.digit k) = p

instance [DecidableEq ι] (p : List ι) (k : κ) : Decidable (R.Under p k) :=
  inferInstanceAs (Decidable (_ = _))

@[simp] theorem under_nil (k : κ) : R.Under [] k := rfl

/-- One more leading digit is one more digit comparison. -/
theorem under_snoc {p : List ι} {i : ι} {k : κ} :
    R.Under (p ++ [i]) k ↔ R.Under p k ∧ R.digit k p.length = i := by
  unfold Under
  rw [List.length_append, List.length_singleton, List.range_succ, List.map_append,
    List.map_singleton]
  constructor
  · intro h
    obtain ⟨hp, hi⟩ := List.append_inj' h rfl
    exact ⟨hp, by simpa using hi⟩
  · rintro ⟨hp, hi⟩
    rw [hp, hi]

/-- Two keys share their first digits. -/
def Agree (n : ℕ) (a b : κ) : Prop := ∀ i < n, R.digit a i = R.digit b i

/-- Keys below one prefix agree on its length. -/
theorem Under.agree {p : List ι} {a b : κ} (ha : R.Under p a) (hb : R.Under p b) :
    R.Agree p.length a b := by
  intro i hi
  have he : (List.range p.length).map (R.digit a) = (List.range p.length).map (R.digit b) :=
    ha.trans hb.symm
  exact List.map_inj_left.mp he i (List.mem_range.mpr hi)

/-- Agreement with a key below a prefix is being below that prefix. -/
theorem Agree.under {p : List ι} {a b : κ} {n : ℕ} (h : R.Agree n a b) (hn : p.length ≤ n)
    (ha : R.Under p a) : R.Under p b := by
  refine Eq.trans ?_ ha
  rw [List.map_inj_left]
  intro i hi
  exact (h i ((List.mem_range.mp hi).trans_le hn)).symm

end Radix

/-- A trie over digits `ι` with inner labels `α` and leaves `β`. -/
inductive Trie (ι α β : Type*) where
  /-- No key below this prefix. -/
  | empty
  /-- Exactly one key below this prefix. -/
  | leaf (l : β)
  /-- A labelled branching on the next digit. -/
  | inner (a : α) (child : ι → Trie ι α β)

namespace Trie

variable {ι κ α β : Type*}

/-- A leaf occurs in a trie. -/
protected def Mem (l : β) : Trie ι α β → Prop
  | empty => False
  | leaf l' => l = l'
  | inner _ c => ∃ i, (c i).Mem l

instance : Membership β (Trie ι α β) := ⟨fun t l => t.Mem l⟩

@[simp] theorem not_mem_empty (l : β) : l ∉ (empty : Trie ι α β) := id

@[simp] theorem mem_leaf {l l' : β} : l ∈ (leaf l' : Trie ι α β) ↔ l = l' := Iff.rfl

@[simp] theorem mem_inner {l : β} {a : α} {c : ι → Trie ι α β} :
    l ∈ inner a c ↔ ∃ i, l ∈ c i := Iff.rfl

/-- The absent subtree. -/
def isEmpty : Trie ι α β → Bool
  | empty => true
  | _ => false

@[simp] theorem isEmpty_empty : (empty : Trie ι α β).isEmpty = true := rfl
@[simp] theorem isEmpty_leaf (l : β) : (leaf l : Trie ι α β).isEmpty = false := rfl
@[simp] theorem isEmpty_inner (a : α) (c : ι → Trie ι α β) : (inner a c).isEmpty = false := rfl

theorem isEmpty_iff {t : Trie ι α β} : t.isEmpty = true ↔ t = empty := by
  cases t <;> simp

variable (R : Radix ι κ) (key : β → κ)

/-- Every leaf stands below the prefix that leads to it. -/
def Placed : List ι → Trie ι α β → Prop
  | _, empty => True
  | p, leaf l => R.Under p (key l)
  | p, inner _ c => ∀ i, Placed (p ++ [i]) (c i)

variable {R key}

theorem Placed.under {p : List ι} {t : Trie ι α β} (h : t.Placed R key p) {l : β} (hl : l ∈ t) :
    R.Under p (key l) := by
  induction t generalizing p with
  | empty => exact absurd hl (not_mem_empty l)
  | leaf l' => exact mem_leaf.mp hl ▸ h
  | inner a c ih =>
    obtain ⟨i, hi⟩ := mem_inner.mp hl
    exact (R.under_snoc.mp (ih i (h i) hi)).1

/-- A placed leaf hangs on the branch of its own next digit. -/
theorem Placed.mem_child_iff {p : List ι} {a : α} {c : ι → Trie ι α β}
    (h : (inner a c).Placed R key p) {l : β} {i : ι} :
    l ∈ c i ↔ l ∈ inner a c ∧ R.digit (key l) p.length = i := by
  constructor
  · intro hl
    exact ⟨mem_inner.mpr ⟨i, hl⟩, (R.under_snoc.mp ((h i).under hl)).2⟩
  · rintro ⟨hl, hi⟩
    obtain ⟨j, hj⟩ := mem_inner.mp hl
    have hji : R.digit (key l) p.length = j := (R.under_snoc.mp ((h j).under hj)).2
    rwa [← hi, hji]

variable (R key)

/-- The leaf at the end of a key's walk, whatever its own key is. -/
def reach (k : κ) : ℕ → Trie ι α β → Option β
  | _, empty => none
  | _, leaf l => some l
  | n, inner _ c => reach k (n + 1) (c (R.digit k n))

/-- Looking a key up: walk to a leaf and compare. -/
def find [DecidableEq κ] (k : κ) (n : ℕ) (t : Trie ι α β) : Option β :=
  (t.reach R k n).filter fun l => key l = k

variable {R key}

theorem mem_of_reach {k : κ} {n : ℕ} {t : Trie ι α β} {l : β} (h : t.reach R k n = some l) :
    l ∈ t := by
  induction t generalizing n with
  | empty => cases h
  | leaf l' => exact mem_leaf.mpr (Option.some.inj h).symm
  | inner a c ih => exact mem_inner.mpr ⟨_, ih _ h⟩

/-- A placed leaf is at the end of its own key's walk. -/
theorem Placed.reach_of_mem {p : List ι} {t : Trie ι α β} (h : t.Placed R key p) {l : β}
    (hl : l ∈ t) : t.reach R (key l) p.length = some l := by
  induction t generalizing p with
  | empty => exact absurd hl (not_mem_empty l)
  | leaf l' => rw [mem_leaf.mp hl, reach]
  | inner a c ih =>
    obtain ⟨i, hi⟩ := mem_inner.mp hl
    have hd := (h.mem_child_iff.mp hi).2
    have hr := ih i (h i) hi
    rw [List.length_append, List.length_singleton] at hr
    rw [reach, hd, hr]

section Lookup

variable [DecidableEq κ]

@[simp] theorem find_empty (k : κ) (n : ℕ) : (empty : Trie ι α β).find R key k n = none := rfl

theorem find_leaf (k : κ) (n : ℕ) (l : β) :
    (leaf l : Trie ι α β).find R key k n = if key l = k then some l else none := by
  simp [find, reach, Option.filter]

@[simp] theorem find_inner (k : κ) (n : ℕ) (a : α) (c : ι → Trie ι α β) :
    (inner a c).find R key k n = (c (R.digit k n)).find R key k (n + 1) := rfl

theorem find_eq_some {k : κ} {n : ℕ} {t : Trie ι α β} {l : β} :
    t.find R key k n = some l ↔ t.reach R k n = some l ∧ key l = k := by
  simp [find, Option.filter_eq_some_iff]

/-- In a placed trie lookup finds exactly the leaves that occur. -/
theorem Placed.find_eq_some_iff {p : List ι} {t : Trie ι α β} (h : t.Placed R key p) {k : κ}
    {l : β} : t.find R key k p.length = some l ↔ l ∈ t ∧ key l = k := by
  rw [find_eq_some]
  constructor
  · rintro ⟨hr, hk⟩
    exact ⟨mem_of_reach hr, hk⟩
  · rintro ⟨hl, rfl⟩
    exact ⟨h.reach_of_mem hl, rfl⟩

end Lookup

end Trie

end Bubi.Core
