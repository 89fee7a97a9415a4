import Bubi.Core.Trie
import Mathlib.Data.List.Basic
import Mathlib.Order.Basic

/-!
# The leaves of a trie in the order of their keys

A traversal that visits the branches of every inner node in increasing order finds the
leaves of a placed trie in increasing order of their keys, each leaf once.
-/

namespace Bubi.Core

variable {ι κ α β : Type*}

namespace Radix

variable [LinearOrder ι] (R : Radix ι κ)

/-- The first digit in which two keys differ is smaller in the first key. -/
def Before (a b : κ) : Prop := ∃ n, R.Agree n a b ∧ R.digit a n < R.digit b n

variable {R}

theorem Before.ne {a b : κ} (h : R.Before a b) : a ≠ b := by
  rintro rfl
  obtain ⟨n, _, hlt⟩ := h
  exact lt_irrefl _ hlt

end Radix

namespace Trie

/-- The leaves of a trie, found by visiting the branches of every inner node in a given order. -/
def leaves (is : List ι) : Trie ι α β → List β
  | empty => []
  | leaf l => [l]
  | inner _ c => is.flatMap fun i => (c i).leaves is

theorem mem_leaves {is : List ι} (his : ∀ i, i ∈ is) {t : Trie ι α β} {l : β} :
    l ∈ t.leaves is ↔ l ∈ t := by
  induction t with
  | empty => simp [leaves]
  | leaf l' => simp [leaves]
  | inner a c ih =>
    simp only [leaves, List.mem_flatMap, mem_inner, ih]
    constructor
    · rintro ⟨i, _, hi⟩
      exact ⟨i, hi⟩
    · rintro ⟨i, hi⟩
      exact ⟨i, his i, hi⟩

variable [LinearOrder ι] {R : Radix ι κ} {key : β → κ}

/-- Leaves on different branches of a node differ in the digit that it branches on. -/
theorem Placed.before {p : List ι} {a : α} {c : ι → Trie ι α β}
    (h : (inner a c).Placed R key p) {i j : ι} (hij : i < j) {l l' : β} (hl : l ∈ c i)
    (hl' : l' ∈ c j) : R.Before (key l) (key l') := by
  have hi := (h.mem_child_iff.mp hl).2
  have hj := (h.mem_child_iff.mp hl').2
  refine ⟨p.length, (h.under ⟨i, hl⟩).agree R (h.under ⟨j, hl'⟩), ?_⟩
  rwa [hi, hj]

/-- The leaves of a placed trie are visited in the order of their keys. -/
theorem Placed.pairwise_leaves {is : List ι} (hsorted : is.Pairwise (· < ·)) {p : List ι}
    {t : Trie ι α β} (h : t.Placed R key p) (his : ∀ i, i ∈ is) :
    (t.leaves is).Pairwise fun l l' => R.Before (key l) (key l') := by
  induction t generalizing p with
  | empty => exact List.Pairwise.nil
  | leaf l => exact List.pairwise_singleton _ _
  | inner a c ih =>
    rw [leaves, List.pairwise_flatMap]
    refine ⟨fun i _ => ih i (h i), hsorted.imp fun {i j} hij l hl l' hl' => ?_⟩
    exact h.before hij ((mem_leaves his).mp hl) ((mem_leaves his).mp hl')

end Trie

end Bubi.Core
