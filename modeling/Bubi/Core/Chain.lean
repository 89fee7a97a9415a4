import Mathlib.Data.List.Nodup
import Mathlib.Data.List.Perm.Lattice

/-!
# Chains of records that name their predecessors

Every record of a chain names the record behind it, and the last one names none. Records
with different names can be chained in one order only, so that two chains of the same
records are equal.
-/

namespace Bubi.Core

variable {α β : Type*}

/-- Every element names the next one, the last one names none. -/
def Chain (name : α → β) (previous : α → Option β) : List α → Prop
  | [] => True
  | x :: l => previous x = l.head?.map name ∧ Chain name previous l

namespace Chain

variable {name : α → β} {previous : α → Option β} {l l' : List α} {x : α}

/-- A name that an element gives is that of an element behind the first one. -/
theorem exists_name (h : Chain name previous l) (hx : x ∈ l) {i : β} (hi : previous x = some i) :
    ∃ y ∈ l.tail, name y = i := by
  induction l with
  | nil => cases hx
  | cons z l ih =>
    rcases List.mem_cons.mp hx with rfl | hx
    · rw [h.1, Option.map_eq_some_iff] at hi
      obtain ⟨y, hy, rfl⟩ := hi
      exact ⟨y, List.mem_of_head? hy, rfl⟩
    · obtain ⟨y, hy, hname⟩ := ih h.2 hx
      exact ⟨y, List.mem_of_mem_tail hy, hname⟩

/-- Every element behind the first one is named. -/
theorem exists_previous (h : Chain name previous l) (hx : x ∈ l.tail) :
    ∃ y ∈ l, previous y = some (name x) := by
  induction l with
  | nil => cases hx
  | cons z l ih =>
    cases l with
    | nil => cases hx
    | cons y l =>
      rcases List.mem_cons.mp hx with rfl | hx
      · exact ⟨z, List.mem_cons_self, h.1⟩
      · obtain ⟨w, hw, hprevious⟩ := ih h.2 hx
        exact ⟨w, List.mem_cons_of_mem z hw, hprevious⟩

/-- Two chains of the same elements begin alike. -/
theorem head_eq {y : α} (h : Chain name previous (x :: l)) (h' : Chain name previous (y :: l'))
    (hperm : (x :: l).Perm (y :: l')) (hnodup : ((x :: l).map name).Nodup) : x = y := by
  by_contra hne
  have hx : x ∈ l' := by
    rcases List.mem_cons.mp (hperm.mem_iff.mp List.mem_cons_self) with hxy | hx
    · exact absurd hxy hne
    · exact hx
  obtain ⟨z, hz, hprevious⟩ := h'.exists_previous hx
  obtain ⟨w, hw, hname⟩ := h.exists_name (hperm.mem_iff.mpr hz) hprevious
  rw [List.map_cons, List.nodup_cons] at hnodup
  exact hnodup.1 (hname ▸ List.mem_map_of_mem hw)

/-- Elements with different names are chained in one order only. -/
theorem eq_of_perm (h : Chain name previous l) (h' : Chain name previous l') (hperm : l.Perm l')
    (hnodup : (l.map name).Nodup) : l = l' := by
  induction l generalizing l' with
  | nil => exact (List.perm_nil.mp hperm.symm).symm
  | cons x l ih =>
    cases l' with
    | nil => cases hperm.length_eq
    | cons y l' =>
      obtain rfl := h.head_eq h' hperm hnodup
      rw [ih h.2 h'.2 (List.perm_cons x |>.mp hperm) (List.nodup_cons.mp hnodup).2]

end Chain

end Bubi.Core
