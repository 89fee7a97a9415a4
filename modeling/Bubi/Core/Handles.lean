import Mathlib.Data.List.Perm.Basic

/-!
# Handles that are acquired, used and released

A list of calls is lawful when no handle is used or released that is not held at that moment. The
lender's part is to grant only handles that are not held.
-/

namespace Bubi.Core

/-- A call that acquires, uses or releases a handle. -/
inductive HandleCall (α : Type*) where
  | acquire (x : α)
  | use (x : α)
  | release (x : α)

namespace HandleCall

variable {α : Type*} [DecidableEq α]

/-- The handles that are held after a call. -/
def hold (held : List α) : HandleCall α → List α
  | .acquire x => x :: held
  | .use _ => held
  | .release x => held.erase x

/-- A handle that is acquired is not held yet. -/
def Granted (held : List α) : HandleCall α → Prop
  | .acquire x => x ∉ held
  | .use _ | .release _ => True

/-- A handle that is used or released is held. -/
def Lawful (held : List α) : HandleCall α → Prop
  | .acquire _ => True
  | .use x | .release x => x ∈ held

/-- Every call of a list has a property with what is held at that moment. -/
def Throughout (P : List α → HandleCall α → Prop) (held : List α) : List (HandleCall α) → Prop
  | [] => True
  | call :: calls => P held call ∧ Throughout P (hold held call) calls

instance decidableGranted (held : List α) : (call : HandleCall α) → Decidable (Granted held call)
  | .acquire x => inferInstanceAs (Decidable (x ∉ held))
  | .use _ | .release _ => isTrue trivial

instance decidableThroughout (P : List α → HandleCall α → Prop)
    [∀ held call, Decidable (P held call)] :
    (held : List α) → (calls : List (HandleCall α)) → Decidable (Throughout P held calls)
  | _, [] => isTrue trivial
  | held, call :: calls =>
    have := decidableThroughout P (hold held call) calls
    inferInstanceAs (Decidable (P held call ∧ Throughout P (hold held call) calls))

theorem throughout_append {P : List α → HandleCall α → Prop} {held : List α}
    {calls calls' : List (HandleCall α)} :
    Throughout P held (calls ++ calls') ↔
      Throughout P held calls ∧ Throughout P (calls.foldl hold held) calls' := by
  induction calls generalizing held with
  | nil => simp [Throughout]
  | cons call calls ih => simp only [List.cons_append, Throughout, ih, List.foldl_cons, and_assoc]

theorem nodup_hold {held : List α} {call : HandleCall α} (h : held.Nodup)
    (hgranted : Granted held call) : (hold held call).Nodup := by
  cases call with
  | acquire x => exact List.nodup_cons.mpr ⟨hgranted, h⟩
  | use x => exact h
  | release x => exact h.erase x

/-- No handle is held twice where the lender keeps to its part. -/
theorem nodup_foldl_hold {held : List α} {calls : List (HandleCall α)} (h : held.Nodup)
    (hgranted : Throughout Granted held calls) : (calls.foldl hold held).Nodup := by
  induction calls generalizing held with
  | nil => exact h
  | cons call calls ih => exact ih (nodup_hold h hgranted.1) hgranted.2

theorem hold_perm {held held' : List α} (h : held.Perm held') (call : HandleCall α) :
    (hold held call).Perm (hold held' call) := by
  cases call with
  | acquire x => exact h.cons x
  | use x => exact h
  | release x => exact h.erase x

omit [DecidableEq α] in
theorem Lawful.perm {held held' : List α} {call : HandleCall α} (h : Lawful held call)
    (hperm : held.Perm held') : Lawful held' call := by
  cases call with
  | acquire x => trivial
  | use x => exact hperm.mem_iff.mp h
  | release x => exact hperm.mem_iff.mp h

/-- Calls that are lawful where some handles are held, and what is held after them. -/
def Yields (held : List α) (calls : List (HandleCall α)) (held' : List α) : Prop :=
  Throughout Lawful held calls ∧ (calls.foldl hold held).Perm held'

/-- The order of the handles makes no difference. -/
theorem Yields.of_perm {held xs held' : List α} {calls : List (HandleCall α)}
    (h : Yields held calls held') (hperm : held.Perm xs) : Yields xs calls held' := by
  induction calls generalizing held xs with
  | nil => exact ⟨trivial, hperm.symm.trans h.2⟩
  | cons call calls ih =>
    have hrest := ih ⟨h.1.2, h.2⟩ (hold_perm hperm call)
    exact ⟨⟨h.1.1.perm hperm, hrest.1⟩, hrest.2⟩

theorem Yields.trans_perm {held held' xs : List α} {calls : List (HandleCall α)}
    (h : Yields held calls held') (hperm : held'.Perm xs) : Yields held calls xs :=
  ⟨h.1, h.2.trans hperm⟩

theorem yields_nil (held : List α) : Yields held [] held := ⟨trivial, List.Perm.refl held⟩

theorem Yields.append {held held' held'' : List α} {calls calls' : List (HandleCall α)}
    (h : Yields held calls held') (h' : Yields held' calls' held'') :
    Yields held (calls ++ calls') held'' := by
  have hrest := h'.of_perm h.2.symm
  refine ⟨throughout_append.mpr ⟨h.1, hrest.1⟩, ?_⟩
  rw [List.foldl_append]
  exact hrest.2

theorem Yields.tail {held held' : List α} {call : HandleCall α} {calls : List (HandleCall α)}
    (h : Yields held (call :: calls) held') : Yields (hold held call) calls held' :=
  ⟨h.1.2, h.2⟩

/-- A lawful call leaves the handles of others alone. -/
theorem yields_singleton {held : List α} {call : HandleCall α} (h : Lawful held call)
    (others : List α) : Yields (held ++ others) [call] (hold held call ++ others) := by
  cases call with
  | acquire x => exact ⟨⟨trivial, trivial⟩, List.Perm.refl _⟩
  | use x => exact ⟨⟨List.mem_append_left others h, trivial⟩, List.Perm.refl _⟩
  | release x =>
    refine ⟨⟨List.mem_append_left others h, trivial⟩, ?_⟩
    exact List.Perm.of_eq (List.erase_append_left others h)

theorem yields_acquire (held : List α) (x : α) : Yields held [.acquire x] (x :: held) :=
  ⟨⟨trivial, trivial⟩, List.Perm.refl _⟩

theorem yields_uses {xs held : List α} (h : xs ⊆ held) : Yields held (xs.map .use) held := by
  induction xs with
  | nil => exact yields_nil held
  | cons x xs ih =>
    obtain ⟨hx, hrest⟩ := List.cons_subset.mp h
    exact ⟨⟨hx, (ih hrest).1⟩, (ih hrest).2⟩

theorem yields_releases (xs held : List α) : Yields (xs ++ held) (xs.map .release) held := by
  induction xs with
  | nil => exact yields_nil held
  | cons x xs ih =>
    refine ⟨⟨List.mem_cons_self .., ?_⟩, ?_⟩
    · rw [hold, List.cons_append, List.erase_cons_head]
      exact ih.1
    · rw [List.map_cons, List.foldl_cons, hold, List.cons_append, List.erase_cons_head]
      exact ih.2

end HandleCall

end Bubi.Core
