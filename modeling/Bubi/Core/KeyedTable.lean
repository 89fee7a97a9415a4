import Mathlib.Data.List.MinMax
import Mathlib.Data.List.Nodup
import Mathlib.Order.WithBot

/-!
# Tables with a primary key

The rows of a table have keys, no two of them the same. A statement that would break this
fails and changes nothing. A row that is inserted, or written over the row with its key
where that fails, is in the table afterwards, beside the rows with other keys.
-/

namespace Bubi.Core

/-- Rows whose keys are present and unique; a row without a key has the key `⊥`. -/
structure KeyedTable {ρ κ : Type} (key : ρ → WithBot κ) where
  rows : List ρ
  present : ∀ r ∈ rows, key r ≠ ⊥
  unique : (rows.map key).Nodup

namespace KeyedTable

variable {ρ κ : Type} {key : ρ → WithBot κ} {r : ρ} {k : κ}

/-- The table without rows. -/
def empty (key : ρ → WithBot κ) : KeyedTable key := ⟨[], by simp, by simp⟩

section Statements

variable [DecidableEq κ]

/-- A table of the given rows, unless they break its constraints. -/
def commit (key : ρ → WithBot κ) (rows : List ρ) : Option (KeyedTable key) :=
  if h : (∀ r ∈ rows, key r ≠ ⊥) ∧ (rows.map key).Nodup then some ⟨rows, h.1, h.2⟩ else none

/-- A new row. -/
def insert (t : KeyedTable key) (r : ρ) : Option (KeyedTable key) := commit key (t.rows ++ [r])

/-- A change of the row with a key. -/
def update (t : KeyedTable key) (k : κ) (change : ρ → ρ) : Option (KeyedTable key) :=
  commit key (t.rows.map fun r => if key r = k then change r else r)

/-- A row with a new key is inserted. -/
theorem insert_of_fresh (t : KeyedTable key) (hr : key r ≠ ⊥)
    (hfresh : ∀ r' ∈ t.rows, key r' ≠ key r) :
    ∃ t', t.insert r = some t' ∧ t'.rows = t.rows ++ [r] := by
  have hconstraints : (∀ r' ∈ t.rows ++ [r], key r' ≠ ⊥) ∧ ((t.rows ++ [r]).map key).Nodup := by
    refine ⟨fun r' hr' => ?_, ?_⟩
    · rcases List.mem_append.mp hr' with hr' | hr'
      · exact t.present r' hr'
      · rwa [List.mem_singleton.mp hr']
    · rw [List.map_append]
      refine List.Nodup.append t.unique (List.nodup_singleton _) ?_
      rw [List.map_singleton, List.disjoint_singleton]
      intro hmem
      obtain ⟨r', hr', heq⟩ := List.mem_map.mp hmem
      exact hfresh r' hr' heq
  exact ⟨_, dif_pos hconstraints, rfl⟩

/-- A row whose key is taken is not inserted. -/
theorem insert_of_taken (t : KeyedTable key) {r' : ρ} (hr' : r' ∈ t.rows)
    (htaken : key r' = key r) : t.insert r = none := by
  refine dif_neg fun h => ?_
  have hdisjoint := (List.nodup_append'.mp (List.map_append ▸ h.2)).2.2
  rw [List.map_singleton, List.disjoint_singleton] at hdisjoint
  exact hdisjoint (htaken ▸ List.mem_map_of_mem hr')

/-- A change that keeps the key succeeds. -/
theorem update_of_key (t : KeyedTable key) {change : ρ → ρ}
    (hkey : ∀ r ∈ t.rows, key r = k → key (change r) = k) :
    ∃ t', t.update k change = some t' ∧
      t'.rows = t.rows.map fun r => if key r = k then change r else r := by
  have hsame : ∀ r ∈ t.rows, key (if key r = k then change r else r) = key r := by
    intro r hr
    split
    · rename_i h
      rw [hkey r hr h, h]
    · rfl
  have hkeys : (t.rows.map fun r => if key r = k then change r else r).map key =
      t.rows.map key := by
    rw [List.map_map]
    exact List.map_congr_left hsame
  refine ⟨_, dif_pos ⟨fun r' hr' => ?_, hkeys ▸ t.unique⟩, rfl⟩
  obtain ⟨r, hr, rfl⟩ := List.mem_map.mp hr'
  rw [hsame r hr]
  exact t.present r hr

/-- A row that is inserted, or written over the row with its key, is in the table afterwards, and
the rows with other keys are those from before. -/
theorem exists_insert_or_update (t : KeyedTable key) {change : ρ → ρ} (hr : key r = k)
    (hchange : ∀ r', key r' = k → change r' = r) :
    ∃ t', (t.insert r = some t' ∨ t.insert r = none ∧ t.update k change = some t') ∧
      r ∈ t'.rows ∧ ∀ r', key r' ≠ k → (r' ∈ t'.rows ↔ r' ∈ t.rows) := by
  by_cases htaken : ∃ r' ∈ t.rows, key r' = k
  · obtain ⟨old, hold, holdKey⟩ := htaken
    have hkeys : ∀ r' ∈ t.rows, key r' = k → key (change r') = k := by
      intro r' _ hr'
      rw [hchange r' hr', hr]
    obtain ⟨t', ht', hrows⟩ := t.update_of_key hkeys
    refine ⟨t', Or.inr ⟨t.insert_of_taken hold (holdKey.trans hr.symm), ht'⟩, ?_, ?_⟩
    · rw [hrows]
      exact List.mem_map.mpr ⟨old, hold, by rw [if_pos holdKey, hchange old holdKey]⟩
    · intro r' hr'
      rw [hrows]
      constructor
      · intro hmem
        obtain ⟨r'', hr'', heq⟩ := List.mem_map.mp hmem
        by_cases hkey : key r'' = k
        · rw [if_pos hkey, hchange r'' hkey] at heq
          exact absurd (heq ▸ hr) hr'
        · rw [if_neg hkey] at heq
          exact heq ▸ hr''
      · intro hmem
        exact List.mem_map.mpr ⟨r', hmem, if_neg hr'⟩
  · have hfresh : ∀ r' ∈ t.rows, key r' ≠ key r := by
      intro r' hr' heq
      exact htaken ⟨r', hr', heq.trans hr⟩
    obtain ⟨t', ht', hrows⟩ := t.insert_of_fresh (hr ▸ WithBot.coe_ne_bot) hfresh
    refine ⟨t', Or.inl ht', ?_, ?_⟩
    · rw [hrows]
      exact List.mem_append_right _ (List.mem_singleton_self r)
    · intro r' hr'
      rw [hrows, List.mem_append, List.mem_singleton]
      constructor
      · rintro (hmem | rfl)
        · exact hmem
        · exact absurd hr hr'
      · exact Or.inl

end Statements

section Last

variable [LinearOrder κ]

/-- The row with the greatest key. -/
def last (t : KeyedTable key) : Option ρ := t.rows.argmax key

/-- No row has a greater key. -/
def BoundedBy (t : KeyedTable key) (bound : WithBot κ) : Prop := ∀ r ∈ t.rows, key r ≤ bound

theorem last_eq (t : KeyedTable key) (hr : r ∈ t.rows) (hgreatest : t.BoundedBy (key r)) :
    t.last = some r := by
  cases hlast : t.last with
  | none =>
    rw [List.argmax_eq_none.mp hlast] at hr
    cases hr
  | some r' =>
    have hr' : r' ∈ t.rows := List.argmax_mem hlast
    have hkey : key r' = key r := (hgreatest r' hr').antisymm (List.le_of_mem_argmax hr hlast)
    exact congrArg some (List.inj_on_of_nodup_map t.unique hr' hr hkey)

end Last

end KeyedTable

end Bubi.Core
