import Bubi.Core.TrieLabels
import Mathlib.Data.Finset.Lattice.Fold
import Mathlib.Data.Fintype.Basic
import Mathlib.Data.Nat.Find
import Mathlib.Order.Lattice.Nat

/-!
# Paths, depths and shapes of radix tries

The subtree at the end of a path keeps its prefix and its branching. In a trie whose
branches have the canonical shape a leaf stands one digit below its longest agreement
with any other key, and the keys alone determine the trie up to labels and leaves.
-/

namespace Bubi.Core

namespace Radix

variable {ι κ : Type*} (R : Radix ι κ)

instance [DecidableEq ι] (n : ℕ) (a b : κ) : Decidable (R.Agree n a b) :=
  inferInstanceAs (Decidable (∀ i < n, R.digit a i = R.digit b i))

/-- The number of leading digits that two keys share. -/
def common [DecidableEq ι] (a b : κ) : ℕ := Nat.findGreatest (fun n => R.Agree n a b) R.width

variable {R}

theorem Agree.mono {m n : ℕ} {a b : κ} (h : R.Agree n a b) (hm : m ≤ n) : R.Agree m a b :=
  fun i hi => h i (by omega)

/-- Different keys agree up to their common digits and no further. -/
theorem le_common_iff [DecidableEq ι] {n : ℕ} {a b : κ} (hne : a ≠ b) :
    n ≤ R.common a b ↔ R.Agree n a b := by
  constructor
  · intro hn
    have hzero : R.Agree 0 a b := fun i hi => absurd hi (by omega)
    have hagree : R.Agree (R.common a b) a b :=
      Nat.findGreatest_spec (P := fun n => R.Agree n a b) (Nat.zero_le _) hzero
    exact hagree.mono hn
  · intro hagree
    apply Nat.le_findGreatest
    · by_contra hlt
      exact hne (R.ext a b fun i hi => hagree i (by omega))
    · exact hagree

end Radix

namespace Trie

variable {ι κ α β : Type*} {R : Radix ι κ} {key : β → κ}

/-- The subtree at the end of a path. -/
def follow : List ι → Trie ι α β → Trie ι α β
  | [], t => t
  | i :: q, inner _ c => follow q (c i)
  | _ :: _, _ => empty

@[simp] theorem follow_nil (t : Trie ι α β) : t.follow [] = t := by
  cases t <;> rfl

@[simp] theorem follow_cons_inner (i : ι) (q : List ι) (a : α) (c : ι → Trie ι α β) :
    (inner a c).follow (i :: q) = (c i).follow q := rfl

@[simp] theorem follow_empty (q : List ι) : (empty : Trie ι α β).follow q = empty := by
  cases q <;> rfl

theorem follow_append (q r : List ι) (t : Trie ι α β) :
    t.follow (q ++ r) = (t.follow q).follow r := by
  induction q generalizing t with
  | nil => rw [follow_nil, List.nil_append]
  | cons i q ih =>
    cases t with
    | empty => simp
    | leaf l => exact (follow_empty r).symm
    | inner a c => exact ih (c i)

theorem Placed.follow {p : List ι} {t : Trie ι α β} (h : t.Placed R key p) (q : List ι) :
    (t.follow q).Placed R key (p ++ q) := by
  induction q generalizing p t with
  | nil => simpa using h
  | cons i q ih =>
    cases t with
    | empty => trivial
    | leaf l => trivial
    | inner a c => simpa using ih (h i)

theorem Branching.follow {t : Trie ι α β} (h : t.Branching key) (q : List ι) :
    (t.follow q).Branching key := by
  induction q generalizing t with
  | nil => simpa using h
  | cons i q ih =>
    cases t with
    | empty => trivial
    | leaf l => trivial
    | inner a c => exact ih (h.2 i)

/-- A leaf at the end of a path stands there. -/
theorem stands_of_follow {q : List ι} {t : Trie ι α β} {l : β} (h : t.follow q = leaf l)
    (p : List ι) : t.Stands l (p ++ q) p := by
  induction q generalizing p t with
  | nil =>
    rw [follow_nil] at h
    rw [h]
    exact ⟨rfl, List.append_nil p⟩
  | cons i q ih =>
    cases t with
    | empty => cases h
    | leaf l' => cases h
    | inner a c =>
      refine ⟨i, ?_⟩
      simpa using ih h (p ++ [i])

theorem mem_of_mem_follow {q : List ι} {t : Trie ι α β} {l : β} (h : l ∈ t.follow q) : l ∈ t := by
  induction q generalizing t with
  | nil => rwa [follow_nil] at h
  | cons i q ih =>
    cases t with
    | empty => exact h.elim
    | leaf l' => exact h.elim
    | inner a c => exact ⟨i, ih h⟩

/-- A leaf is at the end of some path. -/
theorem exists_follow_of_mem {t : Trie ι α β} {l : β} (h : l ∈ t) : ∃ q, t.follow q = leaf l := by
  induction t with
  | empty => exact absurd h (not_mem_empty l)
  | leaf l' =>
    rw [mem_leaf.mp h]
    exact ⟨[], follow_nil _⟩
  | inner a c ih =>
    obtain ⟨i, hi⟩ := mem_inner.mp h
    obtain ⟨q, hq⟩ := ih i hi
    exact ⟨i :: q, hq⟩

/-- A branching trie that is not empty has a leaf. -/
theorem Branching.exists_mem {t : Trie ι α β} (h : t.Branching key) (ht : t.isEmpty = false) :
    ∃ l, l ∈ t := by
  by_contra hnone
  rw [h.eq_empty fun l hl => hnone ⟨l, hl⟩] at ht
  cases ht

section Height

variable [Fintype ι]

/-- The number of inner nodes on the longest path. -/
def height : Trie ι α β → ℕ
  | empty => 0
  | leaf _ => 0
  | inner _ c => 1 + Finset.univ.sup fun i => (c i).height

theorem height_map {γ : Type*} (g : β → γ) (t : Trie ι α β) : (t.map g).height = t.height := by
  induction t with
  | empty => rfl
  | leaf l => rfl
  | inner a c ih =>
    simp only [map, height, ih]

theorem height_child_lt (a : α) (c : ι → Trie ι α β) (i : ι) :
    (c i).height < (inner a c).height := by
  have hle : (c i).height ≤ Finset.univ.sup fun i => (c i).height :=
    Finset.le_sup (f := fun i => (c i).height) (Finset.mem_univ i)
  rw [height]
  omega

theorem height_follow_le (q : List ι) (t : Trie ι α β) : (t.follow q).height ≤ t.height := by
  induction q generalizing t with
  | nil => rw [follow_nil]
  | cons i q ih =>
    cases t with
    | empty => exact le_rfl
    | leaf l => exact le_rfl
    | inner a c => exact (ih (c i)).trans (height_child_lt a c i).le

end Height

section Depth

variable {a : α} {c : ι → Trie ι α β} {i : ι} {q : List ι} {l : β}

/-- A path to a leaf below a canonical branch stays inside the keys. -/
theorem Branching.length_le (hb : (c i).Branching key) (hp : (inner a c).Placed R key [])
    (hw : 0 < R.width) (h : (inner a c).follow (i :: q) = leaf l) : (i :: q).length ≤ R.width := by
  rcases List.eq_nil_or_concat q with rfl | ⟨q, j, rfl⟩
  · exact hw
  · -- The parent of the leaf is an inner node below the root.
    have hparent : ∀ (t : Trie ι α β) (q : List ι), t.follow (q ++ [j]) = leaf l →
        ∃ a' c', t.follow q = inner a' c' := by
      intro t q
      induction q generalizing t with
      | nil =>
        intro ht
        cases t with
        | empty => cases ht
        | leaf l' => cases ht
        | inner a' c' => exact ⟨a', c', rfl⟩
      | cons i' q ih =>
        intro ht
        cases t with
        | empty => cases ht
        | leaf l' => cases ht
        | inner a' c' => exact ih (c' i') ht
    obtain ⟨a', c', heq⟩ := hparent (c i) q (by simpa using h)
    have hbranch := hb.follow q
    have hplaced := (hp i).follow q
    rw [heq] at hbranch hplaced
    have hlt := hbranch.length_lt hplaced
    simp only [List.nil_append, List.length_append, List.length_cons, List.length_nil,
      List.length_concat] at hlt ⊢
    omega

variable [DecidableEq ι]

/-- A leaf stands deeper than its agreement with any other key. -/
theorem Placed.common_lt (hp : (inner a c).Placed R key []) (h : (inner a c).follow q = leaf l)
    {x : β} (hx : x ∈ inner a c) (hne : key l ≠ key x) : R.common (key l) (key x) < q.length := by
  obtain ⟨hunder, huniq⟩ := (stands_of_follow h []).unique hp
  by_contra hle
  have hagree := (Radix.le_common_iff (R := R) hne).mp (not_lt.mp hle)
  rw [List.nil_append] at hunder huniq
  exact hne (by rw [huniq x hx (hagree.under R le_rfl hunder)])

/-- Below a canonical branch a leaf stands at most one digit deeper than some agreement. -/
theorem Branching.exists_common (hb : (c i).Branching key) (hp : (inner a c).Placed R key [])
    (h : (inner a c).follow (i :: q) = leaf l) (hq : q ≠ []) :
    ∃ x ∈ inner a c, key l ≠ key x ∧ (i :: q).length ≤ R.common (key l) (key x) + 1 := by
  have hstands : (c i).Stands l ([i] ++ q) [i] := stands_of_follow (t := c i) h [i]
  obtain ⟨x, hx, hne, hunder⟩ := hb.exists_of_stands (hp i) hstands (by simpa using hq)
  refine ⟨x, ⟨i, hx⟩, Ne.symm hne, ?_⟩
  have hl : R.Under (i :: q).dropLast (key l) :=
    under_of_le (hstands.unique (hp i)).1 (List.dropLast_prefix _)
  have hagree := (Radix.le_common_iff (R := R) (Ne.symm hne)).mpr (hl.agree R hunder)
  rw [List.length_dropLast] at hagree
  omega

end Depth

section Shape

/-- The trie without its labels. -/
def unlabelled : Trie ι α β → Trie ι Unit β
  | empty => empty
  | leaf l => leaf l
  | inner _ c => inner () fun i => (c i).unlabelled

variable {t : Trie ι α β}

theorem mem_unlabelled {l : β} : l ∈ t.unlabelled ↔ l ∈ t := by
  induction t with
  | empty => exact Iff.rfl
  | leaf l' => exact Iff.rfl
  | inner a c ih =>
    constructor
    · rintro ⟨i, hi⟩
      exact ⟨i, (ih i).mp hi⟩
    · rintro ⟨i, hi⟩
      exact ⟨i, (ih i).mpr hi⟩

theorem Placed.unlabelled {p : List ι} (h : t.Placed R key p) :
    t.unlabelled.Placed R key p := by
  induction t generalizing p with
  | empty => trivial
  | leaf l => exact h
  | inner a c ih => exact fun i => ih i (h i)

theorem Branching.unlabelled (h : t.Branching key) : t.unlabelled.Branching key := by
  induction t with
  | empty => trivial
  | leaf l => trivial
  | inner a c ih =>
    obtain ⟨⟨x, hx, y, hy, hne⟩, hc⟩ := h
    exact ⟨⟨x, mem_unlabelled.mpr hx, y, mem_unlabelled.mpr hy, hne⟩, fun i => ih i (hc i)⟩

theorem labelled_unit (t : Trie ι Unit β) (p : List ι) : t.Labelled (fun _ => ()) p := by
  induction t generalizing p with
  | empty => trivial
  | leaf l => trivial
  | inner a c ih => exact ⟨rfl, fun i => ih i (p ++ [i])⟩

variable (key) in
/-- The trie with nothing but its keys. -/
def shape (t : Trie ι α β) : Trie ι Unit κ := (t.map key).unlabelled

theorem mem_shape {k : κ} : k ∈ t.shape key ↔ ∃ l ∈ t, key l = k := by
  rw [shape, mem_unlabelled, mem_map]
  simp only [eq_comm]

theorem Placed.shape {p : List ι} (h : t.Placed R key p) : (t.shape key).Placed R id p :=
  (h.map (g := key) fun _ => rfl).unlabelled

theorem Branching.shape (h : t.Branching key) : (t.shape key).Branching id :=
  (h.map (g := key) fun _ => rfl).unlabelled

/-- Canonical branches below two roots have one shape when the tries have the same keys. -/
theorem shape_eq_of_keys {α' : Type*} {a : α} {a' : α'} {c : ι → Trie ι α β} {c' : ι → Trie ι α' β}
    (hb : ∀ i, (c i).Branching key) (hb' : ∀ i, (c' i).Branching key)
    (hp : (inner a c).Placed R key []) (hp' : (inner a' c').Placed R key [])
    (hkeys : ∀ k, (∃ l ∈ inner a c, key l = k) ↔ ∃ l ∈ inner a' c', key l = k) :
    (inner a c).shape key = (inner a' c').shape key := by
  have hchild : ∀ i, (c i).shape key = (c' i).shape key := by
    intro i
    refine Branching.eq_of_mem_iff (hb i).shape (hb' i).shape (hp i).shape (hp' i).shape
      (labelled_unit _ _) (labelled_unit _ _) fun k => ?_
    rw [mem_shape, mem_shape]
    constructor
    · rintro ⟨l, hl, rfl⟩
      obtain ⟨hl, hd⟩ := hp.mem_child_iff.mp hl
      obtain ⟨l', hl', hk⟩ := (hkeys _).mp ⟨l, hl, rfl⟩
      exact ⟨l', hp'.mem_child_iff.mpr ⟨hl', by rw [hk, hd]⟩, hk⟩
    · rintro ⟨l, hl, rfl⟩
      obtain ⟨hl, hd⟩ := hp'.mem_child_iff.mp hl
      obtain ⟨l', hl', hk⟩ := (hkeys _).mpr ⟨l, hl, rfl⟩
      exact ⟨l', hp.mem_child_iff.mpr ⟨hl', by rw [hk, hd]⟩, hk⟩
  exact congrArg (inner ()) (funext hchild)

end Shape

end Trie

end Bubi.Core
