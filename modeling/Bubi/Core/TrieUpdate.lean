import Bubi.Core.Trie

/-!
# Insertion and replacement in a radix trie

Insertion of a new key touches one walk. Its effect on the leaves is exact: the new
leaf appears, the leaf at the end of the walk (if any) is relabelled, and every other
leaf is kept. Replacement changes exactly the leaf of the given key.
-/

namespace Bubi.Core

/-- The labels an insertion chooses when it forks an occupied leaf. -/
structure Rebuild {β κ : Type*} (key : β → κ) (α : Type*) where
  /-- The displaced leaf as it is built again further down. -/
  relabel : β → β
  /-- The label of the inner node that takes the displaced leaf's place. -/
  turn : β → α
  /-- The label of every further inner node of the fork. -/
  chain : α
  /-- A displaced leaf keeps its key. -/
  key_relabel : ∀ l, key (relabel l) = key l

namespace Trie

variable {ι κ α β : Type*} (R : Radix ι κ) {key : β → κ}

/-- No child at all. -/
def bare : ι → Trie ι α β := fun _ => empty

@[simp] theorem bare_apply (i : ι) : (bare i : Trie ι α β) = empty := rfl

theorem placed_bare (p : List ι) (a : α) : (inner a bare : Trie ι α β).Placed R key p :=
  fun _ => trivial

variable [DecidableEq ι]

variable (key) in
/-- The inner nodes that separate two leaves, with at most the given number of levels. -/
def fork (l l' : β) (chain : α) : ℕ → α → ℕ → Trie ι α β
  | 0, _, _ => empty
  | m + 1, a, n =>
    if R.digit (key l) n = R.digit (key l') n then
      inner a (Function.update bare (R.digit (key l) n) (fork l l' chain m chain (n + 1)))
    else
      inner a (Function.update (Function.update bare (R.digit (key l) n) (leaf l))
        (R.digit (key l') n) (leaf l'))

/-- Insertion of a leaf whose key is new to the trie. -/
def insert (P : Rebuild key α) (new : β) : ℕ → Trie ι α β → Trie ι α β
  | _, empty => leaf new
  | n, leaf l => fork R key new (P.relabel l) P.chain (R.width - n) (P.turn l) n
  | n, inner a c =>
    inner a (Function.update c (R.digit (key new) n)
      (insert P new (n + 1) (c (R.digit (key new) n))))

/-- Replacement of the leaf at the end of a key's walk. -/
def modify (k : κ) (f : β → β) : ℕ → Trie ι α β → Trie ι α β
  | _, empty => empty
  | _, leaf l => leaf (f l)
  | n, inner a c =>
    inner a (Function.update c (R.digit k n) (modify k f (n + 1) (c (R.digit k n))))

variable {R}

/-- A leaf is below an updated branching exactly through the new or an old branch. -/
theorem mem_update {a : α} {c : ι → Trie ι α β} {b : ι} {t : Trie ι α β} {x : β} :
    x ∈ inner a (Function.update c b t) ↔ x ∈ t ∨ ∃ i, i ≠ b ∧ x ∈ c i := by
  rw [mem_inner]
  constructor
  · rintro ⟨i, hi⟩
    by_cases hib : i = b
    · subst hib
      rw [Function.update_self] at hi
      exact Or.inl hi
    · rw [Function.update_of_ne hib] at hi
      exact Or.inr ⟨i, hib, hi⟩
  · rintro (ht | ⟨i, hib, hi⟩)
    · exact ⟨b, by rwa [Function.update_self]⟩
    · exact ⟨i, by rwa [Function.update_of_ne hib]⟩

/-- Placement of an updated branching is placement of the new and of the old branches. -/
theorem placed_update {p : List ι} {a a' : α} {c : ι → Trie ι α β} {b : ι} {t : Trie ι α β}
    (hc : (inner a c).Placed R key p) (ht : t.Placed R key (p ++ [b])) :
    (inner a' (Function.update c b t)).Placed R key p := by
  intro i
  by_cases hib : i = b
  · subst hib
    rwa [Function.update_self]
  · rw [Function.update_of_ne hib]
    exact hc i

/-- A fork holds exactly the two leaves it separates. -/
theorem mem_fork {l l' : β} (hne : key l ≠ key l') {chain : α} {m : ℕ} {a : α} {n : ℕ}
    (hagree : R.Agree n (key l) (key l')) (hm : R.width ≤ n + m) {x : β} :
    x ∈ fork R key l l' chain m a n ↔ x = l ∨ x = l' := by
  induction m generalizing a n with
  | zero => exact absurd (R.ext _ _ fun i hi => hagree i (by omega)) hne
  | succ m ih =>
    rw [fork]
    split
    case isTrue hd =>
      have hagree' : R.Agree (n + 1) (key l) (key l') := by
        intro i hi
        rcases Nat.lt_succ_iff_lt_or_eq.mp hi with hlt | rfl
        · exact hagree i hlt
        · exact hd
      rw [mem_update, ih hagree' (by omega)]
      simp
    case isFalse hd =>
      rw [mem_update]
      constructor
      · rintro (hx | ⟨i, hi, hx⟩)
        · exact Or.inr (mem_leaf.mp hx)
        · by_cases hil : i = R.digit (key l) n
          · rw [hil, Function.update_self] at hx
            exact Or.inl (mem_leaf.mp hx)
          · simp [Function.update_of_ne hil] at hx
      · rintro (rfl | rfl)
        · exact Or.inr ⟨_, hd, by simp⟩
        · exact Or.inl (mem_leaf.mpr rfl)

/-- A fork puts both leaves below their own prefixes. -/
theorem placed_fork {l l' : β} {chain : α} {m : ℕ} {a : α} {p : List ι}
    (hl : R.Under p (key l)) (hl' : R.Under p (key l')) :
    (fork R key l l' chain m a p.length).Placed R key p := by
  induction m generalizing a p with
  | zero => trivial
  | succ m ih =>
    rw [fork]
    split
    case isTrue hd =>
      refine placed_update (placed_bare R p a) ?_
      have h := ih (a := chain) (R.under_snoc.mpr ⟨hl, rfl⟩) (R.under_snoc.mpr ⟨hl', hd.symm⟩)
      simpa only [List.length_append, List.length_singleton] using h
    case isFalse hd =>
      exact placed_update (a := a) (placed_update (placed_bare R p a) (R.under_snoc.mpr ⟨hl, rfl⟩))
        (R.under_snoc.mpr ⟨hl', rfl⟩)

section Insert

variable {P : Rebuild key α} {new : β}

/-- Insertion keeps every leaf below its own prefix. -/
theorem Placed.insert {p : List ι} {t : Trie ι α β} (h : t.Placed R key p)
    (hk : R.Under p (key new)) : (t.insert R P new p.length).Placed R key p := by
  induction t generalizing p with
  | empty => exact hk
  | leaf l =>
    refine placed_fork hk ?_
    rw [P.key_relabel]
    exact h
  | inner a c ih =>
    refine placed_update (a := a) h ?_
    have hb := ih _ (h (R.digit (key new) p.length)) (R.under_snoc.mpr ⟨hk, rfl⟩)
    simpa only [List.length_append, List.length_singleton] using hb

omit [DecidableEq ι] in
/-- A displaced leaf and the new one differ, behind the prefix of both. -/
theorem Placed.displaced {p : List ι} {l : β} (h : (leaf l : Trie ι α β).Placed R key p)
    (hk : R.Under p (key new))
    (hnew : ∀ l' ∈ (leaf l : Trie ι α β), key l' ≠ key new) :
    key new ≠ key (P.relabel l) ∧ R.Agree p.length (key new) (key (P.relabel l)) := by
  rw [P.key_relabel]
  exact ⟨(hnew l (mem_leaf.mpr rfl)).symm, hk.agree R h⟩

/-- The leaves after an insertion: the new one, the displaced one relabelled, and the rest. -/
theorem Placed.mem_insert {p : List ι} {t : Trie ι α β} (h : t.Placed R key p)
    (hk : R.Under p (key new)) (hnew : ∀ l ∈ t, key l ≠ key new) {x : β} :
    x ∈ t.insert R P new p.length ↔
      x = new ∨ (x ∈ t ∧ t.reach R (key new) p.length ≠ some x) ∨
        ∃ l, t.reach R (key new) p.length = some l ∧ x = P.relabel l := by
  induction t generalizing p with
  | empty => simp [Trie.insert, reach]
  | leaf l =>
    obtain ⟨hne, hagree⟩ := h.displaced (P := P) hk hnew
    rw [Trie.insert, mem_fork hne hagree (by omega), reach, mem_leaf]
    constructor
    · rintro (hx | hx)
      · exact Or.inl hx
      · exact Or.inr (Or.inr ⟨l, rfl, hx⟩)
    · rintro (hx | ⟨rfl, hx⟩ | ⟨l', hl', rfl⟩)
      · exact Or.inl hx
      · exact absurd rfl hx
      · exact Or.inr (by rw [Option.some.inj hl'])
  | inner a c ih =>
    have hb := ih _ (h (R.digit (key new) p.length)) (R.under_snoc.mpr ⟨hk, rfl⟩)
      (fun l hl => hnew l (mem_inner.mpr ⟨_, hl⟩))
    rw [List.length_append, List.length_singleton] at hb
    rw [Trie.insert, mem_update, hb, reach]
    -- A leaf off the walk's branch is not the one the walk ends at.
    have hoff : ∀ i, i ≠ R.digit (key new) p.length → x ∈ c i →
        (c (R.digit (key new) p.length)).reach R (key new) (p.length + 1) ≠ some x := by
      intro i hi hx hr
      have hi' := (h.mem_child_iff.mp hx).2
      have hj := (h.mem_child_iff.mp (mem_of_reach hr)).2
      exact hi (hi'.symm.trans hj)
    constructor
    · rintro ((hx | ⟨hx, hr⟩ | hx) | ⟨i, hi, hx⟩)
      · exact Or.inl hx
      · exact Or.inr (Or.inl ⟨mem_inner.mpr ⟨_, hx⟩, hr⟩)
      · exact Or.inr (Or.inr hx)
      · exact Or.inr (Or.inl ⟨mem_inner.mpr ⟨i, hx⟩, hoff i hi hx⟩)
    · rintro (hx | ⟨hx, hr⟩ | hx)
      · exact Or.inl (Or.inl hx)
      · obtain ⟨i, hi⟩ := mem_inner.mp hx
        by_cases hib : i = R.digit (key new) p.length
        · exact Or.inl (Or.inr (Or.inl ⟨hib ▸ hi, hr⟩))
        · exact Or.inr ⟨i, hib, hi⟩
      · exact Or.inl (Or.inr (Or.inr hx))

/-- Every key present before an insertion is still present. -/
theorem Placed.exists_mem_insert {p : List ι} {t : Trie ι α β} (h : t.Placed R key p)
    (hk : R.Under p (key new)) (hnew : ∀ l ∈ t, key l ≠ key new) {l : β} (hl : l ∈ t) :
    ∃ l' ∈ t.insert R P new p.length, key l' = key l := by
  by_cases hr : t.reach R (key new) p.length = some l
  · exact ⟨P.relabel l, (h.mem_insert hk hnew).mpr (Or.inr (Or.inr ⟨l, hr, rfl⟩)),
      P.key_relabel l⟩
  · exact ⟨l, (h.mem_insert hk hnew).mpr (Or.inr (Or.inl ⟨hl, hr⟩)), rfl⟩

/-- Lookup after an insertion. -/
theorem Placed.find_insert [DecidableEq κ] {p : List ι} {t : Trie ι α β} (h : t.Placed R key p)
    (hk : R.Under p (key new)) (hnew : ∀ l ∈ t, key l ≠ key new) (k : κ) :
    (t.insert R P new p.length).find R key k p.length =
      if k = key new then some new
      else if (t.reach R (key new) p.length).map key = some k then
        (t.find R key k p.length).map P.relabel
      else t.find R key k p.length := by
  apply Option.ext
  intro x
  rw [(h.insert hk).find_eq_some_iff, h.mem_insert hk hnew]
  by_cases hkn : k = key new
  · subst hkn
    rw [if_pos rfl, Option.some.injEq]
    constructor
    · rintro ⟨hx | ⟨hx, _⟩ | ⟨l, hl, rfl⟩, hkx⟩
      · exact hx.symm
      · exact absurd hkx (hnew x hx)
      · exact absurd (P.key_relabel l ▸ hkx) (hnew l (mem_of_reach hl))
    · rintro rfl
      exact ⟨Or.inl rfl, rfl⟩
  · rw [if_neg hkn]
    by_cases hd : (t.reach R (key new) p.length).map key = some k
    · rw [if_pos hd]
      obtain ⟨l, hl, hlk⟩ := Option.map_eq_some_iff.mp hd
      rw [h.find_eq_some_iff.mpr ⟨mem_of_reach hl, hlk⟩, Option.map_some, Option.some.injEq]
      constructor
      · rintro ⟨rfl | ⟨hx, hr⟩ | ⟨l', hl', rfl⟩, hkx⟩
        · exact absurd hkx.symm hkn
        · -- Two placed leaves with one key are the same leaf.
          have hxl : some x = some l := by
            rw [← h.reach_of_mem hx, ← h.reach_of_mem (mem_of_reach hl), hkx, hlk]
          exact absurd (hl.trans hxl.symm) hr
        · rw [Option.some.inj (hl.symm.trans hl')]
      · rintro rfl
        exact ⟨Or.inr (Or.inr ⟨l, hl, rfl⟩), (P.key_relabel l).trans hlk⟩
    · rw [if_neg hd, h.find_eq_some_iff]
      constructor
      · rintro ⟨rfl | ⟨hx, _⟩ | ⟨l, hl, rfl⟩, hkx⟩
        · exact absurd hkx.symm hkn
        · exact ⟨hx, hkx⟩
        · exact absurd (by rw [hl, Option.map_some, ← P.key_relabel, hkx]) hd
      · rintro ⟨hx, rfl⟩
        exact ⟨Or.inr (Or.inl ⟨hx, fun hr => hd (by rw [hr, Option.map_some])⟩), rfl⟩

end Insert

section Modify

variable [DecidableEq κ] {k : κ} {f : β → β}

/-- Replacement of a found leaf by one of the same key keeps every leaf in place. -/
theorem Placed.modify {p : List ι} {t : Trie ι α β} (h : t.Placed R key p) {l : β}
    (hl : t.find R key k p.length = some l) (hf : key (f l) = k) :
    (t.modify R k f p.length).Placed R key p := by
  induction t generalizing p with
  | empty => trivial
  | leaf l' =>
    obtain ⟨hr, hk⟩ := find_eq_some.mp hl
    obtain rfl := Option.some.inj hr
    change R.Under p (key (f l'))
    rw [hf, ← hk]
    exact h
  | inner a c ih =>
    refine placed_update (a := a) h ?_
    have hb := ih (R.digit k p.length) (h _)
      (by simpa only [List.length_append, List.length_singleton, find_inner] using hl)
    simpa only [List.length_append, List.length_singleton] using hb

/-- The leaves after a replacement. -/
theorem Placed.mem_modify {p : List ι} {t : Trie ι α β} (h : t.Placed R key p) {l : β}
    (hl : t.find R key k p.length = some l) {x : β} :
    x ∈ t.modify R k f p.length ↔ x = f l ∨ (x ∈ t ∧ key x ≠ k) := by
  induction t generalizing p with
  | empty => cases hl
  | leaf l' =>
    obtain ⟨hr, hk⟩ := find_eq_some.mp hl
    obtain rfl := Option.some.inj hr
    rw [Trie.modify, mem_leaf, mem_leaf]
    constructor
    · exact Or.inl
    · rintro (hx | ⟨rfl, hx⟩)
      · exact hx
      · exact absurd hk hx
  | inner a c ih =>
    have hb := ih (R.digit k p.length) (h _)
      (by simpa only [List.length_append, List.length_singleton, find_inner] using hl)
    rw [List.length_append, List.length_singleton] at hb
    rw [Trie.modify, mem_update, hb]
    constructor
    · rintro ((hx | ⟨hx, hk⟩) | ⟨i, hi, hx⟩)
      · exact Or.inl hx
      · exact Or.inr ⟨mem_inner.mpr ⟨_, hx⟩, hk⟩
      · refine Or.inr ⟨mem_inner.mpr ⟨i, hx⟩, ?_⟩
        rintro rfl
        exact hi (h.mem_child_iff.mp hx).2.symm
    · rintro (hx | ⟨hx, hk⟩)
      · exact Or.inl (Or.inl hx)
      · obtain ⟨i, hi⟩ := mem_inner.mp hx
        by_cases hib : i = R.digit k p.length
        · exact Or.inl (Or.inr ⟨hib ▸ hi, hk⟩)
        · exact Or.inr ⟨i, hib, hi⟩

/-- Lookup after a replacement. -/
theorem Placed.find_modify {p : List ι} {t : Trie ι α β} (h : t.Placed R key p) {l : β}
    (hl : t.find R key k p.length = some l) (hf : key (f l) = k) (k' : κ) :
    (t.modify R k f p.length).find R key k' p.length =
      if k' = k then some (f l) else t.find R key k' p.length := by
  apply Option.ext
  intro x
  rw [(h.modify hl hf).find_eq_some_iff, h.mem_modify hl]
  split
  case isTrue hk =>
    subst hk
    rw [Option.some.injEq]
    constructor
    · rintro ⟨hx | ⟨_, hne⟩, hkx⟩
      · exact hx.symm
      · exact absurd hkx hne
    · rintro rfl
      exact ⟨Or.inl rfl, hf⟩
  case isFalse hk =>
    rw [h.find_eq_some_iff]
    constructor
    · rintro ⟨rfl | ⟨hx, _⟩, hkx⟩
      · exact absurd (hkx.symm.trans hf) hk
      · exact ⟨hx, hkx⟩
    · rintro ⟨hx, rfl⟩
      exact ⟨Or.inr ⟨hx, hk⟩, rfl⟩

end Modify

end Trie

end Bubi.Core
