import Bubi.Core.TrieShape

/-!
# Inner labels and leaf images of radix tries

Where the inner nodes and the leaves of a canonical trie stand is read off its keys.
An insertion keeps the labels of the inner nodes it passes, turns one leaf into an
inner node and adds a chain below it; its labels are therefore given by what holds at
these three places. Mapping the leaves keeps all of this as long as it keeps the keys.
-/

namespace Bubi.Core.Trie

variable {ι κ α β γ : Type*} {R : Radix ι κ} {key : β → κ}

/-- An inner node stands at a prefix. -/
def HasInner (q : List ι) : List ι → Trie ι α β → Prop
  | _, empty => False
  | _, leaf _ => False
  | p, inner _ c => q = p ∨ ∃ i, HasInner q (p ++ [i]) (c i)

/-- A leaf stands at a prefix. -/
def Stands (l : β) (q : List ι) : List ι → Trie ι α β → Prop
  | _, empty => False
  | p, leaf l' => l' = l ∧ q = p
  | p, inner _ c => ∃ i, Stands l q (p ++ [i]) (c i)

/-- A node stands below the prefix of its trie. -/
theorem HasInner.le {q p : List ι} {t : Trie ι α β} (h : t.HasInner q p) : p <+: q := by
  induction t generalizing p with
  | empty => exact h.elim
  | leaf l => exact h.elim
  | inner a c ih =>
    rcases h with rfl | ⟨i, h⟩
    · exact List.prefix_rfl
    · exact (List.prefix_append p [i]).trans (ih i h)

theorem Stands.mem {l : β} {q p : List ι} {t : Trie ι α β} (h : t.Stands l q p) : l ∈ t := by
  induction t generalizing p with
  | empty => exact h.elim
  | leaf l' => exact h.1.symm
  | inner a c ih =>
    obtain ⟨i, h⟩ := h
    exact ⟨i, ih i h⟩

theorem Stands.le {l : β} {q p : List ι} {t : Trie ι α β} (h : t.Stands l q p) : p <+: q := by
  induction t generalizing p with
  | empty => exact h.elim
  | leaf l' => exact h.2 ▸ List.prefix_rfl
  | inner a c ih =>
    obtain ⟨i, h⟩ := h
    exact (List.prefix_append p [i]).trans (ih i h)

/-- A key below a prefix lies below all its beginnings. -/
theorem under_of_le {p q : List ι} {k : κ} (h : R.Under q k) (hpq : p <+: q) : R.Under p k := by
  obtain ⟨s, rfl⟩ := hpq
  induction s using List.reverseRecOn with
  | nil => rwa [List.append_nil] at h
  | append_singleton s i ih =>
    rw [← List.append_assoc] at h
    exact ih (R.under_snoc.mp h).1

/-- The only leaf below the prefix at which it stands. -/
theorem Stands.unique {l : β} {q p : List ι} {t : Trie ι α β} (h : t.Stands l q p)
    (hp : t.Placed R key p) :
    R.Under q (key l) ∧ ∀ x ∈ t, R.Under q (key x) → x = l := by
  induction t generalizing p with
  | empty => exact h.elim
  | leaf l' =>
    obtain ⟨rfl, rfl⟩ := h
    exact ⟨hp, fun x hx _ => hx⟩
  | inner a c ih =>
    obtain ⟨i, h⟩ := h
    obtain ⟨hl, huniq⟩ := ih i h (hp i)
    refine ⟨hl, fun x hx hxq => huniq x ?_ hxq⟩
    refine hp.mem_child_iff.mpr ⟨hx, ?_⟩
    exact (R.under_snoc.mp (under_of_le hxq h.le)).2

/-- Every inner node of a canonical trie has two keys below it. -/
theorem Branching.exists_of_hasInner {q p : List ι} {t : Trie ι α β} (hb : t.Branching key)
    (hp : t.Placed R key p) (h : t.HasInner q p) :
    ∃ x ∈ t, ∃ y ∈ t, key x ≠ key y ∧ R.Under q (key x) ∧ R.Under q (key y) := by
  induction t generalizing p with
  | empty => exact h.elim
  | leaf l => exact h.elim
  | inner a c ih =>
    rcases h with rfl | ⟨i, h⟩
    · obtain ⟨⟨x, hx, y, hy, hne⟩, _⟩ := hb
      exact ⟨x, hx, y, hy, hne, hp.under hx, hp.under hy⟩
    · obtain ⟨x, hx, y, hy, hxy⟩ := ih i (hb.2 i) (hp i) h
      exact ⟨x, ⟨i, hx⟩, y, ⟨i, hy⟩, hxy⟩

/-- Above a leaf of a canonical trie stands an inner node with another key. -/
theorem Branching.exists_of_stands {l : β} {q p : List ι} {t : Trie ι α β} (hb : t.Branching key)
    (hp : t.Placed R key p) (h : t.Stands l q p) (hne : q ≠ p) :
    ∃ x ∈ t, key x ≠ key l ∧ R.Under q.dropLast (key x) := by
  induction t generalizing p with
  | empty => exact h.elim
  | leaf l' => exact absurd h.2 hne
  | inner a c ih =>
    obtain ⟨i, h⟩ := h
    by_cases hq : q = p ++ [i]
    · obtain ⟨⟨x, hx, y, hy, hxy⟩, _⟩ := hb
      rw [hq, List.dropLast_concat]
      by_cases hxl : key x = key l
      · exact ⟨y, hy, fun hyl => hxy (hxl.trans hyl.symm), hp.under hy⟩
      · exact ⟨x, hx, hxl, hp.under hx⟩
    · obtain ⟨x, hx, hxq⟩ := ih i (hb.2 i) (hp i) h hq
      exact ⟨x, ⟨i, hx⟩, hxq⟩

/-- Two keys below a prefix put an inner node there. -/
theorem Placed.hasInner {q p : List ι} {t : Trie ι α β} (hp : t.Placed R key p) (hpq : p <+: q)
    {x y : β} (hx : x ∈ t) (hy : y ∈ t) (hne : key x ≠ key y) (hxq : R.Under q (key x))
    (hyq : R.Under q (key y)) : t.HasInner q p := by
  induction t generalizing p with
  | empty => exact (not_mem_empty x hx).elim
  | leaf l => exact absurd (by rw [mem_leaf.mp hx, mem_leaf.mp hy]) hne
  | inner a c ih =>
    obtain ⟨s, rfl⟩ := hpq
    cases s with
    | nil => exact Or.inl (List.append_nil p)
    | cons i s =>
      have hpi : p ++ [i] <+: p ++ i :: s := ⟨s, by simp⟩
      have hchild : ∀ z ∈ inner a c, R.Under (p ++ i :: s) (key z) → z ∈ c i := by
        intro z hz hzq
        exact hp.mem_child_iff.mpr ⟨hz, (R.under_snoc.mp (under_of_le hzq hpi)).2⟩
      exact Or.inr ⟨i, ih i (hp i) hpi (hchild x hx hxq) (hchild y hy hyq)⟩

/-- Labels matter only where inner nodes stand. -/
theorem Labelled.congr {f f' : List ι → α} {p : List ι} {t : Trie ι α β} (h : t.Labelled f p)
    (hf : ∀ q, t.HasInner q p → f' q = f q) : t.Labelled f' p := by
  induction t generalizing p with
  | empty => trivial
  | leaf l => trivial
  | inner a c ih =>
    exact ⟨h.1.trans (hf p (Or.inl rfl)).symm,
      fun i => ih i (h.2 i) fun q hq => hf q (Or.inr ⟨i, hq⟩)⟩

/-- Two labellings of one trie agree where inner nodes stand. -/
theorem Labelled.eq {f f' : List ι → α} {q p : List ι} {t : Trie ι α β} (h : t.Labelled f p)
    (h' : t.Labelled f' p) (hq : t.HasInner q p) : f q = f' q := by
  induction t generalizing p with
  | empty => exact hq.elim
  | leaf l => exact hq.elim
  | inner a c ih =>
    rcases hq with rfl | ⟨i, hq⟩
    · exact h.1.symm.trans h'.1
    · exact ih i (h.2 i) (h'.2 i) hq

section Insert

variable [DecidableEq ι]

/-- The labels of a fork. -/
theorem labelled_fork {l l' : β} {chain : α} {f : List ι → α} {m : ℕ} {a : α} {p : List ι}
    (ha : f p = a) (hl : R.Under p (key l))
    (hchain : ∀ q, p <+: q → q ≠ p → R.Under q (key l) → R.Under q (key l') → f q = chain)
    (hl' : R.Under p (key l')) :
    (fork R key l l' chain m a p.length : Trie ι α β).Labelled f p := by
  induction m generalizing a p with
  | zero => trivial
  | succ m ih =>
    rw [fork]
    by_cases hd : R.digit (key l) p.length = R.digit (key l') p.length
    · rw [if_pos hd]
      refine ⟨ha.symm, fun i => ?_⟩
      by_cases hi : i = R.digit (key l) p.length
      · have hpi : R.Under (p ++ [i]) (key l) := R.under_snoc.mpr ⟨hl, hi.symm⟩
        have hpi' : R.Under (p ++ [i]) (key l') := R.under_snoc.mpr ⟨hl', (hi.trans hd).symm⟩
        have hbelow : ∀ q, p ++ [i] <+: q → q ≠ p := by
          rintro _ ⟨s, rfl⟩ heq
          have hlen := congrArg List.length heq
          simp at hlen
        have hrec := ih (a := chain) (hchain (p ++ [i]) (List.prefix_append p [i])
          (hbelow _ List.prefix_rfl) hpi hpi') hpi
          (fun q hq _ => hchain q ((List.prefix_append p [i]).trans hq) (hbelow q hq)) hpi'
        rw [List.length_append, List.length_singleton] at hrec
        rw [← hi, Function.update_self]
        exact hrec
      · rw [Function.update_of_ne hi]
        trivial
    · rw [if_neg hd]
      refine ⟨ha.symm, fun i => ?_⟩
      by_cases hi : i = R.digit (key l') p.length
      · rw [hi, Function.update_self]
        trivial
      · rw [Function.update_of_ne hi]
        by_cases hi' : i = R.digit (key l) p.length
        · rw [hi', Function.update_self]
          trivial
        · rw [Function.update_of_ne hi']
          trivial

/-- The labels after an insertion: kept at inner nodes, and given at the leaf that the
insertion displaces and on the chain below it. -/
theorem Labelled.insert {P : Rebuild key α} {new : β} {f f' : List ι → α} {p : List ι}
    {t : Trie ι α β} (h : t.Labelled f p) (hp : t.Placed R key p) (hk : R.Under p (key new))
    (hkeep : ∀ q, t.HasInner q p → f' q = f q)
    (hturn : ∀ l q, t.Stands l q p → R.Under q (key new) → f' q = P.turn l)
    (hchain : ∀ l q r, t.Stands l q p → q <+: r → r ≠ q → R.Under r (key new) →
      R.Under r (key l) → f' r = P.chain) :
    (t.insert R P new p.length).Labelled f' p := by
  induction t generalizing p with
  | empty => trivial
  | leaf l =>
    refine labelled_fork (hturn l p ⟨rfl, rfl⟩ hk) hk ?_ (by rw [P.key_relabel]; exact hp)
    intro q hpq hne hnew hl
    rw [P.key_relabel] at hl
    exact hchain l p q ⟨rfl, rfl⟩ hpq hne hnew hl
  | inner a c ih =>
    refine ⟨h.1.trans (hkeep p (Or.inl rfl)).symm, fun i => ?_⟩
    by_cases hi : i = R.digit (key new) p.length
    · subst hi
      rw [Function.update_self]
      have hrec := ih _ (h.2 _) (hp (R.digit (key new) p.length)) (R.under_snoc.mpr ⟨hk, rfl⟩)
        (fun q hq => hkeep q (Or.inr ⟨_, hq⟩)) (fun l q hq => hturn l q ⟨_, hq⟩)
        (fun l q r hq => hchain l q r ⟨_, hq⟩)
      rwa [List.length_append, List.length_singleton] at hrec
    · rw [Function.update_of_ne hi]
      exact (h.2 i).congr fun q hq => hkeep q (Or.inr ⟨i, hq⟩)

end Insert

section Map

/-- The trie with every leaf mapped. -/
def map (g : β → γ) : Trie ι α β → Trie ι α γ
  | empty => empty
  | leaf l => leaf (g l)
  | inner a c => inner a fun i => (c i).map g

variable {g : β → γ} {key' : γ → κ} {p : List ι} {t : Trie ι α β}

@[simp] theorem isEmpty_map : (t.map g).isEmpty = t.isEmpty := by
  cases t <;> rfl

theorem mem_map {x : γ} : x ∈ t.map g ↔ ∃ l ∈ t, x = g l := by
  induction t with
  | empty => exact ⟨fun h => h.elim, fun ⟨_, h, _⟩ => h.elim⟩
  | leaf l => exact ⟨fun h => ⟨l, rfl, h⟩, fun ⟨_, h, hx⟩ => h ▸ hx⟩
  | inner a c ih =>
    constructor
    · rintro ⟨i, hi⟩
      obtain ⟨l, hl, hx⟩ := (ih i).mp hi
      exact ⟨l, ⟨i, hl⟩, hx⟩
    · rintro ⟨l, ⟨i, hl⟩, hx⟩
      exact ⟨i, (ih i).mpr ⟨l, hl, hx⟩⟩

theorem Placed.map (h : t.Placed R key p) (hg : ∀ l, key' (g l) = key l) :
    (t.map g).Placed R key' p := by
  induction t generalizing p with
  | empty => trivial
  | leaf l =>
    change R.Under p (key' (g l))
    rw [hg]
    exact h
  | inner a c ih => exact fun i => ih i (h i)

theorem Branching.map (h : t.Branching key) (hg : ∀ l, key' (g l) = key l) :
    (t.map g).Branching key' := by
  induction t with
  | empty => trivial
  | leaf l => trivial
  | inner a c ih =>
    obtain ⟨⟨x, hx, y, hy, hne⟩, hc⟩ := h
    refine ⟨⟨g x, mem_map.mpr ⟨x, hx, rfl⟩, g y, mem_map.mpr ⟨y, hy, rfl⟩, ?_⟩,
      fun i => ih i (hc i)⟩
    rwa [hg, hg]

theorem Labelled.map {f : List ι → α} (h : t.Labelled f p) : (t.map g).Labelled f p := by
  induction t generalizing p with
  | empty => trivial
  | leaf l => trivial
  | inner a c ih => exact ⟨h.1, fun i => ih i (h.2 i)⟩

theorem HasInner.map {q : List ι} (h : t.HasInner q p) : (t.map g).HasInner q p := by
  induction t generalizing p with
  | empty => exact h.elim
  | leaf l => exact h.elim
  | inner a c ih =>
    rcases h with rfl | ⟨i, h⟩
    · exact Or.inl rfl
    · exact Or.inr ⟨i, ih i h⟩

end Map

end Bubi.Core.Trie
