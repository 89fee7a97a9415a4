import Bubi.Core.TrieUpdate
import Mathlib.Tactic.Abel

/-!
# Canonical shape of radix tries

Below the root every inner node separates at least two keys. In that shape the
leaves determine the trie up to its inner labels, inner nodes stand strictly above
the key width, and the leaf an insertion displaces is the one key that is alone
in sharing some prefix with the new key.
-/

namespace Bubi.Core.Trie

variable {ι κ α β : Type*} {R : Radix ι κ} {key : β → κ}

variable (key) in
/-- Every inner node holds two different keys. -/
def Branching : Trie ι α β → Prop
  | empty => True
  | leaf _ => True
  | inner a c => (∃ l ∈ inner a c, ∃ l' ∈ inner a c, key l ≠ key l') ∧ ∀ i, Branching (c i)

/-- Inner labels are a function of the prefix. -/
def Labelled (f : List ι → α) : List ι → Trie ι α β → Prop
  | _, empty => True
  | _, leaf _ => True
  | p, inner a c => a = f p ∧ ∀ i, Labelled f (p ++ [i]) (c i)

/-- A branching node is not yet at the end of its keys. -/
theorem Branching.length_lt {p : List ι} {a : α} {c : ι → Trie ι α β}
    (hb : (inner a c).Branching key) (hp : (inner a c).Placed R key p) : p.length < R.width := by
  obtain ⟨⟨l, hl, l', hl', hne⟩, _⟩ := hb
  by_contra hlen
  have hagree := (hp.under hl).agree R (hp.under hl')
  exact hne (R.ext _ _ fun n hn => hagree n (hn.trans_le (not_lt.mp hlen)))

/-- A branching trie without leaves is empty. -/
theorem Branching.eq_empty {t : Trie ι α β} (hb : t.Branching key) (h : ∀ l, l ∉ t) :
    t = empty := by
  cases t with
  | empty => rfl
  | leaf l => exact absurd (mem_leaf.mpr rfl) (h l)
  | inner a c =>
    obtain ⟨⟨l, hl, _⟩, _⟩ := hb
    exact absurd hl (h l)

/-- A branching trie with one leaf is that leaf. -/
theorem Branching.eq_leaf {t : Trie ι α β} (hb : t.Branching key) {l : β}
    (h : ∀ x, x ∈ t ↔ x = l) : t = leaf l := by
  cases t with
  | empty => exact absurd ((h l).mpr rfl) (not_mem_empty l)
  | leaf l' => rw [(h l').mp (mem_leaf.mpr rfl)]
  | inner a c =>
    obtain ⟨⟨x, hx, y, hy, hne⟩, _⟩ := hb
    rw [(h x).mp hx, (h y).mp hy] at hne
    exact absurd rfl hne

/-- The leaves determine a branching trie up to its labels. -/
theorem Branching.eq_of_mem_iff {f : List ι → α} {p : List ι} {t t' : Trie ι α β}
    (hb : t.Branching key) (hb' : t'.Branching key) (hp : t.Placed R key p)
    (hp' : t'.Placed R key p) (hf : t.Labelled f p) (hf' : t'.Labelled f p)
    (hmem : ∀ l, l ∈ t ↔ l ∈ t') : t = t' := by
  induction t generalizing p t' with
  | empty => exact (hb'.eq_empty fun l hl => not_mem_empty l ((hmem l).mpr hl)).symm
  | leaf l => exact (hb'.eq_leaf fun x => (hmem x).symm.trans mem_leaf).symm
  | inner a c ih =>
    obtain ⟨⟨l, hl, l', hl', hne⟩, hbc⟩ := hb
    cases t' with
    | empty => exact absurd ((hmem l).mp hl) (not_mem_empty l)
    | leaf x =>
      have hlx := mem_leaf.mp ((hmem l).mp hl)
      have hlx' := mem_leaf.mp ((hmem l').mp hl')
      exact absurd (by rw [hlx, hlx']) hne
    | inner a' c' =>
      have hc : c = c' := by
        funext i
        refine ih i (hbc i) (hb'.2 i) (hp i) (hp' i) (hf.2 i) (hf'.2 i) ?_
        intro x
        rw [hp.mem_child_iff, hp'.mem_child_iff, hmem x]
      rw [hc, hf.1, hf'.1]

/-- One more digit of agreement with a key is agreement and an equal next digit. -/
theorem agree_succ {n : ℕ} {a b : κ} :
    R.Agree (n + 1) a b ↔ R.Agree n a b ∧ R.digit a n = R.digit b n := by
  constructor
  · intro h
    exact ⟨fun i hi => h i (by omega), h n (by omega)⟩
  · rintro ⟨h, hn⟩ i hi
    rcases Nat.lt_succ_iff_lt_or_eq.mp hi with hlt | rfl
    · exact h i hlt
    · exact hn

/-- A leaf is alone in sharing some prefix of at least the given length with a key. -/
def Alone (R : Radix ι κ) (key : β → κ) (k : κ) (m : ℕ) (t : Trie ι α β) (l : β) : Prop :=
  l ∈ t ∧ ∃ n, m ≤ n ∧ R.Agree n k (key l) ∧ ∀ x ∈ t, R.Agree n k (key x) → x = l

/-- The walk of a key ends at the leaf that is alone in sharing a prefix with it. -/
theorem Branching.reach_eq_some_iff {p : List ι} {t : Trie ι α β} (hb : t.Branching key)
    (hp : t.Placed R key p) {k : κ} (hk : R.Under p k) {l : β} :
    t.reach R k p.length = some l ↔ t.Alone R key k p.length l := by
  induction t generalizing p with
  | empty => simp [reach, Alone]
  | leaf x =>
    rw [reach, Option.some.injEq]
    constructor
    · rintro rfl
      exact ⟨mem_leaf.mpr rfl, p.length, le_rfl, hk.agree R hp, fun y hy _ => mem_leaf.mp hy⟩
    · rintro ⟨hl, _⟩
      exact (mem_leaf.mp hl).symm
  | inner a c ih =>
    obtain ⟨⟨x, hx, y, hy, hne⟩, hbc⟩ := hb
    have hstep := ih (R.digit k p.length) (hbc _) (hp _) (R.under_snoc.mpr ⟨hk, rfl⟩)
    rw [List.length_append, List.length_singleton] at hstep
    rw [reach, hstep]
    constructor
    · rintro ⟨hl, n, hn, hagree, huniq⟩
      refine ⟨mem_inner.mpr ⟨_, hl⟩, n, by omega, hagree, fun z hz hzk => ?_⟩
      exact huniq z (hp.mem_child_iff.mpr ⟨hz, (hzk _ (by omega)).symm⟩) hzk
    · rintro ⟨hl, n, hn, hagree, huniq⟩
      -- Two keys share the node's own prefix, so the lone one shares a longer one.
      have hlen : p.length + 1 ≤ n := by
        by_contra hle
        have hn' : n = p.length := by omega
        subst hn'
        have hxl := huniq x hx (hk.agree R (hp.under hx))
        have hyl := huniq y hy (hk.agree R (hp.under hy))
        exact hne (by rw [hxl, hyl])
      refine ⟨hp.mem_child_iff.mpr ⟨hl, (hagree _ (by omega)).symm⟩, n, hlen, hagree, ?_⟩
      intro z hz hzk
      exact huniq z (mem_inner.mpr ⟨_, hz⟩) hzk

section Updates

variable [DecidableEq ι]

/-- A fork holds its two keys at every level. -/
theorem branching_fork {l l' : β} (hne : key l ≠ key l') {chain : α} {m : ℕ} {a : α} {n : ℕ}
    (hagree : R.Agree n (key l) (key l')) (hm : R.width ≤ n + m) :
    (fork R key l l' chain m a n : Trie ι α β).Branching key := by
  induction m generalizing a n with
  | zero => exact absurd (R.ext _ _ fun i hi => hagree i (by omega)) hne
  | succ m ih =>
    have hmem : ∀ x, x ∈ fork R key l l' chain (m + 1) a n ↔ x = l ∨ x = l' :=
      fun x => mem_fork hne hagree hm
    have htwo : ∃ x ∈ fork R key l l' chain (m + 1) a n,
        ∃ y ∈ fork R key l l' chain (m + 1) a n, key x ≠ key y :=
      ⟨l, (hmem l).mpr (Or.inl rfl), l', (hmem l').mpr (Or.inr rfl), hne⟩
    rw [fork] at htwo ⊢
    by_cases hd : R.digit (key l) n = R.digit (key l') n
    · rw [if_pos hd] at htwo ⊢
      refine ⟨htwo, fun i => ?_⟩
      by_cases hi : i = R.digit (key l) n
      · rw [hi, Function.update_self]
        exact ih (agree_succ.mpr ⟨hagree, hd⟩) (by omega)
      · rw [Function.update_of_ne hi]
        trivial
    · rw [if_neg hd] at htwo ⊢
      refine ⟨htwo, fun i => ?_⟩
      by_cases hi : i = R.digit (key l') n
      · rw [hi, Function.update_self]
        trivial
      · rw [Function.update_of_ne hi]
        by_cases hi' : i = R.digit (key l) n
        · rw [hi', Function.update_self]
          trivial
        · rw [Function.update_of_ne hi']
          trivial

/-- Insertion of a new key keeps the canonical shape. -/
theorem Branching.insert {P : Rebuild key α} {new : β} {p : List ι} {t : Trie ι α β}
    (hb : t.Branching key) (hp : t.Placed R key p) (hk : R.Under p (key new))
    (hnew : ∀ l ∈ t, key l ≠ key new) : (t.insert R P new p.length).Branching key := by
  induction t generalizing p with
  | empty => trivial
  | leaf l =>
    obtain ⟨hne, hagree⟩ := hp.displaced (P := P) hk hnew
    exact branching_fork hne hagree (by omega)
  | inner a c ih =>
    obtain ⟨⟨x, hx, y, hy, hne⟩, hbc⟩ := hb
    refine ⟨?_, fun i => ?_⟩
    · obtain ⟨x', hx', hxk⟩ := hp.exists_mem_insert (P := P) hk hnew hx
      obtain ⟨y', hy', hyk⟩ := hp.exists_mem_insert (P := P) hk hnew hy
      exact ⟨x', hx', y', hy', by rwa [hxk, hyk]⟩
    · by_cases hi : i = R.digit (key new) p.length
      · rw [hi, Function.update_self]
        have h := ih _ (hbc _) (hp (R.digit (key new) p.length)) (R.under_snoc.mpr ⟨hk, rfl⟩)
          (fun l hl => hnew l (mem_inner.mpr ⟨_, hl⟩))
        simpa only [List.length_append, List.length_singleton] using h
      · rw [Function.update_of_ne hi]
        exact hbc i

/-- Replacement within one key keeps the canonical shape. -/
theorem Branching.modify [DecidableEq κ] {k : κ} {f : β → β} {p : List ι} {t : Trie ι α β}
    (hb : t.Branching key) (hp : t.Placed R key p) {l : β}
    (hl : t.find R key k p.length = some l) (hf : key (f l) = k) :
    (t.modify R k f p.length).Branching key := by
  induction t generalizing p with
  | empty => trivial
  | leaf l' => trivial
  | inner a c ih =>
    obtain ⟨⟨x, hx, y, hy, hne⟩, hbc⟩ := hb
    -- Every key keeps a leaf: the replaced one its replacement, the others themselves.
    have hkeep : ∀ z ∈ inner a c, ∃ z' ∈ (inner a c).modify R k f p.length, key z' = key z := by
      intro z hz
      by_cases hzk : key z = k
      · exact ⟨f l, (hp.mem_modify hl).mpr (Or.inl rfl), hf.trans hzk.symm⟩
      · exact ⟨z, (hp.mem_modify hl).mpr (Or.inr ⟨hz, hzk⟩), rfl⟩
    refine ⟨?_, fun i => ?_⟩
    · obtain ⟨x', hx', hxk⟩ := hkeep x hx
      obtain ⟨y', hy', hyk⟩ := hkeep y hy
      exact ⟨x', hx', y', hy', by rwa [hxk, hyk]⟩
    · by_cases hi : i = R.digit k p.length
      · rw [hi, Function.update_self]
        have h := ih (R.digit k p.length) (hbc _) (hp _)
          (by simpa only [List.length_append, List.length_singleton, find_inner] using hl)
        simpa only [List.length_append, List.length_singleton] using h
      · rw [Function.update_of_ne hi]
        exact hbc i

/-- Replacement touches no inner label. -/
theorem Labelled.modify {g : List ι → α} {k : κ} {f : β → β} {p : List ι} {t : Trie ι α β}
    (h : t.Labelled g p) : (t.modify R k f p.length).Labelled g p := by
  induction t generalizing p with
  | empty => trivial
  | leaf l => trivial
  | inner a c ih =>
    refine ⟨h.1, fun i => ?_⟩
    by_cases hi : i = R.digit k p.length
    · rw [hi, Function.update_self]
      have hb := ih (R.digit k p.length) (h.2 _)
      simpa only [List.length_append, List.length_singleton] using hb
    · rw [Function.update_of_ne hi]
      exact h.2 i

end Updates

section Sum

variable {M : Type*} [AddCommGroup M] [Fintype ι]

/-- The sum of a weight over all leaves. -/
def sum (w : β → M) : Trie ι α β → M
  | empty => 0
  | leaf l => w l
  | inner _ c => ∑ i, (c i).sum w

@[simp] theorem sum_bare (w : β → M) (a : α) : (inner a bare : Trie ι α β).sum w = 0 := by
  simp [sum]

variable [DecidableEq ι]

/-- Replacing one branch exchanges its share of the sum. -/
theorem sum_update (w : β → M) (a : α) (c : ι → Trie ι α β) (b : ι) (t : Trie ι α β) :
    (inner a (Function.update c b t)).sum w = (inner a c).sum w - (c b).sum w + t.sum w := by
  have hsplit : ∀ d : ι → Trie ι α β,
      (inner a d).sum w = (d b).sum w + ∑ i ∈ Finset.univ.erase b, (d i).sum w := by
    intro d
    exact (Finset.add_sum_erase Finset.univ _ (Finset.mem_univ b)).symm
  have hrest : ∑ i ∈ Finset.univ.erase b, (Function.update c b t i).sum w =
      ∑ i ∈ Finset.univ.erase b, (c i).sum w := by
    refine Finset.sum_congr rfl fun i hi => ?_
    rw [Function.update_of_ne (Finset.ne_of_mem_erase hi)]
  rw [hsplit, hsplit c, Function.update_self, hrest]
  abel

/-- A fork weighs what its two leaves weigh. -/
theorem sum_fork (w : β → M) {l l' : β} (hne : key l ≠ key l') {chain : α} {m : ℕ} {a : α}
    {n : ℕ} (hagree : R.Agree n (key l) (key l')) (hm : R.width ≤ n + m) :
    (fork R key l l' chain m a n : Trie ι α β).sum w = w l + w l' := by
  induction m generalizing a n with
  | zero => exact absurd (R.ext _ _ fun i hi => hagree i (by omega)) hne
  | succ m ih =>
    rw [fork]
    by_cases hd : R.digit (key l) n = R.digit (key l') n
    · rw [if_pos hd, sum_update, ih (agree_succ.mpr ⟨hagree, hd⟩) (by omega), sum_bare]
      simp [sum]
    · rw [if_neg hd, sum_update, sum_update, Function.update_of_ne (Ne.symm hd), sum_bare]
      simp [sum]

/-- Insertion adds the new leaf's weight when relabelling changes none. -/
theorem Placed.sum_insert {w : β → M} {P : Rebuild key α} {new : β} {p : List ι}
    {t : Trie ι α β} (h : t.Placed R key p) (hk : R.Under p (key new))
    (hnew : ∀ l ∈ t, key l ≠ key new) (hw : ∀ l, w (P.relabel l) = w l) :
    (t.insert R P new p.length).sum w = t.sum w + w new := by
  induction t generalizing p with
  | empty => simp [Trie.insert, sum]
  | leaf l =>
    obtain ⟨hne, hagree⟩ := h.displaced (P := P) hk hnew
    rw [Trie.insert, sum_fork w hne hagree (by omega), hw, add_comm]
    rfl
  | inner a c ih =>
    have hb := ih _ (h (R.digit (key new) p.length)) (R.under_snoc.mpr ⟨hk, rfl⟩)
      (fun l hl => hnew l (mem_inner.mpr ⟨_, hl⟩))
    rw [List.length_append, List.length_singleton] at hb
    rw [Trie.insert, sum_update, hb]
    abel

/-- Replacement exchanges the found leaf's weight. -/
theorem sum_modify [DecidableEq κ] {w : β → M} {k : κ} {f : β → β} {n : ℕ} {t : Trie ι α β}
    {l : β} (hl : t.find R key k n = some l) :
    (t.modify R k f n).sum w = t.sum w - w l + w (f l) := by
  induction t generalizing n with
  | empty => cases hl
  | leaf l' =>
    obtain rfl := Option.some.inj (find_eq_some.mp hl).1
    simp [Trie.modify, sum]
  | inner a c ih =>
    rw [Trie.modify, sum_update, ih _ hl]
    abel

end Sum

end Bubi.Core.Trie
