import Bubi.Core.Transfer

/-!
# Lost updates

Which pairs of transfers can be interleaved without a loss, for amounts of any sign and
balances that are not negative. A transfer that is interrupted by the other between reading
and writing covers up what the other did, so two transfers with an entry in common are
harmless only where one of them is refused, where they move nothing, or where the amounts
are such that the balances cannot tell what was lost.
-/

namespace Bubi.Core.Transfer

universe u v

variable {K : Type u} {F : Type v} [DecidableEq K] [Field F] [LinearOrder F]

section Conditions

/-- The two have no entry in common. -/
def Disjoint (t : Bool → Transfer K F) : Prop :=
  ∀ k, ¬ ((t false).Touches k ∧ (t true).Touches k)

/-- One of the two is not covered at the start. Where they have both entries in common, the
source does not cover the two amounts together either. -/
def Uncovered (t : Bool → Transfer K F) (β : K → F) : Prop :=
  ∃ who, β (t who).source < (t who).amount ∧
    ((t who).source = (t !who).source → (t who).destination = (t !who).destination →
      β (t who).source < (t who).amount + (t !who).amount)

/-- The two have only their destination in common. Neither amount changes it, or it can bear each
amount but not both, or the amounts cancel and it cannot bear one of them. -/
def Merges (t u : Transfer K F) (β : K → F) : Prop :=
  t.source ≠ u.source ∧ t.destination = u.destination ∧
    (credit (β t.destination) t.amount = β t.destination ∧
        credit (β t.destination) u.amount = β t.destination ∨
      (0 ≤ β t.destination + t.amount ∧ 0 ≤ β t.destination + u.amount) ∧
        β t.destination + (t.amount + u.amount) < 0 ∨
      t.amount + u.amount = 0 ∧
        (β t.destination + t.amount < 0 ∨ β t.destination + u.amount < 0))

/-- The source of the one is the destination of the other. If not also the other way round, the
one moves nothing and the other does not change this entry, or the amounts are equal and the
entry cannot bear the other's; or the amounts cancel and the entry can bear one but not both. -/
def Passes (t u : Transfer K F) (β : K → F) : Prop :=
  t.source = u.destination ∧
    (t.destination ≠ u.source ∧
        (t.amount = 0 ∧ credit (β t.source) u.amount = β t.source ∨
          t.amount = u.amount ∧ β t.source + u.amount < 0) ∨
      t.amount = -u.amount ∧ 0 ≤ β t.source + u.amount ∧ β t.source + u.amount - t.amount < 0)

/-- The conditions under which no interleaving loses anything. -/
def Harmless (t : Bool → Transfer K F) (β : K → F) : Prop :=
  Disjoint t ∨ Uncovered t β ∨ (∀ who, (t who).amount = 0) ∨
    Merges (t false) (t true) β ∨ ∃ who, Passes (t who) (t !who) β

omit [DecidableEq K] [Field F] [LinearOrder F] in
theorem Disjoint.not_touches {t : Bool → Transfer K F} (h : Disjoint t) (who : Bool) {k : K}
    (hk : (t who).Touches k) : ¬ (t !who).Touches k := by
  intro hother
  cases who with
  | false => exact h k ⟨hk, hother⟩
  | true => exact h k ⟨hother, hk⟩

omit [DecidableEq K] in
theorem Merges.symm {t u : Transfer K F} {β : K → F} (h : Merges t u β) : Merges u t β := by
  obtain ⟨hs, hd, hcondition⟩ := h
  rw [hd] at hcondition
  refine ⟨hs.symm, hd.symm, ?_⟩
  rcases hcondition with hkept | ⟨heach, hboth⟩ | ⟨hsum, hone⟩
  · exact Or.inl hkept.symm
  · exact Or.inr (Or.inl ⟨heach.symm, add_comm u.amount t.amount ▸ hboth⟩)
  · exact Or.inr (Or.inr ⟨add_comm u.amount t.amount ▸ hsum, hone.symm⟩)

end Conditions

section Overlaid

variable {t u : Transfer K F} {β γ δ : K → F} {p q : ℕ}

/-- The balances of one of the two orders. -/
def Ordered (t u : Transfer K F) (β γ : K → F) : Prop :=
  γ = alone t (alone u β) ∨ γ = alone u (alone t β)

/-- Off the entries of the second transfer the first is alone. -/
theorem Overlaid.ext (h : Overlaid t u β p q γ)
    (hothers : ∀ k, ¬ t.Touches k → δ k = alone u β k) (hs : γ t.source = δ t.source)
    (hd : γ t.destination = δ t.destination) : γ = δ := by
  funext k
  by_cases hk : t.Touches k
  · rcases hk with rfl | rfl
    · exact hs
    · exact hd
  · rw [h.kept k hk, hothers k hk]

theorem Overlaid.eq_last (h : Overlaid t u β p q γ)
    (hle : 0 ≤ alone u β t.source - t.amount)
    (hs : γ t.source = alone u β t.source - t.amount)
    (hd : γ t.destination = credit (alone u β t.destination) t.amount) : Ordered t u β γ := by
  refine Or.inl (h.ext (fun k hk => alone_of_not_touches hk) ?_ ?_)
  · rw [hs, alone_source hle]
  · rw [hd, alone_destination hle]

theorem Overlaid.eq_first (h : Overlaid t u β p q γ)
    (hle : 0 ≤ alone t β u.source - u.amount)
    (hs : γ t.source = alone u (alone t β) t.source)
    (hd : γ t.destination = alone u (alone t β) t.destination) : Ordered t u β γ := by
  refine Or.inr (h.ext (fun k hk => ?_) hs hd)
  by_cases hku : u.Touches k
  · rw [alone_eq_put hle hku, alone_eq_put h.leader hku]
    rcases hku with rfl | rfl
    · rw [put_source, put_source, alone_of_not_touches hk]
    · rw [put_destination, put_destination, alone_of_not_touches hk]
  · rw [alone_of_not_touches hku, alone_of_not_touches hku, alone_of_not_touches hk]

theorem Overlaid.source_cases (h : Overlaid t u β p q γ) :
    γ t.source = after u β p t.source - t.amount ∨
      t.source = u.destination ∧ q < 2 ∧ γ t.source = alone u β t.source := by
  rw [← put_source t (after u β p) (after u β q)]
  exact h.covers t.source (Or.inl rfl)

theorem Overlaid.destination_cases (h : Overlaid t u β p q γ) :
    γ t.destination = credit (after u β q t.destination) t.amount ∨
      t.destination = u.destination ∧ q < 2 ∧ γ t.destination = alone u β t.destination := by
  rw [← put_destination t (after u β p) (after u β q)]
  exact h.covers t.destination (Or.inr rfl)

/-- The second has seen all that the first does to its entries. -/
theorem Overlaid.eq_of_seen (h : Overlaid t u β p q γ)
    (hs : after u β p t.source = alone u β t.source)
    (hd : after u β q t.destination = alone u β t.destination)
    (hlast : q < 2 → ¬ t.Touches u.destination) : Ordered t u β γ := by
  have hcovered := h.covered
  rw [hs] at hcovered
  refine h.eq_last hcovered ?_ ?_
  · rw [← hs]
    exact h.source_cases.resolve_right fun hcase => hlast hcase.2.1 (Or.inl hcase.1.symm)
  · rw [← hd]
    exact h.destination_cases.resolve_right fun hcase => hlast hcase.2.1 (Or.inr hcase.1.symm)

theorem Overlaid.of_apart (h : Overlaid t u β p q γ) (hapart : ∀ k, t.Touches k → ¬ u.Touches k) :
    Ordered t u β γ := by
  have hs := hapart _ (Or.inl rfl)
  have hd := hapart _ (Or.inr rfl)
  refine h.eq_of_seen ?_ ?_ fun _ htouches => hapart _ htouches (Or.inr rfl)
  · rw [after_of_not_touches hs, alone_of_not_touches hs]
  · rw [after_of_not_touches hd, alone_of_not_touches hd]

theorem Overlaid.of_zero (h : Overlaid t u β p q γ) (ht : t.amount = 0) (hu : u.amount = 0) :
    Ordered t u β γ := by
  have hafter : ∀ n, after u β n = alone u β := fun n => by
    rw [after_of_zero hu, alone_of_zero hu]
  have hcovered := h.covered
  rw [hafter] at hcovered
  have hsource := h.source_cases
  have hdestination := h.destination_cases
  rw [hafter, ht, sub_zero] at hsource
  rw [hafter, ht, credit_zero] at hdestination
  refine h.eq_last hcovered ?_ ?_
  · rw [ht, sub_zero]
    rcases hsource with hs | ⟨_, _, hs⟩ <;> exact hs
  · rw [ht, credit_zero]
    rcases hdestination with hd | ⟨_, _, hd⟩ <;> exact hd

/-- The second was not covered at the start, so it has seen the other's withdrawal from their
common source. -/
theorem Overlaid.of_uncovered [IsStrictOrderedRing F] (h : Overlaid t u β p q γ)
    (hlt : β t.source < t.amount)
    (hboth : t.source = u.source → t.destination = u.destination →
      β t.source < t.amount + u.amount) : Ordered t u β γ := by
  have hcovered := h.covered
  have hsource : t.source = u.source := by
    by_contra hne
    rw [after_of_ne_source h.few hne] at hcovered
    linarith
  have hp : p = 1 := by
    have hfew := h.few
    by_contra hne
    obtain rfl : p = 0 := by omega
    have hstart : 0 ≤ β t.source - t.amount := hcovered
    linarith
  subst hp
  have hdestination : t.destination ≠ u.destination := by
    intro heq
    rw [hsource, after_one_source] at hcovered
    have hlt' := hboth hsource heq
    rw [hsource] at hlt'
    linarith
  have hapart : ¬ u.Touches t.destination :=
    not_or.mpr ⟨fun hd => t.ne (hsource.trans hd.symm), hdestination⟩
  refine h.eq_of_seen ?_ ?_ fun _ htouches => ?_
  · exact (alone_eq_after_one h.leader (hsource ▸ u.ne)).symm
  · rw [after_of_not_touches hapart, alone_of_not_touches hapart]
  · rcases htouches with hd | hd
    · exact u.ne (hsource ▸ hd.symm)
    · exact hdestination hd.symm

/-- Of two transfers to one destination, either order can be told by the destination. -/
theorem Overlaid.of_destination_eq (h : Overlaid t u β p q γ) (hs : t.source ≠ u.source)
    (hd : t.destination = u.destination)
    (hvalue : ∀ y, y = credit (β t.destination) t.amount ∨ y = credit (β t.destination) u.amount →
      y = credit (credit (β t.destination) u.amount) t.amount ∨
        y = credit (credit (β t.destination) t.amount) u.amount) : Ordered t u β γ := by
  have hne : t.source ≠ u.destination := hd ▸ t.ne
  have hapart : ¬ u.Touches t.source := not_or.mpr ⟨hs, hne⟩
  have hsource : γ t.source = β t.source - t.amount := by
    have hcase := h.source_cases.resolve_right fun hcase => hne hcase.1
    rwa [after_of_not_touches hapart] at hcase
  have hcovered := h.covered
  rw [after_of_not_touches hapart] at hcovered
  have halone : alone u β t.destination = credit (β t.destination) u.amount := by
    rw [hd, alone_destination h.leader]
  have hother : ¬ t.Touches u.source :=
    not_or.mpr ⟨hs.symm, fun heq => u.ne (heq.trans hd)⟩
  have hle : 0 ≤ alone t β u.source - u.amount := by
    rw [alone_of_not_touches hother]
    exact h.leader
  have hlast : γ t.destination = credit (credit (β t.destination) u.amount) t.amount →
      Ordered t u β γ := by
    intro hγ
    refine h.eq_last ?_ ?_ ?_
    · rwa [alone_of_not_touches hapart]
    · rwa [alone_of_not_touches hapart]
    · rwa [halone]
  have hfirst : γ t.destination = credit (credit (β t.destination) t.amount) u.amount →
      Ordered t u β γ := by
    intro hγ
    refine h.eq_first hle ?_ ?_
    · rw [alone_of_not_touches hapart, alone_source hcovered, hsource]
    · rw [hγ, hd, alone_destination hle, ← hd, alone_destination hcovered]
  rcases Nat.lt_or_ge q 2 with hq | hq
  · have hy : γ t.destination = credit (β t.destination) t.amount ∨
        γ t.destination = credit (β t.destination) u.amount := by
      rcases h.destination_cases with hcase | ⟨_, _, hcase⟩
      · rw [after_of_ne_source hq (hd ▸ u.ne.symm)] at hcase
        exact Or.inl hcase
      · exact Or.inr (hcase.trans halone)
    rcases hvalue _ hy with hcase | hcase
    · exact hlast hcase
    · exact hfirst hcase
  · have hcase := h.destination_cases.resolve_right fun hcase => absurd hcase.2.1 (not_lt.mpr hq)
    rw [after_of_two_le hq, halone] at hcase
    exact hlast hcase

section Passing

/-- The second transfer pays out of the destination of the first. -/
theorem Overlaid.covered_of_passes (h : Overlaid t u β p q γ) (hA : t.source = u.destination) :
    0 ≤ β t.source - t.amount := by
  have hcovered := h.covered
  rwa [after_of_ne_source h.few (hA ▸ u.ne.symm)] at hcovered

theorem Overlaid.source_of_passes (h : Overlaid t u β p q γ) (hA : t.source = u.destination) :
    γ t.source = β t.source - t.amount ∨ γ t.source = credit (β t.source) u.amount := by
  rcases h.source_cases with hcase | ⟨_, _, hcase⟩
  · rw [after_of_ne_source h.few (hA ▸ u.ne.symm)] at hcase
    exact Or.inl hcase
  · rw [hA, alone_destination h.leader, ← hA] at hcase
    exact Or.inr hcase

theorem Overlaid.destination_of_passes (h : Overlaid t u β p q γ) (hA : t.source = u.destination) :
    γ t.destination = credit (after u β q t.destination) t.amount :=
  h.destination_cases.resolve_right fun hcase => t.ne (hA.trans hcase.1.symm)

/-- The common entry after the second transfer and then the first. -/
theorem Overlaid.alone_alone_of_passes (h : Overlaid t u β p q γ) (hA : t.source = u.destination)
    (hle : 0 ≤ alone t β u.source - u.amount) :
    alone u (alone t β) t.source = credit (β t.source - t.amount) u.amount := by
  rw [hA, alone_destination hle, ← hA, alone_source (h.covered_of_passes hA)]

/-- The first transfer pays out of the destination of the second. What the second leaves there
does not depend on what it has seen. -/
theorem Overlaid.destination_of_passed (h : Overlaid t u β p q γ) (hA : u.source = t.destination)
    {z : F} (hstart : credit (β u.source) t.amount = z)
    (hend : credit (β u.source - u.amount) t.amount = z) : γ t.destination = z := by
  have hdestination : γ t.destination = credit (after u β q t.destination) t.amount :=
    h.destination_cases.resolve_right fun hcase => u.ne (hA.trans hcase.1)
  rw [hdestination, ← hA]
  rcases after_cases h.leader q u.source with hcase | hcase
  · rw [hcase, hstart]
  · rw [hcase, alone_source h.leader, hend]

theorem Overlaid.covered_of_passed (h : Overlaid t u β p q γ) (hA : u.source = t.destination) :
    0 ≤ β t.source - t.amount := by
  have hcovered := h.covered
  rwa [after_of_ne_source h.few (hA ▸ t.ne)] at hcovered

theorem Overlaid.source_of_passed (h : Overlaid t u β p q γ) (hA : u.source = t.destination) :
    γ t.source = β t.source - t.amount ∨
      t.source = u.destination ∧ γ t.source = credit (β t.source) u.amount := by
  rcases h.source_cases with hcase | ⟨hs, _, hcase⟩
  · rw [after_of_ne_source h.few (hA ▸ t.ne)] at hcase
    exact Or.inl hcase
  · rw [hs, alone_destination h.leader, ← hs] at hcase
    exact Or.inr ⟨hs, hcase⟩

variable [IsStrictOrderedRing F]

/-- The second transfer also pays into the source of the first, and the amounts cancel. -/
theorem Overlaid.of_swap_second (h : Overlaid t u β p q γ) (hβ : ∀ k, 0 ≤ β k)
    (hA : t.source = u.destination) (hswap : t.destination = u.source)
    (ha : t.amount = -u.amount) (hbear : 0 ≤ β t.source + u.amount)
    (hover : β t.source + u.amount - t.amount < 0) : Ordered t u β γ := by
  have haloneA : alone u β t.source = β t.source + u.amount := by
    rw [hA, alone_destination h.leader, ← hA, credit_of_nonneg hbear]
  have hγ : γ t.source = β t.source + u.amount := by
    rcases h.source_of_passes hA with hcase | hcase
    · rw [hcase, ha, sub_neg_eq_add]
    · rw [hcase, credit_of_nonneg hbear]
  have hy := hβ t.destination
  have hcredit : 0 ≤ β t.destination + t.amount := by linarith
  have hdestination := h.destination_of_passes hA
  rcases Nat.eq_zero_or_pos q with hq | hq
  · -- The first comes first, and the second is refused behind it.
    subst hq
    have hrefused : alone u β t.source - t.amount < 0 := by rwa [haloneA]
    refine Or.inl (h.ext (fun k hk => alone_of_not_touches hk) ?_ ?_)
    · rw [alone_of_lt hrefused, haloneA, hγ]
    · rw [alone_of_lt hrefused, hdestination, after, credit_of_nonneg hcredit, hswap,
        alone_source h.leader, ha, sub_eq_add_neg]
  · have hseen : after u β q t.destination = β t.destination - u.amount := by
      rcases Nat.lt_or_ge q 2 with hfew | hmany
      · obtain rfl : q = 1 := by omega
        rw [hswap, after_one_source]
      · rw [after_of_two_le hmany, hswap, alone_source h.leader]
    have haloneB : alone t β u.source = β t.destination + t.amount := by
      rw [← hswap, alone_destination (h.covered_of_passes hA), credit_of_nonneg hcredit]
    have hle : 0 ≤ alone t β u.source - u.amount := by
      rw [haloneB]
      linarith
    refine h.eq_first hle ?_ ?_
    · have hneg : β t.source - t.amount + u.amount < 0 := by linarith
      rw [h.alone_alone_of_passes hA hle, credit_of_neg hneg, hγ, ha, sub_neg_eq_add]
    · have hnonneg : 0 ≤ β t.destination - u.amount + t.amount := by linarith
      have hlast : alone u (alone t β) t.destination = alone t β u.source - u.amount := by
        rw [hswap, alone_source hle]
      rw [hlast, hdestination, hseen, credit_of_nonneg hnonneg, haloneB, sub_add_eq_add_sub]

theorem Overlaid.of_passes_second (h : Overlaid t u β p q γ) (hβ : ∀ k, 0 ≤ β k)
    (hpasses : Passes t u β) : Ordered t u β γ := by
  obtain ⟨hA, hcondition⟩ := hpasses
  by_cases hswap : t.destination = u.source
  · obtain ⟨ha, hbear, hover⟩ := hcondition.resolve_left fun hcase => hcase.1 hswap
    exact h.of_swap_second hβ hA hswap ha hbear hover
  have hcovered := h.covered_of_passes hA
  have hapart : ¬ u.Touches t.destination :=
    not_or.mpr ⟨hswap, fun hd => t.ne (hA.trans hd.symm)⟩
  have hother : ¬ t.Touches u.source :=
    not_or.mpr ⟨fun hs => u.ne (hs.trans hA), fun hs => hswap hs.symm⟩
  have hdestination := h.destination_of_passes hA
  rw [after_of_not_touches hapart] at hdestination
  have hle : 0 ≤ alone t β u.source - u.amount := by
    rw [alone_of_not_touches hother]
    exact h.leader
  have hfirst : γ t.source = credit (β t.source - t.amount) u.amount → Ordered t u β γ := by
    intro hγ
    refine h.eq_first hle ?_ ?_
    · rw [h.alone_alone_of_passes hA hle, hγ]
    · rw [alone_of_not_touches hapart, alone_destination hcovered, hdestination]
  have hlast : credit (β t.source) u.amount = β t.source →
      γ t.source = β t.source - t.amount → Ordered t u β γ := by
    intro hcredit hγ
    have haloneA : alone u β t.source = β t.source := by
      rw [hA, alone_destination h.leader, ← hA, hcredit]
    refine h.eq_last ?_ ?_ ?_
    · rwa [haloneA]
    · rwa [haloneA]
    · rw [alone_of_not_touches hapart, hdestination]
  rcases hcondition with ⟨_, ⟨ha, hcredit⟩ | ⟨ha, hover⟩⟩ | ⟨ha, hbear, hover⟩
  · refine hlast hcredit ?_
    rcases h.source_of_passes hA with hcase | hcase
    · exact hcase
    · rw [hcase, hcredit, ha, sub_zero]
  · have hcredit : credit (β t.source) u.amount = β t.source := credit_of_neg hover
    rcases h.source_of_passes hA with hcase | hcase
    · exact hlast hcredit hcase
    · have hback : 0 ≤ β t.source - t.amount + u.amount := by
        rw [ha, sub_add_cancel]
        exact hβ _
      refine hfirst ?_
      rw [hcase, hcredit, credit_of_nonneg hback, ha, sub_add_cancel]
  · have hneg : β t.source - t.amount + u.amount < 0 := by linarith
    refine hfirst ?_
    rw [credit_of_neg hneg]
    rcases h.source_of_passes hA with hcase | hcase
    · exact hcase
    · rw [hcase, credit_of_nonneg hbear, ha, sub_neg_eq_add]

/-- The first transfer also pays into the source of the second, and the amounts cancel: the second
comes first, and the first is refused behind it. -/
theorem Overlaid.of_swap_leader (h : Overlaid t u β p q γ) (hβ : ∀ k, 0 ≤ β k)
    (hA : u.source = t.destination) (hswap : u.destination = t.source)
    (ha : u.amount = -t.amount) (hbear : 0 ≤ β u.source + t.amount)
    (hover : β u.source + t.amount - u.amount < 0) : Ordered t u β γ := by
  have hcovered := h.covered_of_passed hA
  have hneg : β u.source - u.amount + t.amount < 0 := by linarith
  have hkept : γ t.destination = β u.source + t.amount := by
    refine h.destination_of_passed hA (credit_of_nonneg hbear) ?_
    rw [credit_of_neg hneg, ha, sub_neg_eq_add]
  have hy := hβ t.source
  have hcredit : 0 ≤ β t.source + u.amount := by linarith
  have haloneA : alone t β u.source = β u.source + t.amount := by
    rw [hA, alone_destination hcovered, ← hA, credit_of_nonneg hbear]
  have hrefused : alone t β u.source - u.amount < 0 := by rwa [haloneA]
  refine Or.inr (h.ext (fun k hk => ?_) ?_ ?_)
  · have hku : ¬ u.Touches k := fun htouches => hk (htouches.symm.imp (·.trans hswap) (·.trans hA))
    rw [alone_of_lt hrefused, alone_of_not_touches hk, alone_of_not_touches hku]
  · rw [alone_of_lt hrefused, alone_source hcovered]
    rcases h.source_of_passed hA with hcase | ⟨_, hcase⟩
    · exact hcase
    · rw [hcase, credit_of_nonneg hcredit, ha, sub_eq_add_neg]
  · rw [alone_of_lt hrefused, ← hA, haloneA, hA, hkept, hA]

theorem Overlaid.of_passes_leader (h : Overlaid t u β p q γ) (hβ : ∀ k, 0 ≤ β k)
    (hpasses : Passes u t β) : Ordered t u β γ := by
  obtain ⟨hA, hcondition⟩ := hpasses
  by_cases hswap : u.destination = t.source
  · obtain ⟨ha, hbear, hover⟩ := hcondition.resolve_left fun hcase => hcase.1 hswap
    exact h.of_swap_leader hβ hA hswap ha hbear hover
  have hapart : ¬ u.Touches t.source :=
    not_or.mpr ⟨fun hs => t.ne (hs.trans hA), fun hd => hswap hd.symm⟩
  have hsource : γ t.source = β t.source - t.amount :=
    (h.source_of_passed hA).resolve_right fun hcase => hswap hcase.1.symm
  have hsame : credit (β u.source) t.amount = credit (β u.source - u.amount) t.amount := by
    rcases hcondition with ⟨_, ⟨ha, _⟩ | ⟨ha, hover⟩⟩ | ⟨ha, hbear, hover⟩
    · rw [ha, sub_zero]
    · have hback : 0 ≤ β u.source - u.amount + t.amount := by
        rw [ha, sub_add_cancel]
        exact hβ _
      rw [credit_of_neg hover, credit_of_nonneg hback, ha, sub_add_cancel]
    · have hneg : β u.source - u.amount + t.amount < 0 := by linarith
      rw [credit_of_nonneg hbear, credit_of_neg hneg, ha, sub_neg_eq_add]
  refine h.eq_last ?_ ?_ ?_
  · rw [alone_of_not_touches hapart]
    exact h.covered_of_passed hA
  · rwa [alone_of_not_touches hapart]
  · rw [h.destination_of_passed hA hsame rfl, ← hA, alone_source h.leader]

end Passing

end Overlaid

section Sufficient

variable [IsStrictOrderedRing F] {t : Bool → Transfer K F} {β γ : K → F}

omit [IsStrictOrderedRing F] in
theorem Ordered.serial {lead : Bool} (h : Ordered (t !lead) (t lead) β γ) : Serial t β γ := by
  rcases h with h | h
  · exact ⟨lead, h⟩
  · refine ⟨!lead, ?_⟩
    rw [Bool.not_not]
    exact h

omit [DecidableEq K] in
/-- What a transfer leaves in a common destination when it misses the other is what it leaves in
one of the orders. -/
theorem Merges.credit_eq {t u : Transfer K F} (h : Merges t u β) (hβ : ∀ k, 0 ≤ β k) :
    credit (β t.destination) t.amount = credit (credit (β t.destination) u.amount) t.amount ∨
      credit (β t.destination) t.amount = credit (credit (β t.destination) t.amount) u.amount := by
  have hy := hβ t.destination
  obtain ⟨_, _, ⟨_, hkept⟩ | ⟨⟨ht, _⟩, hboth⟩ | ⟨hsum, ht | hu⟩⟩ := h
  · left
    rw [hkept]
  · right
    have hneg : β t.destination + t.amount + u.amount < 0 := by rwa [add_assoc]
    rw [credit_of_nonneg ht, credit_of_neg hneg]
  · -- The other amount brings the balance to where this one can be taken again.
    left
    have hup : 0 ≤ β t.destination + u.amount := by linarith
    have hback : β t.destination + u.amount + t.amount = β t.destination := by linarith
    rw [credit_of_neg ht, credit_of_nonneg hup, credit_of_nonneg (hback.symm ▸ hy), hback]
  · left
    rw [credit_of_neg hu]

theorem Overlaid.of_merges {t u : Transfer K F} {p q : ℕ} (h : Overlaid t u β p q γ)
    (hβ : ∀ k, 0 ≤ β k) (hmerges : Merges t u β) : Ordered t u β γ := by
  refine h.of_destination_eq hmerges.1 hmerges.2.1 ?_
  rintro y (rfl | rfl)
  · exact hmerges.credit_eq hβ
  · have hsymm := hmerges.symm.credit_eq hβ
    rw [← hmerges.2.1] at hsymm
    exact hsymm.symm

/-- A harmless pair ends with the balances of a serial order. -/
theorem Harmless.serializable (hβ : ∀ k, 0 ≤ β k) (h : Harmless t β) : Serializable t β := by
  intro schedule success hdone
  rcases serial_or_overlaid hdone with hserial | ⟨lead, p, q, hover⟩
  · exact hserial
  suffices hordered : Ordered (t !lead) (t lead) β (interleave t β schedule).1 from
    hordered.serial
  rcases h with hdisjoint | ⟨who, hlt, hboth⟩ | hzero | hmerges | ⟨who, hpasses⟩
  · refine hover.of_apart fun k hk => ?_
    have hnot := hdisjoint.not_touches (!lead) hk
    rwa [Bool.not_not] at hnot
  · -- The first to write is covered at the start, so it is the other one that is not.
    obtain rfl : who = !lead := by
      refine Bool.eq_not_of_ne ?_
      rintro rfl
      have hleader := hover.leader
      linarith
    rw [Bool.not_not] at hboth
    exact hover.of_uncovered hlt hboth
  · exact hover.of_zero (hzero _) (hzero _)
  · cases lead with
    | false => exact hover.of_merges hβ hmerges.symm
    | true => exact hover.of_merges hβ hmerges
  · by_cases hwho : who = lead
    · subst hwho
      exact hover.of_passes_leader hβ hpasses
    · obtain rfl : who = !lead := Bool.eq_not_of_ne hwho
      rw [Bool.not_not] at hpasses
      exact hover.of_passes_second hβ hpasses

end Sufficient

end Bubi.Core.Transfer
