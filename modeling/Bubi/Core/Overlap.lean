import Bubi.Core.LostUpdate

/-!
# Overlapping transfers

Schedules that lose an update where the two transfers are not harmless: one transfer is
interrupted by the whole of the other, or is carried out between the two writes of the
other, or the two write in turns what they have read at the start. So the conditions under
which nothing is lost are exact.
-/

namespace Bubi.Core.Transfer

universe u v

variable {K : Type u} {F : Type v} [DecidableEq K] [Field F] [LinearOrder F]

section Schedules

/-- One transfer is interrupted by the whole of the other: behind its first read if they draw on
one source, else behind its second. -/
def overlap (sameSource who : Bool) : List Bool :=
  List.replicate (if sameSource then 1 else 2) who ++
    (List.replicate 5 (!who) ++ List.replicate (if sameSource then 4 else 3) who)

/-- One transfer is carried out between the two writes of the other. -/
def within (who : Bool) : List Bool :=
  List.replicate 4 (!who) ++ (List.replicate 5 who ++ List.replicate 1 (!who))

/-- Both transfers read, then both write their sources, then both their destinations. -/
def cross (who : Bool) : List Bool :=
  List.replicate 3 who ++ (List.replicate 3 (!who) ++ (List.replicate 1 who ++
    (List.replicate 1 (!who) ++ (List.replicate 1 who ++ List.replicate 1 (!who)))))

/-- The balances that the interrupted transfer leaves. -/
def overlapped (t u : Transfer K F) (β : K → F) : K → F :=
  Function.update (Function.update (alone u β) t.source (β t.source - t.amount)) t.destination
    (credit ((if t.source = u.source then alone u β else β) t.destination) t.amount)

/-- The balances that the second write leaves behind a transfer which it has not seen. -/
def enclosed (t u : Transfer K F) (β : K → F) : K → F :=
  Function.update (alone t (after u β 1)) u.destination (credit (β u.destination) u.amount)

/-- The balances that four writes leave which have seen none of each other. -/
def crossed (t u : Transfer K F) (β : K → F) : K → F :=
  Function.update (Function.update (Function.update (Function.update β t.source
    (β t.source - t.amount)) u.source (β u.source - u.amount)) t.destination
      (credit (β t.destination) t.amount)) u.destination (credit (β u.destination) u.amount)

variable {t u : Transfer K F} {β : K → F}

/-- One access to the balances and the next phase. -/
def access (t : Transfer K F) (q : (K → F) × Phase F) : (K → F) × Phase F := t.step q.1 q.2

/-- Turns of one transfer only. -/
theorem foldl_turn_replicate (t : Bool → Transfer K F) (who : Bool) (n : ℕ)
    (s : (K → F) × (Bool → Phase F)) :
    (List.replicate n who).foldl (turn t) s =
      (((t who).access^[n] (s.1, s.2 who)).1,
        Function.update s.2 who ((t who).access^[n] (s.1, s.2 who)).2) := by
  induction n generalizing s with
  | zero => exact Prod.ext rfl (Function.update_eq_self ..).symm
  | succ n ih =>
    rw [List.replicate_succ, List.foldl_cons, ih, Function.iterate_succ_apply, turn_self]
    refine Prod.ext rfl ?_
    exact Function.update_idem ..

theorem access_start (t : Transfer K F) (β : K → F) :
    t.access^[1] (β, .start) = (β, .read (β t.source)) := rfl

theorem access_ready (h : 0 ≤ β t.source - t.amount) :
    t.access^[2] (β, .start) =
      (β, .ready (β t.source - t.amount) (credit (β t.destination) t.amount)) :=
  step_read_of_le h

theorem access_added (h : 0 ≤ β t.source - t.amount) :
    t.access^[3] (β, .start) =
      (β, .added (β t.source - t.amount) (credit (β t.destination) t.amount)) := by
  rw [Function.iterate_succ_apply', access_ready h]
  rfl

theorem access_half (h : 0 ≤ β t.source - t.amount) :
    t.access^[4] (β, .start) = (after t β 1, .half (credit (β t.destination) t.amount)) := by
  rw [Function.iterate_succ_apply', access_added h]
  rfl

theorem access_source (t : Transfer K F) (β : K → F) (x y : F) :
    t.access^[1] (β, .added x y) = (Function.update β t.source x, .half y) := rfl

theorem access_destination (t : Transfer K F) (β : K → F) (y : F) :
    t.access^[1] (β, .half y) = (Function.update β t.destination y, .done true) := rfl

theorem access_writes (t : Transfer K F) (β : K → F) (x y : F) :
    t.access^[3] (β, .ready x y) =
      (Function.update (Function.update β t.source x) t.destination y, .done true) := rfl

theorem access_rest {x : F} (h : 0 ≤ x - t.amount) :
    t.access^[4] (β, .read x) =
      (Function.update (Function.update β t.source (x - t.amount)) t.destination
        (credit (β t.destination) t.amount), .done true) := by
  rw [Function.iterate_succ_apply, access, step_read_of_le h]
  rfl

/-- Without an interruption. -/
theorem access_whole (t : Transfer K F) (β : K → F) :
    ∃ success, t.access^[5] (β, .start) = (alone t β, .done success) := by
  rw [Function.iterate_succ_apply, access, step]
  rcases lt_or_ge (β t.source - t.amount) 0 with hlt | hle
  · refine ⟨false, ?_⟩
    rw [Function.iterate_succ_apply, access, step_read_of_lt hlt, alone_of_lt hlt]
    rfl
  · exact ⟨true, by rw [access_rest hle, alone_of_le hle]⟩

section Ends

variable {t : Bool → Transfer K F}

/-- The balances, the phase of one transfer and the phase of the other. -/
structure At (s : (K → F) × (Bool → Phase F)) (who : Bool) (β : K → F) (phase other : Phase F) :
    Prop where
  balances : s.1 = β
  phase : s.2 who = phase
  other : s.2 (!who) = other

variable {s : (K → F) × (Bool → Phase F)} {who : Bool} {γ : K → F} {phase other phase' : Phase F}
  {n : ℕ}

theorem At.run (h : At s who β phase other) (hn : (t who).access^[n] (β, phase) = (γ, phase')) :
    At ((List.replicate n who).foldl (turn t) s) who γ phase' other := by
  rw [foldl_turn_replicate, h.balances, h.phase, hn]
  exact ⟨rfl, Function.update_self .., (Function.update_of_ne (Bool.not_ne_self who) ..).trans
    h.other⟩

theorem At.run_other (h : At s who β phase other)
    (hn : (t !who).access^[n] (β, other) = (γ, phase')) :
    At ((List.replicate n !who).foldl (turn t) s) who γ phase phase' := by
  rw [foldl_turn_replicate, h.balances, h.other, hn]
  exact ⟨rfl, (Function.update_of_ne (Bool.not_ne_self who).symm ..).trans h.phase,
    Function.update_self ..⟩

omit [DecidableEq K] [Field F] [LinearOrder F] in
theorem at_start (β : K → F) (who : Bool) : At (β, fun _ => .start) who β .start .start :=
  ⟨rfl, rfl, rfl⟩

/-- One transfer after the other. -/
theorem interleave_serial (t : Bool → Transfer K F) (β : K → F) (first : Bool) :
    (interleave t β (List.replicate 5 first ++ List.replicate 5 (!first))).1 =
      alone (t !first) (alone (t first) β) := by
  obtain ⟨success, hfirst⟩ := access_whole (t first) β
  obtain ⟨success', hsecond⟩ := access_whole (t !first) (alone (t first) β)
  rw [interleave, List.foldl_append]
  exact (((at_start β first).run hfirst).run_other hsecond).balances

/-- A schedule by which both are done gives the balances of one of the orders. -/
theorem Serializable.ordered (h : Serializable t β) (schedule : List Bool) {success success' : Bool}
    (hend : At (interleave t β schedule) who γ (.done success) (.done success')) :
    Ordered (t who) (t !who) β γ := by
  have hdone : ∀ other, (interleave t β schedule).2 other =
      .done (if other = who then success else success') := by
    intro other
    by_cases hother : other = who
    · rw [if_pos hother, hother, hend.phase]
    · rw [if_neg hother, Bool.eq_not_of_ne hother, hend.other]
  obtain ⟨first, hfirst⟩ := h schedule _ hdone
  rw [hend.balances] at hfirst
  by_cases hcase : first = who
  · rw [hcase] at hfirst
    exact Or.inr hfirst
  · rw [Bool.eq_not_of_ne hcase, Bool.not_not] at hfirst
    exact Or.inl hfirst

theorem Serializable.overlapped (h : Serializable t β) {who : Bool}
    (hle : 0 ≤ β (t who).source - (t who).amount) :
    Ordered (t who) (t !who) β (overlapped (t who) (t !who) β) := by
  obtain ⟨success, hwhole⟩ := access_whole (t !who) β
  unfold Transfer.overlapped
  by_cases hsame : (t who).source = (t !who).source
  · have hend := ((@at_start K F β who).run (access_start (t who) β)).run_other hwhole |>.run
      (access_rest hle)
    rw [← List.foldl_append, ← List.foldl_append] at hend
    rw [if_pos hsame]
    exact h.ordered (overlap true who) hend
  · have hend := ((@at_start K F β who).run (access_ready hle)).run_other hwhole |>.run
      (access_writes (t who) _ _ _)
    rw [← List.foldl_append, ← List.foldl_append] at hend
    rw [if_neg hsame]
    exact h.ordered (overlap false who) hend

theorem Serializable.enclosed (h : Serializable t β) {who : Bool}
    (hle : 0 ≤ β (t !who).source - (t !who).amount) :
    Ordered (t who) (t !who) β (enclosed (t who) (t !who) β) := by
  obtain ⟨success, hwhole⟩ := access_whole (t who) (after (t !who) β 1)
  have hend := (((@at_start K F β who).run_other (access_half hle)).run hwhole).run_other
    (access_destination (t !who) _ _)
  rw [← List.foldl_append, ← List.foldl_append] at hend
  exact h.ordered (within who) hend

theorem Serializable.crossed (h : Serializable t β) {who : Bool}
    (hle : 0 ≤ β (t who).source - (t who).amount)
    (hle' : 0 ≤ β (t !who).source - (t !who).amount) :
    Ordered (t who) (t !who) β (crossed (t who) (t !who) β) := by
  have hread := ((@at_start K F β who).run (access_added hle)).run_other (access_added hle')
  have hsources := (hread.run (access_source (t who) _ _ _)).run_other
    (access_source (t !who) _ _ _)
  have hend := (hsources.run (access_destination (t who) _ _)).run_other
    (access_destination (t !who) _ _)
  simp only [← List.foldl_append] at hend
  exact h.ordered (cross who) hend

end Ends

end Schedules

section Necessary

variable {t u : Transfer K F} {β γ : K → F}

theorem overlapped_source (t u : Transfer K F) (β : K → F) :
    overlapped t u β t.source = β t.source - t.amount := by
  rw [overlapped, Function.update_of_ne t.ne, Function.update_self]

theorem overlapped_destination (t u : Transfer K F) (β : K → F) :
    overlapped t u β t.destination =
      credit ((if t.source = u.source then alone u β else β) t.destination) t.amount :=
  Function.update_self ..

theorem overlapped_of_not_touches {k : K} (h : ¬ t.Touches k) :
    overlapped t u β k = alone u β k := by
  obtain ⟨hs, hd⟩ := not_or.mp h
  rw [overlapped, Function.update_of_ne hd, Function.update_of_ne hs]

theorem credit_nonneg {y amount : F} (hy : 0 ≤ y) : 0 ≤ credit y amount := by
  unfold credit
  split
  · exact hy
  · next h => exact not_lt.mp h

theorem alone_nonneg (hβ : ∀ k, 0 ≤ β k) (k : K) : 0 ≤ alone t β k := by
  rcases lt_or_ge (β t.source - t.amount) 0 with hlt | hle
  · rw [alone_of_lt hlt]
    exact hβ k
  · by_cases hd : k = t.destination
    · rw [hd, alone_destination hle]
      exact credit_nonneg (hβ _)
    · by_cases hs : k = t.source
      · rw [hs, alone_source hle]
        exact hle
      · rw [alone_of_not_touches (not_or.mpr ⟨hs, hd⟩)]
        exact hβ k

/-- Only an amount that is taken off brings a balance below another one that it covered. -/
theorem pos_of_credit_lt {x a b : F} (ha : a ≤ x) (hlt : credit x b < a) :
    credit x b = x + b ∧ 0 ≤ x + b ∧ 0 < a := by
  rcases lt_or_ge (x + b) 0 with hneg | hnonneg
  · rw [credit_of_neg hneg] at hlt
    exact absurd hlt (not_lt.mpr ha)
  · rw [credit_of_nonneg hnonneg] at hlt ⊢
    exact ⟨rfl, hnonneg, hnonneg.trans_lt hlt⟩

/-- Two covered transfers to one destination: what the interrupted one leaves there is what one of
the orders leaves. -/
theorem credit_eq_of_destination_eq (hs : t.source ≠ u.source)
    (hd : t.destination = u.destination) (ht : 0 ≤ β t.source - t.amount)
    (hu : 0 ≤ β u.source - u.amount) (h : Ordered t u β (overlapped t u β)) :
    credit (β t.destination) t.amount = credit (credit (β t.destination) u.amount) t.amount ∨
      credit (β t.destination) t.amount = credit (credit (β t.destination) t.amount) u.amount := by
  have hvalue : credit (β t.destination) t.amount = overlapped t u β t.destination := by
    rw [overlapped_destination, if_neg hs]
  have htu : ¬ u.Touches t.source := not_or.mpr ⟨hs, fun heq => t.ne (heq.trans hd.symm)⟩
  have hut : ¬ t.Touches u.source := not_or.mpr ⟨hs.symm, fun heq => u.ne (heq.trans hd)⟩
  rcases h with h | h
  · refine Or.inl (hvalue.trans ?_)
    have hle : 0 ≤ alone u β t.source - t.amount := by rwa [alone_of_not_touches htu]
    rw [h, alone_destination hle, hd, alone_destination hu]
  · refine Or.inr (hvalue.trans ?_)
    have hle : 0 ≤ alone t β u.source - u.amount := by rwa [alone_of_not_touches hut]
    rw [h, hd, alone_destination hle, ← hd, alone_destination ht]

variable [IsStrictOrderedRing F]

/-- Two covered transfers out of one source: the interrupted one covers up what the other took. -/
theorem amount_eq_zero_of_source_eq (hβ : ∀ k, 0 ≤ β k) (hsame : t.source = u.source)
    (ht : 0 ≤ β t.source - t.amount) (hu : 0 ≤ β u.source - u.amount)
    (h : Ordered t u β (overlapped t u β)) : u.amount = 0 := by
  have hus : alone u β t.source = β t.source - u.amount := by
    rw [hsame, alone_source hu]
  have hts : alone t β u.source = β t.source - t.amount := by
    rw [← hsame, alone_source ht]
  rcases lt_or_ge (β t.source - t.amount - u.amount) 0 with hlt | hle
  · -- Either order refuses its second transfer, and the overlap carries out both.
    exfalso
    rw [← hsame] at hu
    have htpos : 0 < t.amount := by linarith
    have hupos : 0 < u.amount := by linarith
    have hrefused : alone u β t.source - t.amount < 0 := by
      rw [hus]
      linarith
    have hrefused' : alone t β u.source - u.amount < 0 := by rwa [hts]
    have hcredited : overlapped t u β t.destination = alone u β t.destination + t.amount := by
      rw [overlapped_destination, if_pos hsame,
        credit_of_nonneg (add_nonneg (alone_nonneg hβ _) htpos.le)]
    have hgain : ∀ {v : Transfer K F}, 0 ≤ β v.source - v.amount → 0 < v.amount →
        alone v β v.destination = β v.destination + v.amount := fun hv hpos => by
      rw [alone_destination hv, credit_of_nonneg (add_nonneg (hβ _) hpos.le)]
    rw [hsame] at hu
    rcases h with h | h
    · rw [alone_of_lt hrefused] at h
      have hd := congrFun h t.destination
      rw [hcredited] at hd
      linarith
    · rw [alone_of_lt hrefused'] at h
      have hd := congrFun h u.destination
      by_cases heq : u.destination = t.destination
      · rw [heq, hcredited, ← heq, hgain hu hupos, heq, hgain ht htpos] at hd
        linarith
      · have hnot : ¬ t.Touches u.destination :=
          not_or.mpr ⟨fun hs => u.ne (hsame.symm.trans hs.symm), heq⟩
        rw [overlapped_of_not_touches hnot, alone_of_not_touches hnot, hgain hu hupos] at hd
        linarith
  · rcases h with h | h
    · have hs := congrFun h t.source
      have hcovered : 0 ≤ alone u β t.source - t.amount := by
        rw [hus]
        linarith
      rw [overlapped_source, alone_source hcovered, hus] at hs
      linarith
    · have hs := congrFun h t.source
      have hcovered : 0 ≤ alone t β u.source - u.amount := by rwa [hts]
      rw [overlapped_source, hsame, alone_source hcovered, hts, ← hsame] at hs
      linarith

/-- Of two amounts of which a balance can bear only the second, one order leaves the balance if the
second is zero or they cancel. -/
theorem zero_or_cancel_of_credit_eq {y a b : F} (ha : y + a < 0) (hb : 0 ≤ y + b)
    (h : credit y a = credit (credit y b) a ∨ credit y a = credit (credit y a) b) :
    b = 0 ∨ a + b = 0 := by
  rw [credit_of_neg ha, credit_of_nonneg hb] at h
  rcases h with h | h
  · unfold credit at h
    split at h
    · left
      linarith
    · right
      linarith
  · left
    linarith

omit [DecidableEq K] in
theorem merges_of_credit_eq (hs : t.source ≠ u.source) (hd : t.destination = u.destination)
    (ht : credit (β t.destination) t.amount = credit (credit (β t.destination) u.amount) t.amount ∨
      credit (β t.destination) t.amount = credit (credit (β t.destination) t.amount) u.amount)
    (hu : credit (β t.destination) u.amount = credit (credit (β t.destination) t.amount) u.amount ∨
      credit (β t.destination) u.amount = credit (credit (β t.destination) u.amount) t.amount) :
    Merges t u β := by
  refine ⟨hs, hd, ?_⟩
  generalize β t.destination = y at ht hu ⊢
  generalize t.amount = a at ht hu ⊢
  generalize u.amount = b at ht hu ⊢
  rcases lt_or_ge (y + a) 0 with ha | ha <;> rcases lt_or_ge (y + b) 0 with hb | hb
  · exact Or.inl ⟨credit_of_neg ha, credit_of_neg hb⟩
  · rcases zero_or_cancel_of_credit_eq ha hb ht with rfl | hsum
    · exact Or.inl ⟨credit_of_neg ha, credit_zero y⟩
    · exact Or.inr (Or.inr ⟨hsum, Or.inl ha⟩)
  · rcases zero_or_cancel_of_credit_eq hb ha hu with rfl | hsum
    · exact Or.inl ⟨credit_zero y, credit_of_neg hb⟩
    · exact Or.inr (Or.inr ⟨add_comm b a ▸ hsum, Or.inr hb⟩)
  · rcases lt_or_ge (y + (a + b)) 0 with hboth | hboth
    · exact Or.inr (Or.inl ⟨⟨ha, hb⟩, hboth⟩)
    · have hab : credit (y + a) b = y + a + b := credit_of_nonneg (by linarith)
      have hba : credit (y + b) a = y + b + a := credit_of_nonneg (by linarith)
      rw [credit_of_nonneg ha, credit_of_nonneg hb, hab, hba] at ht hu
      obtain rfl : b = 0 := by rcases ht with ht | ht <;> linarith
      obtain rfl : a = 0 := by rcases hu with hu | hu <;> linarith
      exact Or.inl ⟨credit_zero y, credit_zero y⟩

/-- Two covered transfers of which one pays out of the destination of the other, and no more. -/
theorem passes_of_overlapped (hβ : ∀ k, 0 ≤ β k) (hA : t.source = u.destination)
    (hne : t.destination ≠ u.source) (ht : 0 ≤ β t.source - t.amount)
    (hu : 0 ≤ β u.source - u.amount) (htu : Ordered t u β (overlapped t u β))
    (hut : Ordered u t β (overlapped u t β)) : Passes t u β := by
  have hAu : t.source ≠ u.source := hA ▸ u.ne.symm
  have hother : ¬ t.Touches u.source := not_or.mpr ⟨hAu.symm, fun hs => hne hs.symm⟩
  have hapart : ¬ u.Touches t.destination :=
    not_or.mpr ⟨hne, fun hd => t.ne (hA.trans hd.symm)⟩
  have haloneA : alone u β t.source = credit (β t.source) u.amount := by
    rw [hA, alone_destination hu]
  have hle : 0 ≤ alone t β u.source - u.amount := by rwa [alone_of_not_touches hother]
  have hlast : alone u (alone t β) t.source = credit (β t.source - t.amount) u.amount := by
    rw [hA, alone_destination hle, ← hA, alone_source ht]
  refine ⟨hA, ?_⟩
  by_cases hzero : t.amount = 0
  · -- The transfer that moves nothing would undo a change by the other.
    refine Or.inl ⟨hne, Or.inl ⟨hzero, ?_⟩⟩
    have hcovered : 0 ≤ alone u β t.source - t.amount := by
      rw [hzero, sub_zero]
      exact alone_nonneg hβ _
    rcases htu with h | h
    · have hs := congrFun h t.source
      rw [overlapped_source, alone_source hcovered, haloneA, hzero, sub_zero, sub_zero] at hs
      exact hs.symm
    · have hs := congrFun h t.source
      rw [overlapped_source, hlast, hzero, sub_zero] at hs
      exact hs.symm
  · have hvalue : overlapped u t β t.source = credit (β t.source) u.amount := by
      rw [hA, overlapped_destination, if_neg hAu.symm]
    have hequal : credit (β t.source) u.amount = credit (β t.source - t.amount) u.amount := by
      rcases hut with h | h
      · rw [← hvalue, h, hlast]
      · exfalso
        rcases lt_or_ge (alone u β t.source - t.amount) 0 with hlt | hcovered
        · rw [alone_of_lt hlt] at h
          rw [haloneA, sub_neg] at hlt
          obtain ⟨_, _, hpos⟩ := pos_of_credit_lt (sub_nonneg.mp ht) hlt
          have hd := congrFun h t.destination
          rw [overlapped_of_not_touches hapart, alone_of_not_touches hapart, alone_destination ht,
            credit_of_nonneg (add_nonneg (hβ _) hpos.le)] at hd
          linarith
        · have hs := congrFun h t.source
          rw [hvalue, alone_source hcovered, haloneA] at hs
          exact hzero (by linarith)
    rcases lt_or_ge (β t.source + u.amount) 0 with hneg | hnonneg
    · refine Or.inl ⟨hne, Or.inr ⟨?_, hneg⟩⟩
      rw [credit_of_neg hneg] at hequal
      unfold credit at hequal
      split at hequal
      · exact absurd (by linarith) hzero
      · linarith
    · refine Or.inr ?_
      rw [credit_of_nonneg hnonneg] at hequal
      unfold credit at hequal
      split at hequal
      · next hneg => exact ⟨by linarith, hnonneg, by linarith⟩
      · exact absurd (by linarith) hzero

/-- Two covered transfers in opposite directions whose writes have seen none of each other, where
one order leaves the same. -/
theorem zero_or_passes_of_eq (hβ : ∀ k, 0 ≤ β k) (hA : t.source = u.destination)
    (hB : t.destination = u.source) (ht : 0 ≤ β t.source - t.amount)
    (hu : 0 ≤ β u.source - u.amount) (hs : γ t.source = credit (β t.source) u.amount)
    (hd : γ t.destination = credit (β t.destination) t.amount) (h : γ = alone t (alone u β)) :
    t.amount = 0 ∧ u.amount = 0 ∨ Passes t u β := by
  have haloneA : alone u β t.source = credit (β t.source) u.amount := by
    rw [hA, alone_destination hu]
  have haloneB : alone u β t.destination = β t.destination - u.amount := by
    rw [hB, alone_source hu]
  rcases lt_or_ge (alone u β t.source - t.amount) 0 with hlt | hle
  · right
    rw [h, alone_of_lt hlt, haloneB] at hd
    rw [haloneA, sub_neg] at hlt
    obtain ⟨hcredit, hbear, hpos⟩ := pos_of_credit_lt (sub_nonneg.mp ht) hlt
    rw [credit_of_nonneg (add_nonneg (hβ _) hpos.le)] at hd
    rw [hcredit] at hlt
    exact ⟨hA, Or.inr ⟨by linarith, hbear, by linarith⟩⟩
  · left
    rw [h, alone_source hle, haloneA] at hs
    have hzero : t.amount = 0 := by linarith
    rw [h, alone_destination hle, haloneB, hzero, credit_zero, credit_zero] at hd
    exact ⟨hzero, by linarith⟩

theorem zero_or_passes_of_crossed (hβ : ∀ k, 0 ≤ β k) (hA : t.source = u.destination)
    (hB : t.destination = u.source) (ht : 0 ≤ β t.source - t.amount)
    (hu : 0 ≤ β u.source - u.amount) (h : Ordered t u β (crossed t u β)) :
    t.amount = 0 ∧ u.amount = 0 ∨ Passes t u β ∨ Passes u t β := by
  have hs : crossed t u β t.source = credit (β t.source) u.amount := by
    rw [hA, crossed, Function.update_self]
  have hd : crossed t u β t.destination = credit (β t.destination) t.amount := by
    rw [crossed, Function.update_of_ne (hB ▸ u.ne), Function.update_self]
  rcases h with h | h
  · exact (zero_or_passes_of_eq hβ hA hB ht hu hs hd h).imp_right Or.inl
  · rcases zero_or_passes_of_eq hβ hB.symm hA.symm hu ht (hB ▸ hd) (hA ▸ hs) h with hzero | hpasses
    · exact Or.inl hzero.symm
    · exact Or.inr (Or.inr hpasses)

/-- A transfer that is covered by the other's withdrawal of a negative amount from the same source
is lost in their common destination. -/
theorem not_ordered_enclosed (hβ : ∀ k, 0 ≤ β k) (hs : t.source = u.source)
    (hd : t.destination = u.destination) (hlt : β t.source < t.amount)
    (hboth : t.amount + u.amount ≤ β t.source) : ¬ Ordered t u β (enclosed t u β) := by
  have hpos : 0 < t.amount := (hβ _).trans_lt hlt
  have hu : 0 ≤ β u.source - u.amount := by
    rw [← hs]
    linarith
  have hafter : after u β 1 t.source = β t.source - u.amount := by
    rw [hs, after_one_source]
  have hle : 0 ≤ after u β 1 t.source - t.amount := by
    rw [hafter]
    linarith
  have hvalue : enclosed t u β u.destination = credit (β u.destination) u.amount :=
    Function.update_self ..
  rintro (h | h)
  · have halone : alone u β t.source = β t.source - u.amount := by
      rw [hs, alone_source hu]
    have hle' : 0 ≤ alone u β t.source - t.amount := by
      rw [halone]
      linarith
    rw [h, ← hd, alone_destination hle', hd, alone_destination hu,
      credit_of_nonneg (add_nonneg (credit_nonneg (hβ _)) hpos.le)] at hvalue
    linarith
  · have hsource := congrFun h u.source
    rw [alone_of_lt (sub_neg.mpr hlt), alone_source hu, enclosed, Function.update_of_ne u.ne, ← hs,
      alone_source hle, hafter] at hsource
    linarith

end Necessary

section Exact

variable [IsStrictOrderedRing F] {t : Bool → Transfer K F} {β : K → F}

omit [DecidableEq K] [Field F] [LinearOrder F] [IsStrictOrderedRing F] in
/-- Two transfers with an entry in common, which is neither the source nor the destination of
both. -/
theorem exists_passing (hshared : ¬ Disjoint t) (hs : (t false).source ≠ (t true).source)
    (hd : (t false).destination ≠ (t true).destination) :
    ∃ who, (t who).source = (t !who).destination := by
  obtain ⟨k, hfalse, htrue⟩ := not_forall_not.mp hshared
  rcases hfalse with rfl | rfl <;> rcases htrue with htrue | htrue
  · exact absurd htrue hs
  · exact ⟨false, htrue⟩
  · exact ⟨true, htrue.symm⟩
  · exact absurd htrue hd

theorem harmless_of_serializable (hβ : ∀ k, 0 ≤ β k) (h : Serializable t β) : Harmless t β := by
  by_contra hharm
  obtain ⟨hshared, hharm⟩ := not_or.mp hharm
  obtain ⟨huncovered, hharm⟩ := not_or.mp hharm
  obtain ⟨hmoves, hharm⟩ := not_or.mp hharm
  obtain ⟨hmerges, hpasses⟩ := not_or.mp hharm
  by_cases hcovered : ∀ who, 0 ≤ β (t who).source - (t who).amount
  · by_cases hs : (t false).source = (t true).source
    · refine hmoves fun who => ?_
      cases who with
      | false =>
        exact amount_eq_zero_of_source_eq hβ hs.symm (hcovered true) (hcovered false)
          (h.overlapped (hcovered true))
      | true =>
        exact amount_eq_zero_of_source_eq hβ hs (hcovered false) (hcovered true)
          (h.overlapped (hcovered false))
    by_cases hd : (t false).destination = (t true).destination
    · have hfalse := credit_eq_of_destination_eq hs hd (hcovered false) (hcovered true)
        (h.overlapped (hcovered false))
      have htrue := credit_eq_of_destination_eq (Ne.symm hs) hd.symm (hcovered true)
        (hcovered false) (h.overlapped (hcovered true))
      rw [← hd] at htrue
      exact hmerges (merges_of_credit_eq hs hd hfalse htrue)
    · obtain ⟨who, hA⟩ := exists_passing hshared hs hd
      by_cases hB : (t who).destination = (t !who).source
      · rcases zero_or_passes_of_crossed hβ hA hB (hcovered who) (hcovered !who)
          (h.crossed (hcovered who) (hcovered !who)) with hzero | hpass | hpass
        · refine hmoves fun other => ?_
          by_cases hother : other = who
          · rw [hother, hzero.1]
          · rw [Bool.eq_not_of_ne hother, hzero.2]
        · exact hpasses ⟨who, hpass⟩
        · refine hpasses ⟨!who, ?_⟩
          rwa [Bool.not_not]
      · have hother := h.overlapped (hcovered !who)
        rw [Bool.not_not] at hother
        exact hpasses ⟨who, passes_of_overlapped hβ hA hB (hcovered who) (hcovered !who)
          (h.overlapped (hcovered who)) hother⟩
  · obtain ⟨who, hwho⟩ := not_forall.mp hcovered
    have hlt : β (t who).source < (t who).amount := sub_neg.mp (not_le.mp hwho)
    have hboth := not_and.mp (not_exists.mp huncovered who) hlt
    obtain ⟨hs, hboth⟩ := Classical.not_imp.mp hboth
    obtain ⟨hd, hboth⟩ := Classical.not_imp.mp hboth
    refine not_ordered_enclosed hβ hs hd hlt (not_lt.mp hboth) (h.enclosed ?_)
    rw [← hs]
    linarith [hβ (t who).source, not_lt.mp hboth]

/-- The interleavings of two transfers all end with the balances of a serial order exactly if the
two are harmless. -/
theorem serializable_iff (hβ : ∀ k, 0 ≤ β k) : Serializable t β ↔ Harmless t β :=
  ⟨harmless_of_serializable hβ, Harmless.serializable hβ⟩

end Exact

end Bubi.Core.Transfer
