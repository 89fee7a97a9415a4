import Mathlib.Algebra.Order.Field.Basic
import Mathlib.Tactic.Linarith

/-!
# Interleaved transfers

A transfer between two entries of a shared map of balances, made of single accesses: it
reads the source, reads the destination, and if the source covers the amount it writes
both back from its private copies. Two such transfers may be interleaved at will. The one
that writes first has read the balances of the start, and the other has read, of each
entry, what was there at the start or what the first had left. This gives the balances
that an interleaving can end with.
-/

namespace Bubi.Core

universe u v

/-- A transfer between two different entries. -/
structure Transfer (K : Type u) (F : Type v) where
  source : K
  destination : K
  amount : F
  ne : source ≠ destination

/-- How far a transfer has come, with its private copies. -/
inductive Phase (F : Type v) where
  | start
  /-- The source is read. -/
  | read (x : F)
  /-- Both are read and the new balances computed. -/
  | ready (x y : F)
  /-- The transfer is recorded. -/
  | added (x y : F)
  /-- The source is written. -/
  | half (y : F)
  | done (success : Bool)

namespace Transfer

variable {K : Type u} {F : Type v} [DecidableEq K] [Field F] [LinearOrder F]

/-- The destination keeps its balance where the sum would be negative. -/
def credit (y amount : F) : F := if y + amount < 0 then y else y + amount

/-- One access to the balances. -/
def step (t : Transfer K F) (β : K → F) : Phase F → (K → F) × Phase F
  | .start => (β, .read (β t.source))
  | .read x =>
    if x - t.amount < 0 then (β, .done false)
    else (β, .ready (x - t.amount) (credit (β t.destination) t.amount))
  | .ready x y => (β, .added x y)
  | .added x y => (Function.update β t.source x, .half y)
  | .half y => (Function.update β t.destination y, .done true)
  | .done success => (β, .done success)

/-- The balances after a transfer that nothing interrupts. -/
def alone (t : Transfer K F) (β : K → F) : K → F :=
  if β t.source - t.amount < 0 then β
  else Function.update (Function.update β t.source (β t.source - t.amount)) t.destination
    (credit (β t.destination) t.amount)

/-- The turn of one of two transfers. -/
def turn (t : Bool → Transfer K F) (s : (K → F) × (Bool → Phase F)) (who : Bool) :
    (K → F) × (Bool → Phase F) :=
  (((t who).step s.1 (s.2 who)).1, Function.update s.2 who ((t who).step s.1 (s.2 who)).2)

/-- Two transfers from their start, by a schedule of their turns. -/
def interleave (t : Bool → Transfer K F) (β : K → F) (schedule : List Bool) :
    (K → F) × (Bool → Phase F) :=
  schedule.foldl (turn t) (β, fun _ => .start)

/-- An entry of the transfer. -/
def Touches (t : Transfer K F) (k : K) : Prop := k = t.source ∨ k = t.destination

/-- The balances are those of a serial order. -/
def Serial (t : Bool → Transfer K F) (β γ : K → F) : Prop :=
  ∃ first, γ = alone (t (!first)) (alone (t first) β)

/-- Every interleaving of the two ends with the balances of a serial order. -/
def Serializable (t : Bool → Transfer K F) (β : K → F) : Prop :=
  ∀ (schedule : List Bool) (success : Bool → Bool),
    (∀ who, (interleave t β schedule).2 who = .done (success who)) →
      Serial t β (interleave t β schedule).1

section Alone

variable {t : Transfer K F} {β : K → F} {k : K}

theorem alone_of_lt (h : β t.source - t.amount < 0) : alone t β = β := if_pos h

theorem alone_of_le (h : 0 ≤ β t.source - t.amount) :
    alone t β = Function.update (Function.update β t.source (β t.source - t.amount)) t.destination
      (credit (β t.destination) t.amount) :=
  if_neg (not_lt.mpr h)

theorem step_read_of_lt {x : F} (h : x - t.amount < 0) :
    t.step β (.read x) = (β, .done false) := if_pos h

theorem step_read_of_le {x : F} (h : 0 ≤ x - t.amount) :
    t.step β (.read x) = (β, .ready (x - t.amount) (credit (β t.destination) t.amount)) :=
  if_neg (not_lt.mpr h)

theorem alone_source (h : 0 ≤ β t.source - t.amount) :
    alone t β t.source = β t.source - t.amount := by
  rw [alone_of_le h, Function.update_of_ne t.ne, Function.update_self]

theorem alone_destination (h : 0 ≤ β t.source - t.amount) :
    alone t β t.destination = credit (β t.destination) t.amount := by
  rw [alone_of_le h, Function.update_self]

/-- A transfer changes its own entries only. -/
theorem alone_of_not_touches (h : ¬ t.Touches k) : alone t β k = β k := by
  obtain ⟨hs, hd⟩ := not_or.mp h
  unfold alone
  split
  · rfl
  · rw [Function.update_of_ne hd, Function.update_of_ne hs]

theorem credit_of_nonneg {y amount : F} (h : 0 ≤ y + amount) : credit y amount = y + amount :=
  if_neg (not_lt.mpr h)

theorem credit_of_neg {y amount : F} (h : y + amount < 0) : credit y amount = y := if_pos h

@[simp] theorem credit_zero (y : F) : credit y 0 = y := by
  rw [credit, add_zero, ite_self]

/-- An amount of zero moves nothing. -/
theorem alone_of_zero (h : t.amount = 0) : alone t β = β := by
  unfold alone
  split
  · rfl
  · rw [h, sub_zero, credit_zero, Function.update_eq_self, Function.update_eq_self]

end Alone

section Copies

/-- The private copies come from these balances, the source from the first and the destination
from the second. -/
def Copied (t : Transfer K F) (β β' : K → F) : Phase F → Prop
  | .start => True
  | .read x => x = β t.source
  | .ready x y => 0 ≤ β t.source - t.amount ∧ x = β t.source - t.amount ∧
      y = credit (β' t.destination) t.amount
  | .added x y => 0 ≤ β t.source - t.amount ∧ x = β t.source - t.amount ∧
      y = credit (β' t.destination) t.amount
  | .half y => 0 ≤ β t.source - t.amount ∧ y = credit (β' t.destination) t.amount
  | .done true => 0 ≤ β t.source - t.amount
  | .done false => β t.source - t.amount < 0

/-- The number of entries that a transfer has written. -/
def writes : Phase F → ℕ
  | .half _ => 1
  | .done true => 2
  | _ => 0

/-- The balances behind the first writes of a transfer. -/
def after (t : Transfer K F) (β : K → F) : ℕ → K → F
  | 0 => β
  | 1 => Function.update β t.source (β t.source - t.amount)
  | _ + 2 => alone t β

/-- The entries that a transfer has written. -/
def Wrote (t : Transfer K F) (n : ℕ) (k : K) : Prop :=
  1 ≤ n ∧ k = t.source ∨ 2 ≤ n ∧ k = t.destination

/-- What a transfer writes that has read the source from the first and the destination from the
second balances. -/
def put (t : Transfer K F) (β β' : K → F) (k : K) : F :=
  if k = t.source then β t.source - t.amount else credit (β' t.destination) t.amount

variable {t u : Transfer K F} {β β' : K → F} {k : K} {n : ℕ}

theorem put_source (t : Transfer K F) (β β' : K → F) :
    put t β β' t.source = β t.source - t.amount := if_pos rfl

theorem put_destination (t : Transfer K F) (β β' : K → F) :
    put t β β' t.destination = credit (β' t.destination) t.amount := if_neg t.ne.symm

theorem alone_eq_put (h : 0 ≤ β t.source - t.amount) (hk : t.Touches k) :
    alone t β k = put t β β k := by
  rcases hk with rfl | rfl
  · rw [alone_source h, put_source]
  · rw [alone_destination h, put_destination]

theorem after_one_source (t : Transfer K F) (β : K → F) :
    after t β 1 t.source = β t.source - t.amount := Function.update_self ..

theorem after_one_of_ne (h : k ≠ t.source) : after t β 1 k = β k := Function.update_of_ne h ..

/-- The last write concerns the destination. -/
theorem alone_eq_after_one (h : 0 ≤ β t.source - t.amount) (hk : k ≠ t.destination) :
    alone t β k = after t β 1 k := by
  rw [alone_of_le h, Function.update_of_ne hk]
  rfl

theorem after_of_two_le (h : 2 ≤ n) : after t β n = alone t β := by
  obtain ⟨m, rfl⟩ := Nat.exists_eq_add_of_le h
  rw [Nat.add_comm]
  rfl

/-- Before its last write, a transfer has left its destination alone. -/
theorem after_of_ne_source (hn : n < 2) (h : k ≠ t.source) : after t β n k = β k := by
  obtain rfl | rfl : n = 0 ∨ n = 1 := by omega
  · rfl
  · exact after_one_of_ne h

/-- An entry is as it was at the start or as the transfer leaves it. -/
theorem after_cases (h : 0 ≤ β t.source - t.amount) (n : ℕ) (k : K) :
    after t β n k = β k ∨ after t β n k = alone t β k := by
  rcases Nat.lt_or_ge n 2 with hn | hn
  · by_cases hs : k = t.source
    · obtain rfl | rfl : n = 0 ∨ n = 1 := by omega
      · exact Or.inl rfl
      · rw [alone_eq_after_one h (hs ▸ t.ne)]
        exact Or.inr rfl
    · exact Or.inl (after_of_ne_source hn hs)
  · rw [after_of_two_le hn]
    exact Or.inr rfl

theorem after_of_not_touches (h : ¬ t.Touches k) (n : ℕ) : after t β n k = β k := by
  rcases Nat.lt_or_ge n 2 with hn | hn
  · exact after_of_ne_source hn fun hs => h (Or.inl hs)
  · rw [after_of_two_le hn, alone_of_not_touches h]

theorem after_of_zero (h : t.amount = 0) (n : ℕ) : after t β n = β := by
  rcases Nat.lt_or_ge n 2 with hn | hn
  · obtain rfl | rfl : n = 0 ∨ n = 1 := by omega
    · rfl
    · rw [after, h, sub_zero, Function.update_eq_self]
  · rw [after_of_two_le hn, alone_of_zero h]

omit [DecidableEq K] [Field F] [LinearOrder F] in
theorem not_wrote_zero (t : Transfer K F) (k : K) : ¬ t.Wrote 0 k := by
  rintro (⟨h, _⟩ | ⟨h, _⟩) <;> omega

omit [DecidableEq K] [Field F] [LinearOrder F] in
theorem wrote_two : t.Wrote 2 k ↔ t.Touches k := by
  simp [Wrote, Touches]

end Copies

section Led

/-- One transfer has begun to write, and has read what was there at the start. The other has seen
`p` of its writes in the source and `q` of them in the destination; what it has written so far
covers up the first, except that the first may have written its destination last. -/
structure Led (t u : Transfer K F) (β₀ : K → F) (p q : ℕ) (phase lead : Phase F) (β : K → F) :
    Prop where
  leader : Copied u β₀ β₀ lead
  begun : 1 ≤ writes lead
  order : p ≤ q
  seen : q ≤ writes lead
  copied : Copied t (after u β₀ p) (after u β₀ q) phase
  kept : ∀ k, ¬ t.Wrote (writes phase) k → β k = after u β₀ (writes lead) k
  covers : ∀ k, t.Wrote (writes phase) k →
    β k = put t (after u β₀ p) (after u β₀ q) k ∨
      k = u.destination ∧ q < 2 ∧ writes lead = 2 ∧ β k = alone u β₀ k

variable {t u : Transfer K F} {β₀ β : K → F} {p q : ℕ} {phase lead : Phase F}

/-- An access of the transfer that began to write. -/
theorem Led.step_leader (h : Led t u β₀ p q phase lead β) :
    Led t u β₀ p q phase (u.step β lead).2 (u.step β lead).1 := by
  have hbegun := h.begun
  cases lead with
  | half y =>
    obtain ⟨hle, rfl⟩ := h.leader
    have hseen : q ≤ 1 := h.seen
    refine ⟨hle, Nat.le_succ 1, h.order, hseen.trans (Nat.le_succ 1), h.copied, fun k hk => ?_,
      fun k hk => ?_⟩
    · change Function.update β u.destination _ k = alone u β₀ k
      by_cases hd : k = u.destination
      · rw [hd, Function.update_self, alone_destination hle]
      · rw [Function.update_of_ne hd, alone_eq_after_one hle hd]
        exact h.kept k hk
    · change Function.update β u.destination _ k = _ ∨
        _ ∧ _ ∧ _ ∧ Function.update β u.destination _ k = _
      by_cases hd : k = u.destination
      · refine Or.inr ⟨hd, Nat.lt_succ_of_le hseen, rfl, ?_⟩
        rw [hd, Function.update_self, alone_destination hle]
      · rw [Function.update_of_ne hd]
        exact Or.inl ((h.covers k hk).resolve_right fun hlast => hd hlast.1)
  | done success => exact h
  | _ => exact absurd hbegun (Nat.not_succ_le_zero 0)

/-- An access of the other one. -/
theorem Led.step_second (h : Led t u β₀ p q phase lead β) :
    ∃ p' q', Led t u β₀ p' q' (t.step β phase).2 lead (t.step β phase).1 := by
  cases phase with
  | start =>
    -- What is read now is what the first has left so far.
    exact ⟨writes lead, writes lead, h.leader, h.begun, le_rfl, le_rfl,
      h.kept _ (not_wrote_zero t _), h.kept, fun k hk => absurd hk (not_wrote_zero t k)⟩
  | read x =>
    obtain rfl : x = after u β₀ p t.source := h.copied
    rcases lt_or_ge (after u β₀ p t.source - t.amount) 0 with hlt | hle
    · rw [step_read_of_lt hlt]
      exact ⟨p, q, h.leader, h.begun, h.order, h.seen, hlt, h.kept,
        fun k hk => absurd hk (not_wrote_zero t k)⟩
    · rw [step_read_of_le hle]
      refine ⟨p, writes lead, h.leader, h.begun, h.order.trans h.seen, le_rfl, ⟨hle, rfl, ?_⟩,
        h.kept, fun k hk => absurd hk (not_wrote_zero t k)⟩
      rw [h.kept _ (not_wrote_zero t _)]
  | ready x y =>
    exact ⟨p, q, h.leader, h.begun, h.order, h.seen, h.copied, h.kept, h.covers⟩
  | added x y =>
    obtain ⟨hle, rfl, hy⟩ := h.copied
    refine ⟨p, q, h.leader, h.begun, h.order, h.seen, ⟨hle, hy⟩, fun k hk => ?_, fun k hk => ?_⟩
    · have hs : k ≠ t.source := fun hs => hk (Or.inl ⟨le_rfl, hs⟩)
      change Function.update β t.source _ k = _
      rw [Function.update_of_ne hs]
      exact h.kept k (not_wrote_zero t k)
    · rcases hk with ⟨_, rfl⟩ | ⟨hfew, _⟩
      · refine Or.inl ?_
        change Function.update β t.source _ t.source = _
        rw [Function.update_self, put_source]
      · exact absurd hfew (Nat.not_succ_le_self 1)
  | half y =>
    obtain ⟨hle, rfl⟩ := h.copied
    refine ⟨p, q, h.leader, h.begun, h.order, h.seen, hle, fun k hk => ?_, fun k hk => ?_⟩
    · obtain ⟨hs, hd⟩ := not_or.mp fun htouches => hk (wrote_two.mpr htouches)
      change Function.update β t.destination _ k = _
      rw [Function.update_of_ne hd]
      refine h.kept k ?_
      rintro (⟨_, hsource⟩ | ⟨_, hdestination⟩)
      · exact hs hsource
      · exact hd hdestination
    · change Function.update β t.destination _ k = _ ∨
        _ ∧ _ ∧ _ ∧ Function.update β t.destination _ k = _
      by_cases hd : k = t.destination
      · rw [hd, Function.update_self, put_destination]
        exact Or.inl rfl
      · rw [Function.update_of_ne hd]
        exact h.covers k (Or.inl ⟨le_rfl, (wrote_two.mp hk).resolve_right hd⟩)
  | done success => exact ⟨p, q, h⟩

end Led

section Reached

variable {t : Bool → Transfer K F} {β₀ : K → F} {s : (K → F) × (Bool → Phase F)}

/-- What every turn preserves holds after every schedule. -/
theorem interleave_invariant {P : (K → F) × (Bool → Phase F) → Prop}
    (hstart : P (β₀, fun _ => .start)) (hturn : ∀ s who, P s → P (turn t s who))
    (schedule : List Bool) : P (interleave t β₀ schedule) :=
  List.foldlRecOn schedule (turn t) hstart fun s hs who _ => hturn s who hs

theorem turn_self (s : (K → F) × (Bool → Phase F)) (who : Bool) :
    (turn t s who).2 who = ((t who).step s.1 (s.2 who)).2 :=
  Function.update_self ..

theorem turn_other (s : (K → F) × (Bool → Phase F)) {who other : Bool} (h : other ≠ who) :
    (turn t s who).2 other = s.2 other :=
  Function.update_of_ne h ..

/-- Nothing is written yet. -/
def Untouched (t : Bool → Transfer K F) (β₀ : K → F) (s : (K → F) × (Bool → Phase F)) : Prop :=
  s.1 = β₀ ∧ ∀ who, writes (s.2 who) = 0 ∧ Copied (t who) β₀ β₀ (s.2 who)

/-- Nothing is written yet, or one of the two leads. -/
def Reached (t : Bool → Transfer K F) (β₀ : K → F) (s : (K → F) × (Bool → Phase F)) : Prop :=
  Untouched t β₀ s ∨ ∃ lead p q, Led (t !lead) (t lead) β₀ p q (s.2 !lead) (s.2 lead) s.1

/-- A transfer that changes nothing leaves all untouched. -/
theorem Untouched.turn {who : Bool} (h : Untouched t β₀ s)
    (hβ : ((t who).step s.1 (s.2 who)).1 = s.1)
    (hwrites : writes ((t who).step s.1 (s.2 who)).2 = 0)
    (hcopied : Copied (t who) β₀ β₀ ((t who).step s.1 (s.2 who)).2) :
    Untouched t β₀ (turn t s who) := by
  refine ⟨hβ.trans h.1, fun other => ?_⟩
  by_cases hother : other = who
  · rw [hother, turn_self]
    exact ⟨hwrites, hcopied⟩
  · rw [turn_other s hother]
    exact h.2 other

theorem Untouched.reached_turn (h : Untouched t β₀ s) (who : Bool) :
    Reached t β₀ (Transfer.turn t s who) := by
  obtain ⟨hβ, hphases⟩ := h
  obtain ⟨hwrites, hcopied⟩ := hphases who
  cases hphase : s.2 who with
  | start =>
    refine Or.inl (Untouched.turn ⟨hβ, hphases⟩ ?_ ?_ ?_) <;> rw [hphase]
    · rfl
    · rfl
    · exact congrFun hβ _
  | read x =>
    rw [hphase] at hcopied
    obtain rfl : x = β₀ (t who).source := hcopied
    refine Or.inl (Untouched.turn ⟨hβ, hphases⟩ ?_ ?_ ?_) <;> rw [hphase] <;>
      rcases lt_or_ge (β₀ (t who).source - (t who).amount) 0 with hlt | hle
    · rw [step_read_of_lt hlt]
    · rw [step_read_of_le hle]
    · rw [step_read_of_lt hlt]
      rfl
    · rw [step_read_of_le hle]
      rfl
    · rw [step_read_of_lt hlt]
      exact hlt
    · rw [step_read_of_le hle, hβ]
      exact ⟨hle, rfl, rfl⟩
  | ready x y =>
    rw [hphase] at hcopied
    refine Or.inl (Untouched.turn ⟨hβ, hphases⟩ ?_ ?_ ?_) <;> rw [hphase]
    · rfl
    · rfl
    · exact hcopied
  | added x y =>
    -- The first write: from here on this transfer leads.
    rw [hphase] at hcopied
    obtain ⟨hle, rfl, rfl⟩ := hcopied
    obtain ⟨hnone, hother⟩ := hphases !who
    refine Or.inr ⟨who, 0, 0, ?_⟩
    rw [turn_self, turn_other s (Bool.not_ne_self who), hphase]
    refine ⟨⟨hle, rfl⟩, le_rfl, le_rfl, Nat.zero_le 1, hother, fun k _ => ?_, fun k hk => ?_⟩
    · change ((t who).step s.1 (s.2 who)).1 k = _
      rw [hphase, hβ]
      rfl
    · rw [hnone] at hk
      exact absurd hk (not_wrote_zero _ k)
  | half y =>
    rw [hphase] at hwrites
    exact absurd hwrites (Nat.succ_ne_zero 0)
  | done success =>
    refine Or.inl (Untouched.turn ⟨hβ, hphases⟩ ?_ ?_ ?_)
    · rw [hphase]
      rfl
    · rw [hphase] at hwrites ⊢
      exact hwrites
    · rw [hphase] at hcopied ⊢
      exact hcopied

theorem Reached.turn (h : Reached t β₀ s) (who : Bool) : Reached t β₀ (turn t s who) := by
  rcases h with huntouched | ⟨lead, p, q, hled⟩
  · exact huntouched.reached_turn who
  · by_cases hwho : who = lead
    · subst hwho
      refine Or.inr ⟨who, p, q, ?_⟩
      rw [turn_self, turn_other s (Bool.not_ne_self who)]
      exact hled.step_leader
    · obtain rfl : who = !lead := Bool.eq_not_of_ne hwho
      obtain ⟨p', q', hstep⟩ := hled.step_second
      refine Or.inr ⟨lead, p', q', ?_⟩
      rw [turn_self, turn_other s (Bool.not_ne_self lead).symm]
      exact hstep

theorem interleave_reached (t : Bool → Transfer K F) (β₀ : K → F) (schedule : List Bool) :
    Reached t β₀ (interleave t β₀ schedule) :=
  interleave_invariant (Or.inl ⟨rfl, fun _ => ⟨rfl, trivial⟩⟩) (fun _ who hs => hs.turn who)
    schedule

end Reached

section Outcome

/-- Both transfers are carried out, and the second has not seen the last write of the first. -/
structure Overlaid (t u : Transfer K F) (β : K → F) (p q : ℕ) (γ : K → F) : Prop where
  few : p < 2
  order : p ≤ q
  leader : 0 ≤ β u.source - u.amount
  covered : 0 ≤ after u β p t.source - t.amount
  kept : ∀ k, ¬ t.Touches k → γ k = alone u β k
  covers : ∀ k, t.Touches k → γ k = put t (after u β p) (after u β q) k ∨
    k = u.destination ∧ q < 2 ∧ γ k = alone u β k

variable {t u : Transfer K F} {β γ : K → F} {p q : ℕ} {lead : Phase F}

/-- The second transfer was refused. -/
theorem Led.eq_of_refused (h : Led t u β p q (.done false) lead γ) (hdone : writes lead = 2) :
    γ = alone u β := by
  funext k
  rw [h.kept k (not_wrote_zero t k), hdone]
  rfl

/-- A transfer that has seen all of the other comes after it. -/
theorem Led.eq_of_seen (h : Led t u β p q (.done true) lead γ) (hdone : writes lead = 2)
    (hp : 2 ≤ p) : γ = alone t (alone u β) := by
  have hle : 0 ≤ alone u β t.source - t.amount := by
    have hcopied : 0 ≤ after u β p t.source - t.amount := h.copied
    rwa [after_of_two_le hp] at hcopied
  have hq : 2 ≤ q := hp.trans h.order
  funext k
  by_cases hk : t.Touches k
  · rw [alone_eq_put hle hk]
    have hcovers := (h.covers k (wrote_two.mpr hk)).resolve_right fun hlast =>
      absurd hlast.2.1 (not_lt.mpr hq)
    rwa [after_of_two_le hp, after_of_two_le hq] at hcovers
  · rw [alone_of_not_touches hk, h.kept k fun hwrote => hk (wrote_two.mp hwrote), hdone]
    rfl

theorem Led.overlaid (h : Led t u β p q (.done true) lead γ) (hdone : writes lead = 2)
    (hleader : 0 ≤ β u.source - u.amount) (hp : p < 2) : Overlaid t u β p q γ where
  few := hp
  order := h.order
  leader := hleader
  covered := h.copied
  kept := by
    intro k hk
    rw [h.kept k fun hwrote => hk (wrote_two.mp hwrote), hdone]
    rfl
  covers := by
    intro k hk
    rcases h.covers k (wrote_two.mpr hk) with hput | ⟨hd, hq, _, hlast⟩
    · exact Or.inl hput
    · exact Or.inr ⟨hd, hq, hlast⟩

/-- A serial order, or two transfers of which the second has missed something of the first. -/
theorem serial_or_overlaid {t : Bool → Transfer K F} {schedule : List Bool} {success : Bool → Bool}
    (hdone : ∀ who, (interleave t β schedule).2 who = .done (success who)) :
    Serial t β (interleave t β schedule).1 ∨
      ∃ lead p q, Overlaid (t !lead) (t lead) β p q (interleave t β schedule).1 := by
  have hreached := interleave_reached t β schedule
  generalize interleave t β schedule = s at hdone hreached
  rcases hreached with ⟨hβ, hphases⟩ | ⟨lead, p, q, hled⟩
  · have hrefused : ∀ who, β (t who).source - (t who).amount < 0 := by
      intro who
      obtain ⟨hwrites, hcopied⟩ := hphases who
      rw [hdone who] at hwrites hcopied
      cases hsuccess : success who with
      | false => rwa [hsuccess] at hcopied
      | true =>
        rw [hsuccess] at hwrites
        exact absurd hwrites (Nat.succ_ne_zero 1)
    refine Or.inl ⟨false, ?_⟩
    rw [alone_of_lt (hrefused false), alone_of_lt (hrefused _)]
    exact hβ
  · rw [hdone, hdone] at hled
    have hsuccess : success lead = true := by
      have hbegun := hled.begun
      cases hcase : success lead with
      | false =>
        rw [hcase] at hbegun
        exact absurd hbegun (Nat.not_succ_le_zero 0)
      | true => rfl
    rw [hsuccess] at hled
    have hleader : 0 ≤ β (t lead).source - (t lead).amount := hled.leader
    cases hsecond : success !lead with
    | false =>
      rw [hsecond] at hled
      have hlt : after (t lead) β p (t !lead).source - (t !lead).amount < 0 := hled.copied
      refine Or.inl ?_
      rcases after_cases hleader p (t !lead).source with hstart | hend
      · -- Refused on the balances of the start: it comes first.
        rw [hstart] at hlt
        refine ⟨!lead, ?_⟩
        rw [alone_of_lt hlt, Bool.not_not]
        exact hled.eq_of_refused rfl
      · rw [hend] at hlt
        refine ⟨lead, ?_⟩
        rw [alone_of_lt hlt]
        exact hled.eq_of_refused rfl
    | true =>
      rw [hsecond] at hled
      rcases Nat.lt_or_ge p 2 with hp | hp
      · exact Or.inr ⟨lead, p, q, hled.overlaid rfl hleader hp⟩
      · exact Or.inl ⟨lead, hled.eq_of_seen rfl hp⟩

end Outcome

end Transfer

end Bubi.Core
