import Mathlib.Data.Fintype.Basic
import Mathlib.Logic.Function.Basic
import Mathlib.Logic.Relation

/-!
# Threads and mutexes

A program takes, tries and gives back mutexes and accesses shared data; what it goes on with
depends on the tries that succeed. Threads run programs at any relative speed, and an
interrupt may put a program in front of what a thread has left.

A rule says what a program may do with the mutexes that it holds. Two rules matter: to wait
only for mutexes above all that are held, which excludes deadlock, and to access data only
as is allowed with what is held, which confines the races.
-/

namespace Bubi.Core.Locking

/-- A program over mutexes and accesses. -/
inductive Program (L X : Type) where
  | done
  | lock (l : L) (next : Program L X)
  | tryLock (l : L) (taken next : Program L X)
  | unlock (l : L) (next : Program L X)
  | access (x : X) (next : Program L X)

/-- What a program does next. -/
inductive Action (L X : Type) where
  | lock (l : L)
  | tryLock (l : L)
  | unlock (l : L)
  | access (x : X)

namespace Program

variable {L X α : Type}

/-- One program after the other. -/
def append : Program L X → Program L X → Program L X
  | .done, q => q
  | .lock l p, q => .lock l (p.append q)
  | .tryLock l p p', q => .tryLock l (p.append q) (p'.append q)
  | .unlock l p, q => .unlock l (p.append q)
  | .access x p, q => .access x (p.append q)

instance : Append (Program L X) := ⟨append⟩

/-- A single access. -/
def touch (x : X) : Program L X := .access x .done

/-- A program under a mutex, as with `std::lock_guard`. -/
def locked (l : L) (p : Program L X) : Program L X := .lock l (p ++ .unlock l .done)

/-- A program under a mutex that is tried, with another one for a try that fails. -/
def tried (l : L) (p q : Program L X) : Program L X := .tryLock l (p ++ .unlock l .done) q

/-- A program for each element of a list. -/
def forEach (xs : List α) (f : α → Program L X) : Program L X :=
  xs.foldr (fun x p => f x ++ p) .done

section Accesses

variable {p q : Program L X} {l : L} {x y : X}

/-- A program makes an access, for some outcome of its tries. -/
def Makes : Program L X → X → Prop
  | .done, _ => False
  | .lock _ p, x => p.Makes x
  | .tryLock _ p q, x => p.Makes x ∨ q.Makes x
  | .unlock _ p, x => p.Makes x
  | .access y p, x => y = x ∨ p.Makes x

@[simp] theorem makes_done : ¬ (.done : Program L X).Makes x := id

@[simp] theorem makes_touch : (touch y : Program L X).Makes x ↔ y = x := or_iff_left id

@[simp] theorem makes_append : (p ++ q).Makes x ↔ p.Makes x ∨ q.Makes x := by
  change (p.append q).Makes x ↔ _
  induction p with
  | done => exact (or_iff_right id).symm
  | lock l p ih => exact ih
  | tryLock l p p' ih ih' => exact (or_congr ih ih').trans or_or_distrib_right.symm
  | unlock l p ih => exact ih
  | access y p ih => exact (or_congr_right ih).trans or_assoc.symm

@[simp] theorem makes_locked : (locked l p).Makes x ↔ p.Makes x :=
  makes_append.trans (or_iff_left id)

@[simp] theorem makes_tried : (tried l p q).Makes x ↔ p.Makes x ∨ q.Makes x :=
  or_congr_left (makes_append.trans (or_iff_left id))

@[simp] theorem makes_forEach {xs : List α} {f : α → Program L X} :
    (forEach xs f).Makes x ↔ ∃ a ∈ xs, (f a).Makes x := by
  induction xs with
  | nil => simp [forEach]
  | cons a xs ih =>
    change (f a ++ forEach xs f).Makes x ↔ _
    rw [makes_append, ih, List.exists_mem_cons_iff]

end Accesses

section Rules

variable [DecidableEq L]

/-- A program keeps to a rule from some held mutexes to others, whatever its tries give. -/
def Follows (rule : List L → Action L X → Prop) : Program L X → List L → List L → Prop
  | .done, held, held' => held' = held
  | .lock l p, held, held' => rule held (.lock l) ∧ p.Follows rule (l :: held) held'
  | .tryLock l p q, held, held' => rule held (.tryLock l) ∧ p.Follows rule (l :: held) held' ∧
      q.Follows rule held held'
  | .unlock l p, held, held' => rule held (.unlock l) ∧ p.Follows rule (held.erase l) held'
  | .access x p, held, held' => rule held (.access x) ∧ p.Follows rule held held'

variable {rule : List L → Action L X → Prop} {p q : Program L X} {held held' held'' : List L}
  {l : L} {x : X}

theorem follows_append (hp : p.Follows rule held held') (hq : q.Follows rule held' held'') :
    (p ++ q).Follows rule held held'' := by
  change (p.append q).Follows rule held held''
  induction p generalizing held with
  | done =>
    cases hp
    exact hq
  | lock l p ih => exact ⟨hp.1, ih hp.2⟩
  | tryLock l p p' ih ih' => exact ⟨hp.1, ih hp.2.1, ih' hp.2.2⟩
  | unlock l p ih => exact ⟨hp.1, ih hp.2⟩
  | access x p ih => exact ⟨hp.1, ih hp.2⟩

/-- A program that keeps to a rule keeps to a weaker one. -/
theorem Follows.mono {rule' : List L → Action L X → Prop} (h : p.Follows rule held held')
    (hrule : ∀ held a, rule held a → rule' held a) : p.Follows rule' held held' := by
  induction p generalizing held with
  | done => exact h
  | lock l p ih => exact ⟨hrule _ _ h.1, ih h.2⟩
  | tryLock l p q ih ih' => exact ⟨hrule _ _ h.1, ih h.2.1, ih' h.2.2⟩
  | unlock l p ih => exact ⟨hrule _ _ h.1, ih h.2⟩
  | access x p ih => exact ⟨hrule _ _ h.1, ih h.2⟩

theorem follows_done : (.done : Program L X).Follows rule held held := rfl

theorem follows_touch (h : rule held (.access x)) : (touch x).Follows rule held held :=
  ⟨h, follows_done⟩

/-- A mutex is given back at the end of its block. -/
theorem follows_unlock (h : rule (l :: held) (.unlock l)) :
    (.unlock l .done : Program L X).Follows rule (l :: held) held :=
  ⟨h, (List.erase_cons_head l held).symm⟩

theorem follows_locked (hlock : rule held (.lock l)) (hunlock : rule (l :: held) (.unlock l))
    (hp : p.Follows rule (l :: held) (l :: held)) : (locked l p).Follows rule held held :=
  ⟨hlock, follows_append hp (follows_unlock hunlock)⟩

theorem follows_tried (htry : rule held (.tryLock l)) (hunlock : rule (l :: held) (.unlock l))
    (hp : p.Follows rule (l :: held) (l :: held)) (hq : q.Follows rule held held) :
    (tried l p q).Follows rule held held :=
  ⟨htry, follows_append hp (follows_unlock hunlock), hq⟩

theorem follows_forEach {xs : List α} {f : α → Program L X}
    (h : ∀ x ∈ xs, (f x).Follows rule held held) : (forEach xs f).Follows rule held held := by
  induction xs with
  | nil => exact follows_done
  | cons x xs ih =>
    exact follows_append (h x List.mem_cons_self)
      (ih fun x' hx' => h x' (List.mem_cons_of_mem _ hx'))

end Rules

end Program

/-- What the threads have left to do, and the mutexes that they hold. -/
structure System (T L X : Type) where
  program : T → Program L X
  held : T → List L

/-- A step of a thread, where a try may fail at any time, or an interrupt. -/
inductive Event (T L X : Type) where
  | run (thread : T) (willing : Bool)
  | interrupt (thread : T) (handler : Program L X)

namespace System

variable {T L X : Type} [DecidableEq T] [DecidableEq L]

/-- Threads that hold nothing yet. -/
def start (program : T → Program L X) : System T L X := ⟨program, fun _ => []⟩

/-- No thread holds a mutex. -/
def free [Fintype T] (s : System T L X) (l : L) : Bool := decide (∀ t, l ∉ s.held t)

/-- A thread has another program left, and holds other mutexes. -/
def set (s : System T L X) (t : T) (p : Program L X) (held : List L) : System T L X :=
  ⟨Function.update s.program t p, Function.update s.held t held⟩

omit [DecidableEq L] in
theorem program_set_self (s : System T L X) (t : T) (p : Program L X) (held : List L) :
    (s.set t p held).program t = p :=
  Function.update_self ..

omit [DecidableEq L] in
theorem held_set_self (s : System T L X) (t : T) (p : Program L X) (held : List L) :
    (s.set t p held).held t = held :=
  Function.update_self ..

/-- One event. -/
def event [Fintype T] (s : System T L X) : Event T L X → System T L X
  | .run t willing =>
    match s.program t with
    | .done => s
    | .lock l p => if s.free l then s.set t p (l :: s.held t) else s
    | .tryLock l p q =>
      if willing && s.free l then s.set t p (l :: s.held t) else s.set t q (s.held t)
    | .unlock l p => s.set t p ((s.held t).erase l)
    | .access _ p => s.set t p (s.held t)
  | .interrupt t handler => s.set t (handler ++ s.program t) (s.held t)

/-- A thread waits for another one. -/
def Waits (s : System T L X) (t u : T) : Prop := ∃ l p, s.program t = .lock l p ∧ l ∈ s.held u

/-- A thread can go on. -/
def Runs (s : System T L X) (t : T) : Prop := s.program t ≠ .done ∧ ∀ u, ¬ s.Waits t u

/-- No mutex is held by two threads. -/
def Exclusive (s : System T L X) : Prop :=
  ∀ t u l, l ∈ s.held t → l ∈ s.held u → t = u

/-- Every thread keeps to its rule, and gives back in the end what it holds. -/
def Follow (rule : T → List L → Action L X → Prop) (s : System T L X) : Prop :=
  ∀ t, (s.program t).Follows (rule t) (s.held t) []

variable {s : System T L X} {rule : T → List L → Action L X → Prop}

omit [DecidableEq T] [DecidableEq L] in
theorem exclusive_start (program : T → Program L X) : (start program).Exclusive := by
  intro t u l hl
  cases hl

omit [DecidableEq T] in
theorem follow_start {program : T → Program L X} (h : ∀ t, (program t).Follows (rule t) [] []) :
    (start program).Follow rule :=
  h

omit [DecidableEq L] in
/-- A thread gives mutexes back, or takes one that is free. -/
theorem Exclusive.set (h : s.Exclusive) {t : T} {p : Program L X} {held : List L}
    (hheld : ∀ l ∈ held, l ∈ s.held t ∨ ∀ u, l ∉ s.held u) : (s.set t p held).Exclusive := by
  have hother : ∀ u l, l ∈ held → l ∈ s.held u → u = t := by
    intro u l hl hu
    rcases hheld l hl with ht | hfree
    · exact h u t l hu ht
    · exact absurd hu (hfree u)
  intro u u' l hu hu'
  dsimp only [System.set] at hu hu'
  rw [Function.update_apply] at hu hu'
  split at hu
  · next heq =>
    split at hu'
    · next heq' => rw [heq, heq']
    · exact heq.trans (hother u' l hu hu').symm
  · split at hu'
    · next heq' => exact (hother u l hu' hu).trans heq'.symm
    · exact h u u' l hu hu'

theorem Follow.set (h : s.Follow rule) {t : T} {p : Program L X} {held : List L}
    (hp : p.Follows (rule t) held []) : (s.set t p held).Follow rule := by
  intro u
  dsimp only [System.set]
  rw [Function.update_apply, Function.update_apply]
  split
  · next hu => exact hu ▸ hp
  · exact h u

variable [Fintype T]

omit [DecidableEq T] in
theorem free_iff {l : L} : s.free l = true ↔ ∀ t, l ∉ s.held t := by
  rw [free, decide_eq_true_iff]

theorem Exclusive.event (h : s.Exclusive) (e : Event T L X) : (s.event e).Exclusive := by
  have htake : ∀ t l, s.free l = true → ∀ l' ∈ l :: s.held t,
      l' ∈ s.held t ∨ ∀ u, l' ∉ s.held u := by
    intro t l hfree l' hl'
    rcases List.mem_cons.mp hl' with rfl | hl'
    · exact .inr (free_iff.mp hfree)
    · exact .inl hl'
  unfold System.event
  cases e with
  | run t willing =>
    dsimp only
    split
    · exact h
    · split
      · next hfree => exact h.set (htake t _ hfree)
      · exact h
    · split
      · next hfree => exact h.set (htake t _ (Bool.and_eq_true_iff.mp hfree).2)
      · exact h.set fun l hl => .inl hl
    · exact h.set fun l hl => .inl (List.mem_of_mem_erase hl)
    · exact h.set fun l hl => .inl hl
  | interrupt t handler => exact h.set fun l hl => .inl hl

/-- A step keeps to the rules; so does an interrupt whose handler does. -/
theorem Follow.event (h : s.Follow rule) {e : Event T L X}
    (hhandler : ∀ t handler, e = .interrupt t handler →
      handler.Follows (rule t) (s.held t) (s.held t)) : (s.event e).Follow rule := by
  unfold System.event
  cases e with
  | run t willing =>
    have ht := h t
    dsimp only
    split
    · exact h
    · next l p hp =>
      rw [hp] at ht
      split
      · exact h.set ht.2
      · exact h
    · next l p q hp =>
      rw [hp] at ht
      split
      · exact h.set ht.2.1
      · exact h.set ht.2.2
    · next l p hp =>
      rw [hp] at ht
      exact h.set ht.2
    · next x p hp =>
      rw [hp] at ht
      exact h.set ht.2
  | interrupt t handler =>
    exact h.set (Program.follows_append (hhandler t handler rfl) (h t))

theorem Exclusive.run (h : s.Exclusive) (events : List (Event T L X)) :
    (events.foldl System.event s).Exclusive := by
  induction events generalizing s with
  | nil => exact h
  | cons e events ih => exact ih (h.event e)

/-- Steps and interrupts one after the other keep to the rules. -/
theorem Follow.run (h : s.Follow rule) {events : List (Event T L X)}
    (hhandler : ∀ pre post t handler, events = pre ++ .interrupt t handler :: post →
      handler.Follows (rule t) ((pre.foldl System.event s).held t)
        ((pre.foldl System.event s).held t)) :
    (events.foldl System.event s).Follow rule := by
  induction events generalizing s with
  | nil => exact h
  | cons e events ih =>
    refine ih (h.event fun t handler he => hhandler [] events t handler (by rw [he]; rfl)) ?_
    intro pre post t handler hsplit
    exact hhandler (e :: pre) post t handler (by rw [hsplit]; rfl)

section Deadlock

variable {rank : L → ℕ}

/-- To wait only for a mutex above all that are held, and to try none that is held. -/
def Ordered (rank : L → ℕ) (held : List L) : Action L X → Prop
  | .lock l => ∀ l' ∈ held, rank l' < rank l
  | .tryLock l => l ∉ held
  | _ => True

omit [DecidableEq T] [Fintype T] in
/-- Whoever waits for a thread that waits itself, waits for less. -/
theorem Follow.rank_lt (h : s.Follow fun _ => Ordered rank) {u : T} {l l' : L} {p : Program L X}
    (hheld : l ∈ s.held u) (hp : s.program u = .lock l' p) : rank l < rank l' := by
  have hu := h u
  rw [hp] at hu
  exact hu.1 l hheld

omit [DecidableEq T] [Fintype T] in
/-- Threads that wait only upwards do not deadlock: every thread that waits does so, in the end,
for one that can go on. -/
theorem Follow.exists_runs (h : s.Follow fun _ => Ordered rank) {bound : ℕ}
    (hbound : ∀ l, rank l ≤ bound) {t u : T} (hwaits : s.Waits t u) :
    ∃ v, Relation.TransGen s.Waits t v ∧ s.Runs v := by
  obtain ⟨l, p, hp, hheld⟩ := hwaits
  -- The ranks of what is waited for go up along the chain.
  induction hn : bound - rank l using Nat.strong_induction_on generalizing t u l p with
  | _ n ih =>
    have hwaits : s.Waits t u := ⟨l, p, hp, hheld⟩
    by_cases hruns : s.Runs u
    · exact ⟨u, .single hwaits, hruns⟩
    · have hnotDone : s.program u ≠ .done := by
        intro hdone
        have hu := h u
        rw [hdone] at hu
        rw [← (show [] = s.held u from hu)] at hheld
        cases hheld
      obtain ⟨v, l', p', hp', hheld'⟩ : ∃ v, s.Waits u v := by
        by_contra hnone
        exact hruns ⟨hnotDone, fun v hv => hnone ⟨v, hv⟩⟩
      have hlt := h.rank_lt hheld hp'
      have hle := hbound l'
      obtain ⟨w, hw, hrunsw⟩ := ih (bound - rank l') (by omega) l' p' hp' hheld' rfl
      exact ⟨w, .head hwaits hw, hrunsw⟩

section Alone

variable {t : T} {p : Program L X} {l : L} {x : X} {held : List L}

/-- The other threads hold nothing. -/
def Alone (s : System T L X) (t : T) : Prop := ∀ u ≠ t, s.held u = []

omit [DecidableEq L] [Fintype T] in
theorem Alone.set (h : s.Alone t) : (s.set t p held).Alone t :=
  fun u hu => (Function.update_of_ne hu _ _).trans (h u hu)

theorem Alone.free (h : s.Alone t) (hl : l ∉ s.held t) : s.free l = true := by
  refine free_iff.mpr fun u => ?_
  by_cases hu : u = t
  · rwa [hu]
  · rw [h u hu]
    exact List.not_mem_nil

/-- A thread can come to an access with steps of its own. -/
def Comes (s : System T L X) (t : T) (x : X) : Prop :=
  ∃ (tries : List Bool) (p : Program L X),
    ((tries.map (Event.run t)).foldl System.event s).program t = .access x p

theorem comes_of_event (willing : Bool) (h : (s.event (.run t willing)).Comes t x) :
    s.Comes t x := by
  obtain ⟨tries, p, hp⟩ := h
  exact ⟨willing :: tries, p, hp⟩

/-- A thread that runs alone comes to each access of its program: its tries succeed or fail as
the access asks for. -/
theorem Alone.comes (h : s.Alone t) (hp : s.program t = p)
    (hfollows : p.Follows (Ordered rank) (s.held t) []) (hx : p.Makes x) : s.Comes t x := by
  induction p generalizing s with
  | done => cases hx
  | lock l p ih =>
    have hnot : l ∉ s.held t := fun hl => lt_irrefl _ (hfollows.1 l hl)
    have hevent : s.event (.run t true) = s.set t p (l :: s.held t) := by
      simp only [System.event, hp, h.free hnot, if_true]
    refine comes_of_event true ?_
    rw [hevent]
    refine ih h.set (program_set_self ..) ?_ hx
    rw [held_set_self]
    exact hfollows.2
  | tryLock l p q ih ih' =>
    obtain ⟨hnot, hp', hq'⟩ := hfollows
    rcases hx with hx | hx
    · have hevent : s.event (.run t true) = s.set t p (l :: s.held t) := by
        simp only [System.event, hp, h.free hnot, Bool.and_self, if_true]
      refine comes_of_event true ?_
      rw [hevent]
      refine ih h.set (program_set_self ..) ?_ hx
      rwa [held_set_self]
    · have hevent : s.event (.run t false) = s.set t q (s.held t) := by
        simp only [System.event, hp, Bool.false_and, Bool.false_eq_true, if_false]
      refine comes_of_event false ?_
      rw [hevent]
      refine ih' h.set (program_set_self ..) ?_ hx
      rwa [held_set_self]
  | unlock l p ih =>
    have hevent : s.event (.run t true) = s.set t p ((s.held t).erase l) := by
      simp only [System.event, hp]
    refine comes_of_event true ?_
    rw [hevent]
    refine ih h.set (program_set_self ..) ?_ hx
    rw [held_set_self]
    exact hfollows.2
  | access y p ih =>
    rcases hx with rfl | hx
    · exact ⟨[], p, hp⟩
    · have hevent : s.event (.run t true) = s.set t p (s.held t) := by
        simp only [System.event, hp]
      refine comes_of_event true ?_
      rw [hevent]
      refine ih h.set (program_set_self ..) ?_ hx
      rw [held_set_self]
      exact hfollows.2

end Alone

end Deadlock

section Races

variable {allowed : T → List L → X → Prop}

/-- To access data only as is allowed with the mutexes that are held. -/
def Permitted (allowed : List L → X → Prop) (held : List L) : Action L X → Prop
  | .access x => allowed held x
  | _ => True

omit [DecidableEq T] [Fintype T] in
/-- A thread that is at an access is allowed to make it. -/
theorem Follow.allowed_of_access (h : s.Follow fun t => Permitted (allowed t)) {t : T} {x : X}
    {p : Program L X} (hp : s.program t = .access x p) : allowed t (s.held t) x := by
  have ht := h t
  rw [hp] at ht
  exact ht.1

end Races

/-- A thread that waits for a mutex of its own never goes on. -/
theorem self_waits_event {t : T} {l : L} {p : Program L X} (hp : s.program t = .lock l p)
    (hheld : l ∈ s.held t) {e : Event T L X}
    (he : ∀ handler, e = .interrupt t handler → handler = .done ∨ ∃ q, handler = .lock l q) :
    ∃ q, (s.event e).program t = .lock l q ∧ l ∈ (s.event e).held t := by
  have hset : ∀ u q held, u ≠ t →
      (s.set u q held).program t = .lock l p ∧ l ∈ (s.set u q held).held t := by
    intro u q held hne
    dsimp only [System.set]
    rw [Function.update_of_ne hne.symm, Function.update_of_ne hne.symm]
    exact ⟨hp, hheld⟩
  unfold System.event
  cases e with
  | run u willing =>
    refine ⟨p, ?_⟩
    by_cases hu : u = t
    · subst hu
      have hnot : s.free l = false := by
        rw [Bool.eq_false_iff, Ne, free_iff]
        exact fun hfree => hfree u hheld
      simp only [hp, hnot, Bool.false_eq_true, if_false]
      exact ⟨trivial, hheld⟩
    · dsimp only
      split
      · exact ⟨hp, hheld⟩
      · split
        · exact hset u _ _ hu
        · exact ⟨hp, hheld⟩
      · split
        · exact hset u _ _ hu
        · exact hset u _ _ hu
      · exact hset u _ _ hu
      · exact hset u _ _ hu
  | interrupt u handler =>
    by_cases hu : u = t
    · subst hu
      dsimp only [System.set]
      rw [Function.update_self, Function.update_self]
      rcases he handler rfl with rfl | ⟨q, rfl⟩
      · exact ⟨p, hp, hheld⟩
      · exact ⟨q ++ s.program u, rfl, hheld⟩
    · exact ⟨p, hset u _ _ hu⟩

end System

end Bubi.Core.Locking
