import Bubi.Net.Threads

/-!
# The limit of accepted peers

`AcceptSocket` counts the accepted peers and appends a new one under two separate locks,
and the other threads may run in between. Only the socket thread accepts and removes
accepted peers, so the count is still right where the new peer is appended. But a count
that has reached `MAXINBOUND` passes the test: the limit is exceeded exactly by a peer
that is appended to `MAXINBOUND` others, and never by more than one.
-/

namespace Bubi

open Bubi.Core Peers

namespace Threads

/-- The peers that this process has accepted. -/
def inbound (t : Threads) : ℕ := t.vNodes.countP Peer.fInbound

/-- An event of another thread than the socket thread. -/
def otherThread : ThreadEvent → Bool
  | .connectNode _ _ | .processMessages _ => true
  | _ => false

/-- A call of `AcceptSocket`. -/
def accepts : ThreadEvent → Bool
  | .acceptSocket _ => true
  | _ => false

variable {sha : Bytes → Uint256} {pb : Protobuf} {codec : MessageCodec}
  {extract : Bytes → Option ℚ} {t t' : Threads}

theorem inbound_addNode (bService : BService) (fInbound : Bool) (socket : ℕ) :
    (t.addNode bService fInbound socket).inbound = t.inbound + fInbound.toNat := by
  unfold inbound addNode
  rw [List.countP_append, List.countP_singleton]
  cases fInbound <;> rfl

/-- Without `AcceptSocket` peers are only removed, and only by the disconnect phase. -/
theorem inbound_act {e : ThreadEvent} (he : accepts e = false)
    (h : act sha pb codec extract t e = .ok t') :
    t'.inbound ≤ t.inbound ∧ (otherThread e = true → t'.inbound = t.inbound) := by
  have hsame : t'.vNodes = t.vNodes →
      t'.inbound ≤ t.inbound ∧ (otherThread e = true → t'.inbound = t.inbound) := by
    intro hvNodes
    have heq : t'.inbound = t.inbound := by rw [inbound, hvNodes, inbound]
    exact ⟨heq.le, fun _ => heq⟩
  cases e with
  | connectNode bService socket =>
    dsimp only [act] at h
    split at h <;> cases h
    · rw [inbound_addNode]
      exact ⟨le_refl _, fun _ => rfl⟩
    · exact hsame rfl
  | disconnect =>
    cases h
    exact ⟨List.filter_sublist.countP_le, fun hother => nomatch hother⟩
  | acceptSocket accepted => cases he
  | select sendLocked recvLocked readable writable =>
    cases h
    exact hsame rfl
  | socketRecvData pointer answer =>
    cases h
    exact hsame rfl
  | socketRecvRequest pointer rest m request =>
    obtain ⟨r, _, h⟩ := bind_eq_ok.mp h
    cases h
    exact hsame rfl
  | socketSendData pointer answers =>
    obtain ⟨r, _, h⟩ := bind_eq_ok.mp h
    cases h
    exact hsame rfl
  | processMessages pointer =>
    obtain ⟨r, _, h⟩ := bind_eq_ok.mp h
    cases h
    exact hsame rfl

theorem inbound_step {e : ThreadEvent} (he : accepts e = false)
    (h : step sha pb codec extract t e = .ok t') :
    t'.inbound ≤ t.inbound ∧ (otherThread e = true → t'.inbound = t.inbound) := by
  unfold step at h
  split at h
  · exact inbound_act he h
  · cases h
    exact ⟨le_refl _, fun _ => rfl⟩

end Threads

/-- `AcceptSocket` where it has counted and has not yet appended. -/
structure Accepting where
  nInbound : ℕ
  hSocket : ℕ
  bService : BService

/-- The threads of a process, with the call of `AcceptSocket` that is under way. -/
structure Listener where
  threads : Threads
  accepting : Option Accepting

/-- What happens in a process, with `AcceptSocket` in two parts. -/
inductive ListenerEvent where
  /-- `accept`, without a socket where it fails, and the loop that counts. -/
  | count (hSocket : Option ℕ) (bService : BService)
  /-- The rest of `AcceptSocket`. -/
  | push
  /-- Any other call. -/
  | thread (e : ThreadEvent)

namespace Listener

/-- A process that has no nodes yet. -/
def start (s : Ledger.State) : Listener := ⟨.start s, none⟩

/-- Whether a call can be made: the socket thread makes one at a time. -/
def enabled (l : Listener) : ListenerEvent → Bool
  | .count _ _ => l.accepting.isNone && l.threads.sending.isNone
  | .push => l.accepting.isSome
  | .thread e => !Threads.accepts e && (l.accepting.isNone || Threads.otherThread e)

/-- `AcceptSocket` behind its count. -/
def finish (t : Threads) (a : Accepting) : Threads :=
  if maxInbound < a.nInbound then t else t.addNode a.bService true a.hSocket

section Model

variable (sha : Bytes → Uint256) (pb : Protobuf) (codec : MessageCodec)
  (extract : Bytes → Option ℚ)

/-- What a call does. -/
def act (l : Listener) : ListenerEvent → Except Fault Listener
  | .count hSocket bService =>
    .ok { l with accepting := hSocket.map fun hSocket => ⟨l.threads.inbound, hSocket, bService⟩ }
  | .push =>
    match l.accepting with
    | none => .ok l
    | some a => .ok ⟨finish l.threads a, none⟩
  | .thread e => do
    let t ← Threads.step sha pb codec extract l.threads e
    .ok { l with threads := t }

/-- One event; a call that cannot be made now does nothing. -/
def step (l : Listener) (e : ListenerEvent) : Except Fault Listener :=
  if l.enabled e then act sha pb codec extract l e else .ok l

end Model

variable {sha : Bytes → Uint256} {pb : Protobuf} {codec : MessageCodec}
  {extract : Bytes → Option ℚ} {l l' : Listener}

/-- The two parts with nothing between them are the call as a whole. -/
theorem count_push (t : Threads) (hSocket : ℕ) (bService : BService) :
    (do
      let l ← act sha pb codec extract ⟨t, none⟩ (.count (some hSocket) bService)
      act sha pb codec extract l .push) = (do
      let t ← Threads.act sha pb codec extract t (.acceptSocket (some (hSocket, bService)))
      .ok ⟨t, none⟩) := by
  simp only [act, ok_bind, Option.map_some, finish, Threads.act, full, Threads.inbound,
    decide_eq_true_eq]

/-- The count is right as long as the call is under way. -/
def Counted (l : Listener) : Prop := ∀ a ∈ l.accepting, a.nInbound = l.threads.inbound

theorem counted_start (s : Ledger.State) : Counted (start s) := fun _ h => nomatch h

/-- The state in which a peer is appended to `MAXINBOUND` others. -/
def AtLimit (l : Listener) (e : ListenerEvent) : Prop :=
  e = .push ∧ l.accepting.isSome = true ∧ l.threads.inbound = maxInbound

/-- What a step does to the number of accepted peers. -/
theorem Counted.step (h : Counted l) {e : ListenerEvent}
    (hstep : Listener.step sha pb codec extract l e = .ok l') :
    Counted l' ∧ (l'.threads.inbound ≤ l.threads.inbound ∨
      AtLimit l e ∧ l'.threads.inbound = maxInbound + 1 ∨ l'.threads.inbound ≤ maxInbound) := by
  unfold Listener.step at hstep
  split at hstep
  · rename_i henabled
    cases e with
    | count hSocket bService =>
      cases hstep
      refine ⟨fun a ha => ?_, Or.inl (le_refl _)⟩
      obtain ⟨socket, _, rfl⟩ := Option.map_eq_some_iff.mp ha
      rfl
    | push =>
      dsimp only [act] at hstep
      split at hstep <;> cases hstep
      · exact ⟨h, Or.inl (le_refl _)⟩
      · rename_i a ha
        have hcount : a.nInbound = l.threads.inbound := h a ha
        refine ⟨?_, ?_⟩
        · intro a' ha'
          cases ha'
        · unfold finish
          split
          · exact Or.inl (le_refl _)
          · rename_i hpasses
            rw [hcount, not_lt] at hpasses
            rw [Threads.inbound_addNode]
            rcases Nat.lt_or_eq_of_le hpasses with hless | hequal
            · exact Or.inr (Or.inr hless)
            · refine Or.inr (Or.inl ⟨⟨rfl, Option.isSome_iff_exists.mpr ⟨a, ha⟩, hequal⟩, ?_⟩)
              rw [hequal]
              rfl
    | thread e =>
      obtain ⟨t, ht, hstep⟩ := bind_eq_ok.mp hstep
      cases hstep
      simp only [enabled, Bool.and_eq_true, Bool.not_eq_true', Bool.or_eq_true] at henabled
      obtain ⟨hle, heq⟩ := Threads.inbound_step henabled.1 ht
      refine ⟨fun a ha => ?_, Or.inl hle⟩
      rcases henabled.2 with hnone | hother
      · rw [Option.isNone_iff_eq_none.mp hnone] at ha
        cases ha
      · exact (h a ha).trans (heq hother).symm
  · cases hstep
    exact ⟨h, Or.inl (le_refl _)⟩

theorem counted_run {s : Ledger.State} {events : List ListenerEvent}
    (h : events.foldlM (step sha pb codec extract) (start s) = .ok l) : Counted l :=
  run_invariant (fun _ _ _ h hstep => (h.step hstep).1) (counted_start s) h

theorem step_atLimit (h : Counted l) {e : ListenerEvent} (hlimit : AtLimit l e) :
    ∃ l', step sha pb codec extract l e = .ok l' ∧ l'.threads.inbound = maxInbound + 1 := by
  obtain ⟨rfl, hsome, hinbound⟩ := hlimit
  obtain ⟨a, ha⟩ := Option.isSome_iff_exists.mp hsome
  have hcount : a.nInbound = maxInbound := (h a ha).trans hinbound
  refine ⟨⟨finish l.threads a, none⟩, (if_pos hsome).trans ?_, ?_⟩
  · rw [act, ha]
  · have hpasses : ¬ maxInbound < a.nInbound := hcount.le.not_gt
    rw [finish, if_neg hpasses, Threads.inbound_addNode, hinbound]
    rfl

/-- The limit is never exceeded by more than one peer. -/
theorem inbound_le_succ {s : Ledger.State} {events : List ListenerEvent}
    (h : events.foldlM (step sha pb codec extract) (start s) = .ok l) :
    l.threads.inbound ≤ maxInbound + 1 := by
  have hinvariant : Counted l ∧ l.threads.inbound ≤ maxInbound + 1 := by
    refine run_invariant (P := fun l => Counted l ∧ l.threads.inbound ≤ maxInbound + 1)
      (fun l e l' h hstep => ?_) ⟨counted_start s, Nat.zero_le _⟩ h
    obtain ⟨hcounted, hle | ⟨_, heq⟩ | hle⟩ := h.1.step hstep
    · exact ⟨hcounted, hle.trans h.2⟩
    · exact ⟨hcounted, heq.le⟩
    · exact ⟨hcounted, hle.trans (Nat.le_succ _)⟩
  exact hinvariant.2

/-- Over every run of a process: the accepted peers stay within `MAXINBOUND` exactly when no peer
is appended by `AcceptSocket` to `MAXINBOUND` others. -/
theorem inbound_limited_iff (sha : Bytes → Uint256) (pb : Protobuf) (codec : MessageCodec)
    (extract : Bytes → Option ℚ) (s : Ledger.State) (events : List ListenerEvent) :
    (∀ pre post l, events = pre ++ post →
        pre.foldlM (step sha pb codec extract) (start s) = .ok l →
        l.threads.inbound ≤ maxInbound) ↔
      ∀ pre post l, events = pre ++ .push :: post →
        pre.foldlM (step sha pb codec extract) (start s) = .ok l → l.accepting.isSome = true →
        l.threads.inbound ≠ maxInbound := by
  constructor
  · intro hlimited pre post l hsplit hpre hsome hinbound
    obtain ⟨l', hl', hover⟩ :=
      @step_atLimit sha pb codec extract l (counted_run hpre) .push ⟨rfl, hsome, hinbound⟩
    have hnext :
        (pre ++ [ListenerEvent.push]).foldlM (step sha pb codec extract) (start s) = .ok l' :=
      foldlM_append_ok.mpr ⟨l, hpre, foldlM_cons_ok.mpr ⟨l', hl', rfl⟩⟩
    have hle := hlimited (pre ++ [ListenerEvent.push]) post l'
      (by rw [hsplit, List.append_cons]) hnext
    rw [hover] at hle
    exact absurd hle (Nat.not_succ_le_self _)
  · intro hcondition pre post l hsplit hpre
    refine run_invariant_steps (P := fun l => l.threads.inbound ≤ maxInbound) ?_ (Nat.zero_le _)
      hpre
    intro pre' e post' m m' hsplit' hpre' hle hstep
    obtain ⟨_, hless | ⟨⟨rfl, hsome, hinbound⟩, _⟩ | hless⟩ := (counted_run hpre').step hstep
    · exact hless.trans hle
    · refine absurd hinbound (hcondition pre' (post' ++ post) m ?_ hpre' hsome)
      rw [hsplit, hsplit', List.append_assoc, List.cons_append]
    · exact hless

/-- Some peers connect one after the other. -/
def crowd (peers : ℕ) : List ListenerEvent :=
  (List.range peers).flatMap fun i => [.count (some (i + 3)) ⟨BitVec.ofNat 32 i, 40000⟩, .push]

/-- The eleventh peer is accepted too. -/
theorem crowd_exceeds_limit :
    ∃ ledger listener, Ledger.new checksum = .ok ledger ∧
      (crowd 11).foldlM (step checksum plainProtobuf plainMessages Process.decimal)
        (start (fun _ => none, ledger)) = .ok listener ∧
      maxInbound < listener.threads.inbound := by
  have hok : (do
      let ledger ← Ledger.new checksum
      let listener ← (crowd 11).foldlM
        (step checksum plainProtobuf plainMessages Process.decimal) (start (fun _ => none, ledger))
      .ok (decide (maxInbound < listener.threads.inbound))) = .ok true :=
    eq_ok_of_toOption (by decide +kernel)
  obtain ⟨ledger, hledger, hok⟩ := bind_eq_ok.mp hok
  obtain ⟨listener, hlistener, hok⟩ := bind_eq_ok.mp hok
  exact ⟨ledger, listener, hledger, hlistener, of_decide_eq_true (Except.ok.inj hok)⟩

end Listener

end Bubi
