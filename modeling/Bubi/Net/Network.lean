import Bubi.Ledger.Posting
import Bubi.Net.Handler

/-!
# A network of nodes

Hosts, each with its ledger, and for every connection the strings that one end has pushed
and the other has not yet handled, in order and intact. A string is kept with the number
of the request that it comes from and the answer that its client got; no host reads these.
The replies of `ProcessMessages` are left out: a host that receives one ignores it.
-/

namespace Bubi

open Bubi.Core Process

/-- A pushed string, with the request that it comes from and the answer to that request. -/
structure Sent where
  request : ℕ
  answer : Output
  data : Bytes

/-- The ledgers of the hosts, the strings between them and the number of requests so far. -/
structure Network (ι : Type) where
  ledgers : ι → Ledger.State
  channels : ι → ι → List Sent
  requests : ℕ

/-- A client's request at a host, or a round of `ProcessMessages` at a receiver for a string of a
sender. -/
inductive NetworkEvent (ι : Type) where
  | request (host : ι) (m : Surroundings) (request : Request)
  | process (sender receiver : ι)

namespace Network

section Model

variable {ι : Type} [DecidableEq ι] (sha : Bytes → Uint256) (pb : Protobuf) (codec : MessageCodec)
  (extract : Bytes → Option ℚ) (outbound : ι → ι → Bool)

/-- A host pushes to every node that it has connected to. -/
def push (n : Network ι) (host : ι) (sent : Sent) : ι → ι → List Sent := fun sender receiver =>
  if sender = host ∧ outbound sender receiver = true then n.channels sender receiver ++ [sent]
  else n.channels sender receiver

/-- One event; the receiver of an empty channel does nothing. -/
def event (n : Network ι) : NetworkEvent ι → Except Fault (Network ι)
  | .request host m request => do
    let r ← handleRequest sha pb extract m (n.ledgers host) request
    .ok
      { ledgers := Function.update n.ledgers host r.1
        channels := n.push outbound host ⟨n.requests, r.2.2, (messageOf r.2.1).serializer codec⟩
        requests := n.requests + 1 }
  | .process sender receiver =>
    match n.channels sender receiver with
    | [] => .ok n
    | sent :: rest => do
      let r ← processMessage sha pb (n.ledgers receiver) (BNetMessage.unserializer codec sent.data)
      .ok { n with
        ledgers := Function.update n.ledgers receiver r.1
        channels := Function.update n.channels sender
          (Function.update (n.channels sender) receiver rest) }

/-- What happens at the given state of a run from the given one. -/
def StepOf (n₀ : Network ι) (events : List (NetworkEvent ι)) (n : Network ι)
    (e : NetworkEvent ι) (n' : Network ι) : Prop :=
  ∃ pre post, events = pre ++ e :: post ∧
    pre.foldlM (event sha pb codec extract outbound) n₀ = .ok n ∧
      event sha pb codec extract outbound n e = .ok n'

/-- The balance that `get_account_entry` finds under an address. -/
def balanceOf (s : Ledger.State) (k : Uint256) : Option ℚ :=
  match Ledger.getAccountEntry sha pb s k with
  | .ok r => r.2.map Account.accountBalance
  | .error _ => none

end Model

variable {ι : Type} [DecidableEq ι] {sha : Bytes → Uint256} {pb : Protobuf} {codec : MessageCodec}
  {extract : Bytes → Option ℚ} {outbound : ι → ι → Bool} {n n' : Network ι}

theorem StepOf.event_eq {n₀ : Network ι} {events : List (NetworkEvent ι)} {e : NetworkEvent ι}
    (h : StepOf sha pb codec extract outbound n₀ events n e n') :
    event sha pb codec extract outbound n e = .ok n' := by
  obtain ⟨_, _, _, _, he⟩ := h
  exact he

/-- A reply changes nothing where it arrives. -/
theorem processMessage_reply (s : Ledger.State) :
    processMessage sha pb s (messageOf Command.txReply) = .ok (s, none) ∧
      processMessage sha pb s (messageOf Command.accountReply) = .ok (s, none) := by
  have htx : Command.txReply.1 ≠ Command.transaction ∧ Command.txReply.1 ≠ Command.account := by
    decide
  have haccount :
      Command.accountReply.1 ≠ Command.transaction ∧ Command.accountReply.1 ≠ Command.account := by
    decide
  exact ⟨(if_neg htx.1).trans (if_neg htx.2), (if_neg haccount.1).trans (if_neg haccount.2)⟩

theorem mem_push {host : ι} {sent m : Sent} {sender receiver : ι}
    (h : m ∈ n.push outbound host sent sender receiver) :
    m ∈ n.channels sender receiver ∨ m = sent := by
  unfold push at h
  split at h
  · rcases List.mem_append.mp h with h | h
    · exact Or.inl h
    · exact Or.inr (List.mem_singleton.mp h)
  · exact Or.inl h

/-- A handled string leaves its channel. -/
theorem mem_pop {sender receiver i j : ι} {sent m : Sent} {rest : List Sent}
    (hchannel : n.channels sender receiver = sent :: rest)
    (h : m ∈ Function.update n.channels sender
      (Function.update (n.channels sender) receiver rest) i j) : m ∈ n.channels i j := by
  by_cases hi : i = sender
  · subst hi
    rw [Function.update_self] at h
    by_cases hj : j = receiver
    · subst hj
      rw [Function.update_self] at h
      rw [hchannel]
      exact List.mem_cons_of_mem _ h
    · rwa [Function.update_of_ne hj] at h
  · rwa [Function.update_of_ne hi] at h

/-- What a handled string did. -/
theorem process_ok {sender receiver : ι} {sent : Sent} {rest : List Sent}
    (hchannel : n.channels sender receiver = sent :: rest)
    (h : event sha pb codec extract outbound n (.process sender receiver) = .ok n') :
    ∃ r, processMessage sha pb (n.ledgers receiver)
        (BNetMessage.unserializer codec sent.data) = .ok r ∧
      n' = { n with
        ledgers := Function.update n.ledgers receiver r.1
        channels := Function.update n.channels sender
          (Function.update (n.channels sender) receiver rest) } := by
  rw [event, hchannel] at h
  obtain ⟨r, hr, h⟩ := bind_eq_ok.mp h
  exact ⟨r, hr, (Except.ok.inj h).symm⟩

section Sound

open Ledger

/-- A ledger that keeps some books. -/
def Kept (sha : Bytes → Uint256) (pb : Protobuf) (s : State) : Prop :=
  ∃ b accepted ta tt, Reflects sha pb s b accepted ta tt

theorem Kept.addTransactionEntry {s : State} (h : Kept sha pb s) {tx : Transaction}
    {v : State × Transaction × ℕ} (hv : addTransactionEntry sha pb s tx = .ok v) :
    Kept sha pb v.1 := by
  obtain ⟨b, accepted, ta, tt, hreflects⟩ := h
  have hstep : Ledger.step sha pb (s, accepted) (.addTransactionEntry tx) =
      .ok (v.1, if v.2.2 = 0 then v.2.1 :: accepted else accepted) :=
    bind_eq_ok.mpr ⟨v, hv, rfl⟩
  obtain ⟨_, ta', tt', _, hreflects'⟩ := hreflects.step hstep
  exact ⟨_, _, ta', tt', hreflects'⟩

theorem Kept.createAccount {s s' : State} (h : Kept sha pb s) {accPub : Bytes}
    (hs' : createAccount sha pb s accPub = .ok s') : Kept sha pb s' := by
  obtain ⟨b, accepted, ta, tt, hreflects⟩ := h
  have hstep : Ledger.step sha pb (s, accepted) (.createAccount accPub) = .ok (s', accepted) :=
    bind_eq_ok.mpr ⟨s', hs', rfl⟩
  obtain ⟨_, ta', tt', _, hreflects'⟩ := hreflects.step hstep
  exact ⟨_, _, ta', tt', hreflects'⟩

/-- A string is the message of a transfer, or that of a new account, which is never refused. -/
def SoundMessage (pb : Protobuf) (codec : MessageCodec) (m : Sent) : Prop :=
  (∃ tx : Transaction,
    m.data = (messageOf (Command.transaction, tx.serializer pb)).serializer codec) ∨
  ∃ bubiAddr, m.data = (messageOf (Command.account, bubiAddr)).serializer codec ∧
    m.answer = answer true none

/-- The ledgers keep books, and the strings are messages. -/
structure Sound (sha : Bytes → Uint256) (pb : Protobuf) (codec : MessageCodec) (n : Network ι) :
    Prop where
  ledgers : ∀ a, Kept sha pb (n.ledgers a)
  channels : ∀ i j, ∀ m ∈ n.channels i j, SoundMessage pb codec m

/-- What a handled string did to the ledger of its receiver. -/
theorem SoundMessage.process {m : Sent} (h : SoundMessage pb codec m) {s : State}
    {r : State × Option Command}
    (hr : processMessage sha pb s (BNetMessage.unserializer codec m.data) = .ok r) :
    (∃ tx v, m.data = (messageOf (Command.transaction, tx.serializer pb)).serializer codec ∧
        addTransactionEntry sha pb s tx = .ok v ∧ r.1 = v.1) ∨
      ∃ bubiAddr, createAccount sha pb s bubiAddr = .ok r.1 ∧ m.answer = answer true none := by
  rcases h with ⟨tx, hdata⟩ | ⟨bubiAddr, hdata, hanswer⟩
  · rw [hdata, unserializer_messageOf, processMessage_transaction] at hr
    obtain ⟨v, hv, hr⟩ := bind_eq_ok.mp hr
    cases hr
    exact Or.inl ⟨tx, v, hdata, hv, rfl⟩
  · rw [hdata, unserializer_messageOf, processMessage_account] at hr
    obtain ⟨s', hs', hr⟩ := bind_eq_ok.mp hr
    cases hr
    exact Or.inr ⟨bubiAddr, hs', hanswer⟩

theorem Sound.event (h : Sound sha pb codec n) {e : NetworkEvent ι}
    (he : event sha pb codec extract outbound n e = .ok n') : Sound sha pb codec n' := by
  have hledgers : ∀ {host : ι} {s : State}, Kept sha pb s →
      ∀ a, Kept sha pb (Function.update n.ledgers host s a) := by
    intro host s hs
    rw [Function.forall_update_iff n.ledgers fun _ s => Kept sha pb s]
    exact ⟨hs, fun a _ => h.ledgers a⟩
  cases e with
  | request host m request =>
    obtain ⟨r, hr, he⟩ := bind_eq_ok.mp he
    cases he
    rcases handleRequest_path hr with ⟨tx, v, hv, hs, hmessage, _⟩ | ⟨bubiAddr, hs, hmessage⟩
    · refine ⟨hledgers (hs ▸ (h.ledgers host).addTransactionEntry hv), fun i j m hm => ?_⟩
      rcases mem_push hm with hm | rfl
      · exact h.channels i j m hm
      · exact Or.inl ⟨tx, by rw [hmessage]⟩
    · refine ⟨hledgers ((h.ledgers host).createAccount hs), fun i j m hm => ?_⟩
      rcases mem_push hm with hm | rfl
      · exact h.channels i j m hm
      · exact Or.inr ⟨bubiAddr, by rw [hmessage], by rw [hmessage]⟩
  | process sender receiver =>
    cases hchannel : n.channels sender receiver with
    | nil =>
      rw [Network.event, hchannel] at he
      exact Except.ok.inj he ▸ h
    | cons sent rest =>
      obtain ⟨r, hr, rfl⟩ := process_ok hchannel he
      have hsent := h.channels sender receiver sent (hchannel ▸ List.mem_cons_self)
      refine ⟨hledgers ?_, fun i j m hm => h.channels i j m (mem_pop hchannel hm)⟩
      rcases hsent.process hr with ⟨tx, v, _, hv, hs⟩ | ⟨bubiAddr, hs, _⟩
      · exact hs ▸ (h.ledgers receiver).addTransactionEntry hv
      · exact (h.ledgers receiver).createAccount hs

omit [DecidableEq ι] in
theorem sound_of_empty (hledgers : ∀ a, Kept sha pb (n.ledgers a))
    (hchannels : ∀ i j, n.channels i j = []) : Sound sha pb codec n where
  ledgers := hledgers
  channels := by
    intro i j m hm
    rw [hchannels i j] at hm
    cases hm

/-- Every step of a run is taken from a sound state. -/
theorem Sound.stepOf {n₀ : Network ι} (h : Sound sha pb codec n₀) {events : List (NetworkEvent ι)}
    {e : NetworkEvent ι} (hstep : StepOf sha pb codec extract outbound n₀ events n e n') :
    Sound sha pb codec n := by
  obtain ⟨pre, _, _, hpre, _⟩ := hstep
  exact run_invariant (fun _ _ _ h he => h.event he) h hpre

end Sound

section Samples

open Ledger

/-- Two hosts with one ledger. -/
def twoHosts (s : State) : Network Bool := ⟨fun _ => s, fun _ _ => [], 0⟩

/-- Two hosts, each connected to the other. -/
def eachOther (sender receiver : Bool) : Bool := sender != receiver

/-- One event between the two hosts. -/
def sampleEvent (n : Network Bool) (e : NetworkEvent Bool) : Except Fault (Network Bool) :=
  event checksum plainProtobuf plainMessages decimal eachOther n e

theorem exists_threeAccounts :
    ∃ r, run checksum plainProtobuf (fun _ => none) threeAccounts = .ok r ∧
      Kept checksum plainProtobuf r.1 := by
  obtain ⟨r, hr⟩ : ∃ r, run checksum plainProtobuf (fun _ => none) threeAccounts = .ok r :=
    exists_of_isOk (by decide +kernel)
  obtain ⟨ta, tt, hreflects, _⟩ := (run_inStep hr).reflects
  exact ⟨r, hr, _, _, ta, tt, hreflects⟩

end Samples

end Network

end Bubi
