import Bubi.Ledger.Alike
import Bubi.Ledger.Conservation
import Bubi.Net.Handler

/-!
# Replaying a broadcast

A node that takes only requests, and a peer that starts with an equal ledger and handles
the messages that the node pushes to it. The peer decodes each transfer with the links
that happened to be serialized; its own `add_transaction_entry` replaces them by those
of its accounts. So each message does at the peer what its request did at the node.
-/

namespace Bubi.Process

open Bubi.Core Ledger

variable {sha : Bytes → Uint256} {pb : Protobuf} {codec : MessageCodec}
  {extract : Bytes → Option ℚ}

/-- The message of a request does at an equal ledger what the request did. -/
theorem handleRequest_replays {m : Surroundings} {s q : State} {request : Request}
    {r : State × Command × Output} (h : Alike sha s q)
    (hr : handleRequest sha pb extract m s request = .ok r) :
    ∃ v, processMessage sha pb q (messageOf r.2.1) = .ok v ∧ Alike sha r.1 v.1 := by
  rcases handleRequest_path hr with ⟨tx, w, hw, hs, hmessage, _⟩ | ⟨bubiAddr, hw, hmessage⟩
  · obtain ⟨w', hw', halike, _⟩ := (h.addTransactionEntry tx).exists_ok hw
    rw [hmessage, hs, processMessage_transaction, hw']
    exact ⟨_, rfl, halike⟩
  · obtain ⟨w', hw', halike⟩ := (h.createAccount bubiAddr).exists_ok hw
    rw [hmessage, processMessage_account, hw']
    exact ⟨_, rfl, halike⟩

section Node

/-- The requests that a node answers, each with what surrounds it. -/
def serve (sha : Bytes → Uint256) (pb : Protobuf) (codec : MessageCodec)
    (extract : Bytes → Option ℚ) (p : Process) (call : Surroundings × Request) :
    Except Fault Process := do
  let r ← parseHandleJsonData sha pb codec extract call.1 p call.2
  .ok r.1

/-- Requests lead from one ledger to another and push these commands. -/
inductive Pushes (sha : Bytes → Uint256) (pb : Protobuf) (extract : Bytes → Option ℚ) :
    State → List Command → State → Prop
  | nil (s : State) : Pushes sha pb extract s [] s
  | cons {m : Surroundings} {s s' : State} {request : Request} {r : State × Command × Output}
      {commands : List Command} (hr : handleRequest sha pb extract m s request = .ok r)
      (h : Pushes sha pb extract r.1 commands s') :
      Pushes sha pb extract s (r.2.1 :: commands) s'

/-- The strings of these commands on a connection. -/
def wire (codec : MessageCodec) (commands : List Command) : List Bytes :=
  commands.map fun command => (messageOf command).serializer codec

theorem getElem?_broadcast {vNodes : List Connection} {c : ℕ} {node : BNode}
    (h : vNodes[c]? = some ⟨false, node⟩) (command : Command) :
    (broadcast codec vNodes command)[c]? =
      some ⟨false, node.pushMessage codec command.1 command.2⟩ := by
  rw [broadcast, List.getElem?_map, h]
  rfl

/-- Every answered request pushes one string to every node that was connected to. -/
theorem serve_pushes {calls : List (Surroundings × Request)} {p p' : Process}
    (hrun : calls.foldlM (serve sha pb codec extract) p = .ok p') {c : ℕ} {node : BNode}
    (hc : p.vNodes[c]? = some ⟨false, node⟩) :
    ∃ commands, Pushes sha pb extract p.lastLedger commands p'.lastLedger ∧
      p'.vNodes[c]? =
        some ⟨false, { node with vSendMsg := node.vSendMsg ++ wire codec commands }⟩ := by
  induction calls generalizing p node with
  | nil =>
    obtain rfl := foldlM_nil_ok.mp hrun
    refine ⟨[], .nil _, ?_⟩
    rw [hc, wire, List.map_nil, List.append_nil]
  | cons call calls ih =>
    obtain ⟨p₁, hcall, hrun⟩ := foldlM_cons_ok.mp hrun
    obtain ⟨r, hr, hcall⟩ := bind_eq_ok.mp hcall
    obtain ⟨v, hv, hr⟩ := bind_eq_ok.mp hr
    cases hr
    cases hcall
    obtain ⟨commands, hpushes, hnode⟩ := ih hrun (getElem?_broadcast hc v.2.1)
    have hstrings : (node.pushMessage codec v.2.1.1 v.2.1.2).vSendMsg ++ wire codec commands =
        node.vSendMsg ++ wire codec (v.2.1 :: commands) := by
      rw [BNode.pushMessage, List.append_assoc, List.singleton_append]
      rfl
    refine ⟨_, .cons hv hpushes, ?_⟩
    rw [hnode, hstrings]
    rfl

end Node

section Peer

/-- What happens at the peer: a string arrives as it was sent, or the messages are handled. -/
inductive PeerEvent where
  | receive (data : Bytes)
  | processMessages

/-- One event at the peer. -/
def peerStep (sha : Bytes → Uint256) (pb : Protobuf) (codec : MessageCodec) (q : State × BNode) :
    PeerEvent → Except Fault (State × BNode)
  | .receive data => .ok (q.1, BNode.socketRecvData codec q.2 (.received data))
  | .processMessages => Process.processMessages sha pb codec q

/-- The strings that the events receive. -/
def received : List PeerEvent → List Bytes
  | [] => []
  | .receive data :: events => data :: received events
  | .processMessages :: events => received events

/-- The loop of `ProcessMessages` follows the requests that pushed its messages. -/
theorem processLoop_replays (codec : MessageCodec) {waiting commands : List Command}
    {s s' q : State} (node : BNode) (h : Alike sha s q)
    (hp : Pushes sha pb extract s (waiting ++ commands) s') :
    ∃ v s₁, processLoop sha pb codec (waiting.map messageOf) (q, node) = .ok v ∧
      Alike sha s₁ v.1 ∧ Pushes sha pb extract s₁ commands s' := by
  induction waiting generalizing s q node with
  | nil => exact ⟨(q, node), s, rfl, h, hp⟩
  | cons command waiting ih =>
    cases hp with
    | cons hr hp =>
      obtain ⟨v, hv, halike⟩ := handleRequest_replays h hr
      rw [List.map_cons, processLoop, hv, ok_bind]
      cases v.2 with
      | none => exact ih node halike hp
      | some reply => exact ih (node.pushMessage codec reply.1 reply.2) halike hp

/-- The peer is equal to the node as it was before the commands that are waiting or still to
come. -/
def Follows (sha : Bytes → Uint256) (pb : Protobuf) (extract : Bytes → Option ℚ) (s' : State)
    (commands : List Command) (q : State × BNode) : Prop :=
  ∃ s waiting, Alike sha s q.1 ∧ q.2.vRecvMsg = waiting.map messageOf ∧
    Pushes sha pb extract s (waiting ++ commands) s'

theorem Follows.receive {s' : State} {command : Command} {commands : List Command}
    {q : State × BNode} (h : Follows sha pb extract s' (command :: commands) q) :
    Follows sha pb extract s' commands (q.1, BNode.socketRecvData codec q.2
      (.received ((messageOf command).serializer codec))) := by
  obtain ⟨s, waiting, halike, hwaiting, hp⟩ := h
  refine ⟨s, waiting ++ [command], halike, ?_, ?_⟩
  · rw [socketRecvData_message, hwaiting, List.map_append, List.map_singleton]
  · rwa [List.append_assoc, List.singleton_append]

theorem Follows.processMessages {s' : State} {commands : List Command} {q : State × BNode}
    (h : Follows sha pb extract s' commands q) (codec : MessageCodec) :
    ∃ q', Process.processMessages sha pb codec q = .ok q' ∧
      Follows sha pb extract s' commands q' := by
  obtain ⟨s, waiting, halike, hwaiting, hp⟩ := h
  obtain ⟨v, s₁, hv, halike', hp'⟩ := processLoop_replays codec q.2 halike hp
  refine ⟨(v.1, { v.2 with vRecvMsg := [] }), ?_, s₁, [], halike', rfl, hp'⟩
  rw [Process.processMessages, hwaiting, hv, ok_bind]

/-- The peer follows the node through all of its events. -/
theorem Follows.run {s' : State} {events : List PeerEvent} {commands : List Command}
    {rest : List Bytes} {q : State × BNode} (h : Follows sha pb extract s' commands q)
    (hreceived : received events ++ rest = wire codec commands) :
    ∃ q' commands', events.foldlM (peerStep sha pb codec) q = .ok q' ∧
      Follows sha pb extract s' commands' q' ∧ rest = wire codec commands' := by
  induction events generalizing q commands with
  | nil => exact ⟨q, commands, rfl, h, hreceived⟩
  | cons event events ih =>
    cases event with
    | receive data =>
      cases commands with
      | nil => cases hreceived
      | cons command commands =>
        obtain ⟨hdata, hrest⟩ := List.cons.inj hreceived
        obtain ⟨q', commands', hrun, hfollows⟩ := ih h.receive hrest
        refine ⟨q', commands', ?_, hfollows⟩
        rw [List.foldlM_cons, peerStep, hdata, ok_bind]
        exact hrun
    | processMessages =>
      obtain ⟨q₁, hq₁, h₁⟩ := h.processMessages codec
      obtain ⟨q', commands', hrun, hfollows⟩ := ih h₁ hreceived
      refine ⟨q', commands', ?_, hfollows⟩
      rw [List.foldlM_cons, peerStep, hq₁, ok_bind]
      exact hrun

end Peer

/-- Requests at a node, in any surroundings, and the strings that they push to a peer with an
equal ledger: the peer handles them without a fault however they arrive and are taken up, and
when it has handled all that were pushed, it has the node's trees and header. -/
theorem broadcast_replays_ledger (sha : Bytes → Uint256) (pb : Protobuf) (codec : MessageCodec)
    (extract : Bytes → Option ℚ) (calls : List (Surroundings × Request)) (p p' : Process)
    (hserve : calls.foldlM (serve sha pb codec extract) p = .ok p') (c : ℕ) (node : BNode)
    (hc : p.vNodes[c]? = some ⟨false, node⟩) (q : State × BNode)
    (hq : Alike sha p.lastLedger q.1) (hempty : q.2.vRecvMsg = []) :
    ∃ pushed : List Bytes,
      p'.vNodes[c]? = some ⟨false, { node with vSendMsg := node.vSendMsg ++ pushed }⟩ ∧
      ∀ events, received events <+: pushed →
        ∃ q', events.foldlM (peerStep sha pb codec) q = .ok q' ∧
          (received events = pushed → q'.2.vRecvMsg = [] →
            Alike sha p'.lastLedger q'.1 ∧ p'.lastLedger.2.hash = q'.1.2.hash) := by
  obtain ⟨commands, hpushes, hnode⟩ := serve_pushes hserve hc
  refine ⟨wire codec commands, hnode, fun events ⟨rest, hrest⟩ => ?_⟩
  have hfollows : Follows sha pb extract p'.lastLedger commands q :=
    ⟨p.lastLedger, [], hq, hempty, hpushes⟩
  obtain ⟨q', commands', hrun, ⟨s, waiting, halike, hwaiting, hp⟩, hcommands'⟩ := hfollows.run hrest
  refine ⟨q', hrun, fun hall hdone => ?_⟩
  have hrest_nil : rest = [] := by
    rw [hall] at hrest
    exact List.append_right_eq_self.mp hrest
  have hwaiting_nil : waiting = [] := List.map_eq_nil_iff.mp (hwaiting.symm.trans hdone)
  have hcommands_nil : commands' = [] :=
    List.map_eq_nil_iff.mp (hcommands'.symm.trans hrest_nil)
  rw [hwaiting_nil, hcommands_nil] at hp
  cases hp with
  | nil => exact ⟨halike, halike.hash⟩

/-- A new account, a transfer to it and one that is rejected. -/
def replayedCalls : List (Surroundings × Request) :=
  [(sampleSurroundings, .createUser (sampleName 3)),
    (sampleSurroundings, sampleTransfer 1 3 ['4', '0']),
    (sampleSurroundings, sampleTransfer 3 2 ['5', '0', '0', '0'])]

theorem broadcast_replays_ledger_replayedCalls :
    ∃ r p' pushed, run checksum plainProtobuf (fun _ => none) transferRun = .ok r ∧
      replayedCalls.foldlM (serve checksum plainProtobuf plainMessages decimal)
        ⟨r.1, [⟨false, .new 1⟩]⟩ = .ok p' ∧
      Alike checksum r.1 r.1 ∧
      p'.vNodes[0]? = some ⟨false, { BNode.new 1 with vSendMsg := pushed }⟩ ∧
      ∀ events, received events <+: pushed →
        ∃ q', events.foldlM (peerStep checksum plainProtobuf plainMessages) (r.1, .new 2) = .ok q' ∧
          (received events = pushed → q'.2.vRecvMsg = [] →
            Alike checksum p'.lastLedger q'.1 ∧ p'.lastLedger.2.hash = q'.1.2.hash) := by
  have hok : (do
      let r ← run checksum plainProtobuf (fun _ => none) transferRun
      let p' ← replayedCalls.foldlM (serve checksum plainProtobuf plainMessages decimal)
        ⟨r.1, [⟨false, .new 1⟩]⟩
      .ok (r, p')).isOk = true := by
    decide +kernel
  obtain ⟨v, hv⟩ := exists_of_isOk hok
  obtain ⟨r, hr, hv⟩ := bind_eq_ok.mp hv
  obtain ⟨p', hp', _⟩ := bind_eq_ok.mp hv
  obtain ⟨ta, tt, hreflects, _⟩ := (run_inStep hr).reflects
  obtain ⟨pushed, hnode, hevents⟩ := broadcast_replays_ledger _ _ _ _ _ _ _ hp' 0 (.new 1) rfl
    (r.1, .new 2) hreflects.trees.alike rfl
  exact ⟨r, p', pushed, hr, hp', hreflects.trees.alike, hnode, hevents⟩

end Bubi.Process
