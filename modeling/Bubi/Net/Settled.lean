import Bubi.Net.Network
import Bubi.Net.Once

/-!
# Connections that stay

A mesh whose connections stay as they are is a network: the channel from a host to one that it
has connected to is what waits at the accepted end, is under way to it and is queued at the end
that was opened. Sending and delivering change none of this, the replies go the other way and
are ignored, and a message that is taken up is the front of its channel. So every exchange of a
mesh in which no host stops is a run of the network, with the same requests and the same
ledgers.
-/

namespace Bubi

open Bubi.Core Peers Process

namespace Traffic

variable {ι : Type} {codec : MessageCodec} {t : Traffic ι} {e : End} {l : ℕ}

/-- What one end has pushed and the other has not taken up, with its origins. -/
def between (codec : MessageCodec) (sender receiver : TrackedNode)
    (wire : List (Option ℕ × Bytes)) : List (Option ℕ × BNetMessage) :=
  receiver.recvOrigins.zip receiver.node.vRecvMsg ++
    (wire ++ sender.sendOrigins.zip sender.node.vSendMsg).map fun w =>
      (w.1, BNetMessage.unserializer codec w.2)

/-- What the host that opened a connection has pushed and the other has not taken up. -/
def inFlight (codec : MessageCodec) (t : Traffic ι) (l : ℕ) : List (Option ℕ × BNetMessage) :=
  between codec (t.nodes (l, false)) (t.nodes (l, true)) (t.wires (l, true))

theorem inFlight_congr {t' : Traffic ι} (hsender : t'.nodes (l, false) = t.nodes (l, false))
    (hreceiver : t'.nodes (l, true) = t.nodes (l, true))
    (hwire : t'.wires (l, true) = t.wires (l, true)) :
    inFlight codec t' l = inFlight codec t l := by
  rw [inFlight, inFlight, hsender, hreceiver, hwire]

/-- A message that is pushed comes last. -/
theorem between_push {sender receiver : TrackedNode} {wire : List (Option ℕ × Bytes)}
    (h : sender.Aligned codec) (origin : Option ℕ) (command : Command) :
    between codec (sender.push codec origin command) receiver wire =
      between codec sender receiver wire ++ [(origin, messageOf command)] := by
  have hlength : sender.sendOrigins.length = sender.node.vSendMsg.length := h.send.length_eq
  have hback := unserializer_messageOf codec command
  unfold between TrackedNode.push BNode.pushMessage
  dsimp only
  rw [List.zip_append hlength, ← List.append_assoc wire, List.map_append, ← List.append_assoc,
    ← hback]
  rfl

/-- What an end pushes back is not under way from the other one. -/
theorem between_push_receiver {sender receiver : TrackedNode} {wire : List (Option ℕ × Bytes)}
    (origin : Option ℕ) (command : Command) :
    between codec sender (receiver.push codec origin command) wire =
      between codec sender receiver wire := rfl

/-- Sending moves the front of a queue to the end of a wire. -/
theorem inFlight_send (t : Traffic ι) (e : End) (l : ℕ) :
    inFlight codec (t.send e) l = inFlight codec t l := by
  unfold Traffic.send
  split
  · rename_i data rest origin origins hqueue horigins
    split
    · rfl
    · rename_i r hr
      obtain ⟨hsend, hrecv, hdata⟩ := socketSendData_whole hqueue hr
      by_cases hl : e.1 = l
      · subst hl
        obtain ⟨link, accepted⟩ := e
        cases accepted with
        | false =>
          have hne : ((link, true) : End) ≠ (link, false) := by simp
          unfold inFlight
          dsimp only [End.other]
          rw [Bool.not_false, Function.update_self, Function.update_of_ne hne, Function.update_self]
          unfold between
          dsimp only
          rw [hsend, hdata, horigins, hqueue, List.zip_cons_cons, List.append_assoc,
            List.singleton_append]
        | true =>
          have hne : ((link, false) : End) ≠ (link, true) := by simp
          unfold inFlight
          dsimp only [End.other]
          rw [Bool.not_true, Function.update_self, Function.update_of_ne hne,
            Function.update_of_ne hne.symm]
          unfold between
          dsimp only
          rw [hrecv]
      · have hne : ∀ side, ((l, side) : End) ≠ e := by
          rintro side rfl
          exact hl rfl
        have hother : ((l, true) : End) ≠ e.other := by
          intro heq
          exact hl (congrArg Prod.fst heq).symm
        exact inFlight_congr (Function.update_of_ne (hne false) _ _)
          (Function.update_of_ne (hne true) _ _) (Function.update_of_ne hother _ _)
  · rfl

/-- Delivering moves the front of a wire to the end of a queue. -/
theorem Tracked.inFlight_deliver (h : Tracked codec t) (e : End) (l : ℕ) :
    inFlight codec (t.deliver codec e) l = inFlight codec t l := by
  unfold Traffic.deliver
  split
  · rfl
  · rename_i origin data rest hwire
    obtain ⟨command, hdata, _⟩ := h.wires e (origin, data) (hwire ▸ List.mem_cons_self)
    dsimp only at hdata
    subst hdata
    have hlength : (t.nodes e).recvOrigins.length = (t.nodes e).node.vRecvMsg.length :=
      (h.nodes e).recv.length_eq
    rw [socketRecvData_message]
    by_cases hl : e.1 = l
    · subst hl
      obtain ⟨link, accepted⟩ := e
      cases accepted with
      | false =>
        have hne : ((link, true) : End) ≠ (link, false) := by simp
        unfold inFlight
        dsimp only
        rw [Function.update_self, Function.update_of_ne hne, Function.update_of_ne hne]
        rfl
      | true =>
        have hne : ((link, false) : End) ≠ (link, true) := by simp
        unfold inFlight
        dsimp only
        rw [Function.update_self, Function.update_of_ne hne, Function.update_self]
        unfold between
        dsimp only
        rw [hwire, List.zip_append hlength, List.cons_append, List.map_cons,
          unserializer_messageOf, List.append_assoc]
        rfl
    · have hne : ∀ side, ((l, side) : End) ≠ e := by
        rintro side rfl
        exact hl rfl
      exact inFlight_congr (Function.update_of_ne (hne false) _ _)
        (Function.update_of_ne (hne true) _ _) (Function.update_of_ne (hne true) _ _)

/-- A request is queued at the ends that its host has opened. -/
theorem Tracked.inFlight_broadcast (h : Tracked codec t) {host : ι} {vNodes : List (Peer End)}
    (hnodup : ((outbound vNodes).map Peer.pointer).Nodup)
    (hside : ∀ e ∈ (outbound vNodes).map Peer.pointer, e.2 = false) (command : Command) (l : ℕ) :
    inFlight codec (t.broadcast codec host vNodes command) l =
      inFlight codec t l ++ if (l, false) ∈ (outbound vNodes).map Peer.pointer
        then [(some t.handled.length, messageOf command)] else [] := by
  have hreceiver : ((l, true) : End) ∉ (outbound vNodes).map Peer.pointer := by
    intro hmem
    cases hside _ hmem
  unfold inFlight
  rw [broadcast_nodes hnodup, broadcast_nodes hnodup, if_neg hreceiver]
  split
  · exact between_push (h.nodes (l, false)) _ command
  · rw [List.append_nil]
    rfl

/-- A round of `ProcessMessages` takes the front of what is under way to an accepted end. -/
theorem inFlight_round_accepted {host : ι} {message : BNetMessage} {messages : List BNetMessage}
    {origin : Option ℕ} {origins : List (Option ℕ)}
    (hqueue : (t.nodes (l, true)).node.vRecvMsg = message :: messages)
    (horigins : (t.nodes (l, true)).recvOrigins = origin :: origins) (reply : Option Command)
    (l' : ℕ) :
    inFlight codec t l' = (if l' = l then [(origin, message)] else []) ++
      inFlight codec ((t.take host (l, true) message origin).reply codec (l, true) reply) l' := by
  have htake : inFlight codec t l' = (if l' = l then [(origin, message)] else []) ++
      inFlight codec (t.take host (l, true) message origin) l' := by
    by_cases hl : l' = l
    · subst hl
      have hne : ((l', false) : End) ≠ (l', true) := by simp
      rw [if_pos rfl]
      unfold inFlight Traffic.take
      dsimp only
      rw [Function.update_self, Function.update_of_ne hne]
      unfold between TrackedNode.pop
      dsimp only
      rw [hqueue, horigins, List.zip_cons_cons]
      rfl
    · have hne : ∀ side, ((l', side) : End) ≠ (l, true) := by
        intro side heq
        exact hl (congrArg Prod.fst heq)
      rw [if_neg hl, List.nil_append]
      exact (@inFlight_congr _ codec t l' (t.take host (l, true) message origin)
        (Function.update_of_ne (hne false) _ _) (Function.update_of_ne (hne true) _ _) rfl).symm
  suffices hreply : inFlight codec ((t.take host (l, true) message origin).reply codec (l, true)
      reply) l' = inFlight codec (t.take host (l, true) message origin) l' by
    rw [hreply, htake]
  cases reply with
  | none => rfl
  | some command =>
    by_cases hl : l' = l
    · subst hl
      have hne : ((l', false) : End) ≠ (l', true) := by simp
      unfold inFlight Traffic.reply
      dsimp only
      rw [Function.update_self, Function.update_of_ne hne]
      exact between_push_receiver _ _
    · have hne : ∀ side, ((l', side) : End) ≠ (l, true) := by
        intro side heq
        exact hl (congrArg Prod.fst heq)
      exact inFlight_congr (Function.update_of_ne (hne false) _ _)
        (Function.update_of_ne (hne true) _ _) rfl

/-- At an end that its host has opened, a round takes nothing that is under way from it. -/
theorem inFlight_take_opened {host : ι} {message : BNetMessage} {origin : Option ℕ} (l' : ℕ) :
    inFlight codec (t.take host (l, false) message origin) l' = inFlight codec t l' := by
  by_cases hl : l' = l
  · subst hl
    have hne : ((l', true) : End) ≠ (l', false) := by simp
    unfold inFlight Traffic.take
    dsimp only
    rw [Function.update_self, Function.update_of_ne hne]
    rfl
  · have hne : ∀ side, ((l', side) : End) ≠ (l, false) := by
      intro side heq
      exact hl (congrArg Prod.fst heq)
    exact inFlight_congr (Function.update_of_ne (hne false) _ _)
      (Function.update_of_ne (hne true) _ _) rfl

end Traffic

namespace Mesh

open Bubi.Topology Traffic

variable {ι : Type}

/-- The steps that leave the connections as they are. -/
def exchanges : MeshEvent ι → Bool
  | .request _ _ _ | .send _ _ | .deliver _ _ | .process _ _ => true
  | _ => false

/-- The connections of a mesh: one link from every host to each that it has connected to, with
both ends among the nodes, and no others. -/
structure Settled (connected : ι → ι → Bool) (link : ι → ι → ℕ) (w : Topology ι) : Prop where
  opened : ∀ i e, e ∈ (outbound (w.vNodes i)).map Peer.pointer ↔
    ∃ j, connected i j = true ∧ e = (link i j, false)
  nodes : ∀ i, ∀ p ∈ w.vNodes i,
    (∃ j, connected i j = true ∧ p.pointer = (link i j, false)) ∨
      ∃ j, connected j i = true ∧ p.pointer = (link j i, true)
  link : ∀ i j i' j', connected i j = true → connected i' j' = true → link i j = link i' j' →
    i = i' ∧ j = j'

/-- A network with the ledgers of a mesh, whose channels are what is under way in the mesh. -/
structure Mirrors (codec : MessageCodec) (connected : ι → ι → Bool) (link : ι → ι → ℕ)
    (n : Mesh ι) (m : Network ι) : Prop where
  ledgers : m.ledgers = n.ledgers
  requests : m.requests = n.traffic.handled.length
  channels : ∀ i j, connected i j = true →
    (m.channels i j).map (fun sent =>
      (some sent.request, BNetMessage.unserializer codec sent.data)) =
        inFlight codec n.traffic (link i j)

/-- The requests of an event of a mesh. -/
def requested : MeshEvent ι → Option (ι × Surroundings × Request)
  | .request host m request => some (host, m, request)
  | _ => none

/-- The requests of an event of a network. -/
def requestedOf : NetworkEvent ι → Option (ι × Surroundings × Request)
  | .request host m request => some (host, m, request)
  | .process _ _ => none

section Simulation

variable [DecidableEq ι] {sha : Bytes → Uint256} {pb : Protobuf} {codec : MessageCodec}
  {extract : Bytes → Option ℚ} {hostOf : BService → Option ι} {peers : ι → List BService}
  {connected : ι → ι → Bool} {link : ι → ι → ℕ} {n : Mesh ι} {m : Network ι}

omit [DecidableEq ι] in
/-- A step that moves what is under way and reaches no ledger. -/
theorem Mirrors.of_inFlight (h : Mirrors codec connected link n m) {n' : Mesh ι}
    (hledgers : n'.ledgers = n.ledgers)
    (hhandled : n'.traffic.handled = n.traffic.handled)
    (hflight : ∀ l, inFlight codec n'.traffic l = inFlight codec n.traffic l) :
    Mirrors codec connected link n' m where
  ledgers := h.ledgers.trans hledgers.symm
  requests := hhandled ▸ h.requests
  channels := by
    intro i j hij
    rw [hflight]
    exact h.channels i j hij

/-- A request at a host of the mesh is one at the same host of the network. -/
theorem Mirrors.request (h : Mirrors codec connected link n m)
    (hsettled : Settled connected link n.topology) (hacc : Accounted hostOf peers codec n)
    {host : ι} {surroundings : Surroundings} {request : Request}
    {r : Ledger.State × Command × Output}
    (hr : handleRequest sha pb extract surroundings (n.ledgers host) request = .ok r) :
    ∃ m', Network.event sha pb codec extract connected m (.request host surroundings request) =
        .ok m' ∧
      Mirrors codec connected link { n with
        ledgers := Function.update n.ledgers host r.1
        traffic := n.traffic.broadcast codec host (n.topology.vNodes host) r.2.1 } m' := by
  have hnodup := outbound_nodup hacc.wired host
  have hside : ∀ e ∈ (outbound (n.topology.vNodes host)).map Peer.pointer, e.2 = false := by
    intro e he
    obtain ⟨j, _, rfl⟩ := (hsettled.opened host e).mp he
    rfl
  have hevent : Network.event sha pb codec extract connected m
      (.request host surroundings request) = .ok
        { ledgers := Function.update m.ledgers host r.1
          channels := m.push connected host
            ⟨m.requests, r.2.2, (messageOf r.2.1).serializer codec⟩
          requests := m.requests + 1 } := by
    rw [Network.event, h.ledgers, hr, ok_bind]
  refine ⟨_, hevent, ?_, ?_, fun i j hij => ?_⟩
  · rw [h.ledgers]
  · have hlength : (n.traffic.broadcast codec host (n.topology.vNodes host) r.2.1).handled.length =
        n.traffic.handled.length + 1 := List.length_append
    exact (congrArg (· + 1) h.requests).trans hlength.symm
  · -- Of the links to connected hosts, the host has opened those of its own.
    have hopened : ((link i j, false) : End) ∈
        (outbound (n.topology.vNodes host)).map Peer.pointer ↔ i = host := by
      rw [hsettled.opened]
      constructor
      · rintro ⟨j', hj', heq⟩
        exact (hsettled.link i j host j' hij hj' (congrArg Prod.fst heq)).1
      · rintro rfl
        exact ⟨j, hij, rfl⟩
    dsimp only
    rw [hacc.tracked.inFlight_broadcast hnodup hside, ← h.channels i j hij, ← h.requests]
    unfold Network.push
    by_cases hi : i = host
    · rw [if_pos ⟨hi, hij⟩, if_pos (hopened.mpr hi), List.map_append, List.map_singleton,
        unserializer_messageOf]
    · rw [if_neg fun hand => hi hand.1, if_neg fun hmem => hi (hopened.mp hmem), List.append_nil]

/-- A message that is taken up at an accepted end is the front of its channel. -/
theorem Mirrors.process (h : Mirrors codec connected link n m)
    (hsettled : Settled connected link n.topology) {sender host : ι}
    (hconnected : connected sender host = true) {message : BNetMessage}
    {messages : List BNetMessage} {origin : Option ℕ} {origins : List (Option ℕ)}
    (hqueue : (n.traffic.nodes (link sender host, true)).node.vRecvMsg = message :: messages)
    (horigins : (n.traffic.nodes (link sender host, true)).recvOrigins = origin :: origins)
    {r : Ledger.State × Option Command}
    (hr : processMessage sha pb (n.ledgers host) message = .ok r) :
    ∃ m', Network.event sha pb codec extract connected m (.process sender host) = .ok m' ∧
      Mirrors codec connected link { n with
        ledgers := Function.update n.ledgers host r.1
        traffic := (n.traffic.take host (link sender host, true) message origin).reply codec
          (link sender host, true) r.2 } m' := by
  have hflight := @inFlight_round_accepted _ codec n.traffic (link sender host) host _ _ _ _ hqueue
    horigins r.2
  have hchannel := h.channels sender host hconnected
  rw [hflight (link sender host), if_pos rfl, List.singleton_append, List.map_eq_cons_iff]
    at hchannel
  obtain ⟨sent, rest, hsent, hfront, hrest⟩ := hchannel
  have hmessage : BNetMessage.unserializer codec sent.data = message :=
    congrArg Prod.snd hfront
  have hevent : Network.event sha pb codec extract connected m (.process sender host) = .ok
      { m with
        ledgers := Function.update m.ledgers host r.1
        channels := Function.update m.channels sender
          (Function.update (m.channels sender) host rest) } := by
    rw [Network.event, hsent]
    dsimp only
    rw [h.ledgers, hmessage, hr, ok_bind]
  refine ⟨_, hevent, ?_, ?_, fun i j hij => ?_⟩
  · rw [h.ledgers]
  · dsimp only
    rw [h.requests, reply_records.1]
    rfl
  · dsimp only
    by_cases hsame : i = sender ∧ j = host
    · obtain ⟨rfl, rfl⟩ := hsame
      rw [Function.update_self, Function.update_self]
      exact hrest
    · have hl : link i j ≠ link sender host := fun heq =>
        hsame (hsettled.link i j sender host hij hconnected heq)
      have hkept : Function.update m.channels sender
          (Function.update (m.channels sender) host rest) i j = m.channels i j := by
        by_cases hi : i = sender
        · subst hi
          rw [Function.update_self, Function.update_of_ne fun hj => hsame ⟨rfl, hj⟩]
        · rw [Function.update_of_ne hi]
      rw [hkept, h.channels i j hij, hflight, if_neg hl]
      rfl

omit [DecidableEq ι] in
/-- A reply is taken up without a change. -/
theorem Accounted.process_opened (hacc : Accounted hostOf peers codec n) {l : ℕ} {host : ι}
    {message : BNetMessage} {messages : List BNetMessage} {origin : Option ℕ}
    {origins : List (Option ℕ)}
    (hqueue : (n.traffic.nodes (l, false)).node.vRecvMsg = message :: messages)
    (horigins : (n.traffic.nodes (l, false)).recvOrigins = origin :: origins) :
    processMessage sha pb (n.ledgers host) message = .ok (n.ledgers host, none) := by
  have hnone : origin = none :=
    (hacc.tracked.backward (l, false)).recv rfl origin (horigins ▸ List.mem_cons_self)
  exact processMessage_of_replyTo (((hacc.tracked.nodes _).pop hqueue horigins).2 hnone)

/-- A step of the mesh that leaves the connections as they are is no step or one step of the
network, with the same request. -/
def Mirrored (sha : Bytes → Uint256) (pb : Protobuf) (codec : MessageCodec)
    (extract : Bytes → Option ℚ) (connected : ι → ι → Bool) (link : ι → ι → ℕ) (m : Network ι)
    (n : Mesh ι) (request : Option (ι × Surroundings × Request)) (n' : Mesh ι) : Prop :=
  n'.topology = n.topology ∧ ∃ (events : List (NetworkEvent ι)) (m' : Network ι),
    events.foldlM (Network.event sha pb codec extract connected) m = .ok m' ∧
      events.filterMap requestedOf = request.toList ∧ Mirrors codec connected link n' m'

theorem Mirrors.mirrored_of_inFlight (h : Mirrors codec connected link n m) {n' : Mesh ι}
    (htopology : n'.topology = n.topology) (hledgers : n'.ledgers = n.ledgers)
    (hhandled : n'.traffic.handled = n.traffic.handled)
    (hflight : ∀ l, inFlight codec n'.traffic l = inFlight codec n.traffic l) :
    Mirrored sha pb codec extract connected link m n none n' :=
  ⟨htopology, [], m, rfl, rfl, h.of_inFlight hledgers hhandled hflight⟩

theorem mirrored_of_event {n' : Mesh ι} {e : NetworkEvent ι} {m' : Network ι}
    (htopology : n'.topology = n.topology)
    (hm' : Network.event sha pb codec extract connected m e = .ok m')
    (hmirrors : Mirrors codec connected link n' m') :
    Mirrored sha pb codec extract connected link m n (requestedOf e) n' := by
  refine ⟨htopology, [e], m', foldlM_cons_ok.mpr ⟨m', hm', rfl⟩, ?_, hmirrors⟩
  cases h : requestedOf e with
  | none => rw [List.filterMap_cons_none h]; rfl
  | some request => rw [List.filterMap_cons_some h]; rfl

/-- A host that stops does not run. -/
theorem running_stop (n : Mesh ι) (host : ι) : (n.stop host).running host = false :=
  Function.update_self ..

/-- The request that a host handles. -/
theorem Mirrors.act_request (h : Mirrors codec connected link n m)
    (hsettled : Settled connected link n.topology) (hacc : Accounted hostOf peers codec n)
    {host : ι} {surroundings : Surroundings} {request : Request}
    (hrunning : (Mesh.act sha pb codec extract hostOf peers n
      (.request host surroundings request)).running host = true) :
    Mirrored sha pb codec extract connected link m n (some (host, surroundings, request))
      (Mesh.act sha pb codec extract hostOf peers n (.request host surroundings request)) := by
  dsimp only [Mesh.act] at hrunning ⊢
  cases hr : handleRequest sha pb extract surroundings (n.ledgers host) request with
  | error f =>
    rw [hr] at hrunning
    exact absurd ((running_stop n host).symm.trans hrunning) Bool.noConfusion
  | ok r =>
    obtain ⟨m', hm', hmirrors⟩ := h.request hsettled hacc hr
    exact mirrored_of_event rfl hm' hmirrors

/-- The message that a host takes up: a reply at an end that it has opened, or the front of a
channel at one that it has accepted. -/
theorem Mirrors.act_process (h : Mirrors codec connected link n m)
    (hsettled : Settled connected link n.topology) (hacc : Accounted hostOf peers codec n)
    {host : ι} {p : Peer End} (hp : p ∈ n.topology.vNodes host)
    (hrunning : (Mesh.act sha pb codec extract hostOf peers n
      (.process host p.pointer)).running host = true) :
    Mirrored sha pb codec extract connected link m n none
      (Mesh.act sha pb codec extract hostOf peers n (.process host p.pointer)) := by
  dsimp only [Mesh.act] at hrunning ⊢
  cases hqueue : (n.traffic.nodes p.pointer).node.vRecvMsg with
  | nil => exact h.mirrored_of_inFlight rfl rfl rfl fun _ => rfl
  | cons message messages =>
    cases horigins : (n.traffic.nodes p.pointer).recvOrigins with
    | nil => exact h.mirrored_of_inFlight rfl rfl rfl fun _ => rfl
    | cons origin origins =>
      rw [hqueue, horigins] at hrunning
      dsimp only at hrunning ⊢
      rcases hsettled.nodes host p hp with ⟨j, _, hpointer⟩ | ⟨j, hj, hpointer⟩
      · rw [hpointer] at hqueue horigins ⊢
        rw [hacc.process_opened hqueue horigins]
        refine h.mirrored_of_inFlight rfl (Function.update_eq_self host n.ledgers) rfl fun l => ?_
        exact inFlight_take_opened l
      · rw [hpointer] at hqueue horigins hrunning ⊢
        cases hr : processMessage sha pb (n.ledgers host) message with
        | error f =>
          rw [hr] at hrunning
          exact absurd ((running_stop n host).symm.trans hrunning) Bool.noConfusion
        | ok r =>
          obtain ⟨m', hm', hmirrors⟩ := h.process hsettled hj hqueue horigins hr
          exact mirrored_of_event rfl hm' hmirrors

/-- A step that leaves the connections as they are, with no host stopped after it, is no step or
one step of the network. -/
theorem Mirrors.event (h : Mirrors codec connected link n m)
    (hsettled : Settled connected link n.topology) (hacc : Accounted hostOf peers codec n)
    {e : MeshEvent ι} (he : exchanges e = true)
    (hrunning : ∀ i, (event sha pb codec extract hostOf peers n e).running i = true) :
    Mirrored sha pb codec extract connected link m n (requested e)
      (event sha pb codec extract hostOf peers n e) := by
  unfold Mesh.event at hrunning ⊢
  split at hrunning
  · rename_i hcan
    rw [if_pos hcan]
    cases e with
    | request host surroundings request => exact h.act_request hsettled hacc (hrunning host)
    | send host end' =>
      exact h.mirrored_of_inFlight rfl rfl send_records.1 (inFlight_send _ _)
    | deliver host end' =>
      exact h.mirrored_of_inFlight rfl rfl deliver_records.1 (hacc.tracked.inFlight_deliver _)
    | process host end' =>
      obtain ⟨p, hp, rfl⟩ := listed_iff.mp (Bool.and_eq_true_iff.mp hcan).2
      exact h.act_process hsettled hacc hp (hrunning host)
    | _ => cases he
  · rename_i hcan
    rw [if_neg hcan]
    cases e with
    | request host surroundings request =>
      -- A host that is running can always handle a request.
      exact absurd (Bool.and_eq_true_iff.mpr ⟨hrunning host, rfl⟩) hcan
    | send host end' => exact h.mirrored_of_inFlight rfl rfl rfl fun _ => rfl
    | deliver host end' => exact h.mirrored_of_inFlight rfl rfl rfl fun _ => rfl
    | process host end' => exact h.mirrored_of_inFlight rfl rfl rfl fun _ => rfl
    | _ => cases he

/-- A host that runs has not stopped before. -/
theorem running_of_event {e : MeshEvent ι} {i : ι}
    (h : (event sha pb codec extract hostOf peers n e).running i = true) :
    n.running i = true := by
  have hstop : ∀ host, (n.stop host).running i = true → n.running i = true := by
    intro host hi
    dsimp only [Mesh.stop] at hi
    rw [Function.update_apply] at hi
    split at hi
    · cases hi
    · exact hi
  unfold Mesh.event at h
  split at h
  · cases e with
    | connectSocket host connected =>
      dsimp only [Mesh.act] at h
      split at h
      · exact h
      · split at h <;> exact h
    | acceptSocket host bService =>
      dsimp only [Mesh.act] at h
      split at h <;> exact h
    | request host surroundings request =>
      dsimp only [Mesh.act] at h
      split at h
      · exact hstop host h
      · exact h
    | process host end' =>
      dsimp only [Mesh.act] at h
      split at h
      · split at h
        · exact hstop host h
        · exact h
      · exact h
    | _ => exact h
  · exact h

theorem running_of_run {events : List (MeshEvent ι)} {i : ι}
    (h : (events.foldl (event sha pb codec extract hostOf peers) n).running i = true) :
    n.running i = true := by
  induction events generalizing n with
  | nil => exact h
  | cons e events ih => exact running_of_event (ih h)

/-- An exchange over connections that stay as they are, after which every host runs, is a run of
the network with the same requests. -/
theorem Mirrors.run {events : List (MeshEvent ι)} (h : Mirrors codec connected link n m)
    (hsettled : Settled connected link n.topology) (hacc : Accounted hostOf peers codec n)
    (hevents : ∀ e ∈ events, exchanges e = true)
    (hrunning : ∀ i,
      (events.foldl (Mesh.event sha pb codec extract hostOf peers) n).running i = true) :
    ∃ (events' : List (NetworkEvent ι)) (m' : Network ι),
      events'.foldlM (Network.event sha pb codec extract connected) m = .ok m' ∧
      events'.filterMap requestedOf = events.filterMap requested ∧
      Mirrors codec connected link
        (events.foldl (Mesh.event sha pb codec extract hostOf peers) n) m' := by
  induction events generalizing n m with
  | nil => exact ⟨[], m, rfl, rfl, h⟩
  | cons e events ih =>
    obtain ⟨htopology, first, m₁, hfirst, hrequests, hmirrors⟩ :=
      h.event hsettled hacc (hevents e List.mem_cons_self) fun i => running_of_run (hrunning i)
    obtain ⟨rest, m₂, hrest, hrequests', hmirrors'⟩ :=
      ih hmirrors (htopology ▸ hsettled) (hacc.run [e])
        (fun e' he' => hevents e' (List.mem_cons_of_mem _ he')) hrunning
    refine ⟨first ++ rest, m₂, foldlM_append_ok.mpr ⟨m₁, hfirst, hrest⟩, ?_, hmirrors'⟩
    rw [List.filterMap_append, hrequests, hrequests', List.filterMap_cons]
    cases requested e with
    | none => rfl
    | some request => rfl

/-- The network with the ledgers of a mesh and nothing under way. -/
def idle (n : Mesh ι) : Network ι where
  ledgers := n.ledgers
  channels _ _ := []
  requests := n.traffic.handled.length

/-- From where nothing is under way to an accepted end, every exchange after which all hosts run
is one of the network. -/
theorem Settled.exists_network_run (hsettled : Settled connected link n.topology)
    (hacc : Accounted hostOf peers codec n)
    (hidle : ∀ i j, connected i j = true → inFlight codec n.traffic (link i j) = [])
    (events : List (MeshEvent ι)) (hevents : ∀ e ∈ events, exchanges e = true)
    (hrunning : ∀ i,
      (events.foldl (event sha pb codec extract hostOf peers) n).running i = true) :
    ∃ (events' : List (NetworkEvent ι)) (m : Network ι),
      events'.foldlM (Network.event sha pb codec extract connected) n.idle = .ok m ∧
      events'.filterMap requestedOf = events.filterMap requested ∧
      m.ledgers = (events.foldl (event sha pb codec extract hostOf peers) n).ledgers ∧
      ∀ i j, connected i j = true →
        (m.channels i j).map (fun sent =>
          (some sent.request, BNetMessage.unserializer codec sent.data)) =
            inFlight codec (events.foldl (event sha pb codec extract hostOf peers) n).traffic
              (link i j) := by
  have hmirrors : Mirrors codec connected link n n.idle :=
    ⟨rfl, rfl, fun i j hij => (hidle i j hij).symm⟩
  obtain ⟨events', m, hrun, hrequests, hlast⟩ := hmirrors.run hsettled hacc hevents hrunning
  exact ⟨events', m, hrun, hrequests, hlast.ledgers, hlast.channels⟩

end Simulation

section Sample

/-- The connecting part of the sample exchange. -/
def sampleConnected (l : Ledger) : Mesh Bool :=
  (sampleExchange.take 6).foldl (event checksum plainProtobuf plainMessages decimal sampleHost
    samplePeers) (start fun _ => (fun _ => none, l))

/-- The hosts have connected to each other, the first one first. -/
def sampleLink (i _j : Bool) : ℕ := if i then 1 else 0

theorem vNodes_sampleConnected (l : Ledger) (i : Bool) :
    (sampleConnected l).topology.vNodes i =
      [⟨(sampleLink i !i, false), addressOf !i, false⟩,
        ⟨(sampleLink (!i) i, true), ⟨if i then 0x0a000001 else 0x0a000002, 40000⟩, true⟩] := by
  cases i <;> rfl

/-- Two hosts that have connected to each other are settled. -/
theorem settled_sampleConnected (l : Ledger) :
    Settled (fun i j => i != j) sampleLink (sampleConnected l).topology where
  opened := by
    intro i e
    rw [vNodes_sampleConnected]
    cases i <;> simp [outbound, sampleLink]
  nodes := by
    intro i p hp
    rw [vNodes_sampleConnected] at hp
    cases i <;> simp at hp <;> rcases hp with rfl | rfl <;> simp [sampleLink]
  link := by decide

/-- Nothing has been pushed yet. -/
theorem inFlight_sampleConnected (l : Ledger) (i j : Bool) :
    inFlight plainMessages (sampleConnected l).traffic (sampleLink i j) = [] := by
  have hwires : (sampleConnected l).traffic.wires (sampleLink i j, true) = [] := rfl
  have hsend : ((sampleConnected l).traffic.nodes (sampleLink i j, false)).sendOrigins = [] := by
    cases i <;> rfl
  have hrecv : ((sampleConnected l).traffic.nodes (sampleLink i j, true)).recvOrigins = [] := by
    cases i <;> rfl
  rw [inFlight, between, hwires, hsend, hrecv]
  rfl

/-- The rest of the sample exchange is a run of the network with one request. -/
example : ∃ (l : Ledger) (events' : List (NetworkEvent Bool)) (m : Network Bool),
    Ledger.new checksum = .ok l ∧
      events'.foldlM (Network.event checksum plainProtobuf plainMessages decimal fun i j => i != j)
        (sampleConnected l).idle = .ok m ∧
      (events'.filterMap requestedOf).length = 1 := by
  have hok : (do
      let l ← Ledger.new checksum
      let n := (sampleExchange.drop 6).foldl (event checksum plainProtobuf plainMessages decimal
        sampleHost samplePeers) (sampleConnected l)
      .ok (decide (∀ i, n.running i = true))) = .ok true :=
    eq_ok_of_toOption (by decide +kernel)
  obtain ⟨l, hl, hok⟩ := bind_eq_ok.mp hok
  obtain ⟨events', m, hrun, hrequests, _⟩ :=
    (settled_sampleConnected l).exists_network_run ((accounted_start _).run _)
      (fun i j _ => inFlight_sampleConnected l i j) (sampleExchange.drop 6) (by decide)
        (of_decide_eq_true (Except.ok.inj hok))
  exact ⟨l, events', m, hl, hrun, congrArg List.length hrequests⟩

end Sample

end Mesh

end Bubi
