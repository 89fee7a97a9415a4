import Bubi.Net.Peers

/-!
# Hosts that connect to each other

Every host has a list of addresses to connect to, and any host may stand behind an
address. A connection has two ends: the node of the host that opened it, and, once
`AcceptSocket` has taken it up, the node of the host that it was opened to. Strings cross
it in order and intact. With every string goes the number of the request that it was
pushed for, or none for a reply; no host reads it. A host that meets a fault stops.
-/

namespace Bubi

open Bubi.Core Peers Process

/-- An end of a connection: the number of the connection, and whether it is the accepted end. -/
abbrev End := ℕ × Bool

/-- The other end of the connection. -/
def End.other (e : End) : End := (e.1, !e.2)

theorem End.other_ne (e : End) : e.other ≠ e := by
  intro h
  have hside : (!e.2) = e.2 := congrArg Prod.snd h
  cases hcase : e.2 <;> rw [hcase] at hside <;> cases hside

@[simp] theorem End.other_other (e : End) : e.other.other = e := by
  simp [End.other]

/-- A connection has no third end. -/
theorem End.eq_or_other {e e' : End} (h : e'.1 = e.1) : e' = e ∨ e' = e.other := by
  obtain ⟨l, b⟩ := e
  obtain ⟨l', b'⟩ := e'
  cases h
  cases b <;> cases b' <;> simp [End.other]

/-- A node, with the origins of what is in its two queues. -/
structure TrackedNode where
  node : BNode
  sendOrigins : List (Option ℕ)
  recvOrigins : List (Option ℕ)

namespace TrackedNode

/-- `BNode::BNode`. -/
def new (socket : ℕ) : TrackedNode := ⟨.new socket, [], []⟩

/-- `BNode::PushMessage`. -/
def push (codec : MessageCodec) (origin : Option ℕ) (command : Command) (x : TrackedNode) :
    TrackedNode :=
  { x with
    node := x.node.pushMessage codec command.1 command.2
    sendOrigins := x.sendOrigins ++ [origin] }

/-- The front message is taken out of the queue. -/
def pop (x : TrackedNode) : TrackedNode :=
  { x with
    node := { x.node with vRecvMsg := x.node.vRecvMsg.tail }
    recvOrigins := x.recvOrigins.tail }

end TrackedNode

/-- Who is connected to whom. -/
structure Topology (ι : Type) where
  /-- `vNodes` of every host. -/
  vNodes : ι → List (Peer End)
  /-- The address that `ConnectNode` has not found in `vNodes` and connects to. -/
  connecting : ι → Option BService
  /-- The connections that `AcceptSocket` has not taken up. -/
  backlog : ι → List ℕ
  /-- The number of connections so far. -/
  links : ℕ
  /-- The address that a host opened a connection to; none for a client's connection. -/
  service : ℕ → Option BService

namespace Topology

variable {ι : Type} [DecidableEq ι]

/-- `ConnectNode` up to `ConnectSocket`, for an address of the list. -/
def findNode (peers : ι → List BService) (t : Topology ι) (host : ι) (bService : BService) :
    Topology ι :=
  if t.connecting host = none ∧ bService ∈ peers host ∧
      Peers.findNode (t.vNodes host) bService = none then
    { t with connecting := Function.update t.connecting host (some bService) }
  else t

/-- `ConnectSocket` has failed. -/
def giveUp (t : Topology ι) (host : ι) : Topology ι :=
  { t with connecting := Function.update t.connecting host none }

/-- `ConnectNode` after `ConnectSocket`. The connection waits where the address is that of a
host. -/
def connect (hostOf : BService → Option ι) (t : Topology ι) (host : ι) (bService : BService) :
    Topology ι where
  vNodes := Function.update t.vNodes host
    (t.vNodes host ++ [⟨(t.links, false), bService, false⟩])
  connecting := Function.update t.connecting host none
  backlog :=
    match hostOf bService with
    | none => t.backlog
    | some target => Function.update t.backlog target (t.backlog target ++ [t.links])
  links := t.links + 1
  service := Function.update t.service t.links (some bService)

/-- A client opens a connection. -/
def dial (t : Topology ι) (host : ι) : Topology ι :=
  { t with
    backlog := Function.update t.backlog host (t.backlog host ++ [t.links])
    links := t.links + 1
    service := Function.update t.service t.links none }

/-- `AcceptSocket` takes up a connection, and closes it where the host has too many. -/
def accept (t : Topology ι) (host : ι) (link : ℕ) (rest : List ℕ) (bService : BService) :
    Topology ι :=
  { t with
    backlog := Function.update t.backlog host rest
    vNodes := if full (t.vNodes host) then t.vNodes else
      Function.update t.vNodes host (t.vNodes host ++ [⟨(link, true), bService, true⟩]) }

/-- The disconnect phase of a host. -/
def disconnect (t : Topology ι) (host : ι) (nodes : End → BNode) : Topology ι :=
  { t with vNodes := Function.update t.vNodes host (Peers.disconnect nodes (t.vNodes host)) }

section Wired

variable {hostOf : BService → Option ι} {peers : ι → List BService} {t t' : Topology ι} {host : ι}
  {bService : BService}

/-- One list gets one more element. -/
theorem mem_update_append {α : Type} {f : ι → List α} {i : ι} {a x : α}
    (h : x ∈ Function.update f host (f host ++ [a]) i) : x ∈ f i ∨ i = host ∧ x = a := by
  rw [Function.update_apply] at h
  split at h
  · rename_i hi
    subst hi
    rcases List.mem_append.mp h with h | h
    · exact Or.inl h
    · exact Or.inr ⟨rfl, List.mem_singleton.mp h⟩
  · exact Or.inl h

/-- A peer of a host: it was connected to at an address of the host's list, or its connection was
opened to the host. -/
structure Belongs (hostOf : BService → Option ι) (peers : ι → List BService) (t : Topology ι)
    (i : ι) (p : Peer End) : Prop where
  link : p.pointer.1 < t.links
  direction : p.pointer.2 = p.fInbound
  opened : p.fInbound = false → t.service p.pointer.1 = some p.bService ∧ p.bService ∈ peers i
  accepted : p.fInbound = true → ∀ b, t.service p.pointer.1 = some b → hostOf b = some i

/-- A connection that waits at a host was opened to it. -/
structure Waits (hostOf : BService → Option ι) (t : Topology ι) (i : ι) (l : ℕ) : Prop where
  link : l < t.links
  service : ∀ b, t.service l = some b → hostOf b = some i

/-- Every host has connected at most once to an address, also while it connects to one more. -/
structure Wired (hostOf : BService → Option ι) (peers : ι → List BService) (t : Topology ι) :
    Prop where
  vNodes : ∀ i, ∀ p ∈ t.vNodes i, Belongs hostOf peers t i p
  services : ∀ i, ((outbound (t.vNodes i)).map Peer.bService).Nodup
  connecting : ∀ i, ∀ b ∈ t.connecting i,
    b ∈ peers i ∧ b ∉ (outbound (t.vNodes i)).map Peer.bService
  backlog : ∀ i, ∀ l ∈ t.backlog i, Waits hostOf t i l

/-- Connections are added. -/
structure Extends (t t' : Topology ι) : Prop where
  links : t.links ≤ t'.links
  service : ∀ l < t.links, t'.service l = t.service l

omit [DecidableEq ι] in
theorem Extends.rfl {vNodes : ι → List (Peer End)} {connecting : ι → Option BService}
    {backlog : ι → List ℕ} :
    Extends t { t with vNodes := vNodes, connecting := connecting, backlog := backlog } where
  links := le_refl _
  service _ _ := Eq.refl _

omit [DecidableEq ι] in
theorem Belongs.extend {i : ι} {p : Peer End} (h : Belongs hostOf peers t i p)
    (he : Extends t t') : Belongs hostOf peers t' i p := by
  refine ⟨h.link.trans_le he.links, h.direction, ?_, ?_⟩
  · rw [he.service _ h.link]
    exact h.opened
  · rw [he.service _ h.link]
    exact h.accepted

omit [DecidableEq ι] in
theorem Waits.extend {i : ι} {l : ℕ} (h : Waits hostOf t i l) (he : Extends t t') :
    Waits hostOf t' i l := by
  refine ⟨h.link.trans_le he.links, ?_⟩
  rw [he.service _ h.link]
  exact h.service

theorem Wired.findNode (h : Wired hostOf peers t) :
    Wired hostOf peers (t.findNode peers host bService) := by
  unfold Topology.findNode
  split
  · rename_i hfree
    refine ⟨fun i p hp => (h.vNodes i p hp).extend .rfl, h.services, fun i b hb => ?_,
    fun i l hl => (h.backlog i l hl).extend .rfl⟩
    dsimp only at hb
    rw [Function.update_apply] at hb
    split at hb
    · rename_i hi
      subst hi
      cases hb
      refine ⟨hfree.2.1, fun hmem => ?_⟩
      obtain ⟨p, hp, heq⟩ := List.mem_map.mp hmem
      exact findNode_eq_none.mp hfree.2.2 p (mem_outbound.mp hp).1 heq
    · exact h.connecting i b hb
  · exact h

theorem extends_findNode : Extends t (t.findNode peers host bService) := by
  unfold Topology.findNode
  split
  · exact .rfl
  · exact ⟨le_refl _, fun _ _ => rfl⟩

theorem Wired.giveUp (h : Wired hostOf peers t) : Wired hostOf peers (t.giveUp host) := by
  refine ⟨fun i p hp => (h.vNodes i p hp).extend .rfl, h.services, fun i b hb => ?_,
    fun i l hl => (h.backlog i l hl).extend .rfl⟩
  unfold Topology.giveUp at hb
  dsimp only at hb
  rw [Function.update_apply] at hb
  split at hb
  · cases hb
  · exact h.connecting i b hb

theorem extends_connect : Extends t (t.connect hostOf host bService) where
  links := Nat.le_succ _
  service _ hl := Function.update_of_ne hl.ne _ _

theorem extends_dial : Extends t (t.dial host) where
  links := Nat.le_succ _
  service _ hl := Function.update_of_ne hl.ne _ _

theorem outbound_connect (i : ι) :
    outbound ((t.connect hostOf host bService).vNodes i) =
      if i = host then outbound (t.vNodes i) ++ [⟨(t.links, false), bService, false⟩]
      else outbound (t.vNodes i) := by
  unfold Topology.connect
  dsimp only
  rw [Function.update_apply]
  split
  · rename_i hi
    rw [hi, outbound_append_outbound]
  · exact Eq.refl _

/-- A new connection waits at the host of its address. -/
theorem mem_backlog_connect {i : ι} {l : ℕ}
    (hl : l ∈ (t.connect hostOf host bService).backlog i) :
    l ∈ t.backlog i ∨ l = t.links ∧ hostOf bService = some i := by
  unfold Topology.connect at hl
  dsimp only at hl
  cases htarget : hostOf bService with
  | none =>
    rw [htarget] at hl
    exact Or.inl hl
  | some target =>
    rw [htarget] at hl
    rcases mem_update_append hl with hl | ⟨rfl, rfl⟩
    · exact Or.inl hl
    · exact Or.inr ⟨Eq.refl _, Eq.refl _⟩

/-- `ConnectNode` appends a node for an address that it has not found. -/
theorem Wired.connect (h : Wired hostOf peers t) (hconnecting : t.connecting host = some bService) :
    Wired hostOf peers (t.connect hostOf host bService) := by
  obtain ⟨hpeers, hnew⟩ := h.connecting host bService hconnecting
  refine ⟨fun i p hp => ?_, fun i => ?_, fun i b hb => ?_, fun i l hl => ?_⟩
  · rcases mem_update_append hp with hp | ⟨rfl, rfl⟩
    · exact (h.vNodes i p hp).extend extends_connect
    · refine ⟨Nat.lt_succ_self _, Eq.refl _, fun _ => ⟨?_, hpeers⟩, fun hinbound => ?_⟩
      · exact Function.update_self _ _ _
      · cases hinbound
  · rw [outbound_connect]
    split
    · rename_i hi
      subst hi
      rw [List.map_append, List.map_singleton]
      refine List.Nodup.append (h.services i) (List.nodup_singleton _) ?_
      rw [List.disjoint_singleton]
      exact hnew
    · exact h.services i
  · have hne : i ≠ host := by
      rintro rfl
      unfold Topology.connect at hb
      dsimp only at hb
      rw [Function.update_self] at hb
      cases hb
    unfold Topology.connect at hb
    dsimp only at hb
    rw [Function.update_of_ne hne] at hb
    rw [outbound_connect, if_neg hne]
    exact h.connecting i b hb
  · rcases mem_backlog_connect hl with hl | ⟨rfl, htarget⟩
    · exact (h.backlog i l hl).extend extends_connect
    · refine ⟨Nat.lt_succ_self _, fun b hb => ?_⟩
      have hself : (t.connect hostOf host bService).service t.links = some bService :=
        Function.update_self _ _ _
      rw [hself] at hb
      cases hb
      exact htarget

theorem Wired.dial (h : Wired hostOf peers t) : Wired hostOf peers (t.dial host) := by
  refine ⟨fun i p hp => (h.vNodes i p hp).extend extends_dial, h.services, h.connecting,
    fun i l hl => ?_⟩
  rcases mem_update_append hl with hl | ⟨_, rfl⟩
  · exact (h.backlog i l hl).extend extends_dial
  · refine ⟨Nat.lt_succ_self _, fun b hb => ?_⟩
    have hself : (t.dial host).service t.links = none := Function.update_self _ _ _
    rw [hself] at hb
    cases hb

section Accept

variable {link : ℕ} {rest : List ℕ}

theorem mem_backlog_accept (hbacklog : t.backlog host = link :: rest) {i : ι} {l : ℕ}
    (hl : l ∈ (t.accept host link rest bService).backlog i) : l ∈ t.backlog i := by
  unfold Topology.accept at hl
  dsimp only at hl
  rw [Function.update_apply] at hl
  split at hl
  · rename_i hi
    rw [hi, hbacklog]
    exact List.mem_cons_of_mem _ hl
  · exact hl

theorem mem_vNodes_accept {i : ι} {p : Peer End}
    (hp : p ∈ (t.accept host link rest bService).vNodes i) :
    p ∈ t.vNodes i ∨ i = host ∧ p = ⟨(link, true), bService, true⟩ := by
  unfold Topology.accept at hp
  dsimp only at hp
  split at hp
  · exact Or.inl hp
  · exact mem_update_append hp

theorem outbound_accept (i : ι) :
    outbound ((t.accept host link rest bService).vNodes i) = outbound (t.vNodes i) := by
  unfold Topology.accept
  dsimp only
  split
  · exact Eq.refl _
  · rw [Function.update_apply]
    split
    · rename_i hi
      rw [hi, outbound_append_inbound]
    · exact Eq.refl _

end Accept

/-- `AcceptSocket` appends a node for a connection that was opened to its host. -/
theorem Wired.accept (h : Wired hostOf peers t) {link : ℕ} {rest : List ℕ}
    (hbacklog : t.backlog host = link :: rest) :
    Wired hostOf peers (t.accept host link rest bService) := by
  have hlink := h.backlog host link (hbacklog ▸ List.mem_cons_self)
  refine ⟨fun i p hp => ?_, fun i => ?_, fun i => ?_, fun i l hl => ?_⟩
  · rcases mem_vNodes_accept hp with hp | ⟨rfl, rfl⟩
    · exact (h.vNodes i p hp).extend .rfl
    · refine ⟨hlink.1, Eq.refl _, fun hinbound => ?_, fun _ => hlink.2⟩
      cases hinbound
  · rw [outbound_accept]
    exact h.services i
  · rw [outbound_accept]
    exact h.connecting i
  · exact (h.backlog i l (mem_backlog_accept hbacklog hl)).extend .rfl

/-- The disconnect phase leaves some of the nodes. -/
theorem Wired.disconnect (h : Wired hostOf peers t) {nodes : End → BNode} :
    Wired hostOf peers (t.disconnect host nodes) := by
  have hsublist : ∀ i, ((t.disconnect host nodes).vNodes i).Sublist (t.vNodes i) := by
    intro i
    unfold Topology.disconnect
    dsimp only
    rw [Function.update_apply]
    split
    · rename_i hi
      rw [hi]
      exact List.filter_sublist
    · exact List.Sublist.refl _
  have houtbound : ∀ i, ((outbound ((t.disconnect host nodes).vNodes i)).map
      Peer.bService).Sublist ((outbound (t.vNodes i)).map Peer.bService) :=
    fun i => ((hsublist i).filter _).map _
  refine ⟨fun i p hp => (h.vNodes i p ((hsublist i).subset hp)).extend .rfl, fun i => ?_,
    fun i b hb => ?_, fun i l hl => (h.backlog i l hl).extend .rfl⟩
  · exact (h.services i).sublist (houtbound i)
  · obtain ⟨hpeers, hnew⟩ := h.connecting i b hb
    exact ⟨hpeers, fun hmem => hnew ((houtbound i).subset hmem)⟩

end Wired

end Topology

/-- What is queued and under way, and what has happened. -/
structure Traffic (ι : Type) where
  nodes : End → TrackedNode
  /-- The strings that have been sent to an end and have not arrived. -/
  wires : End → List (Option ℕ × Bytes)
  /-- The requests handled so far: the host, and the number of peers that it had connected to. -/
  handled : List (ι × ℕ)
  /-- The messages pushed for requests: the connection and the number of the request. -/
  pushes : List (ℕ × ℕ)
  /-- The messages of requests that hosts have taken up: the host, the connection and the number
  of the request. -/
  applied : List (ι × ℕ × ℕ)
  /-- The number of messages that have been pushed. -/
  pushed : ℕ

namespace Traffic

variable {ι : Type}

/-- A new node at an end. -/
def renew (t : Traffic ι) (e : End) : Traffic ι :=
  { t with nodes := Function.update t.nodes e (.new e.1) }

/-- `CloseSocketDisconnect`. -/
def close (t : Traffic ι) (e : End) : Traffic ι :=
  { t with
    nodes := Function.update t.nodes e
      { t.nodes e with node := (t.nodes e).node.closeSocketDisconnect } }

/-- `SocketSendData` hands the front message to the socket. -/
def send (t : Traffic ι) (e : End) : Traffic ι :=
  match (t.nodes e).node.vSendMsg, (t.nodes e).sendOrigins with
  | data :: _, origin :: origins =>
    match BNode.socketSendData [.accepted data.length] ((t.nodes e).node, []) with
    | .error _ => t
    | .ok r =>
      { t with
        nodes := Function.update t.nodes e
          { t.nodes e with
            node := r.1.1
            sendOrigins := origins }
        wires := Function.update t.wires e.other (t.wires e.other ++ [(origin, r.1.2)]) }
  | _, _ => t

/-- `SocketRecvData` on a string that has arrived. -/
def deliver (codec : MessageCodec) (t : Traffic ι) (e : End) : Traffic ι :=
  match t.wires e with
  | [] => t
  | (origin, data) :: rest =>
    { t with
      nodes := Function.update t.nodes e
        { t.nodes e with
          node := (t.nodes e).node.socketRecvData codec (.received data)
          recvOrigins := (t.nodes e).recvOrigins ++ [origin] }
      wires := Function.update t.wires e rest }

/-- A request is handled: its message is pushed to all nodes that the host has connected to. -/
def broadcast (codec : MessageCodec) (t : Traffic ι) (host : ι) (vNodes : List (Peer End))
    (command : Command) : Traffic ι :=
  { t with
    nodes := pushOutbound (.push codec (some t.handled.length) command) vNodes t.nodes
    handled := t.handled ++ [(host, (outbound vNodes).length)]
    pushes := t.pushes ++ (outbound vNodes).map fun p => (p.pointer.1, t.handled.length)
    pushed := t.pushed + (outbound vNodes).length }

/-- What is noted when a message is taken up: nothing for a message that no handler reads. -/
def note (host : ι) (e : End) (message : BNetMessage) (origin : Option ℕ) : List (ι × ℕ × ℕ) :=
  if (replyTo message).isSome then origin.toList.map fun r => (host, e.1, r) else []

/-- A round of `ProcessMessages` takes up the front message. -/
def take (t : Traffic ι) (host : ι) (e : End) (message : BNetMessage) (origin : Option ℕ) :
    Traffic ι :=
  { t with
    nodes := Function.update t.nodes e (t.nodes e).pop
    applied := t.applied ++ note host e message origin }

/-- A round of `ProcessMessages` pushes its reply. -/
def reply (codec : MessageCodec) (t : Traffic ι) (e : End) : Option Command → Traffic ι
  | none => t
  | some command =>
    { t with
      nodes := Function.update t.nodes e ((t.nodes e).push codec none command)
      pushed := t.pushed + 1 }

end Traffic

/-- The hosts, their connections and what crosses them. -/
structure Mesh (ι : Type) where
  running : ι → Bool
  ledgers : ι → Ledger.State
  topology : Topology ι
  traffic : Traffic ι

/-- A step of one of the threads of a host, or of a client. -/
inductive MeshEvent (ι : Type) where
  | findNode (host : ι) (bService : BService)
  | connectSocket (host : ι) (connected : Bool)
  | dial (host : ι)
  | acceptSocket (host : ι) (bService : BService)
  | close (host : ι) (e : End)
  | disconnect (host : ι)
  | request (host : ι) (m : Surroundings) (request : Request)
  | send (host : ι) (e : End)
  | deliver (host : ι) (e : End)
  | process (host : ι) (e : End)

namespace Mesh

variable {ι : Type}

/-- The host that an event happens at. -/
def hostOfEvent : MeshEvent ι → ι
  | .findNode host _ | .connectSocket host _ | .dial host | .acceptSocket host _
  | .close host _ | .disconnect host | .request host _ _ | .send host _ | .deliver host _
  | .process host _ => host

/-- An end is the node of a host. -/
def listed (n : Mesh ι) (host : ι) (e : End) : Bool :=
  (n.topology.vNodes host).any fun p => p.pointer = e

/-- The socket of a node is open. -/
def isOpen (n : Mesh ι) (e : End) : Bool := (n.traffic.nodes e).node.bSocket.isSome

/-- Whether a step can be taken. -/
def enabled (n : Mesh ι) : MeshEvent ι → Bool
  | .close host e | .process host e => n.listed host e
  | .send host e | .deliver host e => n.listed host e && n.isOpen e
  | _ => true

section Model

variable [DecidableEq ι] (sha : Bytes → Uint256) (pb : Protobuf) (codec : MessageCodec)
  (extract : Bytes → Option ℚ) (hostOf : BService → Option ι) (peers : ι → List BService)

/-- A host stops. -/
def stop (n : Mesh ι) (host : ι) : Mesh ι :=
  { n with running := Function.update n.running host false }

/-- What a step does. -/
def act (n : Mesh ι) : MeshEvent ι → Mesh ι
  | .findNode host bService =>
    { n with topology := n.topology.findNode peers host bService }
  | .connectSocket host connected =>
    match n.topology.connecting host with
    | none => n
    | some bService =>
      if connected then
        { n with
          topology := n.topology.connect hostOf host bService
          traffic := n.traffic.renew (n.topology.links, false) }
      else { n with topology := n.topology.giveUp host }
  | .dial host => { n with topology := n.topology.dial host }
  | .acceptSocket host bService =>
    match n.topology.backlog host with
    | [] => n
    | link :: rest =>
      { n with
        topology := n.topology.accept host link rest bService
        traffic := if full (n.topology.vNodes host) then n.traffic
          else n.traffic.renew (link, true) }
  | .close _ e => { n with traffic := n.traffic.close e }
  | .disconnect host =>
    { n with topology := n.topology.disconnect host fun e => (n.traffic.nodes e).node }
  | .request host m request =>
    match handleRequest sha pb extract m (n.ledgers host) request with
    | .error _ => n.stop host
    | .ok r =>
      { n with
        ledgers := Function.update n.ledgers host r.1
        traffic := n.traffic.broadcast codec host (n.topology.vNodes host) r.2.1 }
  | .send _ e => { n with traffic := n.traffic.send e }
  | .deliver _ e => { n with traffic := n.traffic.deliver codec e }
  | .process host e =>
    match (n.traffic.nodes e).node.vRecvMsg, (n.traffic.nodes e).recvOrigins with
    | message :: _, origin :: _ =>
      match processMessage sha pb (n.ledgers host) message with
      | .error _ => { n.stop host with traffic := n.traffic.take host e message origin }
      | .ok r =>
        { n with
          ledgers := Function.update n.ledgers host r.1
          traffic := (n.traffic.take host e message origin).reply codec e r.2 }
    | _, _ => n

/-- One step; nothing happens at a host that has stopped. -/
def event (n : Mesh ι) (e : MeshEvent ι) : Mesh ι :=
  if n.running (hostOfEvent e) && n.enabled e then
    act sha pb codec extract hostOf peers n e
  else n

end Model

/-- Hosts with no connections. -/
def start (ledgers : ι → Ledger.State) : Mesh ι where
  running _ := true
  ledgers := ledgers
  topology :=
    { vNodes := fun _ => []
      connecting := fun _ => none
      backlog := fun _ => []
      links := 0
      service := fun _ => none }
  traffic :=
    { nodes := fun e => .new e.1
      wires := fun _ => []
      handled := []
      pushes := []
      applied := []
      pushed := 0 }

end Mesh

end Bubi
