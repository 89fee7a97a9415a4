import Bubi.Net.Peers
import Bubi.Net.Sending

/-!
# The threads of a process

`ThreadOpenConnections` connects to peers, `ThreadMessageHandler` processes what they have
sent, and `ThreadSocketHandler` takes nodes out of `vNodes`, accepts sockets, selects and
serves the selected sockets. A run is any sequence of their calls; what the system calls
answer and which locks are taken are arguments of the events. The socket thread does
nothing else while its `SocketSendData` has not returned.
-/

namespace Bubi

open Bubi.Core Peers Process

/-- `BNetMessage::size`. -/
def BNetMessage.size (message : BNetMessage) : BitVec 32 :=
  BitVec.ofNat 32 message.data.length + (8 + BitVec.ofNat 32 message.header.bchCommand.length)

/-- `BNode::getTotalRecvSize`. -/
def BNode.getTotalRecvSize (node : BNode) : BitVec 32 :=
  node.vRecvMsg.foldl (fun total message => total + message.size) 0

/-- `MAXRECVSIZE`. -/
def maxRecvSize : ℕ := 5 * 1024 * 1024

/-- What the threads share, and the sets of the socket thread. -/
structure Threads where
  /-- `last_ledger`, with the store behind it. -/
  lastLedger : Ledger.State
  /-- `vNodes`. -/
  vNodes : List (Peer ℕ)
  /-- The nodes behind the pointers. -/
  nodes : ℕ → BNode
  /-- The pointer of the next new node. -/
  allocated : ℕ
  /-- `fdsetRecv` as `select` has left it, without the sockets that have been served. -/
  fdsetRecv : List ℕ
  /-- `fdsetSend`, likewise. -/
  fdsetSend : List ℕ
  /-- The node of a `SocketSendData` that has not returned. -/
  sending : Option ℕ

/-- A call of one of the threads. -/
inductive ThreadEvent where
  /-- `ConnectNode`, with the socket that `ConnectSocket` opens. -/
  | connectNode (bService : BService) (socket : Option ℕ)
  /-- The disconnect phase. -/
  | disconnect
  /-- `AcceptSocket`, with the socket that `accept` returns and its address. -/
  | acceptSocket (accepted : Option (ℕ × BService))
  /-- The loop that fills the sets, with the nodes whose locks are taken, and `select`, with the
  sockets that are ready. -/
  | select (sendLocked recvLocked readable writable : List ℕ)
  /-- `SocketRecvData` for data of a peer, or of a client whose request touches no node. -/
  | socketRecvData (pointer : ℕ) (answer : RecvAnswer)
  /-- `SocketRecvData` for a client's request of method 1001 or 1004. -/
  | socketRecvRequest (pointer : ℕ) (rest : Bytes) (m : Surroundings) (request : Request)
  /-- `SocketSendData`, or some more rounds of its loop. -/
  | socketSendData (pointer : ℕ) (answers : List SendAnswer)
  /-- `ProcessMessages`. -/
  | processMessages (pointer : ℕ)

/-- The answers of `send` up to an error that closes the socket: later calls meet it again. -/
def untilFailed : List SendAnswer → List SendAnswer
  | [] => []
  | .failed :: _ => [.failed]
  | answer :: answers => answer :: untilFailed answers

namespace Threads

/-- A process that has no nodes yet. -/
def start (s : Ledger.State) : Threads where
  lastLedger := s
  vNodes := []
  nodes := fun _ => .new 0
  allocated := 0
  fdsetRecv := []
  fdsetSend := []
  sending := none

/-- A pointer is in `vNodes`. -/
def listed (t : Threads) (pointer : ℕ) : Bool := t.vNodes.any fun p => p.pointer = pointer

/-- A new node is appended to `vNodes`. -/
def addNode (t : Threads) (bService : BService) (fInbound : Bool) (socket : ℕ) : Threads :=
  { t with
    vNodes := t.vNodes ++ [⟨t.allocated, bService, fInbound⟩]
    nodes := Function.update t.nodes t.allocated (.new socket)
    allocated := t.allocated + 1 }

/-- A node changes. -/
def setNode (t : Threads) (pointer : ℕ) (node : BNode) : Threads :=
  { t with nodes := Function.update t.nodes pointer node }

/-- The loop puts the socket of a node into `fdsetSend`. -/
def selectsSend (t : Threads) (sendLocked : List ℕ) (p : Peer ℕ) : Bool :=
  decide (p.pointer ∉ sendLocked) && !(t.nodes p.pointer).vSendMsg.isEmpty

/-- The loop puts the socket of a node into `fdsetRecv`. -/
def selectsRecv (t : Threads) (sendLocked recvLocked : List ℕ) (p : Peer ℕ) : Bool :=
  !t.selectsSend sendLocked p && decide (p.pointer ∉ recvLocked) &&
    ((t.nodes p.pointer).vRecvMsg.isEmpty ||
      decide ((t.nodes p.pointer).getTotalRecvSize.toNat ≤ maxRecvSize))

/-- The open sockets of some nodes. -/
def sockets (t : Threads) (chosen : Peer ℕ → Bool) : List ℕ :=
  (t.vNodes.filter chosen).filterMap fun p => (t.nodes p.pointer).bSocket

/-- The socket of a node is served once. -/
def served (t : Threads) (pointer : ℕ) : Threads :=
  { t with
    fdsetRecv := t.fdsetRecv.filter fun socket => (t.nodes pointer).bSocket ≠ some socket
    fdsetSend := t.fdsetSend.filter fun socket => (t.nodes pointer).bSocket ≠ some socket }

/-- Whether a call can be made and come to its end. `ProcessMessages` waits for the lock of the
send queue where it has a reply and `SocketSendData` holds it. -/
def enabled (t : Threads) : ThreadEvent → Bool
  | .connectNode _ _ => true
  | .disconnect => t.sending.isNone
  | .acceptSocket _ => t.sending.isNone
  | .select _ _ _ _ => t.sending.isNone
  | .socketRecvData pointer _ | .socketRecvRequest pointer _ _ _ =>
    t.sending.isNone && t.listed pointer &&
      (t.nodes pointer).bSocket.any fun socket => decide (socket ∈ t.fdsetRecv)
  | .socketSendData pointer _ =>
    t.listed pointer &&
      match t.sending with
      | none => (t.nodes pointer).bSocket.any fun socket =>
          decide (socket ∉ t.fdsetRecv) && decide (socket ∈ t.fdsetSend)
      | some q => decide (q = pointer) && (t.nodes pointer).bSocket.isSome
  | .processMessages pointer =>
    t.listed pointer &&
      !(decide (t.sending = some pointer) &&
        (t.nodes pointer).vRecvMsg.any fun message => (replyTo message).isSome)

section Model

variable (sha : Bytes → Uint256) (pb : Protobuf) (codec : MessageCodec)
  (extract : Bytes → Option ℚ)

/-- What a call does. -/
def act (t : Threads) : ThreadEvent → Except Fault Threads
  | .connectNode bService socket =>
    match findNode t.vNodes bService, socket with
    | none, some socket => .ok (t.addNode bService false socket)
    | _, _ => .ok t
  | .disconnect =>
    .ok { t with
      vNodes := Peers.disconnect t.nodes t.vNodes
      fdsetRecv := []
      fdsetSend := [] }
  | .acceptSocket none => .ok t
  | .acceptSocket (some (socket, bService)) =>
    .ok (if full t.vNodes then t else t.addNode bService true socket)
  | .select sendLocked recvLocked readable writable =>
    .ok { t with
      fdsetRecv := (t.sockets (t.selectsRecv sendLocked recvLocked)).filter (· ∈ readable)
      fdsetSend := (t.sockets (t.selectsSend sendLocked)).filter (· ∈ writable) }
  | .socketRecvData pointer answer =>
    .ok ((t.served pointer).setNode pointer ((t.nodes pointer).socketRecvData codec answer))
  | .socketRecvRequest pointer rest m request => do
    let r ← handleRequest sha pb extract m t.lastLedger request
    let t := (t.served pointer).setNode pointer
      ((t.nodes pointer).socketRecvData codec (.received (0x7b :: rest)))
    .ok { t with
      lastLedger := r.1
      nodes := pushOutbound (fun node => node.pushMessage codec r.2.1.1 r.2.1.2) t.vNodes
        t.nodes }
  | .socketSendData pointer answers => do
    let r ← BNode.socketSendData (untilFailed answers) (t.nodes pointer, [])
    .ok { (t.served pointer).setNode pointer r.1.1 with
      sending := if r.2 then none else some pointer }
  | .processMessages pointer => do
    let r ← Process.processMessages sha pb codec (t.lastLedger, t.nodes pointer)
    .ok { t.setNode pointer r.2 with lastLedger := r.1 }

/-- One event; a call that cannot be made now does nothing. -/
def step (t : Threads) (e : ThreadEvent) : Except Fault Threads :=
  if t.enabled e then act sha pb codec extract t e else .ok t

end Model

section Moves

variable {sha : Bytes → Uint256} {pb : Protobuf} {codec : MessageCodec}
  {extract : Bytes → Option ℚ} {t t' : Threads}

/-- What an event can do to a node: only an open socket is read from or written to. -/
inductive Moves (sha : Bytes → Uint256) (pb : Protobuf) (codec : MessageCodec) (node : BNode) :
    BNode → Prop where
  | refl : Moves sha pb codec node node
  | push {node' : BNode} (command data : Bytes) (h : Moves sha pb codec node node') :
    Moves sha pb codec node (node'.pushMessage codec command data)
  | recv (answer : RecvAnswer) (hopen : node.bSocket ≠ none) :
    Moves sha pb codec node (node.socketRecvData codec answer)
  | sent {answers : List SendAnswer} {r : (BNode × Bytes) × Bool} (hopen : node.bSocket ≠ none)
    (hr : BNode.socketSendData answers (node, []) = .ok r) : Moves sha pb codec node r.1.1
  | process {s : Ledger.State} {r : Ledger.State × BNode}
    (hr : Process.processMessages sha pb codec (s, node) = .ok r) : Moves sha pb codec node r.2

/-- The socket thread repeats a `send` on a closed socket. -/
def Hung (t : Threads) : Prop := ∃ q, t.sending = some q ∧ (t.nodes q).bSocket = none

/-- What an event can do to the nodes, to `vNodes` and to the socket thread. -/
structure Changes (sha : Bytes → Uint256) (pb : Protobuf) (codec : MessageCodec)
    (t t' : Threads) : Prop where
  nodes : ∀ k, Moves sha pb codec (t.nodes k) (t'.nodes k) ∨
    k = t.allocated ∧ ∃ socket, t'.nodes k = .new socket
  allocated : t.allocated ≤ t'.allocated
  kept : ∀ p ∈ t.vNodes, p ∈ t'.vNodes ∨
    t.sending = none ∧ (t.nodes p.pointer).removable = true
  vNodes : t'.vNodes.Sublist t.vNodes ∨
    ∃ p, t'.vNodes = t.vNodes ++ [p] ∧ p.pointer = t.allocated ∧ t'.allocated = t.allocated + 1
  sending : t'.sending = t.sending ∨ ¬ t.Hung ∧ ∀ q ∈ t'.sending, t'.listed q = true

/-- The nodes change, but not `vNodes`. -/
theorem Changes.of_nodes (hnodes : ∀ k, Moves sha pb codec (t.nodes k) (t'.nodes k))
    (hvNodes : t'.vNodes = t.vNodes) (hallocated : t'.allocated = t.allocated)
    (hsending : t'.sending = t.sending ∨ ¬ t.Hung ∧ ∀ q ∈ t'.sending, t'.listed q = true) :
    Changes sha pb codec t t' := by
  refine ⟨fun k => Or.inl (hnodes k), hallocated.ge, fun p hp => Or.inl ?_, Or.inl ?_, hsending⟩
  · rwa [hvNodes]
  · rw [hvNodes]

theorem Changes.refl : Changes sha pb codec t t :=
  .of_nodes (fun _ => .refl) rfl rfl (Or.inl rfl)

theorem Changes.addNode {bService : BService} {fInbound : Bool} {socket : ℕ} :
    Changes sha pb codec t (t.addNode bService fInbound socket) where
  nodes k := by
    unfold Threads.addNode
    dsimp only
    rw [Function.update_apply]
    split
    · rename_i hk
      exact Or.inr ⟨hk, socket, rfl⟩
    · exact Or.inl .refl
  allocated := Nat.le_succ _
  kept p hp := Or.inl (List.mem_append_left _ hp)
  vNodes := Or.inr ⟨_, rfl, rfl, rfl⟩
  sending := Or.inl rfl

/-- One node changes. -/
theorem forall_setNode {P : ℕ → BNode → Prop} {pointer : ℕ} {node : BNode} :
    (∀ k, P k ((t.setNode pointer node).nodes k)) ↔
      P pointer node ∧ ∀ k ≠ pointer, P k (t.nodes k) :=
  Function.forall_update_iff t.nodes P

theorem Moves.setNode {pointer : ℕ} {node : BNode}
    (h : Moves sha pb codec (t.nodes pointer) node) :
    ∀ k, Moves sha pb codec (t.nodes k) ((t.setNode pointer node).nodes k) :=
  forall_setNode.mpr ⟨h, fun _ _ => .refl⟩

theorem bSocket_ne_none {node : BNode} {chosen : ℕ → Bool} (h : node.bSocket.any chosen = true) :
    node.bSocket ≠ none := by
  intro hclosed
  rw [hclosed] at h
  cases h

/-- `SocketSendData` works on an open socket, also where it has not returned yet. -/
theorem enabled_socketSendData {pointer : ℕ} {answers : List SendAnswer}
    (h : t.enabled (.socketSendData pointer answers) = true) :
    t.listed pointer = true ∧ (t.nodes pointer).bSocket ≠ none ∧ ¬ t.Hung := by
  simp only [enabled, Bool.and_eq_true] at h
  obtain ⟨hlisted, h⟩ := h
  refine ⟨hlisted, ?_⟩
  cases hsending : t.sending with
  | none =>
    rw [hsending] at h
    refine ⟨bSocket_ne_none h, ?_⟩
    rintro ⟨q, hq, _⟩
    rw [hsending] at hq
    cases hq
  | some q =>
    simp only [hsending, Bool.and_eq_true, decide_eq_true_eq] at h
    obtain ⟨rfl, hopen⟩ := h
    have hne : (t.nodes q).bSocket ≠ none := Option.isSome_iff_ne_none.mp hopen
    refine ⟨hne, ?_⟩
    rintro ⟨q', hq', hclosed⟩
    rw [hsending] at hq'
    cases hq'
    exact hne hclosed

/-- A call changes only what its thread may change. -/
theorem act_changes {e : ThreadEvent} (henabled : t.enabled e = true)
    (hact : act sha pb codec extract t e = .ok t') : Changes sha pb codec t t' := by
  cases e with
  | connectNode bService socket =>
    dsimp only [act] at hact
    split at hact <;> cases hact
    · exact .addNode
    · exact .refl
  | disconnect =>
    cases hact
    have hsending : t.sending = none := Option.isNone_iff_eq_none.mp henabled
    refine ⟨fun _ => Or.inl .refl, le_refl _, fun p hp => ?_, Or.inl List.filter_sublist,
      Or.inl rfl⟩
    cases hremovable : (t.nodes p.pointer).removable with
    | false => exact Or.inl (mem_disconnect.mpr ⟨hp, hremovable⟩)
    | true => exact Or.inr ⟨hsending, rfl⟩
  | acceptSocket accepted =>
    cases accepted with
    | none =>
      cases hact
      exact .refl
    | some accepted =>
      dsimp only [act] at hact
      split at hact <;> cases hact
      · exact .refl
      · exact .addNode
  | select sendLocked recvLocked readable writable =>
    cases hact
    exact .of_nodes (fun _ => .refl) rfl rfl (Or.inl rfl)
  | socketRecvData pointer answer =>
    cases hact
    simp only [enabled, Bool.and_eq_true] at henabled
    have hmoves : Moves sha pb codec (t.nodes pointer)
        ((t.nodes pointer).socketRecvData codec answer) :=
      .recv answer (bSocket_ne_none henabled.2)
    exact .of_nodes hmoves.setNode rfl rfl (Or.inl rfl)
  | socketRecvRequest pointer rest m request =>
    obtain ⟨r, _, hact⟩ := bind_eq_ok.mp hact
    cases hact
    simp only [enabled, Bool.and_eq_true] at henabled
    have hmoves : Moves sha pb codec (t.nodes pointer)
        ((t.nodes pointer).socketRecvData codec (.received (0x7b :: rest))) :=
      .recv _ (bSocket_ne_none henabled.2)
    refine .of_nodes (fun k => ?_) rfl rfl (Or.inl rfl)
    exact pushOutbound_induction (fun node h => .push _ _ h) _ (hmoves.setNode k)
  | socketSendData pointer answers =>
    obtain ⟨r, hr, hact⟩ := bind_eq_ok.mp hact
    cases hact
    obtain ⟨hlisted, hopen, hhung⟩ := enabled_socketSendData henabled
    refine .of_nodes (Moves.sent hopen hr).setNode rfl rfl (Or.inr ⟨hhung, ?_⟩)
    intro q hq
    dsimp only at hq
    split at hq
    · cases hq
    · cases hq
      exact hlisted
  | processMessages pointer =>
    obtain ⟨r, hr, hact⟩ := bind_eq_ok.mp hact
    cases hact
    exact .of_nodes (Moves.process hr).setNode rfl rfl (Or.inl rfl)

theorem step_changes {e : ThreadEvent} (h : step sha pb codec extract t e = .ok t') :
    Changes sha pb codec t t' := by
  unfold step at h
  split at h
  · rename_i henabled
    exact act_changes henabled h
  · cases h
    exact .refl

end Moves

section Removal

variable {sha : Bytes → Uint256} {pb : Protobuf} {codec : MessageCodec}
  {extract : Bytes → Option ℚ} {t t' : Threads} {node node' : BNode}

/-- The send queue of a node is in order, and a closed socket is marked for the disconnect
phase. -/
structure Orderly (node : BNode) : Prop where
  ready : node.Ready
  marked : node.bSocket = none → node.fDisconnect = true

/-- `CloseSocketDisconnect` closes and marks at once. -/
theorem socketSendData_marked {stream : Bytes} {answers : List SendAnswer}
    (h : node.bSocket = none → node.fDisconnect = true) {r : (BNode × Bytes) × Bool}
    (hr : BNode.socketSendData answers (node, stream) = .ok r) :
    r.1.1.bSocket = none → r.1.1.fDisconnect = true := by
  refine BNode.socketSendData_induction
    (P := fun s => s.1.bSocket = none → s.1.fDisconnect = true) ?_ ?_ ?_ h hr
  · intro node stream _ _
    rfl
  · intro node stream data rest nBytes _ _ _ h
    exact h
  · intro node stream data rest nBytes _ _ h
    exact h

theorem Orderly.moves (h : Orderly node) (hmoves : Moves sha pb codec node node') :
    Orderly node' := by
  induction hmoves with
  | refl => exact h
  | push command data _ ih => exact ⟨ih.ready.pushMessage command data, ih.marked⟩
  | recv answer _ =>
    unfold BNode.socketRecvData
    split
    · exact ⟨⟨h.ready.nonempty, h.ready.positioned⟩, fun _ => rfl⟩
    · dsimp only
      split
      · exact ⟨⟨h.ready.nonempty, h.ready.positioned⟩, h.marked⟩
      · exact ⟨⟨h.ready.nonempty, h.ready.positioned⟩, h.marked⟩
    · exact h
    · exact ⟨⟨h.ready.nonempty, h.ready.positioned⟩, fun _ => rfl⟩
  | sent _ hr => exact ⟨h.ready.socketSendData hr, socketSendData_marked h.marked hr⟩
  | process hr =>
    rw [processMessages_node hr]
    have hready : BNode.Ready { node with
        vSendMsg := node.vSendMsg ++ replies codec node.vRecvMsg } := by
      apply h.ready.append
      intro data hdata
      obtain ⟨reply, _, rfl⟩ := List.mem_map.mp hdata
      exact BNetMessage.serializer_ne_nil codec _
    exact ⟨⟨hready.nonempty, hready.positioned⟩, h.marked⟩

/-- The pointers of `vNodes` and of the socket thread are those of nodes. -/
structure Sane (t : Threads) : Prop where
  nodes : ∀ k, Orderly (t.nodes k)
  vNodes : ∀ p ∈ t.vNodes, p.pointer < t.allocated
  nodup : (t.vNodes.map Peer.pointer).Nodup
  sending : ∀ q ∈ t.sending, t.listed q = true

theorem listed_iff {pointer : ℕ} :
    t.listed pointer = true ↔ ∃ p ∈ t.vNodes, p.pointer = pointer := by
  simp [listed]

theorem orderly_new (socket : ℕ) : Orderly (.new socket) := by
  refine ⟨⟨?_, rfl⟩, ?_⟩
  · intro data hdata
    cases hdata
  · intro hclosed
    cases hclosed

theorem sane_start (s : Ledger.State) : Sane (start s) where
  nodes _ := orderly_new 0
  vNodes _ h := nomatch h
  nodup := List.nodup_nil
  sending _ h := nomatch h

theorem Sane.changes (h : Sane t) (hchanges : Changes sha pb codec t t') : Sane t' where
  nodes k := by
    rcases hchanges.nodes k with hmoves | ⟨_, socket, hnew⟩
    · exact (h.nodes k).moves hmoves
    · rw [hnew]
      exact orderly_new socket
  vNodes p hp := by
    rcases hchanges.vNodes with hsublist | ⟨q, happend, hpointer, hallocated⟩
    · exact (h.vNodes p (hsublist.subset hp)).trans_le hchanges.allocated
    · rw [happend] at hp
      rcases List.mem_append.mp hp with hp | hp
      · exact (h.vNodes p hp).trans_le hchanges.allocated
      · rw [List.mem_singleton.mp hp, hpointer, hallocated]
        exact Nat.lt_succ_self _
  nodup := by
    rcases hchanges.vNodes with hsublist | ⟨q, happend, hpointer, _⟩
    · exact h.nodup.sublist (hsublist.map _)
    · rw [happend, List.map_append, List.map_singleton, hpointer]
      refine List.Nodup.append h.nodup (List.nodup_singleton _) ?_
      rw [List.disjoint_singleton]
      intro hmem
      obtain ⟨p, hp, heq⟩ := List.mem_map.mp hmem
      exact (h.vNodes p hp).ne heq
  sending q hq := by
    rcases hchanges.sending with hsending | ⟨_, hlisted⟩
    · rw [hsending] at hq
      obtain ⟨p, hp, hpointer⟩ := listed_iff.mp (h.sending q hq)
      rcases hchanges.kept p hp with hp | ⟨hnone, _⟩
      · exact listed_iff.mpr ⟨p, hp, hpointer⟩
      · rw [hnone] at hq
        cases hq
    · exact hlisted q hq

/-- The process as its handlers see it. -/
def process (t : Threads) : Process := ⟨t.lastLedger, t.vNodes.map (connection t.nodes)⟩

/-- A client's request is handled by `ParseHandleJsonData`. -/
theorem Sane.socketRecvRequest (h : Sane t) {pointer : ℕ} {rest : Bytes} {m : Surroundings}
    {request : Request}
    (hact : act sha pb codec extract t (.socketRecvRequest pointer rest m request) = .ok t') :
    ∃ output, parseHandleJsonData sha pb codec extract m
      (t.setNode pointer
        ((t.nodes pointer).socketRecvData codec (.received (0x7b :: rest)))).process request =
      .ok (t'.process, output) := by
  obtain ⟨r, hr, hact⟩ := bind_eq_ok.mp hact
  cases hact
  refine ⟨r.2.2, bind_eq_ok.mpr ⟨r, hr, ?_⟩⟩
  exact congrArg (fun vNodes => Except.ok ((⟨r.1, vNodes⟩ : Process), r.2.2))
    (broadcast_map_connection codec h.nodup r.2.1)

/-- A node holds a message to send or one to reply to. -/
def Holds (node : BNode) : Prop :=
  node.vSendMsg ≠ [] ∨ ∃ message ∈ node.vRecvMsg, replyTo message ≠ none

/-- What a closed node has to send stays, and what it has to reply to stays or is replied to. -/
theorem Moves.closed (h : Moves sha pb codec node node') (hclosed : node.bSocket = none) :
    node'.bSocket = none ∧ (Holds node → Holds node') := by
  induction h with
  | refl => exact ⟨hclosed, id⟩
  | push command data _ ih =>
    refine ⟨ih.1, fun _ => Or.inl ?_⟩
    exact List.append_ne_nil_of_right_ne_nil _ (List.cons_ne_nil _ _)
  | recv _ hopen => exact absurd hclosed hopen
  | sent hopen _ => exact absurd hclosed hopen
  | process hr =>
    rw [processMessages_node hr]
    refine ⟨hclosed, fun hholds => Or.inl ?_⟩
    rcases hholds with hsend | ⟨message, hmessage, hreply⟩
    · exact List.append_ne_nil_of_left_ne_nil hsend _
    · apply List.append_ne_nil_of_right_ne_nil
      obtain ⟨reply, hreply⟩ := Option.ne_none_iff_exists'.mp hreply
      have hmem : reply ∈ node.vRecvMsg.filterMap replyTo :=
        List.mem_filterMap.mpr ⟨message, hmessage, hreply⟩
      exact List.ne_nil_of_mem (List.mem_map_of_mem hmem)

/-- A closed peer that holds a message, or whose thread hangs. -/
structure Stuck (t : Threads) (p : Peer ℕ) : Prop where
  mem : p ∈ t.vNodes
  closed : (t.nodes p.pointer).bSocket = none
  holds : t.Hung ∨ Holds (t.nodes p.pointer)

theorem not_holds_of_removable (h : node.removable = true) : ¬ Holds node := by
  simp only [BNode.removable, Bool.and_eq_true, List.isEmpty_iff] at h
  rintro (hsend | ⟨message, hmessage, _⟩)
  · exact hsend h.1.2
  · rw [h.2] at hmessage
    cases hmessage

/-- Nothing lets go of a stuck peer. -/
theorem Stuck.changes {p : Peer ℕ} (h : Stuck t p) (hsane : Sane t)
    (hchanges : Changes sha pb codec t t') : Stuck t' p := by
  have hmoves : ∀ q, t.listed q = true → Moves sha pb codec (t.nodes q) (t'.nodes q) := by
    intro q hq
    obtain ⟨p', hp', rfl⟩ := listed_iff.mp hq
    rcases hchanges.nodes p'.pointer with hmoves | ⟨hallocated, _⟩
    · exact hmoves
    · exact absurd hallocated (hsane.vNodes p' hp').ne
  obtain ⟨hclosed, hkeeps⟩ := (hmoves p.pointer (listed_iff.mpr ⟨p, h.mem, rfl⟩)).closed h.closed
  refine ⟨?_, hclosed, ?_⟩
  · rcases hchanges.kept p h.mem with hp | ⟨hnone, hremovable⟩
    · exact hp
    · rcases h.holds with ⟨q, hq, _⟩ | hholds
      · rw [hnone] at hq
        cases hq
      · exact absurd hholds (not_holds_of_removable hremovable)
  · rcases h.holds with ⟨q, hq, hq'⟩ | hholds
    · rcases hchanges.sending with hsending | ⟨hhung, _⟩
      · exact Or.inl ⟨q, hsending.trans hq, ((hmoves q (hsane.sending q hq)).closed hq').1⟩
      · exact absurd ⟨q, hq, hq'⟩ hhung
    · exact Or.inr (hkeeps hholds)

/-- Every state that a run reaches is sane. -/
theorem sane_run {s : Ledger.State} {events : List ThreadEvent}
    (h : events.foldlM (step sha pb codec extract) (start s) = .ok t) : Sane t :=
  run_invariant (fun _ _ _ h he => h.changes (step_changes he)) (sane_start s) h

/-- A stuck peer stays in `vNodes` for good. -/
theorem Stuck.run {p : Peer ℕ} (h : Stuck t p) (hsane : Sane t) {events : List ThreadEvent}
    (hrun : events.foldlM (step sha pb codec extract) t = .ok t') : Stuck t' p := by
  have hinvariant : Sane t' ∧ Stuck t' p := by
    refine run_invariant (P := fun t => Sane t ∧ Stuck t p) (fun _ _ _ h he => ?_)
      ⟨hsane, h⟩ hrun
    exact ⟨h.1.changes (step_changes he), h.2.changes h.1 (step_changes he)⟩
  exact hinvariant.2

theorem untilFailed_map_accepted (counts : List ℕ) :
    untilFailed (counts.map .accepted) = counts.map .accepted := by
  induction counts with
  | nil => rfl
  | cons nBytes counts ih => simp [untilFailed, ih]

/-- A `SocketSendData` on an open socket can return, and closed nodes stay as they are. -/
theorem Sane.exists_idle (h : Sane t) (hhung : ¬ t.Hung) :
    ∃ (events : List ThreadEvent) (t' : Threads),
      events.foldlM (step sha pb codec extract) t = .ok t' ∧ t'.sending = none ∧
      t'.vNodes = t.vNodes ∧ ∀ k, (t.nodes k).bSocket = none → t'.nodes k = t.nodes k := by
  cases hsending : t.sending with
  | none => exact ⟨[], t, rfl, hsending, rfl, fun _ _ => rfl⟩
  | some q =>
    have hopen : (t.nodes q).bSocket ≠ none := fun hclosed => hhung ⟨q, hsending, hclosed⟩
    have henabled : t.enabled (.socketSendData q (t.nodes q).takesAll) = true := by
      simp [enabled, h.sending q hsending, hsending, Option.isSome_iff_ne_none, hopen]
    obtain ⟨s, hs⟩ : ∃ s, BNode.socketSendData (t.nodes q).takesAll (t.nodes q, []) =
      .ok (s, true) := (h.nodes q).ready.exists_ends
    have hact : act sha pb codec extract t (.socketSendData q (t.nodes q).takesAll) =
        .ok { (t.served q).setNode q s.1 with sending := none } := by
      rw [act, BNode.takesAll, untilFailed_map_accepted]
      rw [BNode.takesAll] at hs
      rw [hs, ok_bind, if_pos rfl]
    refine ⟨[.socketSendData q (t.nodes q).takesAll],
      { (t.served q).setNode q s.1 with sending := none }, ?_, rfl, rfl, fun k hk => ?_⟩
    · rw [foldlM_cons_ok]
      exact ⟨_, (if_pos henabled).trans hact, rfl⟩
    · have hne : k ≠ q := by
        rintro rfl
        exact hopen hk
      exact Function.update_of_ne hne _ _

/-- Where the socket thread is free, a closed node that holds no message can be taken out. -/
theorem exists_removed {p : Peer ℕ} (hp : p ∈ t.vNodes) (hsending : t.sending = none)
    (hmarked : (t.nodes p.pointer).fDisconnect = true) (hholds : ¬ Holds (t.nodes p.pointer)) :
    ∃ (events : List ThreadEvent) (t' : Threads),
      events.foldlM (step sha pb codec extract) t = .ok t' ∧ p ∉ t'.vNodes := by
  unfold Holds at hholds
  push Not at hholds
  obtain ⟨hsend, hrecv⟩ := hholds
  have hlisted : t.listed p.pointer = true := listed_iff.mpr ⟨p, hp, rfl⟩
  have henabled : t.enabled (.processMessages p.pointer) = true := by
    simp [enabled, hlisted, hsending]
  have hact : act sha pb codec extract t (.processMessages p.pointer) =
      .ok (t.setNode p.pointer { t.nodes p.pointer with vRecvMsg := [] }) := by
    rw [act, processMessages_of_replyTo hrecv, ok_bind]
    rfl
  have hfree : (t.setNode p.pointer { t.nodes p.pointer with vRecvMsg := [] }).enabled
      .disconnect = true := Option.isNone_iff_eq_none.mpr hsending
  refine ⟨[.processMessages p.pointer, .disconnect], _,
    foldlM_cons_ok.mpr ⟨_, (if_pos henabled).trans hact, foldlM_cons_ok.mpr
      ⟨_, if_pos hfree, rfl⟩⟩, fun hmem => ?_⟩
  have hkept := (mem_disconnect.mp hmem).2
  simp [setNode, BNode.removable, hmarked, hsend] at hkept

/-- Over every run of the threads: a peer whose socket is closed can be taken out of `vNodes`
exactly when it has no message to send and none to reply to, and the socket thread does not
repeat a `send` on a closed socket. -/
theorem closed_peer_removed_iff (sha : Bytes → Uint256) (pb : Protobuf) (codec : MessageCodec)
    (extract : Bytes → Option ℚ) (s : Ledger.State) (events : List ThreadEvent) (t : Threads)
    (hrun : events.foldlM (step sha pb codec extract) (start s) = .ok t) (p : Peer ℕ)
    (hp : p ∈ t.vNodes) (hclosed : (t.nodes p.pointer).bSocket = none) :
    (∃ (later : List ThreadEvent) (t' : Threads),
        later.foldlM (step sha pb codec extract) t = .ok t' ∧ p ∉ t'.vNodes) ↔
      (t.nodes p.pointer).vSendMsg = [] ∧
      (∀ message ∈ (t.nodes p.pointer).vRecvMsg,
        message.header.bchCommand ≠ Command.transaction ∧
          message.header.bchCommand ≠ Command.account) ∧
      ¬ t.Hung := by
  have hsane : Sane t := sane_run hrun
  constructor
  · rintro ⟨later, t', hlater, hgone⟩
    by_contra hcondition
    have hstuck : Stuck t p := by
      refine ⟨hp, hclosed, ?_⟩
      by_contra hnot
      unfold Holds at hnot
      push Not at hnot
      exact hcondition ⟨hnot.2.1, fun m hm => replyTo_eq_none.mp (hnot.2.2 m hm), hnot.1⟩
    exact hgone (hstuck.run hsane hlater).mem
  · rintro ⟨hsend, hrecv, hhung⟩
    have hholds : ¬ Holds (t.nodes p.pointer) := by
      rintro (h | ⟨message, hmessage, hreply⟩)
      · exact h hsend
      · exact hreply (replyTo_eq_none.mpr (hrecv message hmessage))
    obtain ⟨first, t₁, hfirst, hsending, hvNodes, hnodes⟩ :=
      @Sane.exists_idle sha pb codec extract t hsane hhung
    have hnode := hnodes p.pointer hclosed
    have hmarked : (t₁.nodes p.pointer).fDisconnect = true := by
      rw [hnode]
      exact (hsane.nodes p.pointer).marked hclosed
    rw [← hvNodes] at hp
    rw [← hnode] at hholds
    obtain ⟨last, t₂, hlast, hgone⟩ :=
      @exists_removed sha pb codec extract t₁ p hp hsending hmarked hholds
    exact ⟨first ++ last, t₂, foldlM_append_ok.mpr ⟨t₁, hfirst, hlast⟩, hgone⟩

/-- One event where the model is evaluated. -/
def sampleStep (t : Threads) (e : ThreadEvent) : Except Fault Threads :=
  step checksum plainProtobuf plainMessages decimal t e

/-- A peer's address where the model is evaluated. -/
def sampleService : BService := ⟨0x0a000001, 30000⟩

/-- A peer connects, sends a message and shuts its connection down. -/
def visit (command : Command) : List ThreadEvent :=
  [.acceptSocket (some (3, sampleService)), .select [] [] [3] [],
    .socketRecvData 0 (.received ((messageOf command).serializer plainMessages)),
    .select [] [] [3] [], .socketRecvData 0 (.received [])]

/-- The peer that has connected. -/
def visitor : Peer ℕ := ⟨0, sampleService, true⟩

theorem closed_peer_removed_visit :
    ∃ l t, Ledger.new checksum = .ok l ∧
      (visit Command.txReply).foldlM sampleStep (start (fun _ => none, l)) = .ok t ∧
      visitor ∈ t.vNodes ∧ (t.nodes 0).bSocket = none ∧
      ∃ (later : List ThreadEvent) (t' : Threads), later.foldlM sampleStep t = .ok t' ∧
        visitor ∉ t'.vNodes := by
  have hok : (do
      let l ← Ledger.new checksum
      let t ← (visit Command.txReply).foldlM sampleStep (start (fun _ => none, l))
      .ok (decide (visitor ∈ t.vNodes ∧ (t.nodes 0).bSocket = none ∧
        (t.nodes 0).vSendMsg = [] ∧ (∀ message ∈ (t.nodes 0).vRecvMsg,
          message.header.bchCommand ≠ Command.transaction ∧
            message.header.bchCommand ≠ Command.account) ∧ t.sending = none))) = .ok true :=
    eq_ok_of_toOption (by decide +kernel)
  obtain ⟨l, hl, hok⟩ := bind_eq_ok.mp hok
  obtain ⟨t, ht, hok⟩ := bind_eq_ok.mp hok
  obtain ⟨hmem, hclosed, hsend, hrecv, hsending⟩ := of_decide_eq_true (Except.ok.inj hok)
  refine ⟨l, t, hl, ht, hmem, hclosed, ?_⟩
  refine (closed_peer_removed_iff checksum plainProtobuf plainMessages decimal _ _ t ht _ hmem
    hclosed).mpr ⟨hsend, hrecv, ?_⟩
  rintro ⟨q, hq, _⟩
  rw [hsending] at hq
  cases hq

/-- A client's request is pushed to a peer whose shutdown is served behind it. -/
def crossing : List ThreadEvent :=
  [.acceptSocket (some (3, ⟨0x0a000002, 40000⟩)), .connectNode sampleService (some 4),
    .select [] [] [3, 4] [],
    .socketRecvRequest 0 [] sampleSurroundings (.createUser (sampleName 1)),
    .socketRecvData 1 (.received [])]

/-- The peer that was connected to. -/
def contacted : Peer ℕ := ⟨1, sampleService, false⟩

/-- A peer that replies are owed to, and one with a message to send, stay in `vNodes` whatever the
threads do after their sockets are closed. -/
theorem closed_peer_stays :
    (∃ l t, Ledger.new checksum = .ok l ∧
      (visit (Command.account, sampleName 1)).foldlM sampleStep (start (fun _ => none, l)) =
        .ok t ∧
      visitor ∈ t.vNodes ∧ (t.nodes 0).bSocket = none ∧
      ∀ (later : List ThreadEvent) (t' : Threads), later.foldlM sampleStep t = .ok t' →
        visitor ∈ t'.vNodes) ∧
    ∃ l t, Ledger.new checksum = .ok l ∧
      crossing.foldlM sampleStep (start (fun _ => none, l)) = .ok t ∧
      contacted ∈ t.vNodes ∧ (t.nodes 1).bSocket = none ∧
      ∀ (later : List ThreadEvent) (t' : Threads), later.foldlM sampleStep t = .ok t' →
        contacted ∈ t'.vNodes := by
  constructor
  · have hok : (do
        let l ← Ledger.new checksum
        let t ← (visit (Command.account, sampleName 1)).foldlM sampleStep (start (fun _ => none, l))
        .ok (decide (visitor ∈ t.vNodes ∧ (t.nodes 0).bSocket = none ∧
          ∃ message ∈ (t.nodes 0).vRecvMsg, replyTo message ≠ none))) = .ok true :=
      eq_ok_of_toOption (by decide +kernel)
    obtain ⟨l, hl, hok⟩ := bind_eq_ok.mp hok
    obtain ⟨t, ht, hok⟩ := bind_eq_ok.mp hok
    obtain ⟨hmem, hclosed, hreply⟩ := of_decide_eq_true (Except.ok.inj hok)
    refine ⟨l, t, hl, ht, hmem, hclosed, fun later t' hlater => ?_⟩
    exact (Stuck.run ⟨hmem, hclosed, Or.inr (Or.inr hreply)⟩ (sane_run ht) hlater).mem
  · have hok : (do
        let l ← Ledger.new checksum
        let t ← crossing.foldlM sampleStep (start (fun _ => none, l))
        .ok (decide (contacted ∈ t.vNodes ∧ (t.nodes 1).bSocket = none ∧
          (t.nodes 1).vSendMsg ≠ []))) = .ok true :=
      eq_ok_of_toOption (by decide +kernel)
    obtain ⟨l, hl, hok⟩ := bind_eq_ok.mp hok
    obtain ⟨t, ht, hok⟩ := bind_eq_ok.mp hok
    obtain ⟨hmem, hclosed, hsend⟩ := of_decide_eq_true (Except.ok.inj hok)
    refine ⟨l, t, hl, ht, hmem, hclosed, fun later t' hlater => ?_⟩
    exact (Stuck.run ⟨hmem, hclosed, Or.inr (Or.inl hsend)⟩ (sane_run ht) hlater).mem

end Removal

end Threads

end Bubi
