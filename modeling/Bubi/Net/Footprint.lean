import Bubi.Net.Dialing
import Bubi.Net.Inbound
import Bubi.Net.Locks
import Bubi.Net.Queue

/-!
# The calls of the threads and their accesses

A call of a thread is one step of `Threads`, of `Listener` or of `Dialer`. Among the mutexes it
is a program that accesses shared data bit by bit. Here each call gets the round of its thread
in which it stands alone, with what it meets. What a call changes, its program writes, and its
thread comes to that access in some execution. So the mutexes that are held there, and the
races, are those of the changes that the calls make as steps.
-/

namespace Bubi

open Bubi.Core Bubi.Core.Locking Program Peers Process

namespace Locks

/-- In some execution, a thread comes to an access that writes data. -/
def Writes (w : Workload) (t : Thread) (data : Shared) : Prop :=
  ∃ events place p, (execute w events).program t = .access ⟨data, place, .write⟩ p

/-- A thread comes to every access of its code. -/
theorem writes_of_makes {w : Workload} {t : Thread} {data : Shared} (place : Place)
    (h : (code w t).Makes ⟨data, place, .write⟩) : Writes w t data := by
  have halone : (System.start (code w)).Alone t := fun _ _ => rfl
  have hordered : (code w t).Follows (System.Ordered rank) [] [] :=
    (follows_code w t).mono fun _ _ h => h.1
  obtain ⟨tries, p, hp⟩ := halone.comes rfl hordered h
  refine ⟨tries.map (.run t), place, p, ?_⟩
  rw [execute, List.map_map]
  exact hp

/-- A round of `ThreadOpenConnections` with one address. -/
def connecting (c : Connecting) : Workload := ⟨[], [⟨[c], []⟩], []⟩

/-- A round of `ThreadSocketHandler` with its disconnect phase only. -/
def disconnecting (checks : List (ℕ × Check)) : Workload := ⟨[⟨checks, .idle, [], none⟩], [], []⟩

/-- A round of `ThreadSocketHandler` with a socket to accept. -/
def accepting (a : Accepting) : Workload := ⟨[⟨[], a, [], none⟩], [], []⟩

/-- A round of `ThreadSocketHandler` in which nothing is ready. -/
def selecting (filling : List (ℕ × Filling)) : Workload := ⟨[⟨[], .idle, filling, none⟩], [], []⟩

/-- A round of `ThreadSocketHandler` that serves one node. -/
def serving (node : ℕ) (s : Serving) : Workload :=
  ⟨[⟨[], .idle, [], some [(node, s)]⟩], [], []⟩

/-- A round of `ThreadMessageHandler` with one node. -/
def handling (node : ℕ) (messages : List Handling) : Workload := ⟨[], [], [[(node, messages)]]⟩

section Writes

variable {node : ℕ} {data : Shared} (place : Place)

theorem writes_vNodes_connecting {seen : List ℕ} :
    Writes (connecting (.connected seen)) .threadOpenConnections .vNodes := by
  apply writes_of_makes .connectNode
  simp [code, connecting, openRound, connectNode, pushNode, writes]

theorem writes_vNodes_accepting {seen : List ℕ} :
    Writes (accepting (.accepted seen)) .threadSocketHandler .vNodes := by
  apply writes_of_makes .acceptSocket
  simp [code, accepting, socketRound, acceptSocket, pushNode, writes]

/-- The disconnect phase writes what it writes at one of the nodes. -/
theorem writes_disconnecting {checks : List (ℕ × Check)} {x : ℕ × Check} (hx : x ∈ checks)
    (h : (disconnectNode x.1 x.2).Makes ⟨data, place, .write⟩) :
    Writes (disconnecting checks) .threadSocketHandler data := by
  apply writes_of_makes place
  have hloop : ∃ x ∈ checks, (disconnectNode x.1 x.2).Makes ⟨data, place, .write⟩ := ⟨x, hx, h⟩
  simp only [code, disconnecting, socketRound, disconnect, makes_forEach, List.mem_singleton,
    exists_eq_left, makes_append, makes_locked, hloop, or_true, true_or]

theorem writes_serving {s : Serving} (h : (serve node s).Makes ⟨data, place, .write⟩) :
    Writes (serving node s) .threadSocketHandler data := by
  apply writes_of_makes place
  simp [code, serving, socketRound, h]

theorem writes_recv {receiving : Receiving}
    (h : (handleReceived node receiving).Makes ⟨data, place, .write⟩) :
    Writes (serving node (.recv receiving)) .threadSocketHandler data := by
  have hserve : (serve node (.recv receiving)).Makes ⟨data, place, .write⟩ := by
    simp [serve, socketRecvData, h]
  exact writes_serving place hserve

theorem writes_vRecvMsg_handling {messages : List Handling} :
    Writes (handling node messages) .threadMessageHandler (.vRecvMsg node) := by
  apply writes_of_makes .processMessages
  simp [code, handling, messageRound, handleNode, processMessages, writes]

theorem writes_handling {messages : List Handling} {message : Handling}
    (hmem : message ∈ messages)
    (h : (processMessage node message).Makes ⟨data, place, .write⟩) :
    Writes (handling node messages) .threadMessageHandler data := by
  apply writes_of_makes place
  have hloop : ∃ m ∈ messages, (processMessage node m).Makes ⟨data, place, .write⟩ :=
    ⟨message, hmem, h⟩
  simp [code, handling, messageRound, handleNode, processMessages, hloop]

/-- An operation that calls on the ledger writes it. -/
theorem makes_ledgerCalls {calls : ℕ} (hcalls : 0 < calls) :
    (ledgerCalls place .write calls).Makes ⟨.ledger, place, .write⟩ := by
  simp [ledgerCalls, hcalls.ne']

end Writes

end Locks

/-- What a node has besides its queues. -/
def BNode.withoutQueues (node : BNode) : BNode := { node with vSendMsg := [], vRecvMsg := [] }

namespace Threads

/-- The thread that makes a call. -/
def threadOf : ThreadEvent → Thread
  | .connectNode _ _ => .threadOpenConnections
  | .processMessages _ => .threadMessageHandler
  | _ => .threadSocketHandler

/-- A part of a node is not what it was. A node that is new is not shared yet. -/
def NodeChanged {β : Type} (part : BNode → β) (t t' : Threads) (k : ℕ) : Prop :=
  k < t.allocated ∧ part (t'.nodes k) ≠ part (t.nodes k)

/-- Shared data is not what it was. -/
def Changed (t t' : Threads) : Shared → Prop
  | .vNodes => t'.vNodes ≠ t.vNodes
  | .vSendMsg k => NodeChanged BNode.vSendMsg t t' k
  | .vRecvMsg k => NodeChanged BNode.vRecvMsg t t' k
  | .node k => t.listed k = true ∧ t'.listed k = false
  | .bSocket k => NodeChanged BNode.withoutQueues t t' k
  | .nRefCount _ => False
  | .ledger => t'.lastLedger ≠ t.lastLedger

section Rounds

/-- The pointers in `vNodes`. -/
def pointers (t : Threads) : List ℕ := t.vNodes.map Peer.pointer

/-- How far the condition of the disconnect phase is evaluated. -/
def check (node : BNode) : Locks.Check :=
  if node.fDisconnect = false then .connected
  else if node.vSendMsg ≠ [] then .sending
  else if node.vRecvMsg ≠ [] then .receiving
  else .removed

/-- What `ConnectNode` comes to. -/
def connecting (t : Threads) (bService : BService) (socket : Option ℕ) : Locks.Connecting :=
  match findNode t.vNodes bService, socket with
  | some p, _ => .found t.pointers p.pointer
  | none, none => .failed t.pointers
  | none, some _ => .connected t.pointers

/-- What `AcceptSocket` comes to. -/
def accepting (t : Threads) : Option (ℕ × BService) → Locks.Accepting
  | none => .refused t.pointers
  | some _ => if full t.vNodes then .refused t.pointers else .accepted t.pointers

/-- What the loop that fills the sets finds. -/
def filling (t : Threads) (sendLocked : List ℕ) (p : Peer ℕ) : Locks.Filling :=
  if (t.nodes p.pointer).bSocket = none then .closed
  else if t.selectsSend sendLocked p then .toSend
  else .nothing

/-- What `SocketRecvData` receives, with the calls of a request on the ledger. -/
def receiving (calls : ℕ) : RecvAnswer → Locks.Receiving
  | .received [] => .closed
  | .received (byte :: _) => if byte ≠ 0x7b then .message else .request calls none
  | .again => .nothing
  | .failed => .closed

/-- A round of `ProcessMessages`, with its calls on the ledger. -/
def handling (calls : ℕ) (message : BNetMessage) : Locks.Handling :=
  if (replyTo message).isSome then .reply calls else .ignored

/-- The round of its thread in which a call stands alone, with the calls that each operation on
the ledger makes. -/
def workload (calls : ℕ) (t : Threads) : ThreadEvent → Locks.Workload
  | .connectNode bService socket => Locks.connecting (t.connecting bService socket)
  | .disconnect =>
    Locks.disconnecting (t.vNodes.map fun p => (p.pointer, check (t.nodes p.pointer)))
  | .acceptSocket accepted => Locks.accepting (t.accepting accepted)
  | .select sendLocked _ _ _ =>
    Locks.selecting (t.vNodes.map fun p => (p.pointer, t.filling sendLocked p))
  | .socketRecvData pointer answer => Locks.serving pointer (.recv (receiving calls answer))
  | .socketRecvRequest pointer _ _ _ =>
    Locks.serving pointer
      (.recv (.request calls (some (t.vNodes.map fun p => (p.pointer, p.fInbound)))))
  | .socketSendData pointer _ => Locks.serving pointer .send
  | .processMessages pointer =>
    Locks.handling pointer ((t.nodes pointer).vRecvMsg.map (handling calls))

end Rounds

section Changes

variable {sha : Bytes → Uint256} {pb : Protobuf} {codec : MessageCodec}
  {extract : Bytes → Option ℚ} {t t' t'' : Threads} {data : Shared} {calls : ℕ}

theorem NodeChanged.ne {β : Type} {part : BNode → β} {k : ℕ} (h : NodeChanged part t t' k) :
    t'.nodes k ≠ t.nodes k :=
  fun heq => h.2 (congrArg part heq)

theorem NodeChanged.or {β : Type} {part : BNode → β} {k : ℕ} (h : NodeChanged part t t'' k)
    (hallocated : t.allocated ≤ t'.allocated) :
    NodeChanged part t t' k ∨ NodeChanged part t' t'' k := by
  by_cases heq : part (t'.nodes k) = part (t.nodes k)
  · exact .inr ⟨h.1.trans_le hallocated, heq ▸ h.2⟩
  · exact .inl ⟨h.1, heq⟩

theorem not_changed_self : ¬ Changed t t data := by
  cases data with
  | vNodes => exact fun h => h rfl
  | vSendMsg k => exact fun h => h.ne rfl
  | vRecvMsg k => exact fun h => h.ne rfl
  | node k => exact fun h => Bool.noConfusion (h.1.symm.trans h.2)
  | bSocket k => exact fun h => h.ne rfl
  | nRefCount k => exact id
  | ledger => exact fun h => h rfl

/-- What two steps change, one of them changes. -/
theorem Changed.or (h : Changed t t'' data) (hallocated : t.allocated ≤ t'.allocated) :
    Changed t t' data ∨ Changed t' t'' data := by
  cases data with
  | vNodes =>
    by_cases heq : t'.vNodes = t.vNodes
    · exact .inr fun heq' => h (heq'.trans heq)
    · exact .inl heq
  | vSendMsg k => exact NodeChanged.or h hallocated
  | vRecvMsg k => exact NodeChanged.or h hallocated
  | node k =>
    cases hlisted : t'.listed k with
    | true => exact .inr ⟨hlisted, h.2⟩
    | false => exact .inl ⟨h.1, hlisted⟩
  | bSocket k => exact NodeChanged.or h hallocated
  | nRefCount k => exact .inl h
  | ledger =>
    by_cases heq : t'.lastLedger = t.lastLedger
    · exact .inr fun heq' => h (heq'.trans heq)
    · exact .inl heq

/-- A new node changes `vNodes` only. -/
theorem changed_addNode {bService : BService} {fInbound : Bool} {socket : ℕ}
    (h : Changed t (t.addNode bService fInbound socket) data) : data = .vNodes := by
  have hnodes : ∀ k < t.allocated, (t.addNode bService fInbound socket).nodes k = t.nodes k :=
    fun k hk => Function.update_of_ne hk.ne ..
  cases data with
  | vNodes => rfl
  | vSendMsg k => exact absurd (hnodes k h.1) h.ne
  | vRecvMsg k => exact absurd (hnodes k h.1) h.ne
  | node k =>
    have hlisted : (t.addNode bService fInbound socket).listed k = true := by
      obtain ⟨p, hp, hk⟩ := listed_iff.mp h.1
      exact listed_iff.mpr ⟨p, List.mem_append_left _ hp, hk⟩
    exact absurd (hlisted.symm.trans h.2) Bool.noConfusion
  | bSocket k => exact absurd (hnodes k h.1) h.ne
  | nRefCount k => exact absurd h id
  | ledger => exact absurd rfl h

/-- The disconnect phase changes `vNodes` and gives back the nodes that it removes. -/
theorem changed_disconnect
    (h : Changed t { t with
      vNodes := Peers.disconnect t.nodes t.vNodes
      fdsetRecv := []
      fdsetSend := [] } data) :
    ∃ p ∈ t.vNodes, (t.nodes p.pointer).removable = true ∧
      (data = .vNodes ∨ data = .node p.pointer) := by
  cases data with
  | vNodes =>
    by_contra hnone
    refine h (List.filter_eq_self.mpr fun p hp => ?_)
    rw [Bool.not_eq_true']
    exact Bool.eq_false_iff.mpr fun hremovable => hnone ⟨p, hp, hremovable, .inl rfl⟩
  | vSendMsg k => exact absurd rfl h.ne
  | vRecvMsg k => exact absurd rfl h.ne
  | node k =>
    obtain ⟨p, hp, rfl⟩ := listed_iff.mp h.1
    refine ⟨p, hp, ?_, .inr rfl⟩
    by_contra hkept
    have hmem : p ∈ Peers.disconnect t.nodes t.vNodes :=
      mem_disconnect.mpr ⟨hp, Bool.eq_false_iff.mpr hkept⟩
    exact Bool.noConfusion ((listed_iff.mpr ⟨p, hmem, rfl⟩).symm.trans h.2)
  | bSocket k => exact absurd rfl h.ne
  | nRefCount k => exact absurd h id
  | ledger => exact absurd rfl h

/-- A call that leaves `vNodes` as it is changes the ledger or a part of a node. -/
theorem changed_of_vNodes (h : Changed t t' data) (hvNodes : t'.vNodes = t.vNodes) :
    data = .ledger ∧ t'.lastLedger ≠ t.lastLedger ∨
      ∃ k, data = .vSendMsg k ∧ NodeChanged BNode.vSendMsg t t' k ∨
        data = .vRecvMsg k ∧ NodeChanged BNode.vRecvMsg t t' k ∨
        data = .bSocket k ∧ NodeChanged BNode.withoutQueues t t' k := by
  cases data with
  | vNodes => exact absurd hvNodes h
  | vSendMsg k => exact .inr ⟨k, .inl ⟨rfl, h⟩⟩
  | vRecvMsg k => exact .inr ⟨k, .inr (.inl ⟨rfl, h⟩)⟩
  | node k =>
    have hlisted : t'.listed k = t.listed k := by rw [listed, hvNodes, listed]
    exact Bool.noConfusion (h.1.symm.trans (hlisted.symm.trans h.2))
  | bSocket k => exact .inr ⟨k, .inr (.inr ⟨rfl, h⟩)⟩
  | nRefCount k => exact absurd h id
  | ledger => exact .inl ⟨rfl, h⟩

/-- Only one node is changed. -/
theorem NodeChanged.eq_of_setNode {β : Type} {part : BNode → β} {k pointer : ℕ}
    {node : BNode} (h : NodeChanged part t t' k)
    (hnodes : t'.nodes = (t.setNode pointer node).nodes) :
    k = pointer ∧ part node ≠ part (t.nodes pointer) := by
  by_cases hk : k = pointer
  · subst hk
    refine ⟨rfl, fun heq => h.2 ?_⟩
    rw [hnodes, nodes_setNode_self, heq]
  · exact absurd (by rw [hnodes, nodes_setNode_of_ne hk]) h.ne

theorem check_eq_removed {node : BNode} (h : node.removable = true) : check node = .removed := by
  simp only [BNode.removable, Bool.and_eq_true, List.isEmpty_iff] at h
  simp [check, h]

/-- Whatever comes, the socket thread notes it, unless nothing has come yet. -/
theorem writes_bSocket_recv {pointer : ℕ} {r : Locks.Receiving} (h : r ≠ .nothing) :
    Locks.Writes (Locks.serving pointer (.recv r)) .threadSocketHandler (.bSocket pointer) := by
  apply Locks.writes_recv .socketRecvData
  cases r with
  | nothing => exact absurd rfl h
  | closed => simp [Locks.handleReceived, Locks.writes]
  | message => simp [Locks.handleReceived, Locks.writes]
  | request calls nodes => simp [Locks.handleReceived, Locks.writes]

theorem writes_vRecvMsg_recv {pointer : ℕ} :
    Locks.Writes (Locks.serving pointer (.recv .message)) .threadSocketHandler
      (.vRecvMsg pointer) := by
  apply Locks.writes_recv .socketRecvData
  simp [Locks.handleReceived, Locks.writes]

/-- `SocketRecvData` leaves the send queue of its node, and what it changes is written. -/
theorem writes_socketRecvData (calls pointer : ℕ) (answer : RecvAnswer) (node : BNode) :
    (node.socketRecvData codec answer).vSendMsg = node.vSendMsg ∧
      ((node.socketRecvData codec answer).vRecvMsg ≠ node.vRecvMsg →
        Locks.Writes (Locks.serving pointer (.recv (receiving calls answer)))
          .threadSocketHandler (.vRecvMsg pointer)) ∧
      ((node.socketRecvData codec answer).withoutQueues ≠ node.withoutQueues →
        Locks.Writes (Locks.serving pointer (.recv (receiving calls answer)))
          .threadSocketHandler (.bSocket pointer)) := by
  cases answer with
  | received bytes =>
    cases bytes with
    | nil => exact ⟨rfl, absurd rfl, fun _ => writes_bSocket_recv Locks.Receiving.noConfusion⟩
    | cons byte rest =>
      unfold BNode.socketRecvData receiving
      dsimp only
      split
      · exact ⟨rfl, fun _ => writes_vRecvMsg_recv,
          fun _ => writes_bSocket_recv Locks.Receiving.noConfusion⟩
      · exact ⟨rfl, absurd rfl, fun _ => writes_bSocket_recv Locks.Receiving.noConfusion⟩
  | again => exact ⟨rfl, absurd rfl, absurd rfl⟩
  | failed => exact ⟨rfl, absurd rfl, fun _ => writes_bSocket_recv Locks.Receiving.noConfusion⟩

/-- A push to some nodes changes no part of a node that a push keeps. -/
theorem part_pushOutbound {β : Type} {part : BNode → β} {push : BNode → BNode}
    (hpush : ∀ node, part (push node) = part node) (vNodes : List (Peer ℕ)) (nodes : ℕ → BNode)
    (k : ℕ) : part (pushOutbound push vNodes nodes k) = part (nodes k) :=
  pushOutbound_induction (P := fun node => part node = part (nodes k))
    (fun node h => (hpush node).trans h) vNodes rfl

theorem pushOutbound_of_notMem {push : BNode → BNode} {vNodes : List (Peer ℕ)}
    {nodes : ℕ → BNode} {k : ℕ} (h : k ∉ (outbound vNodes).map Peer.pointer) :
    pushOutbound push vNodes nodes k = nodes k :=
  foldl_update_of_notMem h

/-- The socket thread pushes a request to a node that this process has connected to. -/
theorem writes_vSendMsg_recv {pointer : ℕ} {p : Peer ℕ} (hp : p ∈ outbound t.vNodes) :
    Locks.Writes (Locks.serving pointer
        (.recv (.request calls (some (t.vNodes.map fun p => (p.pointer, p.fInbound))))))
      .threadSocketHandler (.vSendMsg p.pointer) := by
  obtain ⟨hmem, hinbound⟩ := mem_outbound.mp hp
  have hloop : ∃ x ∈ t.vNodes.map fun p => (p.pointer, p.fInbound),
      (Locks.pushRequest x.1 x.2).Makes ⟨.vSendMsg p.pointer, .parseHandleJsonData, .write⟩ := by
    refine ⟨_, List.mem_map_of_mem hmem, ?_⟩
    simp [Locks.pushRequest, hinbound, Locks.writes]
  apply Locks.writes_recv .parseHandleJsonData
  simp only [Locks.handleReceived, Locks.parseHandleJsonData, makes_append, makes_locked,
    makes_forEach, hloop, or_true]

theorem writes_ledger_recv {pointer : ℕ} {nodes : List (ℕ × Bool)} (hcalls : 0 < calls) :
    Locks.Writes (Locks.serving pointer (.recv (.request calls (some nodes))))
      .threadSocketHandler .ledger := by
  apply Locks.writes_recv .parseHandleJsonData
  simp only [Locks.handleReceived, Locks.parseHandleJsonData, makes_append]
  exact .inr (.inl (Locks.makes_ledgerCalls _ hcalls))

/-- A message of the queue has a reply. -/
theorem writes_processMessages {pointer : ℕ} {messages : List BNetMessage} (hcalls : 0 < calls)
    (h : ∃ message ∈ messages, replyTo message ≠ none) :
    Locks.Writes (Locks.handling pointer (messages.map (handling calls))) .threadMessageHandler
        .ledger ∧
      Locks.Writes (Locks.handling pointer (messages.map (handling calls)))
        .threadMessageHandler (.vSendMsg pointer) := by
  obtain ⟨message, hmem, hreply⟩ := h
  have hhandling : Locks.Handling.reply calls ∈ messages.map (handling calls) := by
    refine List.mem_map.mpr ⟨message, hmem, ?_⟩
    rw [handling, if_pos (Option.isSome_iff_ne_none.mpr hreply)]
  constructor
  · refine Locks.writes_handling .processMessages hhandling ?_
    simp only [Locks.processMessage, makes_append]
    exact .inl (.inl (Locks.makes_ledgerCalls _ hcalls))
  · refine Locks.writes_handling .processMessages hhandling ?_
    simp [Locks.processMessage, Locks.writes]

/-- A request changes the queues of the nodes that it is pushed to, and no others. -/
theorem changed_request {pointer : ℕ} {node : BNode} {command : Command} (hcalls : 0 < calls)
    (hsend : node.vSendMsg = (t.nodes pointer).vSendMsg)
    (hrecv : node.vRecvMsg = (t.nodes pointer).vRecvMsg) (h : Changed t t' data)
    (hvNodes : t'.vNodes = t.vNodes)
    (hnodes : t'.nodes = pushOutbound (fun node => node.pushMessage codec command.1 command.2)
      t.vNodes (t.setNode pointer node).nodes) :
    Locks.Writes (Locks.serving pointer
        (.recv (.request calls (some (t.vNodes.map fun p => (p.pointer, p.fInbound))))))
      .threadSocketHandler data := by
  -- A part that pushes keep is that of the node that has received.
  have hkept : ∀ {β : Type} {part : BNode → β} {k : ℕ},
      (∀ node, part (BNode.pushMessage codec node command.1 command.2) = part node) →
      NodeChanged part t t' k → NodeChanged part t (t.setNode pointer node) k := by
    intro β part k hpush hk
    refine ⟨hk.1, fun heq => hk.2 ?_⟩
    rw [hnodes, part_pushOutbound hpush, heq]
  rcases changed_of_vNodes h hvNodes with ⟨rfl, _⟩ | ⟨k, ⟨rfl, hk⟩ | ⟨_, hk⟩ | ⟨rfl, hk⟩⟩
  · exact writes_ledger_recv hcalls
  · by_cases hout : k ∈ (outbound t.vNodes).map Peer.pointer
    · obtain ⟨p, hp, rfl⟩ := List.mem_map.mp hout
      exact writes_vSendMsg_recv hp
    · have hsame : t'.nodes k = (t.setNode pointer node).nodes k :=
        (congrFun hnodes k).trans (pushOutbound_of_notMem hout)
      have hset : NodeChanged BNode.vSendMsg t (t.setNode pointer node) k :=
        ⟨hk.1, hsame ▸ hk.2⟩
      exact absurd hsend (hset.eq_of_setNode rfl).2
  · exact absurd hrecv ((hkept (fun _ => rfl) hk).eq_of_setNode rfl).2
  · obtain ⟨rfl, _⟩ := (hkept (fun _ => rfl) hk).eq_of_setNode rfl
    exact writes_bSocket_recv Locks.Receiving.noConfusion

/-- `SocketSendData` leaves the other queue. -/
theorem vRecvMsg_socketSendData {node : BNode} {stream : Bytes} {answers : List SendAnswer}
    {r : (BNode × Bytes) × Bool} (hr : BNode.socketSendData answers (node, stream) = .ok r) :
    r.1.1.vRecvMsg = node.vRecvMsg := by
  refine BNode.socketSendData_induction (P := fun s => s.1.vRecvMsg = node.vRecvMsg) ?_ ?_ ?_ rfl
    hr
  · exact fun _ _ h => h
  · exact fun _ _ _ _ _ _ _ _ h => h
  · exact fun _ _ _ _ _ _ _ h => h

/-- `SocketSendData` changes its queue and what is noted at the socket. -/
theorem changed_socketSendData {pointer : ℕ} {answers : List SendAnswer} {stream : Bytes}
    {r : (BNode × Bytes) × Bool}
    (hr : BNode.socketSendData answers (t.nodes pointer, stream) = .ok r)
    (h : Changed t t' data) (hvNodes : t'.vNodes = t.vNodes)
    (hledger : t'.lastLedger = t.lastLedger) (hnodes : t'.nodes = (t.setNode pointer r.1.1).nodes) :
    Locks.Writes (Locks.serving pointer .send) .threadSocketHandler data := by
  rcases changed_of_vNodes h hvNodes with ⟨_, hne⟩ | ⟨k, ⟨rfl, hk⟩ | ⟨_, hk⟩ | ⟨rfl, hk⟩⟩
  · exact absurd hledger hne
  · obtain ⟨rfl, _⟩ := hk.eq_of_setNode hnodes
    apply Locks.writes_serving .socketSendData
    simp [Locks.serve, Locks.socketSendData, Locks.writes]
  · exact absurd (vRecvMsg_socketSendData hr) (hk.eq_of_setNode hnodes).2
  · obtain ⟨rfl, _⟩ := hk.eq_of_setNode hnodes
    apply Locks.writes_serving .socketSendData
    simp [Locks.serve, Locks.socketSendData, Locks.writes]

/-- `ProcessMessages` drops its queue; only messages with a reply change more than that. -/
theorem changed_processMessages {pointer : ℕ} {r : Ledger.State × BNode} (hcalls : 0 < calls)
    (hr : Process.processMessages sha pb codec (t.lastLedger, t.nodes pointer) = .ok r)
    (h : Changed t { t.setNode pointer r.2 with lastLedger := r.1 } data) :
    Locks.Writes (Locks.handling pointer ((t.nodes pointer).vRecvMsg.map (handling calls)))
      .threadMessageHandler data := by
  have hreply : (r.1 ≠ t.lastLedger ∨ r.2.vSendMsg ≠ (t.nodes pointer).vSendMsg) →
      ∃ message ∈ (t.nodes pointer).vRecvMsg, replyTo message ≠ none := by
    intro hchanged
    by_contra hnone
    have hall : ∀ message ∈ (t.nodes pointer).vRecvMsg, replyTo message = none :=
      fun message hmem => not_not.mp fun hne => hnone ⟨message, hmem, hne⟩
    rw [processMessages_of_replyTo hall] at hr
    cases hr
    exact hchanged.elim (absurd rfl) (absurd rfl)
  rcases changed_of_vNodes h rfl with ⟨rfl, hledger⟩ | ⟨k, ⟨rfl, hk⟩ | ⟨rfl, hk⟩ | ⟨_, hk⟩⟩
  · exact (writes_processMessages hcalls (hreply (.inl hledger))).1
  · obtain ⟨rfl, hne⟩ := hk.eq_of_setNode rfl
    exact (writes_processMessages hcalls (hreply (.inr hne))).2
  · obtain ⟨rfl, _⟩ := hk.eq_of_setNode rfl
    exact Locks.writes_vRecvMsg_handling
  · refine absurd ?_ (hk.eq_of_setNode rfl).2
    rw [processMessages_node hr]
    rfl

/-- What a call changes, its program writes. -/
theorem changed_act {e : ThreadEvent} (hcalls : 0 < calls)
    (hact : act sha pb codec extract t e = .ok t') (h : Changed t t' data) :
    Locks.Writes (workload calls t e) (threadOf e) data := by
  cases e with
  | connectNode bService socket =>
    dsimp only [act] at hact
    split at hact
    · next socket hfind =>
      cases hact
      have hconnecting : t.connecting bService (some socket) = .connected t.pointers := by
        simp only [connecting, hfind]
      rw [changed_addNode h, workload, hconnecting]
      exact Locks.writes_vNodes_connecting
    · cases hact
      exact absurd h not_changed_self
  | disconnect =>
    cases hact
    obtain ⟨p, hp, hremovable, hdata⟩ := changed_disconnect h
    have hmem : (p.pointer, Locks.Check.removed) ∈
        t.vNodes.map fun p => (p.pointer, check (t.nodes p.pointer)) :=
      List.mem_map.mpr ⟨p, hp, by rw [check_eq_removed hremovable]⟩
    refine Locks.writes_disconnecting .disconnect hmem ?_
    rcases hdata with rfl | rfl
    · simp [Locks.disconnectNode, Locks.checkQueues, Locks.writes]
    · simp [Locks.disconnectNode, Locks.checkQueues, Locks.writes]
  | acceptSocket accepted =>
    cases accepted with
    | none =>
      cases hact
      exact absurd h not_changed_self
    | some accepted =>
      cases hact
      split at h
      · exact absurd h not_changed_self
      · next hfull =>
        rw [changed_addNode h, workload, accepting, if_neg hfull]
        exact Locks.writes_vNodes_accepting
  | select sendLocked recvLocked readable writable =>
    cases hact
    rcases changed_of_vNodes h rfl with ⟨_, hledger⟩ | ⟨k, ⟨_, hk⟩ | ⟨_, hk⟩ | ⟨_, hk⟩⟩
    · exact absurd rfl hledger
    · exact absurd rfl hk.ne
    · exact absurd rfl hk.ne
    · exact absurd rfl hk.ne
  | socketRecvData pointer answer =>
    cases hact
    obtain ⟨hsend, hrecv, hsocket⟩ :=
      @writes_socketRecvData codec calls pointer answer (t.nodes pointer)
    rcases changed_of_vNodes h rfl with ⟨_, hledger⟩ | ⟨k, ⟨_, hk⟩ | ⟨rfl, hk⟩ | ⟨rfl, hk⟩⟩
    · exact absurd rfl hledger
    · exact absurd hsend (hk.eq_of_setNode rfl).2
    · obtain ⟨rfl, hne⟩ := hk.eq_of_setNode rfl
      exact hrecv hne
    · obtain ⟨rfl, hne⟩ := hk.eq_of_setNode rfl
      exact hsocket hne
  | socketRecvRequest pointer rest m request =>
    obtain ⟨r, _, hact⟩ := bind_eq_ok.mp hact
    cases hact
    -- Data that starts with a brace is queued nowhere.
    have hsend : ((t.nodes pointer).socketRecvData codec (.received (0x7b :: rest))).vSendMsg =
        (t.nodes pointer).vSendMsg := rfl
    exact changed_request hcalls hsend rfl h rfl rfl
  | socketSendData pointer answers =>
    obtain ⟨r, hr, hact⟩ := bind_eq_ok.mp hact
    cases hact
    exact changed_socketSendData hr h rfl rfl rfl
  | processMessages pointer =>
    obtain ⟨r, hr, hact⟩ := bind_eq_ok.mp hact
    cases hact
    exact changed_processMessages hcalls hr h

theorem changed_step {e : ThreadEvent} (hcalls : 0 < calls)
    (hstep : step sha pb codec extract t e = .ok t') (h : Changed t t' data) :
    Locks.Writes (workload calls t e) (threadOf e) data := by
  unfold step at hstep
  split at hstep
  · exact changed_act hcalls hstep h
  · cases hstep
    exact absurd h not_changed_self

/-- What a run changes, one of its steps changes. -/
theorem exists_step_of_changed {σ ω : Type} (threads : σ → Threads)
    {step : σ → ω → Except Fault σ}
    (hallocated : ∀ {s o s'}, step s o = .ok s' →
      (threads s).allocated ≤ (threads s').allocated)
    {events : List ω} {s s' : σ} (hrun : events.foldlM step s = .ok s')
    (h : Changed (threads s) (threads s') data) :
    ∃ pre e post s₁ s₂, events = pre ++ e :: post ∧ pre.foldlM step s = .ok s₁ ∧
      step s₁ e = .ok s₂ ∧ Changed (threads s₁) (threads s₂) data := by
  induction events generalizing s with
  | nil =>
    rw [foldlM_nil_ok] at hrun
    exact absurd (hrun ▸ h) not_changed_self
  | cons e events ih =>
    obtain ⟨m, hm, hrun⟩ := foldlM_cons_ok.mp hrun
    rcases h.or (hallocated hm) with hfirst | hrest
    · exact ⟨[], e, events, s, m, rfl, rfl, hm, hfirst⟩
    · obtain ⟨pre, e', post, s₁, s₂, rfl, hpre, hstep, hchanged⟩ := ih hrun hrest
      exact ⟨e :: pre, e', post, s₁, s₂, rfl, foldlM_cons_ok.mpr ⟨m, hm, hpre⟩, hstep, hchanged⟩

/-- What a run of the threads changes is written among the mutexes: by the thread of one of the
calls, in the round of that call. -/
theorem changed_run (hcalls : 0 < calls) {events : List ThreadEvent}
    (hrun : events.foldlM (step sha pb codec extract) t = .ok t') (h : Changed t t' data) :
    ∃ pre e post t₁, events = pre ++ e :: post ∧
      pre.foldlM (step sha pb codec extract) t = .ok t₁ ∧
      Locks.Writes (workload calls t₁ e) (threadOf e) data := by
  obtain ⟨pre, e, post, t₁, t₂, hevents, hpre, hstep, hchanged⟩ :=
    exists_step_of_changed id (fun hstep => (step_changes hstep).allocated) hrun h
  exact ⟨pre, e, post, t₁, hevents, hpre, changed_step hcalls hstep hchanged⟩

end Changes

end Threads

namespace Listener

open Threads

/-- The thread that makes a call. -/
def threadOf : ListenerEvent → Thread
  | .count _ _ | .push => .threadSocketHandler
  | .thread e => Threads.threadOf e

/-- The round in which a call, or a part of `AcceptSocket`, stands alone. -/
def workload (calls : ℕ) (l : Listener) : ListenerEvent → Locks.Workload
  | .count _ _ => Locks.accepting (.refused l.threads.pointers)
  | .push => Locks.accepting (.accepted l.threads.pointers)
  | .thread e => Threads.workload calls l.threads e

variable {sha : Bytes → Uint256} {pb : Protobuf} {codec : MessageCodec}
  {extract : Bytes → Option ℚ} {l l' : Listener} {data : Shared} {calls : ℕ}

/-- What an event does to the threads: nothing, a new node behind the count, or another call. -/
theorem step_threads {e : ListenerEvent} (hstep : step sha pb codec extract l e = .ok l') :
    l'.threads = l.threads ∨
      (∃ bService socket, e = .push ∧ l'.threads = l.threads.addNode bService true socket) ∨
      ∃ call, e = .thread call ∧
        Threads.step sha pb codec extract l.threads call = .ok l'.threads := by
  unfold step at hstep
  split at hstep
  · cases e with
    | count hSocket bService =>
      cases hstep
      exact .inl rfl
    | push =>
      dsimp only [act] at hstep
      split at hstep <;> cases hstep
      · exact .inl rfl
      · dsimp only [finish]
        split
        · exact .inl rfl
        · exact .inr (.inl ⟨_, _, rfl, rfl⟩)
    | thread call =>
      obtain ⟨t, ht, hstep⟩ := bind_eq_ok.mp hstep
      cases hstep
      exact .inr (.inr ⟨call, rfl, ht⟩)
  · cases hstep
    exact .inl rfl

theorem changed_step {e : ListenerEvent} (hcalls : 0 < calls)
    (hstep : step sha pb codec extract l e = .ok l') (h : Changed l.threads l'.threads data) :
    Locks.Writes (workload calls l e) (threadOf e) data := by
  rcases step_threads hstep with hsame | ⟨bService, socket, rfl, hadd⟩ | ⟨call, rfl, hcall⟩
  · rw [hsame] at h
    exact absurd h not_changed_self
  · rw [hadd] at h
    rw [changed_addNode h]
    exact Locks.writes_vNodes_accepting
  · exact Threads.changed_step hcalls hcall h

theorem allocated_step {e : ListenerEvent} (hstep : step sha pb codec extract l e = .ok l') :
    l.threads.allocated ≤ l'.threads.allocated := by
  rcases step_threads hstep with hsame | ⟨bService, socket, rfl, hadd⟩ | ⟨call, rfl, hcall⟩
  · rw [hsame]
  · rw [hadd]
    exact Nat.le_succ _
  · exact (step_changes hcall).allocated

/-- What a run of the threads changes, with `AcceptSocket` in two parts, is written among the
mutexes. -/
theorem changed_run (hcalls : 0 < calls) {events : List ListenerEvent}
    (hrun : events.foldlM (step sha pb codec extract) l = .ok l')
    (h : Changed l.threads l'.threads data) :
    ∃ pre e post l₁, events = pre ++ e :: post ∧
      pre.foldlM (step sha pb codec extract) l = .ok l₁ ∧
      Locks.Writes (workload calls l₁ e) (threadOf e) data := by
  obtain ⟨pre, e, post, l₁, l₂, hevents, hpre, hstep, hchanged⟩ :=
    exists_step_of_changed Listener.threads allocated_step hrun h
  exact ⟨pre, e, post, l₁, hevents, hpre, changed_step hcalls hstep hchanged⟩

end Listener

namespace Dialer

open Threads

/-- The thread that makes a call. -/
def threadOf : DialEvent → Thread
  | .findNode | .connectSocket _ | .count => .threadOpenConnections
  | .thread e => Threads.threadOf e

/-- The round in which a call, or a part of a round of `ThreadOpenConnections`, stands alone. -/
def workload (calls : ℕ) (d : Dialer) : DialEvent → Locks.Workload
  | .findNode =>
    match d.phase with
    | .dialing (bService :: _) => Locks.connecting (d.threads.connecting bService none)
    | _ => ⟨[], [], []⟩
  | .connectSocket none => Locks.connecting (.failed d.threads.pointers)
  | .connectSocket (some _) => Locks.connecting (.connected d.threads.pointers)
  | .count => ⟨[], [⟨[], d.threads.pointers⟩], []⟩
  | .thread e => Threads.workload calls d.threads e

variable {sha : Bytes → Uint256} {pb : Protobuf} {codec : MessageCodec}
  {extract : Bytes → Option ℚ} {list : List BService} {d d' : Dialer} {data : Shared} {calls : ℕ}

/-- What an event does to the threads: nothing, a new node behind `ConnectSocket`, or a call of
another thread. -/
theorem step_threads {e : DialEvent} (hstep : step sha pb codec extract list d e = .ok d') :
    d'.threads = d.threads ∨
      (∃ socket bService, e = .connectSocket (some socket) ∧
        d'.threads = d.threads.addNode bService false socket) ∨
      ∃ call, e = .thread call ∧
        Threads.step sha pb codec extract d.threads call = .ok d'.threads := by
  cases e with
  | findNode =>
    dsimp only [step] at hstep
    split at hstep
    · split at hstep <;> cases hstep <;> exact .inl rfl
    · cases hstep
      exact .inl rfl
  | connectSocket socket =>
    dsimp only [step] at hstep
    split at hstep
    · cases socket with
      | none =>
        cases hstep
        exact .inl rfl
      | some socket =>
        cases hstep
        exact .inr (.inl ⟨socket, _, rfl, rfl⟩)
    · cases hstep
      exact .inl rfl
  | count =>
    dsimp only [step] at hstep
    split at hstep
    · split at hstep <;> cases hstep <;> exact .inl rfl
    · cases hstep
      exact .inl rfl
  | thread call =>
    dsimp only [step] at hstep
    split at hstep
    · cases hstep
      exact .inl rfl
    · obtain ⟨threads, hthreads, hstep⟩ := bind_eq_ok.mp hstep
      cases hstep
      exact .inr (.inr ⟨call, rfl, hthreads⟩)

theorem changed_step {e : DialEvent} (hcalls : 0 < calls)
    (hstep : step sha pb codec extract list d e = .ok d')
    (h : Changed d.threads d'.threads data) :
    Locks.Writes (workload calls d e) (threadOf e) data := by
  rcases step_threads hstep with hsame | ⟨socket, bService, rfl, hadd⟩ | ⟨call, rfl, hcall⟩
  · rw [hsame] at h
    exact absurd h not_changed_self
  · rw [hadd] at h
    rw [changed_addNode h]
    exact Locks.writes_vNodes_connecting
  · exact Threads.changed_step hcalls hcall h

theorem allocated_step {e : DialEvent} (hstep : step sha pb codec extract list d e = .ok d') :
    d.threads.allocated ≤ d'.threads.allocated := by
  rcases step_threads hstep with hsame | ⟨socket, bService, rfl, hadd⟩ | ⟨call, rfl, hcall⟩
  · rw [hsame]
  · rw [hadd]
    exact Nat.le_succ _
  · exact (step_changes hcall).allocated

/-- What a run of the threads changes, with `ConnectNode` in two parts, is written among the
mutexes. -/
theorem changed_run (hcalls : 0 < calls) {events : List DialEvent}
    (hrun : events.foldlM (step sha pb codec extract list) d = .ok d')
    (h : Changed d.threads d'.threads data) :
    ∃ pre e post d₁, events = pre ++ e :: post ∧
      pre.foldlM (step sha pb codec extract list) d = .ok d₁ ∧
      Locks.Writes (workload calls d₁ e) (threadOf e) data := by
  obtain ⟨pre, e, post, d₁, d₂, hevents, hpre, hstep, hchanged⟩ :=
    exists_step_of_changed Dialer.threads allocated_step hrun h
  exact ⟨pre, e, post, d₁, hevents, hpre, changed_step hcalls hstep hchanged⟩

end Dialer

end Bubi
