import Bubi.Core.Locking

/-!
# The mutexes of the threads

The socket thread, the thread that connects and the message thread share `vNodes`, the nodes
with their queues and the ledger. There are three kinds of mutexes for `vNodes` and the queues,
and the tree nodes of the ledger have one mutex for all. The timer of the server interrupts
any thread and walks through the account tree. What the threads find when they look, the
nodes, the messages and the answers of the system, is free here: a round of a thread takes it
as its argument.

Without the timer no deadlock is possible. A thread that the timer interrupts while it holds
the mutex of the tree nodes waits for itself. Races are possible at the ledger, which has no
mutex, at the queues of a node, which the socket thread also accesses without their mutexes,
and at a node that the socket thread deletes while another thread still has its pointer.
-/

namespace Bubi

open Bubi.Core.Locking Program

/-- The mutexes. -/
inductive Mutex where
  /-- `mu_vNodes`. -/
  | vNodes
  /-- `mu_vSendMsg_` of a node. -/
  | vSendMsg (node : ℕ)
  /-- `mu_vRecvMsg_` of a node. -/
  | vRecvMsg (node : ℕ)
  /-- `child_lock_`. -/
  | childLock
  deriving DecidableEq

/-- What the threads share. -/
inductive Shared where
  | vNodes
  | vSendMsg (node : ℕ)
  | vRecvMsg (node : ℕ)
  /-- The memory of a node, with the fields that are never changed and the mutexes: `delete`
  writes it, every other use through a pointer reads it. -/
  | node (node : ℕ)
  /-- `bSocket_` and `fDisconnect_` of a node, and what is counted and timed at its socket. -/
  | bSocket (node : ℕ)
  | nRefCount (node : ℕ)
  /-- The trees behind `last_ledger`, and what they are stored in. -/
  | ledger
  deriving DecidableEq

/-- Where shared data is accessed. -/
inductive Place where
  | findNode
  | connectNode
  | acceptSocket
  | parseHandleJsonData
  | socketSendData
  | socketRecvData
  | threadOpenConnections
  | processMessages
  | threadMessageHandler
  /-- The disconnect phase of `ThreadSocketHandler`. -/
  | disconnect
  /-- The rest of `ThreadSocketHandler`. -/
  | threadSocketHandler
  | autoPrintAccountBalance
  deriving DecidableEq

/-- How shared data is accessed. -/
inductive Kind where
  | read
  | write
  deriving DecidableEq

/-- An access to shared data. -/
structure Access where
  data : Shared
  place : Place
  kind : Kind
  deriving DecidableEq

/-- The threads of the server; `main` waits for the others. -/
inductive Thread where
  | main
  | threadSocketHandler
  | threadOpenConnections
  | threadMessageHandler
  deriving DecidableEq

instance : Fintype Thread where
  elems := {.main, .threadSocketHandler, .threadOpenConnections, .threadMessageHandler}
  complete t := by cases t <;> decide

/-- What a thread does with mutexes and shared data. -/
abbrev Code := Program Mutex Access

namespace Locks

section Functions

/-- Data is looked at. -/
def reads (data : Shared) (place : Place) : Code := touch ⟨data, place, .read⟩

/-- Data is changed, or may be. -/
def writes (data : Shared) (place : Place) : Code := touch ⟨data, place, .write⟩

/-- Calls of `get_child`, `canonicalize`, `set_child` and `set_item`, as operations on the ledger
make them, and what the operations do with the tree nodes behind the calls. -/
def ledgerCalls (place : Place) (kind : Kind) (calls : ℕ) : Code :=
  forEach (List.replicate calls ()) fun _ =>
    locked .childLock .done ++ touch ⟨.ledger, place, kind⟩

/-- A loop over `vNodes` that looks at some of the nodes. -/
def surveyNodes (place : Place) (seen : List ℕ) : Code :=
  locked .vNodes (reads .vNodes place ++ forEach seen fun node => reads (.node node) place)

/-- A copy of `vNodes`. -/
def copyNodes (place : Place) : Code := locked .vNodes (reads .vNodes place)

/-- A new node is appended to `vNodes`. -/
def pushNode (place : Place) : Code := locked .vNodes (writes .vNodes place)

/-- `FindNode`, with the nodes that it compares. -/
def findNode (seen : List ℕ) : Code := surveyNodes .findNode seen

/-- What `ConnectNode` comes to. -/
inductive Connecting where
  | found (seen : List ℕ) (node : ℕ)
  | failed (seen : List ℕ)
  | connected (seen : List ℕ)

/-- `ConnectNode`. A node that is found is counted without a mutex. -/
def connectNode : Connecting → Code
  | .found seen node => findNode seen ++ reads (.node node) .connectNode ++
      writes (.nRefCount node) .connectNode
  | .failed seen => findNode seen
  | .connected seen => findNode seen ++ pushNode .connectNode

/-- What `AcceptSocket` comes to: nothing to accept, a socket that is refused, or a new node. -/
inductive Accepting where
  | idle
  | refused (seen : List ℕ)
  | accepted (seen : List ℕ)

/-- `AcceptSocket`. -/
def acceptSocket : Accepting → Code
  | .idle => .done
  | .refused seen => surveyNodes .acceptSocket seen
  | .accepted seen => surveyNodes .acceptSocket seen ++ pushNode .acceptSocket

/-- A node in the loop that pushes a request, with its `fInbound_`. -/
def pushRequest (node : ℕ) (fInbound : Bool) : Code :=
  reads (.node node) .parseHandleJsonData ++
    if fInbound then .done else writes (.vSendMsg node) .parseHandleJsonData

/-- `ParseHandleJsonData`, with the calls that it makes on the ledger. The methods 1001 and 1004
push to the nodes that this process has connected to. -/
def parseHandleJsonData (calls : ℕ) : Option (List (ℕ × Bool)) → Code
  | none => ledgerCalls .parseHandleJsonData .write calls
  | some nodes => ledgerCalls .parseHandleJsonData .write calls ++
      locked .vNodes (reads .vNodes .parseHandleJsonData ++
        forEach nodes fun x => pushRequest x.1 x.2)

/-- `SocketSendData`. -/
def socketSendData (node : ℕ) : Code :=
  reads (.node node) .socketSendData ++ writes (.bSocket node) .socketSendData ++
    writes (.vSendMsg node) .socketSendData

/-- What `SocketRecvData` receives: nothing yet, the end, a peer's message, or a request. -/
inductive Receiving where
  | nothing
  | closed
  | message
  | request (calls : ℕ) (nodes : Option (List (ℕ × Bool)))

/-- `SocketRecvData` behind `recv`. -/
def handleReceived (node : ℕ) : Receiving → Code
  | .nothing => .done
  | .closed => writes (.bSocket node) .socketRecvData
  | .message => writes (.bSocket node) .socketRecvData ++
      writes (.vRecvMsg node) .socketRecvData
  | .request calls nodes => writes (.bSocket node) .socketRecvData ++
      parseHandleJsonData calls nodes

/-- `SocketRecvData`. -/
def socketRecvData (node : ℕ) (receiving : Receiving) : Code :=
  reads (.node node) .socketRecvData ++ reads (.bSocket node) .socketRecvData ++
    handleReceived node receiving

/-- A round of `ProcessMessages`: a message with a reply, with the calls that it makes on the
ledger, or another one. -/
inductive Handling where
  | reply (calls : ℕ)
  | ignored

/-- A round of `ProcessMessages`. -/
def processMessage (node : ℕ) : Handling → Code
  | .reply calls => ledgerCalls .processMessages .write calls ++
      reads (.node node) .processMessages ++
      locked (.vSendMsg node) (writes (.vSendMsg node) .processMessages)
  | .ignored => .done

/-- `ProcessMessages`. -/
def processMessages (node : ℕ) (messages : List Handling) : Code :=
  reads (.node node) .processMessages ++ reads (.vRecvMsg node) .processMessages ++
    forEach messages (processMessage node) ++ writes (.vRecvMsg node) .processMessages

end Functions

section Threads

/-- How far the condition of the disconnect phase is evaluated for a node. -/
inductive Check where
  | connected
  | sending
  | receiving
  | removed

/-- The disconnect phase at a node, behind its look at `fDisconnect_`. -/
def checkQueues (node : ℕ) : Check → Code
  | .connected => .done
  | .sending => reads (.vSendMsg node) .disconnect
  | .receiving => reads (.vSendMsg node) .disconnect ++ reads (.vRecvMsg node) .disconnect
  | .removed => reads (.vSendMsg node) .disconnect ++ reads (.vRecvMsg node) .disconnect ++
      writes .vNodes .disconnect ++ writes (.bSocket node) .disconnect ++
      writes (.node node) .disconnect

/-- The disconnect phase at a node. -/
def disconnectNode (node : ℕ) (check : Check) : Code :=
  reads (.node node) .disconnect ++ reads (.bSocket node) .disconnect ++ checkQueues node check

/-- The disconnect phase. -/
def disconnect (nodes : List (ℕ × Check)) : Code :=
  locked .vNodes (reads .vNodes .disconnect ++
    forEach nodes fun x => disconnectNode x.1 x.2)

/-- What the loop that fills the sets finds at a node: a closed socket, something to send, or
nothing. -/
inductive Filling where
  | closed
  | toSend
  | nothing

/-- The second half of the loop that fills the sets. -/
def fillRecv (node : ℕ) : Code :=
  tried (.vRecvMsg node) (reads (.vRecvMsg node) .threadSocketHandler) .done

/-- The first half, with what follows where there is nothing to send. -/
def fillSend (node : ℕ) (next : Code) : Code :=
  .tryLock (.vSendMsg node)
    (reads (.vSendMsg node) .threadSocketHandler ++ .unlock (.vSendMsg node) next)
    (fillRecv node)

/-- The loop that fills the sets, at a node; it goes on with the next node where there is
something to send. -/
def fillNode (node : ℕ) (filling : Filling) : Code :=
  reads (.node node) .threadSocketHandler ++ reads (.bSocket node) .threadSocketHandler ++
    match filling with
    | .closed => .done
    | .toSend => fillSend node .done
    | .nothing => fillSend node (fillRecv node)

/-- The loop that fills the sets. -/
def fill (nodes : List (ℕ × Filling)) : Code :=
  locked .vNodes (reads .vNodes .threadSocketHandler ++
    forEach nodes fun x => fillNode x.1 x.2)

/-- What the socket thread does for a node after `select`. -/
inductive Serving where
  | skipped
  | recv (receiving : Receiving)
  | send

/-- The service of a node. -/
def serve (node : ℕ) (serving : Serving) : Code :=
  reads (.node node) .threadSocketHandler ++ reads (.bSocket node) .threadSocketHandler ++
    match serving with
    | .skipped => .done
    | .recv receiving => tried (.vRecvMsg node) (socketRecvData node receiving) .done
    | .send => tried (.vSendMsg node) (socketSendData node) .done

/-- What a round of `ThreadSocketHandler` meets; nothing is served where `select` fails or runs
out of time. -/
structure SocketRound where
  checks : List (ℕ × Check)
  accepting : Accepting
  filling : List (ℕ × Filling)
  serving : Option (List (ℕ × Serving))

/-- A round of `ThreadSocketHandler`. -/
def socketRound (r : SocketRound) : Code :=
  disconnect r.checks ++ acceptSocket r.accepting ++ fill r.filling ++
    match r.serving with
    | none => .done
    | some nodes => copyNodes .threadSocketHandler ++ forEach nodes fun x => serve x.1 x.2

/-- What a round of `ThreadOpenConnections` meets, with the nodes that it counts at its end. -/
structure OpenRound where
  connecting : List Connecting
  seen : List ℕ

/-- A round of `ThreadOpenConnections`. -/
def openRound (r : OpenRound) : Code :=
  forEach r.connecting connectNode ++ surveyNodes .threadOpenConnections r.seen

/-- The message thread at a node, whose pointer it has copied. -/
def handleNode (node : ℕ) (messages : List Handling) : Code :=
  reads (.node node) .threadMessageHandler ++
    tried (.vRecvMsg node) (processMessages node messages) .done ++
    reads (.node node) .threadMessageHandler ++ tried (.vSendMsg node) .done .done

/-- A round of `ThreadMessageHandler`. -/
def messageRound (nodes : List (ℕ × List Handling)) : Code :=
  copyNodes .threadMessageHandler ++ forEach nodes fun x => handleNode x.1 x.2

/-- What the threads meet in any number of rounds. -/
structure Workload where
  socketRounds : List SocketRound
  openRounds : List OpenRound
  messageRounds : List (List (ℕ × List Handling))

/-- The code of the threads. -/
def code (w : Workload) : Thread → Code
  | .main => .done
  | .threadSocketHandler => forEach w.socketRounds socketRound
  | .threadOpenConnections => forEach w.openRounds openRound
  | .threadMessageHandler => forEach w.messageRounds messageRound

end Threads

/-- A step of a thread, or the timer in a thread, with the calls of `get_child` that
`auto_print_account_balance` makes. -/
inductive ServerEvent where
  | run (thread : Thread) (willing : Bool)
  | timer (thread : Thread) (calls : ℕ)

/-- The event of a system of threads. -/
def ServerEvent.event : ServerEvent → Event Thread Mutex Access
  | .run thread willing => .run thread willing
  | .timer thread calls => .interrupt thread (ledgerCalls .autoPrintAccountBalance .read calls)

/-- The threads after some steps. -/
def execute (w : Workload) (events : List ServerEvent) : System Thread Mutex Access :=
  (events.map ServerEvent.event).foldl System.event (System.start (code w))

section Rules

/-- The order in which mutexes are waited for. -/
def rank : Mutex → ℕ
  | .vRecvMsg _ => 0
  | .vNodes => 1
  | .vSendMsg _ => 2
  | .childLock => 3

/-- What a thread accesses, with the mutexes that it holds. -/
inductive Allowed : Thread → List Mutex → Access → Prop where
  | vNodes {t : Thread} {held : List Mutex} {place : Place} {kind : Kind}
    (h : .vNodes ∈ held) : Allowed t held ⟨.vNodes, place, kind⟩
  | socketSend {held : List Mutex} {node : ℕ} {place : Place} {kind : Kind}
    (h : .vSendMsg node ∈ held) : Allowed .threadSocketHandler held ⟨.vSendMsg node, place, kind⟩
  /-- A reply is pushed under the mutex of the queue. -/
  | messageSend {held : List Mutex} {node : ℕ} (h : .vSendMsg node ∈ held) :
    Allowed .threadMessageHandler held ⟨.vSendMsg node, .processMessages, .write⟩
  /-- A request is pushed without it. -/
  | requestSend {held : List Mutex} {node : ℕ} :
    Allowed .threadSocketHandler held ⟨.vSendMsg node, .parseHandleJsonData, .write⟩
  /-- The disconnect phase looks at the queues without their mutexes. -/
  | disconnectSend {held : List Mutex} {node : ℕ} :
    Allowed .threadSocketHandler held ⟨.vSendMsg node, .disconnect, .read⟩
  | socketRecv {held : List Mutex} {node : ℕ} {place : Place} {kind : Kind}
    (h : .vRecvMsg node ∈ held) : Allowed .threadSocketHandler held ⟨.vRecvMsg node, place, kind⟩
  | messageRecv {held : List Mutex} {node : ℕ} {kind : Kind} (h : .vRecvMsg node ∈ held) :
    Allowed .threadMessageHandler held ⟨.vRecvMsg node, .processMessages, kind⟩
  | disconnectRecv {held : List Mutex} {node : ℕ} :
    Allowed .threadSocketHandler held ⟨.vRecvMsg node, .disconnect, .read⟩
  | listedNode {t : Thread} {held : List Mutex} {node : ℕ} {place : Place}
    (h : .vNodes ∈ held) : Allowed t held ⟨.node node, place, .read⟩
  | deletedNode {held : List Mutex} {node : ℕ} (h : .vNodes ∈ held) :
    Allowed .threadSocketHandler held ⟨.node node, .disconnect, .write⟩
  /-- All threads keep pointers that they have found under `mu_vNodes`. -/
  | socketNode {held : List Mutex} {node : ℕ} {place : Place} :
    Allowed .threadSocketHandler held ⟨.node node, place, .read⟩
  | openNode {held : List Mutex} {node : ℕ} :
    Allowed .threadOpenConnections held ⟨.node node, .connectNode, .read⟩
  | messageNode {held : List Mutex} {node : ℕ} :
    Allowed .threadMessageHandler held ⟨.node node, .threadMessageHandler, .read⟩
  | processNode {held : List Mutex} {node : ℕ} :
    Allowed .threadMessageHandler held ⟨.node node, .processMessages, .read⟩
  | bSocket {held : List Mutex} {node : ℕ} {place : Place} {kind : Kind} :
    Allowed .threadSocketHandler held ⟨.bSocket node, place, kind⟩
  | nRefCount {held : List Mutex} {node : ℕ} {place : Place} {kind : Kind} :
    Allowed .threadOpenConnections held ⟨.nRefCount node, place, kind⟩
  | requestLedger {held : List Mutex} :
    Allowed .threadSocketHandler held ⟨.ledger, .parseHandleJsonData, .write⟩
  | messageLedger {held : List Mutex} :
    Allowed .threadMessageHandler held ⟨.ledger, .processMessages, .write⟩
  | timerLedger {t : Thread} {held : List Mutex} :
    Allowed t held ⟨.ledger, .autoPrintAccountBalance, .read⟩

/-- What a thread keeps to. -/
def rule (t : Thread) (held : List Mutex) (a : Action Mutex Access) : Prop :=
  System.Ordered rank held a ∧ System.Permitted (Allowed t) held a

variable {t : Thread} {held : List Mutex} {l : Mutex} {p q : Code} {x : Access} {node : ℕ}

theorem follows_locked_of_lt (hlt : ∀ l' ∈ held, rank l' < rank l)
    (hp : p.Follows (rule t) (l :: held) (l :: held)) :
    (locked l p).Follows (rule t) held held :=
  follows_locked ⟨hlt, trivial⟩ ⟨trivial, trivial⟩ hp

theorem follows_tried_of_notMem (hl : l ∉ held)
    (hp : p.Follows (rule t) (l :: held) (l :: held)) (hq : q.Follows (rule t) held held) :
    (tried l p q).Follows (rule t) held held :=
  follows_tried ⟨hl, trivial⟩ ⟨trivial, trivial⟩ hp hq

theorem Allowed.follows (h : Allowed t held x) : (touch x).Follows (rule t) held held :=
  follows_touch ⟨trivial, h⟩

/-- Operations on the ledger wait for the mutex of the tree nodes only. -/
theorem follows_ledgerCalls {place : Place} {kind : Kind} (calls : ℕ)
    (hlt : ∀ l ∈ held, rank l < 3) (h : Allowed t held ⟨.ledger, place, kind⟩) :
    (ledgerCalls place kind calls).Follows (rule t) held held :=
  follows_forEach fun _ _ => follows_append (follows_locked_of_lt hlt follows_done) h.follows

theorem follows_surveyNodes (place : Place) (seen : List ℕ) :
    (surveyNodes place seen).Follows (rule t) [] [] := by
  refine follows_locked_of_lt (by simp) (follows_append ?_ (follows_forEach fun node _ => ?_))
  · exact (Allowed.vNodes List.mem_cons_self).follows
  · exact (Allowed.listedNode List.mem_cons_self).follows

/-- An access to `vNodes` in a block of its own. -/
theorem follows_locked_vNodes (place : Place) (kind : Kind) :
    (locked .vNodes (touch ⟨.vNodes, place, kind⟩) : Code).Follows (rule t) [] [] :=
  follows_locked_of_lt (by simp) (Allowed.vNodes List.mem_cons_self).follows

theorem follows_connectNode (connecting : Connecting) :
    (connectNode connecting).Follows (rule .threadOpenConnections) [] [] := by
  cases connecting with
  | found seen node =>
    exact follows_append (follows_append (follows_surveyNodes .findNode seen)
      Allowed.openNode.follows) Allowed.nRefCount.follows
  | failed seen => exact follows_surveyNodes .findNode seen
  | connected seen =>
    exact follows_append (follows_surveyNodes .findNode seen) (follows_locked_vNodes .connectNode _)

theorem follows_acceptSocket (accepting : Accepting) :
    (acceptSocket accepting).Follows (rule t) [] [] := by
  cases accepting with
  | idle => exact follows_done
  | refused seen => exact follows_surveyNodes .acceptSocket seen
  | accepted seen =>
    exact follows_append (follows_surveyNodes .acceptSocket seen)
      (follows_locked_vNodes .acceptSocket _)

theorem follows_pushRequest (fInbound : Bool) :
    (pushRequest node fInbound).Follows (rule .threadSocketHandler) held held := by
  refine follows_append Allowed.socketNode.follows ?_
  cases fInbound with
  | true => exact follows_done
  | false => exact Allowed.requestSend.follows

/-- The socket thread waits for `mu_vNodes` while it holds the mutex of a receive queue. -/
theorem follows_parseHandleJsonData (calls : ℕ) (nodes : Option (List (ℕ × Bool))) :
    (parseHandleJsonData calls nodes).Follows (rule .threadSocketHandler) [.vRecvMsg node]
      [.vRecvMsg node] := by
  have hcalls : (ledgerCalls .parseHandleJsonData .write calls).Follows
      (rule .threadSocketHandler) [.vRecvMsg node] [.vRecvMsg node] :=
    follows_ledgerCalls calls (by simp [rank]) .requestLedger
  cases nodes with
  | none => exact hcalls
  | some nodes =>
    refine follows_append hcalls (follows_locked_of_lt (by simp [rank]) ?_)
    refine follows_append (Allowed.vNodes List.mem_cons_self).follows ?_
    exact follows_forEach fun x _ => follows_pushRequest x.2

theorem follows_socketRecvData (receiving : Receiving) :
    (socketRecvData node receiving).Follows (rule .threadSocketHandler) [.vRecvMsg node]
      [.vRecvMsg node] := by
  refine follows_append (follows_append Allowed.socketNode.follows Allowed.bSocket.follows) ?_
  cases receiving with
  | nothing => exact follows_done
  | closed => exact Allowed.bSocket.follows
  | message =>
    exact follows_append Allowed.bSocket.follows (Allowed.socketRecv List.mem_cons_self).follows
  | request calls nodes =>
    exact follows_append Allowed.bSocket.follows (follows_parseHandleJsonData calls nodes)

theorem follows_socketSendData :
    (socketSendData node).Follows (rule .threadSocketHandler) [.vSendMsg node]
      [.vSendMsg node] :=
  follows_append (follows_append Allowed.socketNode.follows Allowed.bSocket.follows)
    (Allowed.socketSend List.mem_cons_self).follows

theorem follows_serve (serving : Serving) :
    (serve node serving).Follows (rule .threadSocketHandler) [] [] := by
  refine follows_append (follows_append Allowed.socketNode.follows Allowed.bSocket.follows) ?_
  cases serving with
  | skipped => exact follows_done
  | recv receiving =>
    exact follows_tried_of_notMem (by simp) (follows_socketRecvData receiving) follows_done
  | send => exact follows_tried_of_notMem (by simp) follows_socketSendData follows_done

/-- Only `mu_vNodes` is held in the disconnect phase. -/
theorem follows_disconnectNode (check : Check) :
    (disconnectNode node check).Follows (rule .threadSocketHandler) [.vNodes] [.vNodes] := by
  refine follows_append (follows_append Allowed.socketNode.follows Allowed.bSocket.follows) ?_
  have hsend : (reads (.vSendMsg node) .disconnect).Follows (rule .threadSocketHandler)
      [.vNodes] [.vNodes] := Allowed.disconnectSend.follows
  have hrecv : (reads (.vRecvMsg node) .disconnect).Follows (rule .threadSocketHandler)
      [.vNodes] [.vNodes] := Allowed.disconnectRecv.follows
  have herase : (writes .vNodes .disconnect).Follows (rule .threadSocketHandler)
      [.vNodes] [.vNodes] := (Allowed.vNodes List.mem_cons_self).follows
  have hdelete : (writes (.node node) .disconnect).Follows (rule .threadSocketHandler)
      [.vNodes] [.vNodes] := (Allowed.deletedNode List.mem_cons_self).follows
  have hqueues := follows_append hsend hrecv
  cases check with
  | connected => exact follows_done
  | sending => exact hsend
  | receiving => exact hqueues
  | removed =>
    exact follows_append (follows_append (follows_append hqueues herase) Allowed.bSocket.follows)
      hdelete

theorem follows_disconnect (nodes : List (ℕ × Check)) :
    (disconnect nodes).Follows (rule .threadSocketHandler) [] [] := by
  refine follows_locked_of_lt (by simp) ?_
  refine follows_append (Allowed.vNodes List.mem_cons_self).follows ?_
  exact follows_forEach fun x _ => follows_disconnectNode x.2

theorem follows_fillRecv :
    (fillRecv node).Follows (rule .threadSocketHandler) [.vNodes] [.vNodes] :=
  follows_tried_of_notMem (by simp) (Allowed.socketRecv List.mem_cons_self).follows follows_done

theorem follows_fillSend (h : p.Follows (rule .threadSocketHandler) [.vNodes] [.vNodes]) :
    (fillSend node p).Follows (rule .threadSocketHandler) [.vNodes] [.vNodes] := by
  refine ⟨⟨by simp [System.Ordered], trivial⟩, ?_, follows_fillRecv⟩
  refine follows_append (Allowed.socketSend List.mem_cons_self).follows ⟨⟨trivial, trivial⟩, ?_⟩
  rw [List.erase_cons_head]
  exact h

/-- The mutexes of the queues are tried below `mu_vNodes`, not waited for. -/
theorem follows_fill (nodes : List (ℕ × Filling)) :
    (fill nodes).Follows (rule .threadSocketHandler) [] [] := by
  refine follows_locked_of_lt (by simp) ?_
  refine follows_append (Allowed.vNodes List.mem_cons_self).follows ?_
  refine follows_forEach fun x _ => ?_
  refine follows_append (follows_append Allowed.socketNode.follows Allowed.bSocket.follows) ?_
  cases x.2 with
  | closed => exact follows_done
  | toSend => exact follows_fillSend follows_done
  | nothing => exact follows_fillSend follows_fillRecv

theorem follows_socketRound (r : SocketRound) :
    (socketRound r).Follows (rule .threadSocketHandler) [] [] := by
  refine follows_append (follows_append (follows_append (follows_disconnect r.checks)
    (follows_acceptSocket r.accepting)) (follows_fill r.filling)) ?_
  split
  · exact follows_done
  · exact follows_append (follows_locked_vNodes .threadSocketHandler _)
      (follows_forEach fun x _ => follows_serve x.2)

theorem follows_openRound (r : OpenRound) :
    (openRound r).Follows (rule .threadOpenConnections) [] [] :=
  follows_append (follows_forEach fun x _ => follows_connectNode x)
    (follows_surveyNodes .threadOpenConnections r.seen)

/-- The message thread waits for the mutex of a send queue while it holds that of the receive
queue. -/
theorem follows_processMessage (message : Handling) :
    (processMessage node message).Follows (rule .threadMessageHandler) [.vRecvMsg node]
      [.vRecvMsg node] := by
  cases message with
  | reply calls =>
    have hcalls : (ledgerCalls .processMessages .write calls).Follows
        (rule .threadMessageHandler) [.vRecvMsg node] [.vRecvMsg node] :=
      follows_ledgerCalls calls (by simp [rank]) .messageLedger
    refine follows_append (follows_append hcalls Allowed.processNode.follows) ?_
    exact follows_locked_of_lt (by simp [rank]) (Allowed.messageSend List.mem_cons_self).follows
  | ignored => exact follows_done

theorem follows_processMessages (messages : List Handling) :
    (processMessages node messages).Follows (rule .threadMessageHandler) [.vRecvMsg node]
      [.vRecvMsg node] := by
  refine follows_append (follows_append (follows_append Allowed.processNode.follows ?_)
    (follows_forEach fun message _ => follows_processMessage message)) ?_
  · exact (Allowed.messageRecv List.mem_cons_self).follows
  · exact (Allowed.messageRecv List.mem_cons_self).follows

theorem follows_handleNode (messages : List Handling) :
    (handleNode node messages).Follows (rule .threadMessageHandler) [] [] := by
  refine follows_append (follows_append (follows_append Allowed.messageNode.follows ?_)
    Allowed.messageNode.follows) (follows_tried_of_notMem (by simp) follows_done follows_done)
  exact follows_tried_of_notMem (by simp) (follows_processMessages messages) follows_done

theorem follows_messageRound (nodes : List (ℕ × List Handling)) :
    (messageRound nodes).Follows (rule .threadMessageHandler) [] [] :=
  follows_append (follows_locked_vNodes .threadMessageHandler _)
    (follows_forEach fun x _ => follows_handleNode x.2)

/-- Every thread keeps to its rule. -/
theorem follows_code (w : Workload) (t : Thread) : (code w t).Follows (rule t) [] [] := by
  cases t with
  | main => exact follows_done
  | threadSocketHandler => exact follows_forEach fun r _ => follows_socketRound r
  | threadOpenConnections => exact follows_forEach fun r _ => follows_openRound r
  | threadMessageHandler => exact follows_forEach fun r _ => follows_messageRound r

end Rules

section Runs

variable {w : Workload} {events : List ServerEvent}

/-- An interrupt of the mapped events is the timer. -/
theorem exists_timer {pre post : List (Event Thread Mutex Access)} {t : Thread} {handler : Code}
    (h : events.map ServerEvent.event = pre ++ .interrupt t handler :: post) :
    ∃ pre' post' calls, events = pre' ++ .timer t calls :: post' ∧
      handler = ledgerCalls .autoPrintAccountBalance .read calls ∧
      pre'.map ServerEvent.event = pre := by
  obtain ⟨pre', rest, rfl, hpre, hrest⟩ := List.map_eq_append_iff.mp h
  obtain ⟨e, post', rfl, he, _⟩ := List.map_eq_cons_iff.mp hrest
  cases e with
  | run thread willing => cases he
  | timer thread calls =>
    cases he
    exact ⟨pre', post', calls, rfl, rfl, hpre⟩

theorem exclusive_execute (w : Workload) (events : List ServerEvent) :
    (execute w events).Exclusive :=
  (System.exclusive_start (code w)).run _

/-- The timer reads the ledger, wherever it interrupts. -/
theorem permitted_execute (w : Workload) (events : List ServerEvent) :
    (execute w events).Follow fun t => System.Permitted (Allowed t) := by
  refine System.Follow.run (System.follow_start fun t => ?_) ?_
  · exact (follows_code w t).mono fun _ _ h => h.2
  · intro pre post t handler hsplit
    obtain ⟨_, _, calls, _, rfl, _⟩ := exists_timer hsplit
    refine follows_forEach fun _ _ => follows_append ?_ (follows_touch .timerLedger)
    exact follows_locked trivial trivial follows_done

/-- The timer interrupts a thread that holds the mutex of the tree nodes, and asks for it. -/
def Interrupts (w : Workload) (events : List ServerEvent) (t : Thread) : Prop :=
  ∃ pre post calls, events = pre ++ .timer t (calls + 1) :: post ∧
    Mutex.childLock ∈ (execute w pre).held t

/-- Where the timer spares the holders, all threads wait in order. -/
theorem ordered_execute (h : ∀ t, ¬ Interrupts w events t) :
    (execute w events).Follow fun _ => System.Ordered rank := by
  refine System.Follow.run (System.follow_start fun t => ?_) ?_
  · exact (follows_code w t).mono fun _ _ h => h.1
  · intro pre post t handler hsplit
    obtain ⟨pre', post', calls, rfl, rfl, rfl⟩ := exists_timer hsplit
    cases calls with
    | zero => exact follows_done
    | succ calls =>
      have hnot : Mutex.childLock ∉ (execute w pre').held t := fun hheld =>
        h t ⟨pre', post', calls, rfl, hheld⟩
      refine follows_forEach fun _ _ => follows_append ?_ (follows_touch trivial)
      refine follows_locked (fun l hl => ?_) trivial follows_done
      cases l with
      | childLock => exact absurd hl hnot
      | _ => simp [rank]

theorem execute_append (w : Workload) (events : List ServerEvent) (e : ServerEvent) :
    execute w (events ++ [e]) = (execute w events).event e.event := by
  rw [execute, List.map_append, List.foldl_append]
  rfl

/-- A thread that has been interrupted as a holder waits for itself, for ever. -/
theorem self_waits_of_interrupts {t : Thread} (h : Interrupts w events t) :
    ∃ p, (execute w events).program t = .lock .childLock p ∧
      Mutex.childLock ∈ (execute w events).held t := by
  obtain ⟨pre, post, calls, rfl, hheld⟩ := h
  induction post using List.reverseRecOn with
  | nil =>
    rw [execute_append]
    dsimp only [ServerEvent.event, System.event, System.set]
    rw [Function.update_self, Function.update_self]
    exact ⟨_, rfl, hheld⟩
  | append_singleton post e ih =>
    obtain ⟨p, hp, hheld'⟩ := ih
    rw [← List.cons_append, ← List.append_assoc, execute_append]
    refine System.self_waits_event hp hheld' fun handler he => ?_
    cases e with
    | run thread willing => cases he
    | timer thread calls' =>
      cases he
      cases calls' with
      | zero => exact .inl rfl
      | succ calls' => exact .inr ⟨_, rfl⟩

/-- A thread waits, and neither for one that can go on nor for one that waits for such a one. -/
def Deadlocked (s : System Thread Mutex Access) : Prop :=
  ∃ t u, s.Waits t u ∧ ∀ v, Relation.TransGen s.Waits t v → ¬ s.Runs v

/-- Whatever the threads meet, and in whatever order they run: there is a deadlock exactly when the
timer has interrupted a thread that held the mutex of the tree nodes, and its handler has asked
for that mutex. -/
theorem deadlocked_iff (w : Workload) (events : List ServerEvent) :
    Deadlocked (execute w events) ↔ ∃ t, Interrupts w events t := by
  constructor
  · rintro ⟨t, u, hwaits, hnone⟩
    by_contra hspared
    have hordered := ordered_execute fun t ht => hspared ⟨t, ht⟩
    have hbound : ∀ l, rank l ≤ 3 := by
      intro l
      cases l <;> simp [rank]
    obtain ⟨v, hv, hruns⟩ := hordered.exists_runs hbound hwaits
    exact hnone v hv hruns
  · rintro ⟨t, ht⟩
    obtain ⟨p, hp, hheld⟩ := self_waits_of_interrupts ht
    have hself : (execute w events).Waits t t := ⟨_, p, hp, hheld⟩
    have honly : ∀ v, (execute w events).Waits t v → v = t := by
      rintro v ⟨l, p', hp', hheld'⟩
      cases hp.symm.trans hp'
      exact exclusive_execute w events v t _ hheld' hheld
    have hclosed : ∀ v, Relation.TransGen (execute w events).Waits t v → v = t := by
      intro v hv
      induction hv with
      | single hwaits => exact honly _ hwaits
      | tail _ hwaits ih => exact honly _ (ih ▸ hwaits)
    refine ⟨t, t, hself, fun v hv hruns => ?_⟩
    rw [hclosed v hv] at hruns
    exact hruns.2 t hself

/-- The message thread holds the mutex of the tree nodes while it applies a message. -/
example : Mutex.childLock ∈ (execute ⟨[], [], [[(0, [.reply 1])]]⟩
    (List.replicate 8 (.run .threadMessageHandler true))).held .threadMessageHandler := by
  decide

/-- The races: a thread that writes, and another one at the same data. -/
inductive Race : Thread → Access → Thread → Access → Prop where
  /-- A client's request and a peer's message are applied to the ledger at once. -/
  | requestMessage : Race .threadSocketHandler ⟨.ledger, .parseHandleJsonData, .write⟩
      .threadMessageHandler ⟨.ledger, .processMessages, .write⟩
  | messageRequest : Race .threadMessageHandler ⟨.ledger, .processMessages, .write⟩
      .threadSocketHandler ⟨.ledger, .parseHandleJsonData, .write⟩
  /-- The timer walks through the account tree in another thread. -/
  | requestTimer {u : Thread} : Race .threadSocketHandler ⟨.ledger, .parseHandleJsonData, .write⟩
      u ⟨.ledger, .autoPrintAccountBalance, .read⟩
  | messageTimer {u : Thread} : Race .threadMessageHandler ⟨.ledger, .processMessages, .write⟩
      u ⟨.ledger, .autoPrintAccountBalance, .read⟩
  /-- A request is pushed to a node, and a reply as well. -/
  | pushReply {node : ℕ} :
    Race .threadSocketHandler ⟨.vSendMsg node, .parseHandleJsonData, .write⟩
      .threadMessageHandler ⟨.vSendMsg node, .processMessages, .write⟩
  | replyPush {node : ℕ} : Race .threadMessageHandler ⟨.vSendMsg node, .processMessages, .write⟩
      .threadSocketHandler ⟨.vSendMsg node, .parseHandleJsonData, .write⟩
  /-- The disconnect phase looks at a queue that `ProcessMessages` changes. -/
  | replyDisconnect {node : ℕ} :
    Race .threadMessageHandler ⟨.vSendMsg node, .processMessages, .write⟩
      .threadSocketHandler ⟨.vSendMsg node, .disconnect, .read⟩
  | processDisconnect {node : ℕ} :
    Race .threadMessageHandler ⟨.vRecvMsg node, .processMessages, .write⟩
      .threadSocketHandler ⟨.vRecvMsg node, .disconnect, .read⟩
  /-- A node is deleted that `ConnectNode` has found. -/
  | deleteConnect {node : ℕ} : Race .threadSocketHandler ⟨.node node, .disconnect, .write⟩
      .threadOpenConnections ⟨.node node, .connectNode, .read⟩
  /-- A node is deleted that the message thread has copied. -/
  | deleteMessage {node : ℕ} : Race .threadSocketHandler ⟨.node node, .disconnect, .write⟩
      .threadMessageHandler ⟨.node node, .threadMessageHandler, .read⟩
  | deleteProcess {node : ℕ} : Race .threadSocketHandler ⟨.node node, .disconnect, .write⟩
      .threadMessageHandler ⟨.node node, .processMessages, .read⟩

/-- Two allowed accesses to the same data, one of which writes, are under one mutex or make a
race. -/
theorem Allowed.race {t u : Thread} {held held' : List Mutex} {data : Shared}
    {place place' : Place} {kind : Kind} (hne : t ≠ u)
    (hdisjoint : ∀ l ∈ held, l ∉ held') (hx : Allowed t held ⟨data, place, .write⟩)
    (hy : Allowed u held' ⟨data, place', kind⟩) :
    Race t ⟨data, place, .write⟩ u ⟨data, place', kind⟩ := by
  cases hx with
  | vNodes h =>
    cases hy with
    | vNodes h' => exact absurd h' (hdisjoint _ h)
  | socketSend h =>
    cases hy with
    | messageSend h' => exact absurd h' (hdisjoint _ h)
    | _ => exact absurd rfl hne
  | messageSend h =>
    cases hy with
    | socketSend h' => exact absurd h' (hdisjoint _ h)
    | messageSend _ => exact absurd rfl hne
    | requestSend => exact .replyPush
    | disconnectSend => exact .replyDisconnect
  | requestSend =>
    cases hy with
    | messageSend _ => exact .pushReply
    | _ => exact absurd rfl hne
  | socketRecv h =>
    cases hy with
    | messageRecv h' => exact absurd h' (hdisjoint _ h)
    | _ => exact absurd rfl hne
  | messageRecv h =>
    cases hy with
    | socketRecv h' => exact absurd h' (hdisjoint _ h)
    | messageRecv _ => exact absurd rfl hne
    | disconnectRecv => exact .processDisconnect
  | deletedNode h =>
    cases hy with
    | listedNode h' => exact absurd h' (hdisjoint _ h)
    | deletedNode _ => exact absurd rfl hne
    | socketNode => exact absurd rfl hne
    | openNode => exact .deleteConnect
    | messageNode => exact .deleteMessage
    | processNode => exact .deleteProcess
  | bSocket =>
    cases hy with
    | bSocket => exact absurd rfl hne
  | nRefCount =>
    cases hy with
    | nRefCount => exact absurd rfl hne
  | requestLedger =>
    cases hy with
    | requestLedger => exact absurd rfl hne
    | messageLedger => exact .requestMessage
    | timerLedger => exact .requestTimer
  | messageLedger =>
    cases hy with
    | requestLedger => exact .messageRequest
    | messageLedger => exact absurd rfl hne
    | timerLedger => exact .messageTimer

/-- Whatever the threads meet, and in whatever order they and the timer run: two threads that are at
accesses to the same data, one of which writes, make one of the races. There is none at `vNodes`,
at `bSocket_` and `fDisconnect_`, or at `nRefCount_`. -/
theorem race_of_accesses (w : Workload) (events : List ServerEvent) (t u : Thread) (hne : t ≠ u)
    (x y : Access) (p q : Code) (hx : (execute w events).program t = .access x p)
    (hy : (execute w events).program u = .access y q) (hdata : x.data = y.data)
    (hwrite : x.kind = .write) : Race t x u y := by
  have hallowed := (permitted_execute w events).allowed_of_access hx
  have hallowed' := (permitted_execute w events).allowed_of_access hy
  have hdisjoint : ∀ l ∈ (execute w events).held t, l ∉ (execute w events).held u :=
    fun l hl hl' => hne (exclusive_execute w events t u l hl hl')
  obtain ⟨data, place, kind⟩ := x
  obtain ⟨data', place', kind'⟩ := y
  obtain rfl : data = data' := hdata
  obtain rfl : kind = .write := hwrite
  exact hallowed.race hne hdisjoint hallowed'

/-- A client's request and a peer's message, each with a call on the ledger. -/
def sampleWorkload : Workload where
  socketRounds := [⟨[], .idle, [], some [(0, .recv (.request 1 none))]⟩]
  openRounds := []
  messageRounds := [[(1, [.reply 1])]]

/-- The message thread up to its access to the ledger, then the socket thread likewise. -/
def sampleRace : List ServerEvent :=
  List.replicate 9 (.run .threadMessageHandler true) ++
    List.replicate 17 (.run .threadSocketHandler true)

theorem race_of_sampleRace :
    ∃ p q, (execute sampleWorkload sampleRace).program .threadSocketHandler =
        .access ⟨.ledger, .parseHandleJsonData, .write⟩ p ∧
      (execute sampleWorkload sampleRace).program .threadMessageHandler =
        .access ⟨.ledger, .processMessages, .write⟩ q ∧
      Race .threadSocketHandler ⟨.ledger, .parseHandleJsonData, .write⟩
        .threadMessageHandler ⟨.ledger, .processMessages, .write⟩ := by
  obtain ⟨p, hp⟩ : ∃ p, (execute sampleWorkload sampleRace).program .threadSocketHandler =
      .access ⟨.ledger, .parseHandleJsonData, .write⟩ p := ⟨_, rfl⟩
  obtain ⟨q, hq⟩ : ∃ q, (execute sampleWorkload sampleRace).program .threadMessageHandler =
      .access ⟨.ledger, .processMessages, .write⟩ q := ⟨_, rfl⟩
  exact ⟨p, q, hp, hq, race_of_accesses sampleWorkload sampleRace .threadSocketHandler
    .threadMessageHandler (by decide) _ _ p q hp hq rfl rfl⟩

end Runs

end Locks

end Bubi
