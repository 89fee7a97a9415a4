import Bubi.Core.Handles
import Bubi.Net.Queue

/-!
# Socket descriptors

The functions of `netbase.cpp` open, use and close descriptors on many paths. The socket thread
accepts, reads, writes and closes while `ConnectSocket` of the other thread is between two of its
calls. No call of the process names a descriptor that it has closed, and none is left open that
nobody owns. Two functions go on with `INVALID_SOCKET`: `ConnectSocket` behind a failed `fcntl`,
and `SocketSendData` behind an error that closes the socket.

A function that makes a call on one descriptor several times in a row has it here once.
-/

namespace Bubi

open Bubi.Core HandleCall Peers Process

/-- The system calls on descriptors. -/
inductive SystemCall where
  | socket
  | accept
  | setsockopt
  | fcntl
  | bind
  | listen
  | connect
  | getsockopt
  | select
  | recv
  | send
  | close
  deriving DecidableEq

/-- A call with its descriptor, which may be `INVALID_SOCKET`; `socket` and `accept` have the one
that they return. -/
structure SocketCall where
  name : SystemCall
  bSocket : Option ℕ

/-- What a call does with its descriptor: on `INVALID_SOCKET` nothing. -/
def SocketCall.handle (call : SocketCall) : Option (HandleCall ℕ) :=
  call.bSocket.map fun socket =>
    match call.name with
    | .socket | .accept => .acquire socket
    | .close => .release socket
    | _ => .use socket

/-- The calls that a process makes. -/
abbrev Calls := List SocketCall

/-- What calls do with descriptors. -/
def handles (calls : Calls) : List (HandleCall ℕ) := calls.filterMap SocketCall.handle

/-- `CloseSocket`, which leaves `INVALID_SOCKET` behind and makes no call on it. -/
def closeSocket (bSocket : Option ℕ) : Calls :=
  bSocket.toList.map fun socket => ⟨.close, some socket⟩

/-- `SetSocketNonBlocking (bSocket, true)`, with the answer of its second `fcntl`: the socket as it
leaves it, and its return value. -/
def setSocketNonBlocking (bSocket : Option ℕ) (answer : Bool) : Calls × Option ℕ × Bool :=
  if answer then ([⟨.fcntl, bSocket⟩], bSocket, true)
  else (⟨.fcntl, bSocket⟩ :: closeSocket bSocket, none, false)

/-- How `select` in `ConnectSocket` ends, and `getsockopt` with the error that it reports. -/
inductive SelectAnswer where
  | timeout
  | failed
  | ready (error : Option ℕ)

/-- The answer of `connect`, with that of `select` where it is in progress. -/
inductive ConnectAnswer where
  | connected
  | inProgress (answer : SelectAnswer)
  | failed

/-- The answers of the system in `ConnectSocket`. -/
structure ConnectAnswers where
  socket : Option ℕ
  fcntl : Bool
  connect : ConnectAnswer

/-- The calls of `ConnectSocket` while it is in progress. -/
def waitCalls (bSocket : Option ℕ) : SelectAnswer → Calls
  | .timeout | .failed => [⟨.select, bSocket⟩]
  | .ready _ => [⟨.select, bSocket⟩, ⟨.getsockopt, bSocket⟩]

/-- `ConnectSocket`, with `bSocketRet`. -/
def connectSocket (a : ConnectAnswers) : Calls × Option ℕ :=
  match a.socket with
  | none => ([], none)
  | some socket =>
    let r := setSocketNonBlocking (some socket) a.fcntl
    let bSocket := r.2.1
    -- The return value is not looked at: `connect` may meet `INVALID_SOCKET`, and fails then.
    let calls := ⟨.socket, some socket⟩ :: r.1 ++ [⟨.connect, bSocket⟩]
    match if bSocket.isSome then a.connect else .failed with
    | .connected => (calls, bSocket)
    | .inProgress (.ready (some 0)) => (calls ++ waitCalls bSocket (.ready (some 0)), bSocket)
    | .inProgress answer => (calls ++ waitCalls bSocket answer ++ closeSocket bSocket, none)
    | .failed => (calls ++ closeSocket bSocket, none)

/-- The answers of the system in `BindListenPort`. -/
structure BindAnswers where
  socket : Option ℕ
  fcntl : Bool
  bind : Bool
  listen : Bool

/-- `BindListenPort`, with the socket that it appends to `bgListenSocket`. -/
def bindListenPort (a : BindAnswers) : Calls × Option ℕ :=
  match a.socket with
  | none => ([], none)
  | some socket =>
    let r := setSocketNonBlocking (some socket) a.fcntl
    let calls := [⟨.socket, some socket⟩, ⟨.setsockopt, some socket⟩] ++ r.1
    if r.2.2 = false then (calls, none)
    else if a.bind = false then (calls ++ ⟨.bind, r.2.1⟩ :: closeSocket r.2.1, none)
    else if a.listen = false then
      (calls ++ [⟨.bind, r.2.1⟩, ⟨.listen, r.2.1⟩] ++ closeSocket r.2.1, none)
    else (calls ++ [⟨.bind, r.2.1⟩, ⟨.listen, r.2.1⟩], r.2.1)

/-- A call of `ConnectSocket` that has not returned: the calls that it still makes, and the socket
that it returns. -/
structure Connecting where
  bService : BService
  todo : Calls
  bSocketRet : Option ℕ

/-- A process with the descriptors that it knows of and all its calls. -/
structure Descriptors where
  threads : Threads
  bgListenSocket : List ℕ
  connecting : Option Connecting
  calls : Calls

/-- What happens in a process. -/
inductive DescriptorEvent where
  | bindListenPort (a : BindAnswers)
  /-- `ConnectNode` up to `ConnectSocket`. -/
  | findNode (bService : BService) (a : ConnectAnswers)
  /-- The next call of `ConnectSocket`, or the rest of `ConnectNode` behind the last one. -/
  | connect
  /-- `AcceptSocket`, with the listening socket that is ready and the answer of `accept`. -/
  | acceptSocket (ready : Option (ℕ × Option (ℕ × BService)))
  /-- One more round of the loop of `SocketSendData` on a closed socket. -/
  | sendAgain
  /-- Any other call of a thread. -/
  | thread (e : ThreadEvent)

/-- The calls that open sockets. -/
def ThreadEvent.opensSocket : ThreadEvent → Bool
  | .connectNode _ _ | .acceptSocket _ => true
  | _ => false

namespace Descriptors

/-- The sockets of the nodes. -/
def owned (t : Threads) : List ℕ := t.vNodes.filterMap fun p => (t.nodes p.pointer).bSocket

/-- The socket that `CloseSocketDisconnect` has closed, if it was called. -/
def lost (node node' : BNode) : Option ℕ := if node'.bSocket = none then node.bSocket else none

/-- One call on each of some descriptors. -/
def callEach (name : SystemCall) (sockets : List ℕ) : Calls :=
  sockets.map fun socket => ⟨name, some socket⟩

/-- The calls of a thread on descriptors. -/
def callsOf (t t' : Threads) : ThreadEvent → Calls
  -- `CloseSocketDisconnect` and the destructor, for a node that still has a socket.
  | .disconnect => callEach .close (t.sockets fun p => (t.nodes p.pointer).removable)
  | .select sendLocked recvLocked _ _ =>
    callEach .select (t.sockets (t.selectsRecv sendLocked recvLocked) ++
      t.sockets (t.selectsSend sendLocked))
  | .socketRecvData pointer _ =>
    ⟨.recv, (t.nodes pointer).bSocket⟩ ::
      closeSocket (lost (t.nodes pointer) (t'.nodes pointer))
  | .socketRecvRequest pointer _ _ _ =>
    [⟨.recv, (t.nodes pointer).bSocket⟩, ⟨.send, (t.nodes pointer).bSocket⟩]
  -- Up to the `send` that closes the socket.
  | .socketSendData pointer _ =>
    ⟨.send, (t.nodes pointer).bSocket⟩ ::
      closeSocket (lost (t.nodes pointer) (t'.nodes pointer))
  | .processMessages _ | .connectNode _ _ | .acceptSocket _ => []

/-- `AcceptSocket`: the calls, and what it has accepted. -/
def acceptSocket (bgListenSocket : List ℕ) (vNodes : List (Peer ℕ))
    (ready : Option (ℕ × Option (ℕ × BService))) : Calls × Option (ℕ × BService) :=
  match ready.bind fun r => if r.1 ∈ bgListenSocket then r.2 else none with
  | none => (callEach .select bgListenSocket, none)
  | some (socket, bService) =>
    (callEach .select bgListenSocket ++ ⟨.accept, some socket⟩ ::
      (if full vNodes then closeSocket (some socket) else []), some (socket, bService))

/-- A process before its first call. -/
def start (s : Ledger.State) : Descriptors := ⟨.start s, [], none, []⟩

section Model

variable (sha : Bytes → Uint256) (pb : Protobuf) (codec : MessageCodec)
  (extract : Bytes → Option ℚ)

/-- One event; a call that cannot be made now does nothing. -/
def step (w : Descriptors) : DescriptorEvent → Except Fault Descriptors
  | .bindListenPort a =>
    let r := bindListenPort a
    .ok { w with bgListenSocket := w.bgListenSocket ++ r.2.toList, calls := w.calls ++ r.1 }
  | .findNode bService a =>
    match w.connecting, findNode w.threads.vNodes bService with
    | none, none =>
      let r := connectSocket a
      .ok { w with connecting := some ⟨bService, r.1, r.2⟩ }
    | _, _ => .ok w
  | .connect =>
    match w.connecting with
    | none => .ok w
    | some ⟨bService, call :: todo, bSocketRet⟩ =>
      .ok { w with connecting := some ⟨bService, todo, bSocketRet⟩, calls := w.calls ++ [call] }
    | some ⟨bService, [], some bSocket⟩ =>
      .ok { w with threads := w.threads.addNode bService false bSocket, connecting := none }
    | some ⟨_, [], none⟩ => .ok { w with connecting := none }
  | .acceptSocket ready =>
    if w.threads.sending.isNone then do
      let r := acceptSocket w.bgListenSocket w.threads.vNodes ready
      let threads ← Threads.act sha pb codec extract w.threads (.acceptSocket r.2)
      .ok { w with threads, calls := w.calls ++ r.1 }
    else .ok w
  | .sendAgain =>
    match w.threads.sending with
    | none => .ok w
    | some pointer =>
      match (w.threads.nodes pointer).bSocket with
      | none => .ok { w with calls := w.calls ++ [⟨.send, none⟩] }
      | some _ => .ok w
  | .thread e =>
    if w.threads.enabled e && !e.opensSocket then do
      let threads ← Threads.act sha pb codec extract w.threads e
      .ok { w with threads, calls := w.calls ++ callsOf w.threads threads e }
    else .ok w

end Model

section Netbase

theorem handles_append (calls calls' : Calls) :
    handles (calls ++ calls') = handles calls ++ handles calls' := List.filterMap_append

theorem handles_closeSocket (bSocket : Option ℕ) :
    handles (closeSocket bSocket) = bSocket.toList.map .release := by
  cases bSocket <;> rfl

theorem handles_callEach_close (sockets : List ℕ) :
    handles (callEach .close sockets) = sockets.map .release := by
  unfold handles callEach
  rw [List.filterMap_map]
  exact congrFun List.filterMap_eq_map sockets

theorem handles_callEach_select (sockets : List ℕ) :
    handles (callEach .select sockets) = sockets.map .use := by
  unfold handles callEach
  rw [List.filterMap_map]
  exact congrFun List.filterMap_eq_map sockets

/-- Calls leave some descriptors open, and those on `INVALID_SOCKET` are of the two kinds that
there are. -/
structure Leaves (held : List ℕ) (calls : Calls) (held' : List ℕ) : Prop where
  yields : Yields held (handles calls) held'
  invalid : ∀ call ∈ calls, call.bSocket = none → call.name = .connect ∨ call.name = .send

theorem leaves_nil (held : List ℕ) : Leaves held [] held :=
  ⟨yields_nil held, fun _ hcall => nomatch hcall⟩

theorem Leaves.append {held held' held'' : List ℕ} {calls calls' : Calls}
    (h : Leaves held calls held') (h' : Leaves held' calls' held'') :
    Leaves held (calls ++ calls') held'' := by
  refine ⟨?_, fun call hcall => ?_⟩
  · rw [handles_append]
    exact h.yields.append h'.yields
  · rcases List.mem_append.mp hcall with hcall | hcall
    · exact h.invalid call hcall
    · exact h'.invalid call hcall

/-- The first of some calls, beside descriptors of others. -/
theorem Leaves.exists_first {held held' : List ℕ} {call : SocketCall} {calls : Calls}
    (h : Leaves held (call :: calls) held') :
    ∃ held₁, (∀ others, Leaves (held ++ others) [call] (held₁ ++ others)) ∧
      Leaves held₁ calls held' := by
  have hinvalid : ∀ c ∈ [call], c.bSocket = none → c.name = .connect ∨ c.name = .send := by
    intro c hc
    rw [List.mem_singleton.mp hc]
    exact h.invalid call List.mem_cons_self
  have hrest : ∀ c ∈ calls, c.bSocket = none → c.name = .connect ∨ c.name = .send :=
    fun c hc => h.invalid c (List.mem_cons_of_mem _ hc)
  have hyields := h.yields
  cases hhandle : call.handle with
  | none =>
    have hcons : handles (call :: calls) = handles calls := List.filterMap_cons_none hhandle
    have hone : handles [call] = [] := List.filterMap_cons_none hhandle
    rw [hcons] at hyields
    refine ⟨held, fun others => ⟨?_, hinvalid⟩, hyields, hrest⟩
    rw [hone]
    exact yields_nil _
  | some c =>
    have hcons : handles (call :: calls) = c :: handles calls := List.filterMap_cons_some hhandle
    have hone : handles [call] = [c] := List.filterMap_cons_some hhandle
    rw [hcons] at hyields
    refine ⟨hold held c, fun others => ⟨?_, hinvalid⟩, hyields.tail, hrest⟩
    rw [hone]
    exact yields_singleton hyields.1.1 others

theorem Leaves.trans_perm {held held' xs : List ℕ} {calls : Calls} (h : Leaves held calls held')
    (hperm : held'.Perm xs) : Leaves held calls xs :=
  ⟨h.yields.trans_perm hperm, h.invalid⟩

theorem leaves_open {name : SystemCall} (hname : name = .socket ∨ name = .accept) (held : List ℕ)
    (socket : ℕ) : Leaves held [⟨name, some socket⟩] (socket :: held) := by
  refine ⟨?_, fun call hcall hnone => ?_⟩
  · rcases hname with rfl | rfl
    · exact yields_acquire held socket
    · exact yields_acquire held socket
  · cases List.mem_singleton.mp hcall
    cases hnone

/-- A call that neither opens nor closes a descriptor. -/
theorem leaves_use {name : SystemCall} (hname : name ≠ .socket ∧ name ≠ .accept ∧ name ≠ .close)
    {bSocket : Option ℕ} {held : List ℕ} (h : bSocket.toList ⊆ held)
    (hinvalid : bSocket = none → name = .connect ∨ name = .send) :
    Leaves held [⟨name, bSocket⟩] held := by
  refine ⟨?_, fun call hcall hnone => ?_⟩
  · have hhandles : handles [⟨name, bSocket⟩] = bSocket.toList.map .use := by
      cases bSocket with
      | none => rfl
      | some socket =>
        obtain ⟨hsocket, haccept, hclose⟩ := hname
        cases name <;> first | rfl | contradiction
    rw [hhandles]
    exact yields_uses h
  · cases List.mem_singleton.mp hcall
    exact hinvalid hnone

theorem leaves_closeSocket (bSocket : Option ℕ) (held : List ℕ) :
    Leaves (bSocket.toList ++ held) (closeSocket bSocket) held := by
  refine ⟨?_, fun call hcall hnone => ?_⟩
  · rw [handles_closeSocket]
    exact yields_releases _ held
  · obtain ⟨socket, _, rfl⟩ := List.mem_map.mp hcall
    cases hnone

theorem not_invalid_callEach {name : SystemCall} {sockets : List ℕ} :
    ∀ call ∈ callEach name sockets,
      call.bSocket = none → call.name = .connect ∨ call.name = .send := by
  intro call hcall hnone
  obtain ⟨socket, _, rfl⟩ := List.mem_map.mp hcall
  cases hnone

theorem leaves_select {sockets held : List ℕ} (h : sockets ⊆ held) :
    Leaves held (callEach .select sockets) held := by
  refine ⟨?_, not_invalid_callEach⟩
  rw [handles_callEach_select]
  exact yields_uses h

/-- `SetSocketNonBlocking` keeps the socket or closes it. -/
theorem setSocketNonBlocking_leaves (socket : ℕ) (answer : Bool) (held : List ℕ) :
    Leaves (socket :: held) (setSocketNonBlocking (some socket) answer).1
      ((setSocketNonBlocking (some socket) answer).2.1.toList ++ held) := by
  have hfcntl : Leaves (socket :: held) [⟨.fcntl, some socket⟩] (socket :: held) :=
    leaves_use (by decide) (by simp) (fun hnone => nomatch hnone)
  cases answer with
  | true => exact hfcntl
  | false => exact hfcntl.append (leaves_closeSocket (some socket) held)

/-- What `ConnectSocket` waits for is an open socket. -/
theorem waitCalls_leaves {bSocket : Option ℕ} (hopen : bSocket.isSome = true) (held : List ℕ)
    (answer : SelectAnswer) :
    Leaves (bSocket.toList ++ held) (waitCalls bSocket answer) (bSocket.toList ++ held) := by
  have hne : bSocket ≠ none := Option.isSome_iff_ne_none.mp hopen
  have hselect : Leaves (bSocket.toList ++ held) [⟨.select, bSocket⟩] (bSocket.toList ++ held) :=
    leaves_use (by decide) (List.subset_append_left _ _) (fun hnone => absurd hnone hne)
  have hgetsockopt : Leaves (bSocket.toList ++ held) [⟨.getsockopt, bSocket⟩]
      (bSocket.toList ++ held) :=
    leaves_use (by decide) (List.subset_append_left _ _) (fun hnone => absurd hnone hne)
  cases answer with
  | timeout => exact hselect
  | failed => exact hselect
  | ready error => exact hselect.append hgetsockopt

/-- `ConnectSocket` leaves open what it returns. -/
theorem connectSocket_leaves (a : ConnectAnswers) (held : List ℕ) :
    Leaves held (connectSocket a).1 ((connectSocket a).2.toList ++ held) := by
  unfold connectSocket
  cases a.socket with
  | none => exact leaves_nil held
  | some socket =>
    dsimp only
    have hset := setSocketNonBlocking_leaves socket a.fcntl held
    generalize setSocketNonBlocking (some socket) a.fcntl = r at hset ⊢
    obtain ⟨calls, bSocket, ok⟩ := r
    have hconnect : Leaves held (⟨.socket, some socket⟩ :: calls ++ [⟨.connect, bSocket⟩])
        (bSocket.toList ++ held) :=
      ((leaves_open (.inl rfl) held socket).append hset).append
        (leaves_use (by decide) (List.subset_append_left _ _) fun _ => .inl rfl)
    have hclose := leaves_closeSocket bSocket held
    -- Only an open socket is connected or waited for.
    cases hopen : bSocket.isSome with
    | false => exact hconnect.append hclose
    | true =>
      have hwait := waitCalls_leaves hopen held
      rw [if_pos rfl]
      split
      · exact hconnect
      · exact hconnect.append (hwait _)
      · exact (hconnect.append (hwait _)).append hclose
      · exact hconnect.append hclose

/-- `BindListenPort` leaves open what it appends to `bgListenSocket`. -/
theorem bindListenPort_leaves (a : BindAnswers) (held : List ℕ) :
    Leaves held (bindListenPort a).1 ((bindListenPort a).2.toList ++ held) := by
  unfold bindListenPort
  cases a.socket with
  | none => exact leaves_nil held
  | some socket =>
    have huse : ∀ name : SystemCall, name ≠ .socket ∧ name ≠ .accept ∧ name ≠ .close →
        Leaves (socket :: held) [⟨name, some socket⟩] (socket :: held) :=
      fun name hname => leaves_use hname (by simp) (fun hnone => nomatch hnone)
    have hset : Leaves held ([⟨.socket, some socket⟩, ⟨.setsockopt, some socket⟩] ++
        (setSocketNonBlocking (some socket) a.fcntl).1)
        ((setSocketNonBlocking (some socket) a.fcntl).2.1.toList ++ held) :=
      ((leaves_open (.inl rfl) held socket).append (huse .setsockopt (by decide))).append
        (setSocketNonBlocking_leaves socket a.fcntl held)
    have hclose := leaves_closeSocket (some socket) held
    dsimp only
    cases hfcntl : a.fcntl with
    | false =>
      rw [hfcntl] at hset
      exact hset
    | true =>
      rw [hfcntl] at hset
      have hbind := huse .bind (by decide)
      have hlisten := huse .listen (by decide)
      rw [if_neg (by exact Bool.noConfusion)]
      split
      · exact hset.append (hbind.append hclose)
      · split
        · exact (hset.append (hbind.append hlisten)).append hclose
        · exact hset.append (hbind.append hlisten)

/-- `AcceptSocket` uses the listening sockets, and keeps a new one unless there are too many. -/
theorem acceptSocket_leaves {bgListenSocket held : List ℕ} (h : bgListenSocket ⊆ held)
    (vNodes : List (Peer ℕ)) (ready : Option (ℕ × Option (ℕ × BService))) :
    Leaves held (acceptSocket bgListenSocket vNodes ready).1
      ((if full vNodes then [] else
        ((acceptSocket bgListenSocket vNodes ready).2.map Prod.fst).toList) ++ held) := by
  unfold acceptSocket
  split
  next =>
    rw [Option.map_none, Option.toList_none, ite_self]
    exact leaves_select h
  next socket bService _ =>
    have haccept : Leaves held (callEach .select bgListenSocket ++ [⟨.accept, some socket⟩])
        (socket :: held) :=
      (leaves_select h).append (leaves_open (.inr rfl) held socket)
    dsimp only
    rw [List.append_cons]
    split
    · exact haccept.append (leaves_closeSocket (some socket) held)
    · rw [List.append_nil]
      exact haccept

end Netbase

section Threads

variable {t t' : Threads}

theorem mem_owned {p : Peer ℕ} (hp : p ∈ t.vNodes) {socket : ℕ}
    (hsocket : (t.nodes p.pointer).bSocket = some socket) : socket ∈ owned t :=
  List.mem_filterMap.mpr ⟨p, hp, hsocket⟩

theorem sockets_subset_owned (chosen : Peer ℕ → Bool) : t.sockets chosen ⊆ owned t := by
  intro socket hsocket
  obtain ⟨p, hp, hsocket⟩ := List.mem_filterMap.mp hsocket
  exact mem_owned (List.mem_filter.mp hp).1 hsocket

/-- The nodes that are left out and those that stay have all sockets. -/
theorem owned_perm_filter (t : Threads) (chosen : Peer ℕ → Bool) :
    (owned t).Perm (t.sockets chosen ++ t.sockets fun p => !chosen p) := by
  unfold owned Threads.sockets
  rw [← List.filterMap_append]
  exact ((List.filter_append_perm chosen t.vNodes).symm).filterMap _

theorem owned_congr (hvNodes : t'.vNodes = t.vNodes)
    (hsocket : ∀ k, (t'.nodes k).bSocket = (t.nodes k).bSocket) : owned t' = owned t := by
  unfold owned
  rw [hvNodes]
  exact List.filterMap_congr fun p _ => hsocket p.pointer

theorem ite_id_none (bSocket : Option ℕ) : (if bSocket = none then bSocket else none) = none := by
  split
  · assumption
  · rfl

/-- One node keeps its socket or loses it. -/
theorem owned_perm_lost (hsane : t.Sane) (hvNodes : t'.vNodes = t.vNodes) {pointer : ℕ}
    (hlisted : t.listed pointer = true)
    (hothers : ∀ k ≠ pointer, (t'.nodes k).bSocket = (t.nodes k).bSocket)
    (hkeeps : KeepsSocket (t.nodes pointer) (t'.nodes pointer)) :
    (owned t).Perm ((lost (t.nodes pointer) (t'.nodes pointer)).toList ++ owned t') := by
  obtain ⟨p, hp, rfl⟩ := Threads.listed_iff.mp hlisted
  obtain ⟨before, after, hsplit⟩ := List.append_of_mem hp
  have hnodup := hsane.nodup
  rw [hsplit, List.map_append, List.map_cons, List.nodup_middle, List.nodup_cons,
    List.mem_append, not_or] at hnodup
  have hsame : ∀ peers : List (Peer ℕ), p.pointer ∉ peers.map Peer.pointer →
      (peers.filterMap fun q => (t'.nodes q.pointer).bSocket) =
        peers.filterMap fun q => (t.nodes q.pointer).bSocket := by
    intro peers hpeers
    refine List.filterMap_congr fun q hq => hothers q.pointer fun heq => hpeers ?_
    exact heq ▸ List.mem_map_of_mem hq
  unfold owned lost
  rw [hvNodes, hsplit, List.filterMap_append, List.filterMap_append, List.filterMap_cons,
    List.filterMap_cons, hsame before hnodup.1.1, hsame after hnodup.1.2]
  rcases hkeeps with hkept | hclosed
  · rw [hkept, ite_id_none]
    exact List.Perm.refl _
  · rw [hclosed, if_pos rfl]
    cases (t.nodes p.pointer).bSocket with
    | none => exact List.Perm.refl _
    | some socket => exact List.perm_middle

end Threads

section Runs

variable {sha : Bytes → Uint256} {pb : Protobuf} {codec : MessageCodec}
  {extract : Bytes → Option ℚ} {t t' : Threads} {w w' : Descriptors}

/-- A message that is pushed leaves the sockets alone. -/
theorem bSocket_pushOutbound {command data : Bytes} {vNodes : List (Peer ℕ)} {nodes : ℕ → BNode}
    {k : ℕ} :
    (pushOutbound (fun node => node.pushMessage codec command data) vNodes nodes k).bSocket =
      (nodes k).bSocket := by
  refine pushOutbound_induction (P := fun node : BNode => node.bSocket = (nodes k).bSocket) ?_
    vNodes rfl
  intro node hnode
  exact hnode

/-- Sockets that the nodes no longer own are closed. -/
theorem yields_releases_owned {xs : List ℕ} (h : (owned t).Perm (xs ++ owned t'))
    (others : List ℕ) : Yields (others ++ owned t) (xs.map .release) (others ++ owned t') :=
  (yields_releases xs (others ++ owned t')).of_perm
    ((List.perm_append_comm_assoc xs others (owned t')).trans (h.symm.append_left others))

/-- A node is read from or written to, and may be closed. -/
theorem leaves_served {name : SystemCall} (hname : name = .recv ∨ name = .send) (hsane : t.Sane)
    (hvNodes : t'.vNodes = t.vNodes) {pointer : ℕ} (hlisted : t.listed pointer = true)
    (hopen : (t.nodes pointer).bSocket ≠ none)
    (hothers : ∀ k ≠ pointer, (t'.nodes k).bSocket = (t.nodes k).bSocket)
    (hkeeps : KeepsSocket (t.nodes pointer) (t'.nodes pointer)) (others : List ℕ) :
    Leaves (others ++ owned t)
      (⟨name, (t.nodes pointer).bSocket⟩ ::
        closeSocket (lost (t.nodes pointer) (t'.nodes pointer)))
      (others ++ owned t') := by
  obtain ⟨p, hp, hpointer⟩ := Threads.listed_iff.mp hlisted
  have huse : Leaves (others ++ owned t) [⟨name, (t.nodes pointer).bSocket⟩]
      (others ++ owned t) := by
    refine leaves_use ?_ (fun socket hsocket => ?_) (fun hnone => absurd hnone hopen)
    · rcases hname with rfl | rfl <;> decide
    · exact List.mem_append_right _ (mem_owned hp (hpointer ▸ Option.mem_toList.mp hsocket))
  have hclose : Leaves (others ++ owned t)
      (closeSocket (lost (t.nodes pointer) (t'.nodes pointer))) (others ++ owned t') := by
    refine ⟨?_, (leaves_closeSocket _ []).invalid⟩
    rw [handles_closeSocket]
    exact yields_releases_owned (owned_perm_lost hsane hvNodes hlisted hothers hkeeps) others
  exact huse.append hclose

/-- The calls of a thread, beside descriptors of others, leave open what the nodes own then. -/
theorem callsOf_leaves (hsane : t.Sane) {e : ThreadEvent} (henabled : t.enabled e = true)
    (hopens : e.opensSocket = false) (hact : Threads.act sha pb codec extract t e = .ok t')
    (others : List ℕ) :
    Leaves (others ++ owned t) (callsOf t t' e) (others ++ owned t') := by
  cases e with
  | connectNode bService socket => cases hopens
  | acceptSocket accepted => cases hopens
  | disconnect =>
    cases hact
    refine ⟨?_, not_invalid_callEach⟩
    rw [callsOf, handles_callEach_close]
    exact yields_releases_owned (owned_perm_filter t _) others
  | select sendLocked recvLocked readable writable =>
    cases hact
    refine leaves_select (List.append_subset.mpr ⟨?_, ?_⟩)
    · exact List.Subset.trans (sockets_subset_owned _) (List.subset_append_right _ _)
    · exact List.Subset.trans (sockets_subset_owned _) (List.subset_append_right _ _)
  | socketRecvData pointer answer =>
    cases hact
    simp only [Threads.enabled, Bool.and_eq_true] at henabled
    refine leaves_served (.inl rfl) hsane ?_ henabled.1.2 (Threads.bSocket_ne_none henabled.2)
      (fun k hk => ?_) ?_ others
    · rfl
    · rw [Threads.nodes_setNode_of_ne hk]
      rfl
    · rw [Threads.nodes_setNode_self]
      exact .socketRecvData _ answer
  | socketRecvRequest pointer rest m request =>
    obtain ⟨r, _, hact⟩ := bind_eq_ok.mp hact
    cases hact
    simp only [Threads.enabled, Bool.and_eq_true] at henabled
    have hopen := Threads.bSocket_ne_none henabled.2
    have hsame : ∀ k, (pushOutbound
        (fun node => node.pushMessage codec r.2.1.1 r.2.1.2) t.vNodes
        ((t.served pointer).setNode pointer
          ((t.nodes pointer).socketRecvData codec (.received (0x7b :: rest)))).nodes k).bSocket =
        (t.nodes k).bSocket := by
      intro k
      rw [bSocket_pushOutbound]
      by_cases hk : k = pointer
      · rw [hk, Threads.nodes_setNode_self]
        rfl
      · rw [Threads.nodes_setNode_of_ne hk]
        rfl
    -- The request is read and answered on a socket that stays open.
    obtain ⟨p, hp, hpointer⟩ := Threads.listed_iff.mp henabled.1.2
    have howned : (t.nodes pointer).bSocket.toList ⊆ others ++ owned t := fun socket hsocket =>
      List.mem_append_right _ (mem_owned hp (hpointer ▸ Option.mem_toList.mp hsocket))
    have hrecv : Leaves (others ++ owned t) [⟨.recv, (t.nodes pointer).bSocket⟩]
        (others ++ owned t) :=
      leaves_use (by decide) howned fun hnone => absurd hnone hopen
    have hsend : Leaves (others ++ owned t) [⟨.send, (t.nodes pointer).bSocket⟩]
        (others ++ owned t) :=
      leaves_use (by decide) howned fun hnone => absurd hnone hopen
    refine (hrecv.append hsend).trans_perm (List.Perm.append_left others ?_)
    refine List.Perm.of_eq (Eq.symm ?_)
    exact owned_congr rfl hsame
  | socketSendData pointer answers =>
    obtain ⟨r, hr, hact⟩ := bind_eq_ok.mp hact
    cases hact
    obtain ⟨hlisted, hopen, _⟩ := Threads.enabled_socketSendData henabled
    refine leaves_served (.inr rfl) hsane ?_ hlisted hopen (fun k hk => ?_) ?_ others
    · rfl
    · exact congrArg BNode.bSocket (Threads.nodes_setNode_of_ne hk _)
    · dsimp only
      rw [Threads.nodes_setNode_self]
      exact (Quiet.socketSendData hr).bSocket
  | processMessages pointer =>
    obtain ⟨r, hr, hact⟩ := bind_eq_ok.mp hact
    cases hact
    have hsame : ∀ k, ((t.setNode pointer r.2).nodes k).bSocket = (t.nodes k).bSocket := by
      intro k
      by_cases hk : k = pointer
      · rw [hk, Threads.nodes_setNode_self, processMessages_node hr]
      · rw [Threads.nodes_setNode_of_ne hk]
    have howned : owned { t.setNode pointer r.2 with lastLedger := r.1 } = owned t :=
      owned_congr (t := t) rfl hsame
    rw [howned]
    exact leaves_nil _

/-- What `ConnectSocket` holds, together with the listening sockets and those of the nodes, is what
is open. -/
structure Accounted (w : Descriptors) (held : List ℕ) : Prop where
  sane : w.threads.Sane
  connecting : match w.connecting with
    | none => held = []
    | some c => Leaves held c.todo c.bSocketRet.toList
  calls : Leaves [] w.calls (held ++ (w.bgListenSocket ++ owned w.threads))

theorem accounted_start (s : Ledger.State) : Accounted (start s) [] where
  sane := Threads.sane_start s
  connecting := rfl
  calls := leaves_nil []

/-- A new node owns its socket. -/
theorem owned_addNode (hsane : t.Sane) (bService : BService) (fInbound : Bool) (socket : ℕ) :
    owned (t.addNode bService fInbound socket) = owned t ++ [socket] := by
  unfold owned Threads.addNode
  rw [List.filterMap_append]
  congr 1
  · refine List.filterMap_congr fun p hp => ?_
    dsimp only
    rw [Function.update_of_ne (hsane.vNodes p hp).ne]
  · simp [BNode.new]

/-- A node is made of what `accept` returns, unless there are too many. -/
theorem owned_acceptSocket (hsane : t.Sane) {accepted : Option (ℕ × BService)}
    (hact : Threads.act sha pb codec extract t (.acceptSocket accepted) = .ok t') :
    owned t' =
      owned t ++ if full t.vNodes then [] else (accepted.map Prod.fst).toList := by
  cases accepted with
  | none =>
    cases hact
    simp
  | some accepted =>
    cases hact
    split
    · rw [List.append_nil]
    · exact owned_addNode hsane _ _ _

/-- New sockets go to the owners. -/
theorem perm_owners (xs held owners : List ℕ) :
    (xs ++ (held ++ owners)).Perm (held ++ (owners ++ xs)) := by
  rw [← List.append_assoc held]
  exact List.perm_append_comm

/-- The next call of `ConnectSocket`, or the rest of `ConnectNode`, keeps the account. -/
theorem Accounted.connect {held : List ℕ} (h : Accounted w held)
    (hstep : step sha pb codec extract w .connect = .ok w') : ∃ held', Accounted w' held' := by
  have hconnecting := h.connecting
  dsimp only [Descriptors.step] at hstep
  split at hstep
  next =>
    cases hstep
    exact ⟨held, h⟩
  next bService call todo bSocketRet hc =>
    cases hstep
    rw [hc] at hconnecting
    obtain ⟨held', hfirst, hrest⟩ := hconnecting.exists_first
    exact ⟨held', h.sane, hrest, h.calls.append (hfirst _)⟩
  next bService bSocket hc =>
    cases hstep
    rw [hc] at hconnecting
    obtain rfl : held = [bSocket] := List.perm_singleton.mp hconnecting.yields.2
    have hchanges : Threads.Changes sha pb codec w.threads
      (w.threads.addNode bService false bSocket) := .addNode
    refine ⟨[], h.sane.changes hchanges, rfl, h.calls.trans_perm ?_⟩
    rw [owned_addNode h.sane, ← List.append_assoc w.bgListenSocket]
    exact perm_owners [bSocket] [] _
  next hc =>
    cases hstep
    rw [hc] at hconnecting
    obtain rfl : held = [] := List.perm_nil.mp hconnecting.yields.2
    exact ⟨[], h.sane, rfl, h.calls⟩

/-- `AcceptSocket` keeps the account. -/
theorem Accounted.acceptSocket {held : List ℕ} (h : Accounted w held)
    {ready : Option (ℕ × Option (ℕ × BService))} (hidle : w.threads.sending.isNone = true)
    (hact : Threads.act sha pb codec extract w.threads
      (.acceptSocket (acceptSocket w.bgListenSocket w.threads.vNodes ready).2) = .ok t') :
    Accounted { w with
      threads := t'
      calls := w.calls ++ (acceptSocket w.bgListenSocket w.threads.vNodes ready).1 } held where
  sane := h.sane.changes (Threads.act_changes (by exact hidle) hact)
  connecting := h.connecting
  calls := by
    have hlisten : w.bgListenSocket ⊆ held ++ (w.bgListenSocket ++ owned w.threads) :=
      List.Subset.trans (List.subset_append_left _ _) (List.subset_append_right _ _)
    refine (h.calls.append
      (acceptSocket_leaves hlisten w.threads.vNodes ready)).trans_perm ?_
    rw [owned_acceptSocket h.sane hact, ← List.append_assoc w.bgListenSocket]
    exact perm_owners _ held _

/-- Every event keeps the account. -/
theorem Accounted.step {held : List ℕ} (h : Accounted w held) {e : DescriptorEvent}
    (hstep : step sha pb codec extract w e = .ok w') : ∃ held', Accounted w' held' := by
  cases e with
  | bindListenPort a =>
    cases hstep
    refine ⟨held, h.sane, h.connecting, ?_⟩
    refine (h.calls.append (bindListenPort_leaves a _)).trans_perm ?_
    refine (List.perm_append_comm_assoc _ held _).trans (List.Perm.append_left held ?_)
    rw [List.append_assoc]
    exact List.perm_append_comm_assoc _ _ _
  | findNode bService a =>
    dsimp only [Descriptors.step] at hstep
    split at hstep
    next hconnecting _ =>
      cases hstep
      have hheld := h.connecting
      rw [hconnecting] at hheld
      refine ⟨held, h.sane, ?_, h.calls⟩
      have hleaves := connectSocket_leaves a []
      rw [List.append_nil] at hleaves
      rwa [hheld]
    next =>
      cases hstep
      exact ⟨held, h⟩
  | connect => exact h.connect hstep
  | acceptSocket ready =>
    dsimp only [Descriptors.step] at hstep
    split at hstep
    next hidle =>
      obtain ⟨t', hact, hstep⟩ := bind_eq_ok.mp hstep
      cases hstep
      exact ⟨held, h.acceptSocket hidle hact⟩
    next =>
      cases hstep
      exact ⟨held, h⟩
  | sendAgain =>
    dsimp only [Descriptors.step] at hstep
    split at hstep
    next =>
      cases hstep
      exact ⟨held, h⟩
    next =>
      split at hstep <;> cases hstep
      · refine ⟨held, h.sane, h.connecting, h.calls.append ?_⟩
        exact leaves_use (by decide) (List.nil_subset _) fun _ => .inr rfl
      · exact ⟨held, h⟩
  | thread e =>
    dsimp only [Descriptors.step] at hstep
    split at hstep
    next hcond =>
      obtain ⟨t', hact, hstep⟩ := bind_eq_ok.mp hstep
      cases hstep
      obtain ⟨henabled, hopens⟩ := Bool.and_eq_true_iff.mp hcond
      have hleaves := callsOf_leaves h.sane henabled (Bool.not_eq_eq_eq_not.mp hopens) hact
        (held ++ w.bgListenSocket)
      refine ⟨held, h.sane.changes (Threads.act_changes henabled hact), h.connecting, ?_⟩
      rw [List.append_assoc, List.append_assoc] at hleaves
      exact h.calls.append hleaves
    next =>
      cases hstep
      exact ⟨held, h⟩

theorem accounted_run {s : Ledger.State} {events : List DescriptorEvent}
    (hrun : events.foldlM (step sha pb codec extract) (start s) = .ok w) :
    ∃ held, Accounted w held := by
  refine run_invariant (P := fun w => ∃ held, Accounted w held) (fun w e w' hw hstep => ?_)
    ⟨[], accounted_start s⟩ hrun
  obtain ⟨held, h⟩ := hw
  exact h.step hstep

end Runs

/-- Over every run of the threads, with the calls of `ConnectSocket` in between, where the system
opens no descriptor that is open: every call is on a descriptor that is open, or it is a `connect`
or a `send` on `INVALID_SOCKET`. What is open are the listening sockets and those of the nodes, each
owned once. While `ConnectSocket` has not returned, it holds some more, and its other calls leave
of them what it returns. -/
theorem descriptors_accounted (sha : Bytes → Uint256) (pb : Protobuf) (codec : MessageCodec)
    (extract : Bytes → Option ℚ) (s : Ledger.State) (events : List DescriptorEvent)
    (w : Descriptors) (hrun : events.foldlM (step sha pb codec extract) (start s) = .ok w)
    (hgranted : Throughout Granted [] (handles w.calls)) :
    Throughout Lawful [] (handles w.calls) ∧
      (∀ call ∈ w.calls, call.bSocket = none → call.name = .connect ∨ call.name = .send) ∧
      ∃ held, ((handles w.calls).foldl hold []).Perm
          (held ++ (w.bgListenSocket ++ owned w.threads)) ∧
        (held ++ (w.bgListenSocket ++ owned w.threads)).Nodup ∧
        match w.connecting with
        | none => held = []
        | some c => Yields held (handles c.todo) c.bSocketRet.toList := by
  obtain ⟨held, h⟩ := accounted_run hrun
  obtain ⟨hlawful, hperm⟩ := h.calls.yields
  have hnodup := nodup_foldl_hold List.nodup_nil hgranted
  refine ⟨hlawful, h.calls.invalid, held, hperm, hperm.nodup_iff.mp hnodup, ?_⟩
  have hconnecting := h.connecting
  cases hc : w.connecting with
  | none =>
    rw [hc] at hconnecting
    exact hconnecting
  | some c =>
    rw [hc] at hconnecting
    exact hconnecting.yields

/-- A peer is accepted, and shuts its connection down while `ConnectSocket` waits; its descriptor is
opened again by the next `accept`. Then a `fcntl` fails, and `connect` meets `INVALID_SOCKET`. -/
def sampleSockets : List DescriptorEvent :=
  [.bindListenPort ⟨some 3, true, true, true⟩,
    .acceptSocket (some (3, some (4, ⟨0x0a000002, 40000⟩))),
    .findNode Threads.sampleService ⟨some 5, true, .inProgress (.ready (some 0))⟩, .connect,
    .thread (.select [] [] [4] []), .thread (.socketRecvData 0 (.received [])), .connect,
    .thread .disconnect, .acceptSocket (some (3, some (4, ⟨0x0a000002, 40001⟩))), .connect,
    .connect, .connect, .connect, .findNode ⟨0x0a000009, 30000⟩ ⟨some 6, false, .connected⟩,
    .connect, .connect, .connect, .connect, .connect]

theorem descriptors_accounted_sampleSockets :
    ∃ l w, Ledger.new checksum = .ok l ∧
      sampleSockets.foldlM (step checksum plainProtobuf plainMessages decimal)
        (start (fun _ => none, l)) = .ok w ∧
      w.connecting = none ∧ (owned w.threads).length = 2 ∧
      Throughout Lawful [] (handles w.calls) ∧
      ((handles w.calls).foldl hold []).Perm (w.bgListenSocket ++ owned w.threads) := by
  have hok : (do
      let l ← Ledger.new checksum
      let w ← sampleSockets.foldlM (step checksum plainProtobuf plainMessages decimal)
        (start (fun _ => none, l))
      .ok (w.connecting.isNone && (decide ((owned w.threads).length = 2) &&
        decide (Throughout Granted [] (handles w.calls))))) = .ok true :=
    eq_ok_of_toOption (by decide +kernel)
  obtain ⟨l, hl, hok⟩ := bind_eq_ok.mp hok
  obtain ⟨w, hw, hok⟩ := bind_eq_ok.mp hok
  obtain ⟨hnone, hok⟩ := Bool.and_eq_true_iff.mp (Except.ok.inj hok)
  obtain ⟨hlength, hgranted⟩ := Bool.and_eq_true_iff.mp hok
  have hnone := Option.isNone_iff_eq_none.mp hnone
  obtain ⟨hlawful, _, held, hperm, _, hheld⟩ := descriptors_accounted checksum plainProtobuf
    plainMessages decimal _ sampleSockets w hw (of_decide_eq_true hgranted)
  rw [hnone] at hheld
  obtain rfl : held = [] := hheld
  exact ⟨l, w, hl, hw, hnone, of_decide_eq_true hlength, hlawful, hperm⟩

end Descriptors

end Bubi
