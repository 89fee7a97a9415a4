import Bubi.Net.Threads

/-!
# The receive queue of a node

The socket thread reads from a node whose queue was short enough when it filled the select
set, and reads from it once. Between the two only `ProcessMessages` touches the queue, and
empties it. So the queue exceeds `MAXRECVSIZE` by at most one chunk and the size of its
header, whatever the peers send, and the unsigned sum that is compared does not wrap.
Protobuf makes no strings that are longer than what it reads, `recv` fills at most the
buffer, and the system opens no socket twice.
-/

namespace Bubi

open Bubi.Core Peers Process

/-- The size of the buffer of `SocketRecvData`. -/
def recvBuffer : ℕ := 0x10000

/-- What a receive queue may hold. -/
def recvLimit : ℕ := maxRecvSize + recvBuffer + 8

/-- What protobuf makes of a string is not longer than the string. -/
def MessageCodec.Sized (codec : MessageCodec) : Prop :=
  ∀ str, (codec.parseFromString str).command.length + (codec.parseFromString str).data.length ≤
    str.length

theorem plainMessages_sized : plainMessages.Sized := by
  have hbounds : messageWire.Bounds fun m => m.command.length + m.data.length := by
    refine .image (.pair (.tag (.pair .bytes (.pair .bitVec .bitVec))) (.tag .bytes)) ?_
    intro p
    rfl
  exact hbounds.parse rfl

/-- `BNetMessage::size` without a limit. -/
def BNetMessage.sizeNat (message : BNetMessage) : ℕ :=
  message.data.length + message.header.bchCommand.length + 8

/-- `BNode::getTotalRecvSize` without a limit. -/
def BNode.queued (node : BNode) : ℕ := (node.vRecvMsg.map BNetMessage.sizeNat).sum

/-- The bytes that `recv` has put into the buffer. -/
def RecvAnswer.chunk : RecvAnswer → Bytes
  | .received data => data
  | _ => []

section Sizes

variable {node : BNode}

theorem BNetMessage.size_eq (message : BNetMessage) :
    message.size = BitVec.ofNat 32 message.sizeNat := by
  apply BitVec.eq_of_toNat_eq
  have height : (8 : BitVec 32).toNat = 8 := rfl
  simp only [BNetMessage.size, BNetMessage.sizeNat, BitVec.toNat_add, BitVec.toNat_ofNat, height]
  omega

/-- The unsigned sum is the sum modulo `2 ^ 32`. -/
theorem BNode.getTotalRecvSize_eq (node : BNode) :
    node.getTotalRecvSize = BitVec.ofNat 32 node.queued := by
  have hfold : ∀ (messages : List BNetMessage) (total : ℕ),
      messages.foldl (fun total message => total + message.size) (BitVec.ofNat 32 total) =
        BitVec.ofNat 32 (total + (messages.map BNetMessage.sizeNat).sum) := by
    intro messages
    induction messages with
    | nil => exact fun _ => rfl
    | cons message messages ih =>
      intro total
      rw [List.foldl_cons, BNetMessage.size_eq, ← BitVec.ofNat_add, ih, List.map_cons,
        List.sum_cons, Nat.add_assoc]
  have h := hfold node.vRecvMsg 0
  rw [Nat.zero_add] at h
  exact h

theorem BNode.getTotalRecvSize_toNat (h : node.queued < 2 ^ 32) :
    node.getTotalRecvSize.toNat = node.queued := by
  rw [node.getTotalRecvSize_eq, BitVec.toNat_ofNat, Nat.mod_eq_of_lt h]

/-- Every message counts for its header at least. -/
theorem BNode.eight_mul_length_le (node : BNode) : 8 * node.vRecvMsg.length ≤ node.queued := by
  unfold BNode.queued
  induction node.vRecvMsg with
  | nil => exact Nat.zero_le _
  | cons message messages ih =>
    rw [List.map_cons, List.sum_cons, List.length_cons, BNetMessage.sizeNat]
    omega

/-- A chunk adds at most its length and the size of a header. -/
theorem BNode.queued_socketRecvData {codec : MessageCodec} (hsized : codec.Sized) (node : BNode)
    (answer : RecvAnswer) : (node.socketRecvData codec answer).queued ≤
      node.queued + answer.chunk.length + 8 := by
  unfold BNode.socketRecvData
  split
  · exact Nat.le_add_right _ 8
  · rename_i byte rest
    dsimp only
    split
    · have hsize := hsized (byte :: rest)
      simp only [BNode.queued, List.map_append, List.map_singleton, List.sum_append,
        List.sum_singleton, BNetMessage.sizeNat, BNetMessage.unserializer, RecvAnswer.chunk]
      omega
    · exact (Nat.le_add_right _ _).trans (Nat.le_add_right _ 8)
  · exact Nat.le_add_right _ 8
  · exact Nat.le_add_right _ 8

end Sizes

/-- A node gets no other socket, except that its own may be closed. -/
def KeepsSocket (node node' : BNode) : Prop :=
  node'.bSocket = node.bSocket ∨ node'.bSocket = none

theorem KeepsSocket.eq_some {node node' : BNode} (h : KeepsSocket node node') {socket : ℕ}
    (hsocket : node'.bSocket = some socket) : node.bSocket = some socket := by
  rcases h with hsame | hclosed
  · rwa [← hsame]
  · rw [hclosed] at hsocket
    cases hsocket

theorem KeepsSocket.socketRecvData {codec : MessageCodec} (node : BNode) (answer : RecvAnswer) :
    KeepsSocket node (node.socketRecvData codec answer) := by
  unfold BNode.socketRecvData
  split
  · exact Or.inr rfl
  · dsimp only
    split
    · exact Or.inl rfl
    · exact Or.inl rfl
  · exact Or.inl rfl
  · exact Or.inr rfl

/-- A node that gets no message and no other socket. -/
structure Quiet (node node' : BNode) : Prop where
  queued : node'.queued ≤ node.queued
  bSocket : KeepsSocket node node'

namespace Quiet

variable {sha : Bytes → Uint256} {pb : Protobuf} {codec : MessageCodec} {node node' : BNode}

theorem refl : Quiet node node := ⟨le_refl _, Or.inl rfl⟩

theorem pushMessage (h : Quiet node node') (command data : Bytes) :
    Quiet node (node'.pushMessage codec command data) :=
  ⟨h.queued, h.bSocket⟩

theorem socketSendData {answers : List SendAnswer} {stream : Bytes} {r : (BNode × Bytes) × Bool}
    (hr : BNode.socketSendData answers (node, stream) = .ok r) : Quiet node r.1.1 := by
  refine BNode.socketSendData_induction (P := fun s => Quiet node s.1) ?_ ?_ ?_ refl hr
  · intro node' stream h
    exact ⟨h.queued, Or.inr rfl⟩
  · intro node' stream data rest nBytes _ _ _ h
    exact ⟨h.queued, h.bSocket⟩
  · intro node' stream data rest nBytes _ _ h
    exact ⟨h.queued, h.bSocket⟩

theorem processMessages {s : Ledger.State} {r : Ledger.State × BNode}
    (hr : Process.processMessages sha pb codec (s, node) = .ok r) : Quiet node r.2 := by
  rw [processMessages_node hr]
  exact ⟨Nat.zero_le _, Or.inl rfl⟩

/-- A client's request is not queued. -/
theorem socketRecvRequest (rest : Bytes) :
    Quiet node (node.socketRecvData codec (.received (0x7b :: rest))) := by
  unfold BNode.socketRecvData
  dsimp only
  rw [if_neg (not_not_intro rfl)]
  exact ⟨le_refl _, Or.inl rfl⟩

end Quiet

namespace ThreadEvent

/-- The bytes that `recv` returns. -/
def chunk : ThreadEvent → Bytes
  | .socketRecvData _ answer => answer.chunk
  | .socketRecvRequest _ rest _ _ => 0x7b :: rest
  | _ => []

/-- The socket that the system opens. -/
def opened : ThreadEvent → Option ℕ
  | .connectNode _ socket => socket
  | .acceptSocket accepted => accepted.map Prod.fst
  | _ => none

end ThreadEvent

namespace Threads

/-- What the system calls promise: `recv` fills at most the buffer, and a socket that is opened is
not open already. -/
structure SystemCall (t : Threads) (e : ThreadEvent) : Prop where
  chunk : e.chunk.length ≤ recvBuffer
  opened : ∀ socket ∈ e.opened, ∀ p ∈ t.vNodes, (t.nodes p.pointer).bSocket ≠ some socket

/-- No two nodes of `vNodes` share an open socket. -/
def Distinct (t : Threads) : Prop :=
  ∀ p ∈ t.vNodes, ∀ q ∈ t.vNodes, ∀ socket, (t.nodes p.pointer).bSocket = some socket →
    (t.nodes q.pointer).bSocket = some socket → p.pointer = q.pointer

/-- No two nodes share a socket, the queues keep to the limit, and those of the selected sockets
have room for a chunk. -/
structure Bounded (t : Threads) : Prop where
  sockets : Distinct t
  nodes : ∀ k, (t.nodes k).queued ≤ recvLimit
  selected : ∀ p ∈ t.vNodes, ∀ socket, (t.nodes p.pointer).bSocket = some socket →
    socket ∈ t.fdsetRecv → (t.nodes p.pointer).queued ≤ maxRecvSize

variable {sha : Bytes → Uint256} {pb : Protobuf} {codec : MessageCodec}
  {extract : Bytes → Option ℚ} {t t' : Threads}

theorem nodes_setNode_self (t : Threads) (pointer : ℕ) (node : BNode) :
    (t.setNode pointer node).nodes pointer = node :=
  Function.update_self ..

theorem nodes_setNode_of_ne {k pointer : ℕ} (hk : k ≠ pointer) (node : BNode) :
    (t.setNode pointer node).nodes k = t.nodes k :=
  Function.update_of_ne hk ..

theorem bounded_start (s : Ledger.State) : Bounded (start s) where
  sockets _ h := nomatch h
  nodes _ := Nat.zero_le _
  selected _ h := nomatch h

theorem Distinct.keeps (h : Distinct t) (hnodes : ∀ k, KeepsSocket (t.nodes k) (t'.nodes k))
    (hvNodes : t'.vNodes ⊆ t.vNodes) : Distinct t' := by
  intro p hp q hq socket hps hqs
  exact h p (hvNodes hp) q (hvNodes hq) socket ((hnodes _).eq_some hps) ((hnodes _).eq_some hqs)

/-- Quiet nodes, fewer of them and a smaller set keep the bounds. -/
theorem Bounded.quiet (h : Bounded t) (hnodes : ∀ k, Quiet (t.nodes k) (t'.nodes k))
    (hvNodes : t'.vNodes ⊆ t.vNodes) (hset : t'.fdsetRecv ⊆ t.fdsetRecv) : Bounded t' where
  sockets := h.sockets.keeps (fun k => (hnodes k).bSocket) hvNodes
  nodes k := (hnodes k).queued.trans (h.nodes k)
  selected p hp socket hsocket hmem := by
    have hroom := h.selected p (hvNodes hp) socket ((hnodes _).bSocket.eq_some hsocket) (hset hmem)
    exact (hnodes _).queued.trans hroom

theorem Bounded.addNode (h : Bounded t) (hsane : Sane t) {bService : BService} {fInbound : Bool}
    {socket : ℕ} (hfresh : ∀ p ∈ t.vNodes, (t.nodes p.pointer).bSocket ≠ some socket) :
    Bounded (t.addNode bService fInbound socket) := by
  have hmem : ∀ p ∈ (t.addNode bService fInbound socket).vNodes,
      p ∈ t.vNodes ∧ (t.addNode bService fInbound socket).nodes p.pointer = t.nodes p.pointer ∨
        p.pointer = t.allocated := by
    intro p hp
    rcases List.mem_append.mp hp with hp | hp
    · exact Or.inl ⟨hp, Function.update_of_ne (hsane.vNodes p hp).ne _ _⟩
    · exact Or.inr (congrArg Peer.pointer (List.mem_singleton.mp hp))
  have hnew : (t.addNode bService fInbound socket).nodes t.allocated = .new socket :=
    Function.update_self ..
  refine ⟨fun p hp q hq s hps hqs => ?_, fun k => ?_, fun p hp s hps hset => ?_⟩
  · rcases hmem p hp with ⟨hp, hsame⟩ | hpointer <;> rcases hmem q hq with ⟨hq, hsame'⟩ | hpointer'
    · rw [hsame] at hps
      rw [hsame'] at hqs
      exact h.sockets p hp q hq s hps hqs
    · rw [hsame] at hps
      rw [hpointer', hnew] at hqs
      cases hqs
      exact absurd hps (hfresh p hp)
    · rw [hpointer, hnew] at hps
      rw [hsame'] at hqs
      cases hps
      exact absurd hqs (hfresh q hq)
    · exact hpointer.trans hpointer'.symm
  · revert k
    refine (Function.forall_update_iff t.nodes fun _ node => node.queued ≤ recvLimit).mpr ?_
    exact ⟨Nat.zero_le _, fun k _ => h.nodes k⟩
  · rcases hmem p hp with ⟨hp, hsame⟩ | hpointer
    · rw [hsame] at hps ⊢
      exact h.selected p hp s hps hset
    · rw [hpointer, hnew]
      exact Nat.zero_le _

theorem recvLimit_lt : recvLimit < 2 ^ 32 := by decide

/-- A socket gets into the set only where the queue of its node is short enough. -/
theorem Bounded.queued_of_mem_sockets (h : Bounded t) {sendLocked recvLocked : List ℕ}
    {p : Peer ℕ} (hp : p ∈ t.vNodes) {socket : ℕ}
    (hsocket : (t.nodes p.pointer).bSocket = some socket)
    (hmem : socket ∈ t.sockets (t.selectsRecv sendLocked recvLocked)) :
    (t.nodes p.pointer).queued ≤ maxRecvSize := by
  obtain ⟨q, hq, hqs⟩ := List.mem_filterMap.mp hmem
  obtain ⟨hq, hselects⟩ := List.mem_filter.mp hq
  rw [h.sockets p hp q hq socket hsocket hqs]
  simp only [selectsRecv, Bool.and_eq_true, Bool.or_eq_true, List.isEmpty_iff,
    decide_eq_true_eq] at hselects
  rcases hselects.2 with hempty | hshort
  · rw [BNode.queued, hempty]
    exact Nat.zero_le _
  · rwa [BNode.getTotalRecvSize_toNat ((h.nodes _).trans_lt recvLimit_lt)] at hshort

/-- The socket of a node is read from once, while its queue has room. -/
theorem Bounded.socketRecvData (h : Bounded t) (hsized : codec.Sized) {pointer : ℕ}
    {answer : RecvAnswer} (henabled : t.enabled (.socketRecvData pointer answer) = true)
    (hchunk : answer.chunk.length ≤ recvBuffer) :
    Bounded ((t.served pointer).setNode pointer
      ((t.nodes pointer).socketRecvData codec answer)) := by
  simp only [enabled, Bool.and_eq_true] at henabled
  obtain ⟨⟨_, hlisted⟩, hselected⟩ := henabled
  obtain ⟨p, hp, rfl⟩ := listed_iff.mp hlisted
  obtain ⟨socket, hsocket, hmem⟩ := (Option.any_eq_true _ _).mp hselected
  have hroom := h.selected p hp socket hsocket (of_decide_eq_true hmem)
  have hkeeps : KeepsSocket (t.nodes p.pointer) ((t.nodes p.pointer).socketRecvData codec answer) :=
    .socketRecvData _ answer
  have hqueued := BNode.queued_socketRecvData hsized (t.nodes p.pointer) answer
  generalize (t.nodes p.pointer).socketRecvData codec answer = node at hkeeps hqueued ⊢
  have hnode : node.queued ≤ recvLimit := by
    rw [recvLimit]
    omega
  refine ⟨h.sockets.keeps (forall_setNode.mpr ⟨hkeeps, fun _ _ => Or.inl rfl⟩)
    (List.Subset.refl _), ?_, fun q hq s hqs hset => ?_⟩
  · rw [forall_setNode (P := fun _ node => node.queued ≤ recvLimit)]
    exact ⟨hnode, fun k _ => h.nodes k⟩
  · obtain ⟨hset, hserved⟩ := List.mem_filter.mp hset
    by_cases hk : q.pointer = p.pointer
    · rw [hk, nodes_setNode_self] at hqs
      exact absurd (hkeeps.eq_some hqs) (of_decide_eq_true hserved)
    · rw [nodes_setNode_of_ne hk] at hqs ⊢
      exact h.selected q hq s hqs hset

theorem Quiet.setNode {pointer : ℕ} {node : BNode} (h : Quiet (t.nodes pointer) node) :
    ∀ k, Quiet (t.nodes k) ((t.setNode pointer node).nodes k) :=
  forall_setNode.mpr ⟨h, fun _ _ => .refl⟩

theorem Bounded.act (h : Bounded t) (hsane : Sane t) (hsized : codec.Sized) {e : ThreadEvent}
    (henabled : t.enabled e = true) (hcall : SystemCall t e)
    (hact : act sha pb codec extract t e = .ok t') : Bounded t' := by
  cases e with
  | connectNode bService socket =>
    dsimp only [Threads.act] at hact
    split at hact <;> cases hact
    · exact h.addNode hsane (hcall.opened _ rfl)
    · exact h
  | disconnect =>
    cases hact
    exact h.quiet (fun _ => .refl) List.filter_sublist.subset (List.nil_subset _)
  | acceptSocket accepted =>
    cases accepted with
    | none =>
      cases hact
      exact h
    | some accepted =>
      dsimp only [Threads.act] at hact
      split at hact <;> cases hact
      · exact h
      · exact h.addNode hsane (hcall.opened _ rfl)
  | select sendLocked recvLocked readable writable =>
    cases hact
    refine ⟨h.sockets, h.nodes, fun p hp socket hsocket hmem => ?_⟩
    exact h.queued_of_mem_sockets hp hsocket (List.mem_filter.mp hmem).1
  | socketRecvData pointer answer =>
    cases hact
    exact h.socketRecvData hsized henabled hcall.chunk
  | socketRecvRequest pointer rest m request =>
    obtain ⟨r, _, hact⟩ := bind_eq_ok.mp hact
    cases hact
    refine h.quiet (fun k => ?_) (List.Subset.refl _) List.filter_sublist.subset
    exact pushOutbound_induction (fun _ hnode => hnode.pushMessage _ _) _
      (Quiet.setNode (.socketRecvRequest rest) k)
  | socketSendData pointer answers =>
    obtain ⟨r, hr, hact⟩ := bind_eq_ok.mp hact
    cases hact
    exact h.quiet (Quiet.setNode (.socketSendData hr)) (List.Subset.refl _)
      List.filter_sublist.subset
  | processMessages pointer =>
    obtain ⟨r, hr, hact⟩ := bind_eq_ok.mp hact
    cases hact
    exact h.quiet (Quiet.setNode (.processMessages hr)) (List.Subset.refl _) (List.Subset.refl _)

theorem Bounded.step (h : Bounded t) (hsane : Sane t) (hsized : codec.Sized) {e : ThreadEvent}
    (hcall : SystemCall t e) (hstep : step sha pb codec extract t e = .ok t') : Bounded t' := by
  unfold Threads.step at hstep
  split at hstep
  · rename_i henabled
    exact h.act hsane hsized henabled hcall hstep
  · cases hstep
    exact h

/-- The system calls keep their promises along a run. -/
def SystemCalls (sha : Bytes → Uint256) (pb : Protobuf) (codec : MessageCodec)
    (extract : Bytes → Option ℚ) (s : Ledger.State) (events : List ThreadEvent) : Prop :=
  ∀ pre e post t, events = pre ++ e :: post →
    pre.foldlM (Threads.step sha pb codec extract) (start s) = .ok t → SystemCall t e

theorem bounded_run (hsized : codec.Sized) {s : Ledger.State} {events : List ThreadEvent}
    (hcalls : SystemCalls sha pb codec extract s events)
    (hrun : events.foldlM (Threads.step sha pb codec extract) (start s) = .ok t) : Bounded t := by
  refine run_invariant_steps ?_ (bounded_start s) hrun
  intro pre e post t t' hevents hpre h hstep
  exact h.step (sane_run hpre) hsized (hcalls pre e post t hevents hpre) hstep

/-- Over every run of the threads and whatever the peers send: the receive queue of every node
exceeds `MAXRECVSIZE` by at most one chunk and a header, its sum does not wrap, and it holds no
more messages than headers fit into the limit. -/
theorem recv_queue_bounded (sha : Bytes → Uint256) (pb : Protobuf) (codec : MessageCodec)
    (extract : Bytes → Option ℚ) (hsized : codec.Sized) (s : Ledger.State)
    (events : List ThreadEvent) (hcalls : SystemCalls sha pb codec extract s events) (t : Threads)
    (hrun : events.foldlM (Threads.step sha pb codec extract) (start s) = .ok t) (k : ℕ) :
    (t.nodes k).getTotalRecvSize.toNat = (t.nodes k).queued ∧
      (t.nodes k).getTotalRecvSize.toNat ≤ maxRecvSize + 0x10000 + 8 ∧
      (t.nodes k).vRecvMsg.length ≤ (maxRecvSize + 0x10000 + 8) / 8 := by
  have hlimit : (t.nodes k).queued ≤ recvLimit := (bounded_run hsized hcalls hrun).nodes k
  have hsum := BNode.getTotalRecvSize_toNat (hlimit.trans_lt recvLimit_lt)
  refine ⟨hsum, hsum.le.trans hlimit, ?_⟩
  rw [Nat.le_div_iff_mul_le (by decide), Nat.mul_comm]
  exact (t.nodes k).eight_mul_length_le.trans hlimit

theorem recv_queue_bounded_visit :
    ∃ l t, Ledger.new checksum = .ok l ∧
      (visit Command.txReply).foldlM sampleStep (start (fun _ => none, l)) = .ok t ∧
      (t.nodes 0).vRecvMsg ≠ [] ∧ (t.nodes 0).getTotalRecvSize.toNat = (t.nodes 0).queued ∧
      (t.nodes 0).getTotalRecvSize.toNat ≤ maxRecvSize + 0x10000 + 8 ∧
      (t.nodes 0).vRecvMsg.length ≤ (maxRecvSize + 0x10000 + 8) / 8 := by
  have hok : (do
      let l ← Ledger.new checksum
      let t ← (visit Command.txReply).foldlM sampleStep (start (fun _ => none, l))
      .ok (decide ((t.nodes 0).vRecvMsg ≠ []))) = .ok true :=
    eq_ok_of_toOption (by decide +kernel)
  obtain ⟨l, hl, hok⟩ := bind_eq_ok.mp hok
  obtain ⟨t, ht, hok⟩ := bind_eq_ok.mp hok
  refine ⟨l, t, hl, ht, of_decide_eq_true (Except.ok.inj hok), ?_⟩
  refine recv_queue_bounded checksum plainProtobuf plainMessages decimal plainMessages_sized _
    (visit Command.txReply) ?_ t ht 0
  intro pre e post t' hevents hpre
  have hchunks : ∀ e ∈ visit Command.txReply, e.chunk.length ≤ recvBuffer := by decide +kernel
  have hopened : ∀ e ∈ (visit Command.txReply).tail, e.opened = none := by decide +kernel
  refine ⟨hchunks e (hevents ▸ List.mem_append_right _ List.mem_cons_self), ?_⟩
  intro socket hsocket p hp
  cases pre with
  | nil =>
    cases hpre
    cases hp
  | cons first pre =>
    have hmem : e ∈ (visit Command.txReply).tail := by
      rw [hevents]
      exact List.mem_append_right _ List.mem_cons_self
    rw [hopened e hmem] at hsocket
    cases hsocket

end Threads

end Bubi
