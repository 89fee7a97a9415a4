import Bubi.Ledger.Audit
import Bubi.Net.Once

/-!
# Where the entries of the ledgers come from

Hosts write to their ledgers for the requests of their clients and for the messages of
their peers. A message carries the number of the request that it was pushed for, and its
content with it: what a host does for the message is what the host of the request did. So
every ledger is what one process makes of requests that clients have made, each at most
once, and those of the host's own clients are among them.
-/

namespace Bubi

open Bubi.Core Peers Process Ledger

section Steps

variable (sha : Bytes → Uint256) (pb : Protobuf) (extract : Bytes → Option ℚ)

/-- The call on the ledger that a request makes. -/
def Request.step (m : Surroundings) : Request → Except Fault Step
  | .transfer sendAddr fee recvAddr => do
    let tx ← newTransaction sha extract m sendAddr fee recvAddr
    .ok (.addTransactionEntry tx)
  | .createUser bubiAddr => .ok (.createAccount bubiAddr)

/-- The command that is pushed for a call on the ledger. -/
def Command.ofStep : Step → Command
  | .addTransactionEntry tx => (Command.transaction, tx.serializer pb)
  | .createAccount accPub => (Command.account, accPub)

variable {sha pb extract}

/-- A request is its call on the ledger, and pushes the command of that call. -/
theorem handleRequest_step {m : Surroundings} {s : State} {request : Request}
    {r : State × Command × Output} (hr : handleRequest sha pb extract m s request = .ok r)
    (accepted : List Transaction) :
    ∃ o accepted', request.step sha extract m = .ok o ∧ r.2.1 = Command.ofStep pb o ∧
      Ledger.step sha pb (s, accepted) o = .ok (r.1, accepted') := by
  cases request with
  | transfer sendAddr fee recvAddr =>
    obtain ⟨tx, htx, hr⟩ := bind_eq_ok.mp hr
    obtain ⟨v, hv, hr⟩ := bind_eq_ok.mp hr
    cases hr
    refine ⟨.addTransactionEntry tx, if v.2.2 = 0 then v.2.1 :: accepted else accepted, ?_, rfl, ?_⟩
    · rw [Request.step, htx, ok_bind]
    · rw [Ledger.step, hv, ok_bind]
  | createUser bubiAddr =>
    obtain ⟨v, hv, hr⟩ := bind_eq_ok.mp hr
    cases hr
    refine ⟨.createAccount bubiAddr, accepted, rfl, rfl, ?_⟩
    rw [Ledger.step, hv, ok_bind]

/-- The message of a call is the call, made where it arrives. -/
theorem processMessage_step {s : State} {o : Step} {r : State × Option Command}
    (hr : processMessage sha pb s (messageOf (Command.ofStep pb o)) = .ok r)
    (accepted : List Transaction) :
    ∃ accepted', Ledger.step sha pb (s, accepted) o = .ok (r.1, accepted') := by
  cases o with
  | addTransactionEntry tx =>
    rw [Command.ofStep, processMessage_transaction] at hr
    obtain ⟨v, hv, hr⟩ := bind_eq_ok.mp hr
    cases hr
    rw [Ledger.step, hv, ok_bind]
    exact ⟨_, rfl⟩
  | createAccount accPub =>
    rw [Command.ofStep, processMessage_account] at hr
    obtain ⟨v, hv, hr⟩ := bind_eq_ok.mp hr
    cases hr
    rw [Ledger.step, hv, ok_bind]
    exact ⟨_, rfl⟩

end Steps

/-- A command under the number of a request is that of the request. -/
def Command.Of (pb : Protobuf) (requests : List Step) (origin : Option ℕ) (command : Command) :
    Prop :=
  ∀ r ∈ origin, ∃ o, requests[r]? = some o ∧ command = Command.ofStep pb o

/-- Further requests change nothing for the earlier ones. -/
theorem Command.Of.append {pb : Protobuf} {requests : List Step} {origin : Option ℕ}
    {command : Command} (h : Command.Of pb requests origin command) (more : List Step) :
    Command.Of pb (requests ++ more) origin command := by
  intro r hr
  obtain ⟨o, ho, hcommand⟩ := h r hr
  have hlt : r < requests.length := (List.getElem?_eq_some_iff.mp ho).1
  exact ⟨o, (List.getElem?_append_left hlt).trans ho, hcommand⟩

namespace Traffic

variable {ι : Type} {pb : Protobuf} {codec : MessageCodec} {requests : List Step} {t : Traffic ι}
  {e : End}

/-- What is queued at a node under the number of a request is its command. -/
structure Genuine (pb : Protobuf) (codec : MessageCodec) (requests : List Step)
    (x : TrackedNode) : Prop where
  send : List.Forall₂ (fun origin data => ∃ command, data = (messageOf command).serializer codec ∧
    Command.Of pb requests origin command) x.sendOrigins x.node.vSendMsg
  recv : List.Forall₂ (fun origin message => ∃ command, message = messageOf command ∧
    Command.Of pb requests origin command) x.recvOrigins x.node.vRecvMsg

/-- What crosses the mesh under the number of a request is its command. -/
structure Carried (pb : Protobuf) (codec : MessageCodec) (requests : List Step) (t : Traffic ι) :
    Prop where
  nodes : ∀ e, Genuine pb codec requests (t.nodes e)
  wires : ∀ e, ∀ w ∈ t.wires e, ∃ command, w.2 = (messageOf command).serializer codec ∧
    Command.Of pb requests w.1 command

theorem Genuine.push {x : TrackedNode} (h : Genuine pb codec requests x) {origin : Option ℕ}
    {command : Command} (hof : Command.Of pb requests origin command) :
    Genuine pb codec requests (x.push codec origin command) :=
  ⟨List.rel_append h.send (.cons ⟨command, rfl, hof⟩ .nil), h.recv⟩

theorem Genuine.append {x : TrackedNode} (h : Genuine pb codec requests x) (more : List Step) :
    Genuine pb codec (requests ++ more) x where
  send := h.send.imp fun _ _ ⟨command, hdata, hof⟩ => ⟨command, hdata, hof.append more⟩
  recv := h.recv.imp fun _ _ ⟨command, hdata, hof⟩ => ⟨command, hdata, hof.append more⟩

/-- The front message leaves the queue together with its origin. -/
theorem Genuine.pop {x : TrackedNode} (h : Genuine pb codec requests x) {message : BNetMessage}
    {messages : List BNetMessage} {origin : Option ℕ} {origins : List (Option ℕ)}
    (hqueue : x.node.vRecvMsg = message :: messages)
    (horigins : x.recvOrigins = origin :: origins) :
    Genuine pb codec requests x.pop ∧
      ∃ command, message = messageOf command ∧ Command.Of pb requests origin command := by
  have hrecv := h.recv
  rw [hqueue, horigins, List.forall₂_cons] at hrecv
  refine ⟨⟨h.send, ?_⟩, hrecv.1⟩
  unfold TrackedNode.pop
  rw [hqueue, horigins]
  exact hrecv.2

theorem Carried.setNode (h : Carried pb codec requests t) {x : TrackedNode}
    (hx : Genuine pb codec requests x) :
    Carried pb codec requests { t with nodes := Function.update t.nodes e x } where
  nodes e' := by
    dsimp only
    rw [Function.update_apply]
    split
    · exact hx
    · exact h.nodes e'
  wires := h.wires

theorem Carried.renew (h : Carried pb codec requests t) : Carried pb codec requests (t.renew e) :=
  h.setNode ⟨.nil, .nil⟩

theorem Carried.close (h : Carried pb codec requests t) : Carried pb codec requests (t.close e) :=
  h.setNode ⟨(h.nodes e).send, (h.nodes e).recv⟩

/-- A sent string is under way with its origin. -/
theorem Carried.send (h : Carried pb codec requests t) : Carried pb codec requests (t.send e) := by
  unfold Traffic.send
  split
  · rename_i data rest origin origins hqueue horigins
    split
    · exact h
    · rename_i r hr
      obtain ⟨hsend, hrecv, hdata⟩ := socketSendData_whole hqueue hr
      have hfront := (h.nodes e).send
      rw [hqueue, horigins, List.forall₂_cons] at hfront
      refine ⟨(h.setNode ⟨?_, ?_⟩).nodes, fun e' w hw => ?_⟩
      · rw [hsend]
        exact hfront.2
      · rw [hrecv]
        exact (h.nodes e).recv
      · dsimp only at hw
        rw [Function.update_apply] at hw
        split at hw
        · rcases List.mem_append.mp hw with hw | hw
          · exact h.wires _ w hw
          · rw [List.mem_singleton.mp hw, hdata]
            exact hfront.1
        · exact h.wires e' w hw
  · exact h

/-- A string that arrives is queued as its message. -/
theorem Carried.deliver (h : Carried pb codec requests t) :
    Carried pb codec requests (t.deliver codec e) := by
  unfold Traffic.deliver
  split
  · exact h
  · rename_i origin data rest hwire
    have hwires := h.wires e
    rw [hwire] at hwires
    obtain ⟨command, hdata, hof⟩ := hwires (origin, data) List.mem_cons_self
    dsimp only at hdata hof
    subst hdata
    refine ⟨(h.setNode ⟨?_, ?_⟩).nodes, fun e' w hw => ?_⟩
    · rw [socketRecvData_message]
      exact (h.nodes e).send
    · rw [socketRecvData_message]
      exact List.rel_append (h.nodes e).recv (.cons ⟨command, rfl, hof⟩ .nil)
    · dsimp only at hw
      rw [Function.update_apply] at hw
      split at hw
      · exact hwires w (List.mem_cons_of_mem _ hw)
      · exact h.wires e' w hw

/-- A round of `ProcessMessages`; a reply has no number. -/
theorem Carried.round (h : Carried pb codec requests t) {host : ι} {message : BNetMessage}
    {messages : List BNetMessage} {origin : Option ℕ} {origins : List (Option ℕ)}
    (hqueue : (t.nodes e).node.vRecvMsg = message :: messages)
    (horigins : (t.nodes e).recvOrigins = origin :: origins) (reply : Option Command) :
    Carried pb codec requests ((t.take host e message origin).reply codec e reply) := by
  have hpop := ((h.nodes e).pop hqueue horigins).1
  have htake : Carried pb codec requests (t.take host e message origin) :=
    ⟨(h.setNode hpop).nodes, h.wires⟩
  cases reply with
  | none => exact htake
  | some command =>
    refine ⟨(htake.setNode ((htake.nodes e).push ?_)).nodes, h.wires⟩
    rintro r ⟨⟩

/-- A new request is pushed under its number. -/
theorem Carried.broadcast (h : Carried pb codec requests t)
    (hlength : requests.length = t.handled.length) {host : ι} {vNodes : List (Peer End)}
    (o : Step) :
    Carried pb codec (requests ++ [o])
      (t.broadcast codec host vNodes (Command.ofStep pb o)) where
  nodes e := by
    refine pushOutbound_induction (fun x hx => hx.push ?_) vNodes ((h.nodes e).append [o])
    rintro r ⟨⟩
    exact ⟨o, by simp [← hlength], rfl⟩
  wires e w hw := by
    obtain ⟨command, hdata, hof⟩ := h.wires e w hw
    exact ⟨command, hdata, hof.append [o]⟩

end Traffic

namespace Mesh

open Bubi.Topology Traffic

variable {ι : Type} [DecidableEq ι]

section Requests

variable (sha : Bytes → Uint256) (pb : Protobuf) (codec : MessageCodec)
  (extract : Bytes → Option ℚ) (hostOf : BService → Option ι) (peers : ι → List BService)

/-- The call of a request that a host handles. -/
def requestOf (n : Mesh ι) : MeshEvent ι → Option Step
  | .request host m request =>
    if n.running host && (handleRequest sha pb extract m (n.ledgers host) request).toOption.isSome
    then (request.step sha extract m).toOption
    else none
  | _ => none

/-- The calls of the requests that hosts handle in a run. -/
def requestsOf (n : Mesh ι) : List (MeshEvent ι) → List Step
  | [] => []
  | e :: events => (requestOf sha pb extract n e).toList ++
      requestsOf (event sha pb codec extract hostOf peers n e) events

end Requests

variable {sha : Bytes → Uint256} {pb : Protobuf} {codec : MessageCodec}
  {extract : Bytes → Option ℚ} {hostOf : BService → Option ι} {peers : ι → List BService}
  {n : Mesh ι} {ledgers : ι → State} {requests : List Step} {log : ι → List (ℕ × Step)}

/-- How often a host has handled the request with a number. -/
def handledBy (handled : List (ι × ℕ)) (host : ι) (r : ℕ) : ℕ :=
  if handled[r]?.map Prod.fst = some host then 1 else 0

theorem handledBy_append (handled : List (ι × ℕ)) (host i : ι) (k r : ℕ) :
    handledBy (handled ++ [(host, k)]) i r =
      handledBy handled i r + if i = host ∧ handled.length = r then 1 else 0 := by
  unfold handledBy
  rcases Nat.lt_trichotomy r handled.length with hr | rfl | hr
  · have hold : (handled ++ [(host, k)])[r]? = handled[r]? := List.getElem?_append_left hr
    simp only [hold, hr.ne', and_false, if_false, Nat.add_zero]
  · simp [eq_comm]
  · rw [List.getElem?_eq_none (by simp; omega), List.getElem?_eq_none (by omega)]
    simp [hr.ne]

/-- Every ledger is explained by a log of requests. -/
structure Explained (sha : Bytes → Uint256) (pb : Protobuf) (codec : MessageCodec)
    (ledgers : ι → State) (n : Mesh ι) (requests : List Step) (log : ι → List (ℕ × Step)) :
    Prop where
  carried : Carried pb codec requests n.traffic
  length : requests.length = n.traffic.handled.length
  requests : ∀ i, ∀ x ∈ log i, requests[x.1]? = some x.2
  own : ∀ i r, handledBy n.traffic.handled i r ≤ ((log i).map Prod.fst).count r
  once : ∀ i r, ((log i).map Prod.fst).count r ≤
    handledBy n.traffic.handled i r + n.appliedBy i r
  ledgers : ∀ i, ∃ accepted, ((log i).map Prod.snd).foldlM (Ledger.step sha pb) (ledgers i, []) =
    .ok (n.ledgers i, accepted)

theorem explained_start (ledgers : ι → State) :
    Explained sha pb codec ledgers (start ledgers) [] fun _ => [] where
  carried := ⟨fun _ => ⟨.nil, .nil⟩, by simp [start]⟩
  length := rfl
  requests := by simp
  own := by simp [start, handledBy]
  once := by simp
  ledgers := fun _ => ⟨[], rfl⟩

/-- A step that reaches no ledger keeps the log. -/
theorem Explained.of_ledgers (h : Explained sha pb codec ledgers n requests log) {n' : Mesh ι}
    (hcarried : Carried pb codec requests n'.traffic)
    (hhandled : n'.traffic.handled = n.traffic.handled)
    (happlied : ∃ more, n'.traffic.applied = n.traffic.applied ++ more)
    (hledgers : n'.ledgers = n.ledgers) : Explained sha pb codec ledgers n' requests log where
  carried := hcarried
  length := hhandled ▸ h.length
  requests := h.requests
  own := hhandled ▸ h.own
  once := by
    intro i r
    obtain ⟨more, happlied⟩ := happlied
    have hle : n.appliedBy i r ≤ n'.appliedBy i r := by
      rw [appliedBy, appliedBy, happlied, List.countP_append]
      exact Nat.le_add_right _ _
    rw [hhandled]
    exact (h.once i r).trans (Nat.add_le_add_left hle _)
  ledgers := hledgers ▸ h.ledgers

/-- A log gets one more entry, at one host. -/
theorem Explained.ledgers_append (h : Explained sha pb codec ledgers n requests log) {host : ι}
    {s : State} {x : ℕ × Step}
    (hs : ∀ accepted, ∃ accepted', Ledger.step sha pb (n.ledgers host, accepted) x.2 =
      .ok (s, accepted')) (i : ι) :
    ∃ accepted, ((Function.update log host (log host ++ [x]) i).map Prod.snd).foldlM
      (Ledger.step sha pb) (ledgers i, []) =
        .ok (Function.update n.ledgers host s i, accepted) := by
  obtain ⟨accepted, hrun⟩ := h.ledgers i
  by_cases hi : i = host
  · subst hi
    obtain ⟨accepted', hstep⟩ := hs accepted
    refine ⟨accepted', ?_⟩
    rw [Function.update_self, Function.update_self, List.map_append]
    exact foldlM_append_ok.mpr ⟨_, hrun, foldlM_cons_ok.mpr ⟨_, hstep, rfl⟩⟩
  · rw [Function.update_of_ne hi, Function.update_of_ne hi]
    exact ⟨accepted, hrun⟩

theorem mem_log_update {host i : ι} {x y : ℕ × Step}
    (hy : y ∈ Function.update log host (log host ++ [x]) i) : y ∈ log i ∨ i = host ∧ y = x :=
  mem_update_append hy

/-- A number is in the log once more. -/
theorem count_log_update (host i : ι) (x : ℕ × Step) (r : ℕ) :
    ((Function.update log host (log host ++ [x]) i).map Prod.fst).count r =
      ((log i).map Prod.fst).count r + if i = host ∧ x.1 = r then 1 else 0 := by
  by_cases hi : i = host
  · subst hi
    rw [Function.update_self, List.map_append, List.count_append]
    simp [List.count_singleton]
  · rw [Function.update_of_ne hi, if_neg fun h => hi h.1, Nat.add_zero]

/-- A handled request is logged under its number. -/
theorem Explained.handle (h : Explained sha pb codec ledgers n requests log) {host : ι}
    {m : Surroundings} {request : Request} {r : State × Command × Output}
    (hr : handleRequest sha pb extract m (n.ledgers host) request = .ok r) :
    ∃ o, request.step sha extract m = .ok o ∧
      Explained sha pb codec ledgers
        { n with
          ledgers := Function.update n.ledgers host r.1
          traffic := n.traffic.broadcast codec host (n.topology.vNodes host) r.2.1 }
        (requests ++ [o]) (Function.update log host (log host ++ [(requests.length, o)])) := by
  obtain ⟨o, _, ho, hcommand, _⟩ := handleRequest_step hr []
  have hhandled : ∀ i r', handledBy (n.traffic.broadcast codec host (n.topology.vNodes host)
      r.2.1).handled i r' = handledBy n.traffic.handled i r' +
        if i = host ∧ requests.length = r' then 1 else 0 := by
    intro i r'
    rw [h.length]
    exact handledBy_append _ _ _ _ _
  refine ⟨o, ho, ?_, ?_, fun i x hx => ?_, fun i r' => ?_, fun i r' => ?_, ?_⟩
  · rw [hcommand]
    exact h.carried.broadcast h.length o
  · simp [Traffic.broadcast, h.length]
  · rcases mem_log_update hx with hx | ⟨_, rfl⟩
    · have hold := h.requests i x hx
      exact (List.getElem?_append_left (List.getElem?_eq_some_iff.mp hold).1).trans hold
    · exact List.getElem?_concat_length
  · rw [count_log_update, hhandled]
    exact Nat.add_le_add_right (h.own i r') _
  · have happlied : n.appliedBy i r' = Mesh.appliedBy
        { n with
          ledgers := Function.update n.ledgers host r.1
          traffic := n.traffic.broadcast codec host (n.topology.vNodes host) r.2.1 } i r' := rfl
    have hbefore := h.once i r'
    rw [count_log_update, hhandled, ← happlied]
    dsimp only
    omega
  · intro i
    refine h.ledgers_append (fun accepted => ?_) i
    obtain ⟨o', accepted', ho', _, hstep⟩ := handleRequest_step hr accepted
    cases ho.symm.trans ho'
    exact ⟨accepted', hstep⟩

/-- A message that is taken up is logged under the number of its request. -/
theorem Explained.process (h : Explained sha pb codec ledgers n requests log) {host : ι} {e : End}
    {message : BNetMessage} {messages : List BNetMessage} {origin : Option ℕ}
    {origins : List (Option ℕ)} (hqueue : (n.traffic.nodes e).node.vRecvMsg = message :: messages)
    (horigins : (n.traffic.nodes e).recvOrigins = origin :: origins)
    (hnoReply : origin = none → replyTo message = none) {r : State × Option Command}
    (hr : processMessage sha pb (n.ledgers host) message = .ok r) :
    ∃ log', Explained sha pb codec ledgers
      { n with
        ledgers := Function.update n.ledgers host r.1
        traffic := (n.traffic.take host e message origin).reply codec e r.2 } requests log' := by
  have hcarried : Carried pb codec requests
      ((n.traffic.take host e message origin).reply codec e r.2) :=
    h.carried.round hqueue horigins r.2
  have hrecords := @reply_records _ codec (n.traffic.take host e message origin) e r.2
  obtain ⟨command, rfl, hof⟩ := ((h.carried.nodes e).pop hqueue horigins).2
  cases origin with
  | none =>
    rw [processMessage_of_replyTo (hnoReply rfl)] at hr
    cases hr
    refine ⟨log, h.of_ledgers hcarried hrecords.1 ⟨_, hrecords.2.2⟩ ?_⟩
    exact Function.update_eq_self host n.ledgers
  | some r' =>
    obtain ⟨o, ho, rfl⟩ := hof r' rfl
    have hnote : note host e (messageOf (Command.ofStep pb o)) (some r') = [(host, e.1, r')] := by
      cases o <;> rfl
    refine ⟨Function.update log host (log host ++ [(r', o)]), hcarried, hrecords.1 ▸ h.length,
      fun i x hx => ?_, fun i r'' => ?_, fun i r'' => ?_,
      h.ledgers_append fun accepted => processMessage_step hr accepted⟩
    · rcases mem_log_update hx with hx | ⟨_, rfl⟩
      · exact h.requests i x hx
      · exact ho
    · rw [count_log_update, hrecords.1]
      exact (h.own i r'').trans (Nat.le_add_right _ _)
    · have hbefore := h.once i r''
      have happlied : Mesh.appliedBy
          { n with
            ledgers := Function.update n.ledgers host r.1
            traffic := (n.traffic.take host e (messageOf (Command.ofStep pb o)) (some r')).reply
              codec e r.2 } i r'' =
          n.appliedBy i r'' + if i = host ∧ r' = r'' then 1 else 0 := by
        unfold appliedBy
        dsimp only
        rw [hrecords.2.2, take, hnote, List.countP_append, List.countP_singleton]
        simp only [decide_eq_true_eq, @eq_comm _ i host]
      rw [count_log_update, happlied, hrecords.1]
      dsimp only [take]
      omega

/-- A step other than a request is explained by what was requested before. -/
theorem Explained.act (h : Explained sha pb codec ledgers n requests log)
    (haccounted : Accounted hostOf peers codec n) {e : MeshEvent ι}
    (he : ∀ host m request, e ≠ .request host m request) :
    ∃ log', Explained sha pb codec ledgers (act sha pb codec extract hostOf peers n e)
      requests log' := by
  have hnone : ∃ more, n.traffic.applied = n.traffic.applied ++ more :=
    ⟨[], (List.append_nil _).symm⟩
  cases e with
  | findNode host bService => exact ⟨log, h.of_ledgers h.carried rfl hnone rfl⟩
  | connectSocket host connected =>
    unfold Mesh.act
    dsimp only
    split
    · exact ⟨log, h⟩
    · split
      · exact ⟨log, h.of_ledgers h.carried.renew rfl hnone rfl⟩
      · exact ⟨log, h.of_ledgers h.carried rfl hnone rfl⟩
  | dial host => exact ⟨log, h.of_ledgers h.carried rfl hnone rfl⟩
  | acceptSocket host bService =>
    unfold Mesh.act
    dsimp only
    split
    · exact ⟨log, h⟩
    · split
      · exact ⟨log, h.of_ledgers h.carried rfl hnone rfl⟩
      · exact ⟨log, h.of_ledgers h.carried.renew rfl hnone rfl⟩
  | close host e => exact ⟨log, h.of_ledgers h.carried.close rfl hnone rfl⟩
  | disconnect host => exact ⟨log, h.of_ledgers h.carried rfl hnone rfl⟩
  | request host m request => exact absurd rfl (he host m request)
  | send host e =>
    refine ⟨log, h.of_ledgers h.carried.send send_records.1 ?_ rfl⟩
    exact ⟨[], send_records.2.2.trans (List.append_nil _).symm⟩
  | deliver host e =>
    refine ⟨log, h.of_ledgers h.carried.deliver deliver_records.1 ?_ rfl⟩
    exact ⟨[], deliver_records.2.2.trans (List.append_nil _).symm⟩
  | process host e =>
    unfold Mesh.act
    dsimp only
    split
    · rename_i message messages origin origins hqueue horigins
      split
      · exact ⟨log, h.of_ledgers (h.carried.round hqueue horigins none) rfl ⟨_, rfl⟩ rfl⟩
      · rename_i r hr
        exact h.process hqueue horigins
          ((haccounted.tracked.nodes e).pop hqueue horigins).2 hr
    · exact ⟨log, h⟩

/-- A step of a host is explained, with the request that it handles. -/
theorem Explained.event (h : Explained sha pb codec ledgers n requests log)
    (haccounted : Accounted hostOf peers codec n) (e : MeshEvent ι) :
    ∃ log', Explained sha pb codec ledgers (event sha pb codec extract hostOf peers n e)
      (requests ++ (requestOf sha pb extract n e).toList) log' := by
  by_cases he : ∃ host m request, e = .request host m request
  · obtain ⟨host, m, request, rfl⟩ := he
    unfold Mesh.event requestOf
    cases hrunning : n.running host with
    | false => exact ⟨log, by simpa [hostOfEvent, hrunning] using h⟩
    | true =>
      cases hr : handleRequest sha pb extract m (n.ledgers host) request with
      | error fault =>
        refine ⟨log, ?_⟩
        simp only [hostOfEvent, hrunning, enabled, Mesh.act, hr, Bool.and_self, if_true,
          Except.toOption, Option.isSome_none, Bool.and_false, Bool.false_eq_true, if_false,
          Option.toList_none, List.append_nil]
        exact h.of_ledgers h.carried rfl ⟨[], (List.append_nil _).symm⟩ rfl
      | ok r =>
        obtain ⟨o, ho, hexplained⟩ := h.handle hr
        refine ⟨Function.update log host (log host ++ [(requests.length, o)]), ?_⟩
        simp only [hostOfEvent, hrunning, enabled, Mesh.act, hr, ho, Bool.and_self, if_true,
          Except.toOption, Option.isSome_some, Option.toList_some]
        exact hexplained
  · have hother : ∀ host m request, e ≠ .request host m request :=
      fun host m request heq => he ⟨host, m, request, heq⟩
    have hrequest : requestOf sha pb extract n e = none := by
      cases e with
      | request host m request => exact absurd rfl (hother host m request)
      | _ => rfl
    rw [hrequest, Option.toList_none, List.append_nil]
    unfold Mesh.event
    split
    · exact h.act haccounted hother
    · exact ⟨log, h⟩

theorem Explained.run (h : Explained sha pb codec ledgers n requests log)
    (haccounted : Accounted hostOf peers codec n) (events : List (MeshEvent ι)) :
    ∃ log', Explained sha pb codec ledgers
      (events.foldl (Mesh.event sha pb codec extract hostOf peers) n)
      (requests ++ requestsOf sha pb codec extract hostOf peers n events) log' := by
  induction events generalizing n requests log with
  | nil => exact ⟨log, by simpa [requestsOf] using h⟩
  | cons e events ih =>
    obtain ⟨log', h'⟩ := @Explained.event _ _ _ _ _ extract hostOf peers _ _ _ _ h haccounted e
    have haccounted' : Accounted hostOf peers codec
        (Mesh.event sha pb codec extract hostOf peers n e) := haccounted.run [e]
    rw [List.foldl_cons, requestsOf, ← List.append_assoc]
    exact ih h' haccounted'

/-- Every run from hosts without connections is explained by what it requests. -/
theorem exists_explained (sha : Bytes → Uint256) (pb : Protobuf) (codec : MessageCodec)
    (extract : Bytes → Option ℚ) (hostOf : BService → Option ι) (peers : ι → List BService)
    (ledgers : ι → State) (events : List (MeshEvent ι)) :
    ∃ log, Explained sha pb codec ledgers
        (events.foldl (Mesh.event sha pb codec extract hostOf peers) (start ledgers))
        (requestsOf sha pb codec extract hostOf peers (start ledgers) events) log ∧
      Accounted hostOf peers codec
        (events.foldl (Mesh.event sha pb codec extract hostOf peers) (start ledgers)) := by
  have haccounted : Accounted hostOf peers codec (start ledgers) := accounted_start ledgers
  obtain ⟨log, h⟩ := (explained_start ledgers).run haccounted events
  exact ⟨log, h, haccounted.run events⟩

/-- No request is logged twice at a host. -/
theorem Explained.nodup (h : Explained sha pb codec ledgers n requests log)
    (haccounted : Accounted hostOf peers codec n)
    (hdistinct : ∀ b b' i, hostOf b = some i → hostOf b' = some i → b = b')
    (hself : ∀ i, ∀ b ∈ peers i, hostOf b ≠ some i) (host : ι) :
    ((log host).map Prod.fst).Nodup := by
  refine List.nodup_iff_count_le_one.mpr fun r => (h.once host r).trans ?_
  unfold handledBy
  split
  · rename_i hmap
    obtain ⟨⟨i, k⟩, hhandled, rfl⟩ := Option.map_eq_some_iff.mp hmap
    rw [haccounted.appliedBy_handler hself hhandled]
  · rw [Nat.zero_add]
    exact haccounted.appliedBy_le hdistinct host r

/-- Over any connects, accepts, disconnects, requests, sends and deliveries between any hosts with
different addresses, none of which lists its own: the ledger of every host is what one process
makes of requests that clients have made at some host. No request is among them twice, and all
that the host itself has handled are. -/
theorem ledgers_from_requests (sha : Bytes → Uint256) (pb : Protobuf) (codec : MessageCodec)
    (extract : Bytes → Option ℚ) (hostOf : BService → Option ι) (peers : ι → List BService)
    (hdistinct : ∀ b b' i, hostOf b = some i → hostOf b' = some i → b = b')
    (hself : ∀ i, ∀ b ∈ peers i, hostOf b ≠ some i) (ledgers : ι → State)
    (events : List (MeshEvent ι)) (n : Mesh ι)
    (hrun : events.foldl (event sha pb codec extract hostOf peers) (start ledgers) = n)
    (host : ι) :
    ∃ (log : List (ℕ × Step)) (accepted : List Transaction),
      (log.map Prod.snd).foldlM (Ledger.step sha pb) (ledgers host, []) =
        .ok (n.ledgers host, accepted) ∧
      (∀ x ∈ log, (requestsOf sha pb codec extract hostOf peers (start ledgers) events)[x.1]? =
        some x.2) ∧
      (log.map Prod.fst).Nodup ∧
      ∀ r k, n.traffic.handled[r]? = some (host, k) → r ∈ log.map Prod.fst := by
  subst hrun
  obtain ⟨log, h, haccounted⟩ := exists_explained sha pb codec extract hostOf peers ledgers events
  obtain ⟨accepted, hledger⟩ := h.ledgers host
  refine ⟨log host, accepted, hledger, h.requests host,
    h.nodup haccounted hdistinct hself host, fun r k hhandled => ?_⟩
  refine List.one_le_count_iff.mp (le_trans ?_ (h.own host r))
  rw [handledBy, hhandled, Option.map_some, if_pos rfl]

/-- The one request of a client is taken up by the other host. -/
theorem ledgers_from_sampleExchange :
    ∃ l n, Ledger.new checksum = .ok l ∧
      sampleExchange.foldl (event checksum plainProtobuf plainMessages decimal sampleHost
        samplePeers) (start fun _ => (fun _ => none, l)) = n ∧ n.appliedBy true 0 = 1 ∧
      (requestsOf checksum plainProtobuf plainMessages decimal sampleHost samplePeers
        (start fun _ => (fun _ => none, l)) sampleExchange).length = 1 ∧
      ∃ (log : List (ℕ × Step)) (accepted : List Transaction),
        (log.map Prod.snd).foldlM (Ledger.step checksum plainProtobuf) ((fun _ => none, l), []) =
          .ok (n.ledgers true, accepted) ∧ (log.map Prod.fst).Nodup := by
  have hok : (do
      let l ← Ledger.new checksum
      let n := sampleExchange.foldl (event checksum plainProtobuf plainMessages decimal sampleHost
        samplePeers) (start fun _ => (fun _ => none, l))
      let requests := requestsOf checksum plainProtobuf plainMessages decimal sampleHost
        samplePeers (start fun _ => (fun _ => none, l)) sampleExchange
      .ok (decide (n.appliedBy true 0 = 1 ∧ requests.length = 1))) = .ok true :=
    eq_ok_of_toOption (by decide +kernel)
  obtain ⟨l, hl, hok⟩ := bind_eq_ok.mp hok
  obtain ⟨happlied, hrequests⟩ := of_decide_eq_true (Except.ok.inj hok)
  have hdistinct : ∀ b b' i, sampleHost b = some i → sampleHost b' = some i → b = b' :=
    fun b b' i hb hb' => (eq_addressOf hb).trans (eq_addressOf hb').symm
  have hself : ∀ i, ∀ b ∈ samplePeers i, sampleHost b ≠ some i := by decide
  obtain ⟨log, accepted, hledger, _, hnodup, _⟩ := ledgers_from_requests checksum plainProtobuf
    plainMessages decimal sampleHost samplePeers hdistinct hself (fun _ => (fun _ => none, l))
    sampleExchange _ rfl true
  exact ⟨l, _, hl, rfl, happlied, hrequests, log, accepted, hledger, hnodup⟩

/-- On such a mesh, whose hosts start with empty ledgers, every balance at every host is what
transfers that clients have asked for make of 1000, no request counted twice, and it is never
negative. -/
theorem balances_from_requests (sha : Bytes → Uint256) (pb : Protobuf) (codec : MessageCodec)
    (extract : Bytes → Option ℚ) (hostOf : BService → Option ι) (peers : ι → List BService)
    (hdistinct : ∀ b b' i, hostOf b = some i → hostOf b' = some i → b = b')
    (hself : ∀ i, ∀ b ∈ peers i, hostOf b ≠ some i) (db : ι → Database) (l : Ledger)
    (hl : Ledger.new sha = .ok l) (events : List (MeshEvent ι)) (n : Mesh ι)
    (hrun : events.foldl (event sha pb codec extract hostOf peers) (start fun i => (db i, l)) = n)
    (host : ι) (k : Uint256) (acc : Account)
    (hentry : entry sha pb (n.ledgers host) k = some acc) :
    ∃ transfers : List (ℕ × Transaction), (transfers.map Prod.fst).Nodup ∧
      (∀ x ∈ transfers, (requestsOf sha pb codec extract hostOf peers (start fun i => (db i, l))
        events)[x.1]? = some (.addTransactionEntry x.2)) ∧
      acc.accountBalance = replay k (transfers.map Prod.snd) ∧ 0 ≤ acc.accountBalance := by
  subst hrun
  obtain ⟨log, h, haccounted⟩ := exists_explained sha pb codec extract hostOf peers
    (fun i => (db i, l)) events
  obtain ⟨accepted, hledger⟩ := h.ledgers host
  obtain ⟨transfers, hsub, hterms⟩ := exists_transfers hledger
  have hledger' : Ledger.run sha pb (db host) ((log host).map Prod.snd) = _ :=
    bind_eq_ok.mpr ⟨l, hl, hledger⟩
  obtain ⟨b, _, _, huse, haudited⟩ := run_audited hledger'
  rw [huse.reflects.entry_eq] at hentry
  have hbalance : acc.accountBalance = replay k accepted :=
    (Books.balance_eq hentry).symm.trans (haudited.balance k acc hentry)
  refine ⟨transfers, ?_, fun x hx => ?_, ?_, ?_⟩
  · have hnumbers : (transfers.map Prod.fst).Sublist ((log host).map Prod.fst).reverse := by
      have hmap := hsub.map Prod.fst
      rwa [List.map_map, List.map_reverse] at hmap
    exact (List.nodup_reverse.mpr (h.nodup haccounted hdistinct hself host)).sublist hnumbers
  · have hmem := List.mem_reverse.mp (hsub.subset (List.mem_map_of_mem hx))
    exact h.requests host _ hmem
  · rw [hbalance, ← replay_congr (List.map_map.trans hterms)]
  · rw [hbalance]
    exact haudited.solvent k accepted List.suffix_rfl

/-- Two hosts; one creates two accounts and moves 100 between them, and the other follows. -/
def sampleTraffic : List (MeshEvent Bool) :=
  [.findNode false (addressOf true), .connectSocket false true,
    .acceptSocket true ⟨0x0a000001, 40000⟩,
    .request false sampleSurroundings (.createUser (sampleName 1)),
    .request false sampleSurroundings (.createUser (sampleName 2)),
    .request false sampleSurroundings (sampleTransfer 1 2 ['1', '0', '0']),
    .send false (0, false), .send false (0, false), .send false (0, false),
    .deliver true (0, true), .deliver true (0, true), .deliver true (0, true),
    .process true (0, true), .process true (0, true), .process true (0, true)]

theorem balances_from_sampleTraffic :
    ∃ l n acc, Ledger.new checksum = .ok l ∧
      sampleTraffic.foldl (event checksum plainProtobuf plainMessages decimal sampleHost
        samplePeers) (start fun _ => (fun _ => none, l)) = n ∧
      entry checksum plainProtobuf (n.ledgers true) (checksum (sampleName 1)) = some acc ∧
      acc.accountBalance = 900 ∧
      ∃ transfers : List (ℕ × Transaction), (transfers.map Prod.fst).Nodup ∧
        acc.accountBalance = replay (checksum (sampleName 1)) (transfers.map Prod.snd) := by
  have hok : (do
      let l ← Ledger.new checksum
      let n := sampleTraffic.foldl (event checksum plainProtobuf plainMessages decimal sampleHost
        samplePeers) (start fun _ => (fun _ => none, l))
      .ok (decide ((entry checksum plainProtobuf (n.ledgers true)
        (checksum (sampleName 1))).map Account.accountBalance = some 900))) = .ok true :=
    eq_ok_of_toOption (by decide +kernel)
  obtain ⟨l, hl, hok⟩ := bind_eq_ok.mp hok
  obtain ⟨acc, hentry, hbalance⟩ :=
    Option.map_eq_some_iff.mp (of_decide_eq_true (Except.ok.inj hok))
  have hdistinct : ∀ b b' i, sampleHost b = some i → sampleHost b' = some i → b = b' :=
    fun b b' i hb hb' => (eq_addressOf hb).trans (eq_addressOf hb').symm
  have hself : ∀ i, ∀ b ∈ samplePeers i, sampleHost b ≠ some i := by decide
  obtain ⟨transfers, hnodup, _, hreplay, _⟩ := balances_from_requests checksum plainProtobuf
    plainMessages decimal sampleHost samplePeers hdistinct hself (fun _ _ => none) l hl
    sampleTraffic _ rfl true _ acc hentry
  exact ⟨l, _, acc, hl, rfl, hentry, hbalance, transfers, hnodup, hreplay⟩

end Mesh

end Bubi
