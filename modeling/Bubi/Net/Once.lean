import Bubi.Net.Mesh

/-!
# At most once

A request is pushed once to every connection that its host has opened. From then on a copy
is in one place: in the queue of the end that sends it, under way, in the queue of the end
that receives it, or taken up. The connections that a host has opened lead to different
hosts, so no host takes up a request twice. Only the message of a request is replied to,
and a reply is not.
-/

namespace Bubi

open Bubi.Core Peers Process

/-- A pushed string is a message, and one that gets no reply where it is itself a reply. -/
def Tagged (codec : MessageCodec) (origin : Option ℕ) (data : Bytes) : Prop :=
  ∃ command, data = (messageOf command).serializer codec ∧
    (origin = none → replyTo (messageOf command) = none)

/-- The queues of a node, with their origins. -/
structure TrackedNode.Aligned (codec : MessageCodec) (x : TrackedNode) : Prop where
  send : List.Forall₂ (Tagged codec) x.sendOrigins x.node.vSendMsg
  recv : List.Forall₂ (fun origin message => origin = none → replyTo message = none)
    x.recvOrigins x.node.vRecvMsg

theorem TrackedNode.Aligned.push {codec : MessageCodec} {x : TrackedNode} (h : x.Aligned codec)
    {origin : Option ℕ} {command : Command}
    (hreply : origin = none → replyTo (messageOf command) = none) :
    (x.push codec origin command).Aligned codec :=
  ⟨List.rel_append h.send (.cons ⟨command, rfl, hreply⟩ .nil), h.recv⟩

/-- The front message leaves the queue together with its origin. -/
theorem TrackedNode.Aligned.pop {codec : MessageCodec} {x : TrackedNode} (h : x.Aligned codec)
    {message : BNetMessage} {messages : List BNetMessage} {origin : Option ℕ}
    {origins : List (Option ℕ)} (hqueue : x.node.vRecvMsg = message :: messages)
    (horigins : x.recvOrigins = origin :: origins) :
    x.pop.Aligned codec ∧ (origin = none → replyTo message = none) := by
  have hrecv := h.recv
  rw [hqueue, horigins, List.forall₂_cons] at hrecv
  refine ⟨⟨h.send, ?_⟩, hrecv.1⟩
  unfold TrackedNode.pop
  rw [hqueue, horigins]
  exact hrecv.2

namespace Traffic

variable {ι : Type} {codec : MessageCodec} {t : Traffic ι} {e : End}

/-- The copies of a request at an end of a connection and on the way to it. -/
def load (r : ℕ) (x : TrackedNode) (wire : List (Option ℕ × Bytes)) : ℕ :=
  x.sendOrigins.count (some r) + x.recvOrigins.count (some r) +
    (wire.map Prod.fst).count (some r)

/-- Only replies go from the accepted end to the other one. -/
structure Backward (e : End) (x : TrackedNode) (wire : List (Option ℕ × Bytes)) : Prop where
  send : e.2 = true → ∀ origin ∈ x.sendOrigins, origin = none
  recv : e.2 = false → ∀ origin ∈ x.recvOrigins, origin = none
  wire : e.2 = false → ∀ w ∈ wire, w.1 = none

theorem Backward.push {x : TrackedNode} {wire : List (Option ℕ × Bytes)} (h : Backward e x wire)
    {origin : Option ℕ} (horigin : e.2 = true → origin = none) {command : Command} :
    Backward e (x.push codec origin command) wire := by
  refine ⟨fun hside origin' horigin' => ?_, h.recv, h.wire⟩
  rcases List.mem_append.mp horigin' with horigin' | horigin'
  · exact h.send hside origin' horigin'
  · rw [List.mem_singleton.mp horigin']
    exact horigin hside

theorem Backward.pop {x : TrackedNode} {wire : List (Option ℕ × Bytes)} (h : Backward e x wire) :
    Backward e x.pop wire := by
  refine ⟨h.send, fun hside origin horigin => ?_, h.wire⟩
  exact h.recv hside origin (List.mem_of_mem_tail horigin)

/-- A push adds one copy of its request. -/
theorem load_push {origin : Option ℕ} {r : ℕ} {command : Command} {x : TrackedNode}
    {wire : List (Option ℕ × Bytes)} :
    load r (x.push codec origin command) wire =
      load r x wire + if origin = some r then 1 else 0 := by
  simp only [load, TrackedNode.push, List.count_append, List.count_singleton, beq_iff_eq]
  omega

/-- Every copy of a request is in one place, and only the messages of requests are replied to. -/
structure Tracked (codec : MessageCodec) (t : Traffic ι) : Prop where
  nodes : ∀ e, (t.nodes e).Aligned codec
  wires : ∀ e, ∀ w ∈ t.wires e, Tagged codec w.1 w.2
  backward : ∀ e, Backward e (t.nodes e) (t.wires e)
  copies : ∀ e r, load r (t.nodes e) (t.wires e) +
    load r (t.nodes e.other) (t.wires e.other) + (t.applied.map Prod.snd).count (e.1, r) ≤
      t.pushes.count (e.1, r)
  pushes : t.pushes.Nodup
  numbers : ∀ push ∈ t.pushes, push.2 < t.handled.length
  total : t.pushes.length = (t.handled.map Prod.snd).sum
  pushed : t.pushed ≤ t.pushes.length + t.applied.length

/-- A step at one connection: the node at an end changes, and what is on the way to the two
ends. -/
def atLink (t : Traffic ι) (e : End) (x : TrackedNode) (wire wire' : List (Option ℕ × Bytes))
    (more : List (ι × ℕ × ℕ)) (replies : ℕ) : Traffic ι :=
  { t with
    nodes := Function.update t.nodes e x
    wires := Function.update (Function.update t.wires e wire) e.other wire'
    applied := t.applied ++ more
    pushed := t.pushed + replies }

theorem atLink_self {x : TrackedNode} {wire wire' : List (Option ℕ × Bytes)}
    {more : List (ι × ℕ × ℕ)} {replies : ℕ} :
    (t.atLink e x wire wire' more replies).nodes e = x ∧
      (t.atLink e x wire wire' more replies).wires e = wire := by
  unfold atLink
  dsimp only
  rw [Function.update_self, Function.update_of_ne (End.other_ne e).symm, Function.update_self]
  exact ⟨rfl, rfl⟩

theorem atLink_other {x : TrackedNode} {wire wire' : List (Option ℕ × Bytes)}
    {more : List (ι × ℕ × ℕ)} {replies : ℕ} :
    (t.atLink e x wire wire' more replies).nodes e.other = t.nodes e.other ∧
      (t.atLink e x wire wire' more replies).wires e.other = wire' := by
  unfold atLink
  dsimp only
  rw [Function.update_self, Function.update_of_ne (End.other_ne e)]
  exact ⟨rfl, rfl⟩

theorem atLink_of_ne {x : TrackedNode} {wire wire' : List (Option ℕ × Bytes)}
    {more : List (ι × ℕ × ℕ)} {replies : ℕ} {e' : End} (h : e'.1 ≠ e.1) :
    (t.atLink e x wire wire' more replies).nodes e' = t.nodes e' ∧
      (t.atLink e x wire wire' more replies).wires e' = t.wires e' := by
  have hself : e' ≠ e := by
    rintro rfl
    exact h rfl
  have hother : e' ≠ e.other := by
    rintro rfl
    exact h rfl
  unfold atLink
  dsimp only
  rw [Function.update_of_ne hself, Function.update_of_ne hother, Function.update_of_ne hself]
  exact ⟨rfl, rfl⟩

/-- The two ends of the connection, and those of the others. -/
theorem forall_atLink {P : End → TrackedNode → List (Option ℕ × Bytes) → Prop} {x : TrackedNode}
    {wire wire' : List (Option ℕ × Bytes)} {more : List (ι × ℕ × ℕ)} {replies : ℕ}
    (h : ∀ e, P e (t.nodes e) (t.wires e)) (hself : P e x wire)
    (hother : P e.other (t.nodes e.other) wire') (e' : End) :
    P e' ((t.atLink e x wire wire' more replies).nodes e')
      ((t.atLink e x wire wire' more replies).wires e') := by
  by_cases hlink : e'.1 = e.1
  · rcases End.eq_or_other hlink with rfl | rfl
    · rwa [atLink_self.1, atLink_self.2]
    · rwa [atLink_other.1, atLink_other.2]
  · rw [(atLink_of_ne hlink).1, (atLink_of_ne hlink).2]
    exact h e'

/-- A step at one connection makes no copies. -/
theorem Tracked.atLink (h : Tracked codec t) {x : TrackedNode}
    {wire wire' : List (Option ℕ × Bytes)} {more : List (ι × ℕ × ℕ)} {replies : ℕ}
    (hx : x.Aligned codec) (hwire : ∀ w ∈ wire, Tagged codec w.1 w.2)
    (hwire' : ∀ w ∈ wire', Tagged codec w.1 w.2) (hback : Backward e x wire)
    (hback' : Backward e.other (t.nodes e.other) wire') (hmore : ∀ a ∈ more, a.2.1 = e.1)
    (hload : ∀ r, load r x wire + load r (t.nodes e.other) wire' +
      (more.map Prod.snd).count (e.1, r) ≤
        load r (t.nodes e) (t.wires e) + load r (t.nodes e.other) (t.wires e.other))
    (hreplies : replies ≤ more.length) :
    Tracked codec (t.atLink e x wire wire' more replies) := by
  have hcopies : ∀ r, load r x wire + load r (t.nodes e.other) wire' +
      ((t.applied ++ more).map Prod.snd).count (e.1, r) ≤ t.pushes.count (e.1, r) := by
    intro r
    rw [List.map_append, List.count_append]
    have hbefore := h.copies e r
    have hafter := hload r
    omega
  refine ⟨?_, ?_, ?_, fun e' r => ?_, h.pushes, h.numbers, h.total, ?_⟩
  · exact forall_atLink (P := fun _ x _ => x.Aligned codec) h.nodes hx (h.nodes e.other)
  · exact forall_atLink (P := fun _ _ wire => ∀ w ∈ wire, Tagged codec w.1 w.2) h.wires hwire
      hwire'
  · exact forall_atLink (P := Backward) h.backward hback hback'
  · by_cases hlink : e'.1 = e.1
    · rw [hlink]
      rcases End.eq_or_other hlink with rfl | rfl
      · rw [atLink_self.1, atLink_self.2, atLink_other.1, atLink_other.2]
        exact hcopies r
      · rw [End.other_other, atLink_self.1, atLink_self.2, atLink_other.1, atLink_other.2,
          Nat.add_comm (load r (t.nodes e.other) wire')]
        exact hcopies r
    · have hother : e'.other.1 ≠ e.1 := hlink
      have hnone : (more.map Prod.snd).count (e'.1, r) = 0 := by
        rw [List.count_eq_zero]
        intro hmem
        obtain ⟨a, ha, heq⟩ := List.mem_map.mp hmem
        exact hlink ((congrArg Prod.fst heq).symm.trans (hmore a ha))
      rw [(atLink_of_ne hlink).1, (atLink_of_ne hlink).2, (atLink_of_ne hother).1,
        (atLink_of_ne hother).2]
      unfold Traffic.atLink
      dsimp only
      rw [List.map_append, List.count_append, hnone]
      exact h.copies e' r
  · unfold Traffic.atLink
    dsimp only
    rw [List.length_append]
    have hpushed := h.pushed
    omega

/-- A step that leaves the wires alone. -/
theorem atLink_wires {x : TrackedNode} {more : List (ι × ℕ × ℕ)} {replies : ℕ} :
    t.atLink e x (t.wires e) (t.wires e.other) more replies =
      { t with
        nodes := Function.update t.nodes e x
        applied := t.applied ++ more
        pushed := t.pushed + replies } := by
  simp only [atLink, Function.update_eq_self]

/-- A string is put on the way to the other end. -/
theorem atLink_wire_other {x : TrackedNode} {wire' : List (Option ℕ × Bytes)} :
    t.atLink e x (t.wires e) wire' [] 0 =
      { t with
        nodes := Function.update t.nodes e x
        wires := Function.update t.wires e.other wire' } := by
  simp only [atLink, Function.update_eq_self, List.append_nil, Nat.add_zero]

/-- A string arrives. -/
theorem atLink_wire_self {x : TrackedNode} {wire : List (Option ℕ × Bytes)} :
    t.atLink e x wire (t.wires e.other) [] 0 =
      { t with
        nodes := Function.update t.nodes e x
        wires := Function.update t.wires e wire } := by
  have hother : t.wires e.other = Function.update t.wires e wire e.other :=
    (Function.update_of_ne (End.other_ne e) _ _).symm
  unfold atLink
  rw [hother, Function.update_eq_self, List.append_nil, Nat.add_zero]

/-- A node at one end changes and gets no copies. -/
theorem Tracked.setNode (h : Tracked codec t) {x : TrackedNode} (hx : x.Aligned codec)
    (hsend : x.sendOrigins.Sublist (t.nodes e).sendOrigins)
    (hrecv : x.recvOrigins.Sublist (t.nodes e).recvOrigins) :
    Tracked codec { t with nodes := Function.update t.nodes e x } := by
  have hset : { t with nodes := Function.update t.nodes e x } =
      t.atLink e x (t.wires e) (t.wires e.other) [] 0 := by
    rw [atLink_wires, List.append_nil]
    rfl
  have hback : Backward e x (t.wires e) :=
    ⟨fun hside origin horigin => (h.backward e).send hside origin (hsend.subset horigin),
      fun hside origin horigin => (h.backward e).recv hside origin (hrecv.subset horigin),
      (h.backward e).wire⟩
  rw [hset]
  apply h.atLink hx (h.wires e) (h.wires e.other) hback (h.backward e.other)
  · simp
  · intro r
    have hsend' := hsend.count_le (some r)
    have hrecv' := hrecv.count_le (some r)
    simp only [load, List.map_nil, List.count_nil]
    omega
  · exact le_refl _

theorem Tracked.renew (h : Tracked codec t) : Tracked codec (t.renew e) :=
  h.setNode ⟨.nil, .nil⟩ (List.nil_sublist _) (List.nil_sublist _)

theorem Tracked.close (h : Tracked codec t) : Tracked codec (t.close e) :=
  h.setNode ⟨(h.nodes e).send, (h.nodes e).recv⟩ (List.Sublist.refl _) (List.Sublist.refl _)

/-- A `send` that takes a whole message from the start of the queue. -/
theorem socketSendData_whole {node : BNode} {data : Bytes} {rest : List Bytes}
    (hqueue : node.vSendMsg = data :: rest) {r : (BNode × Bytes) × Bool}
    (hr : BNode.socketSendData [.accepted data.length] (node, []) = .ok r) :
    r.1.1.vSendMsg = rest ∧ r.1.1.vRecvMsg = node.vRecvMsg ∧ r.1.2 = data := by
  unfold BNode.socketSendData at hr
  rw [hqueue] at hr
  dsimp only at hr
  split at hr
  · rename_i hoffset
    rw [if_neg (by omega)] at hr
    split at hr
    · cases hr
    · rename_i hle
      have hzero : node.nSendOffset = 0 := by omega
      rw [if_pos (by omega), hzero, List.drop_zero, List.take_length, List.nil_append] at hr
      unfold BNode.socketSendData at hr
      cases rest with
      | nil =>
        cases hr
        exact ⟨rfl, rfl, rfl⟩
      | cons data' rest =>
        dsimp only at hr
        split at hr
        · cases hr
          exact ⟨rfl, rfl, rfl⟩
        · cases hr
  · cases hr

/-- A sent string leaves the queue and is under way to the other end. -/
theorem Tracked.send (h : Tracked codec t) : Tracked codec (t.send e) := by
  unfold Traffic.send
  split
  · rename_i data rest origin origins hqueue horigins
    split
    · exact h
    · rename_i r hr
      obtain ⟨hsend, hrecv, hdata⟩ := socketSendData_whole hqueue hr
      have haligned := h.nodes e
      have hfront := haligned.send
      rw [hqueue, horigins, List.forall₂_cons] at hfront
      have hback := h.backward e
      have hsend' := hback.send
      rw [horigins] at hsend'
      rw [← atLink_wire_other]
      refine h.atLink ⟨?_, ?_⟩ (h.wires e) ?_ ⟨?_, hback.recv, hback.wire⟩
        ⟨(h.backward e.other).send, (h.backward e.other).recv, ?_⟩ (by simp) ?_ (le_refl _)
      · rw [hsend]
        exact hfront.2
      · rw [hrecv]
        exact haligned.recv
      · intro w hw
        rcases List.mem_append.mp hw with hw | hw
        · exact h.wires e.other w hw
        · rw [List.mem_singleton.mp hw, hdata]
          exact hfront.1
      · intro hside origin' horigin'
        exact hsend' hside origin' (List.mem_cons_of_mem _ horigin')
      · intro hside w hw
        rcases List.mem_append.mp hw with hw | hw
        · exact (h.backward e.other).wire hside w hw
        · rw [List.mem_singleton.mp hw]
          have hside' : e.2 = true := by simpa [End.other] using hside
          exact hsend' hside' origin List.mem_cons_self
      · intro r'
        simp only [load, horigins, List.count_cons, List.map_append, List.count_append,
          List.map_cons, List.map_nil, List.count_nil]
        omega
  · exact h

/-- A string that arrives is queued as its message. -/
theorem Tracked.deliver (h : Tracked codec t) : Tracked codec (t.deliver codec e) := by
  unfold Traffic.deliver
  split
  · exact h
  · rename_i origin data rest hwire
    have hwires := h.wires e
    have hback := h.backward e
    rw [hwire] at hwires hback
    obtain ⟨command, hdata, hreply⟩ := hwires (origin, data) List.mem_cons_self
    dsimp only at hdata hreply
    subst hdata
    rw [← atLink_wire_self]
    refine h.atLink ⟨?_, ?_⟩ (fun w hw => hwires w (List.mem_cons_of_mem _ hw)) (h.wires e.other)
      ⟨hback.send, ?_, ?_⟩ (h.backward e.other) (by simp) ?_ (le_refl _)
    · rw [socketRecvData_message]
      exact (h.nodes e).send
    · rw [socketRecvData_message]
      exact List.rel_append (h.nodes e).recv (.cons hreply .nil)
    · intro hside origin' horigin'
      rcases List.mem_append.mp horigin' with horigin' | horigin'
      · exact hback.recv hside origin' horigin'
      · rw [List.mem_singleton.mp horigin']
        exact hback.wire hside (origin, _) List.mem_cons_self
    · intro hside w hw
      exact hback.wire hside w (List.mem_cons_of_mem _ hw)
    · intro r
      simp only [load, hwire, List.count_append, List.map_cons, List.count_cons, List.count_nil,
        List.map_nil]
      omega

/-- The copy of a message that is taken up counts as applied. -/
theorem count_note {message : BNetMessage} {origin : Option ℕ} {host : ι} (r : ℕ) :
    ((note host e message origin).map Prod.snd).count (e.1, r) ≤ [origin].count (some r) := by
  unfold note
  split
  · cases origin with
    | none => simp
    | some r' => simp [List.count_cons]
  · simp

theorem mem_note {message : BNetMessage} {origin : Option ℕ} {host : ι} {a : ι × ℕ × ℕ}
    (h : a ∈ note host e message origin) : a.1 = host ∧ a.2.1 = e.1 ∧ origin = some a.2.2 := by
  unfold note at h
  split at h
  · obtain ⟨r, hr, rfl⟩ := List.mem_map.mp h
    exact ⟨rfl, rfl, Option.mem_toList.mp hr⟩
  · cases h

/-- A round of `ProcessMessages`, with its reply or without. -/
theorem Tracked.round (h : Tracked codec t) {host : ι} {message : BNetMessage}
    {messages : List BNetMessage} {origin : Option ℕ} {origins : List (Option ℕ)}
    (hqueue : (t.nodes e).node.vRecvMsg = message :: messages)
    (horigins : (t.nodes e).recvOrigins = origin :: origins) {reply : Option Command}
    (hreply : reply = none ∨ reply = replyTo message) :
    Tracked codec ((t.take host e message origin).reply codec e reply) := by
  obtain ⟨hpop, hnoReply⟩ := (h.nodes e).pop hqueue horigins
  have hback : Backward e (t.nodes e).pop (t.wires e) := (h.backward e).pop
  have hload : ∀ r, load r (t.nodes e).pop (t.wires e) +
      load r (t.nodes e.other) (t.wires e.other) +
      ((note host e message origin).map Prod.snd).count (e.1, r) ≤
        load r (t.nodes e) (t.wires e) + load r (t.nodes e.other) (t.wires e.other) := by
    intro r
    have hnote := @count_note ι e message origin host r
    simp only [load, TrackedNode.pop, horigins, List.tail_cons, List.count_cons, List.count_nil]
      at hnote ⊢
    omega
  have hlink : ∀ a ∈ note host e message origin, a.2.1 = e.1 := fun a ha => (mem_note ha).2.1
  cases reply with
  | none =>
    have htake : (t.take host e message origin).reply codec e none =
        t.atLink e (t.nodes e).pop (t.wires e) (t.wires e.other)
          (note host e message origin) 0 := by
      rw [atLink_wires]
      rfl
    rw [htake]
    exact h.atLink hpop (h.wires e) (h.wires e.other) hback (h.backward e.other) hlink hload
      (Nat.zero_le _)
  | some command =>
    have hcommand : replyTo message = some command := by
      rcases hreply with hreply | hreply
      · cases hreply
      · exact hreply.symm
    -- Only the message of a request is replied to, so the reply is accounted for.
    have hnoted : 1 ≤ (note host e message origin).length := by
      cases origin with
      | none =>
        have hnone := hnoReply rfl
        rw [hcommand] at hnone
        cases hnone
      | some r => simp [note, hcommand]
    have htake : (t.take host e message origin).reply codec e (some command) =
        t.atLink e ((t.nodes e).pop.push codec none command) (t.wires e) (t.wires e.other)
          (note host e message origin) 1 := by
      rw [atLink_wires]
      simp only [reply, take, Function.update_idem, Function.update_self]
    rw [htake]
    refine h.atLink (hpop.push fun _ => replyTo_messageOf hcommand) (h.wires e) (h.wires e.other)
      (hback.push fun _ => rfl) (h.backward e.other) hlink (fun r => ?_) hnoted
    rw [load_push, if_neg (Option.some_ne_none r).symm]
    exact hload r

/-- The nodes of a host after a push to those that it has connected to. -/
theorem broadcast_nodes {host : ι} {vNodes : List (Peer End)} {command : Command}
    (hnodup : ((outbound vNodes).map Peer.pointer).Nodup) (e : End) :
    (t.broadcast codec host vNodes command).nodes e =
      if e ∈ (outbound vNodes).map Peer.pointer
      then (t.nodes e).push codec (some t.handled.length) command else t.nodes e := by
  refine (pushOutbound_apply hnodup e).trans ?_
  congr

theorem load_broadcast {host : ι} {vNodes : List (Peer End)} {command : Command}
    (hnodup : ((outbound vNodes).map Peer.pointer).Nodup) (e : End) (r : ℕ) :
    load r ((t.broadcast codec host vNodes command).nodes e) (t.wires e) =
      load r (t.nodes e) (t.wires e) +
        if e ∈ (outbound vNodes).map Peer.pointer ∧ t.handled.length = r then 1 else 0 := by
  rw [broadcast_nodes hnodup]
  by_cases he : e ∈ (outbound vNodes).map Peer.pointer
  · rw [if_pos he, load_push]
    simp only [he, true_and, Option.some.injEq]
  · rw [if_neg he]
    simp only [he, false_and, if_false, Nat.add_zero]

/-- The connections of some nodes, with the number of a request. -/
def numbered (number : ℕ) (nodes : List (Peer End)) : List (ℕ × ℕ) :=
  nodes.map fun p => (p.pointer.1, number)

section Numbered

variable {nodes : List (Peer End)} {number : ℕ}

theorem nodup_numbered (hnodup : (nodes.map Peer.pointer).Nodup)
    (hside : ∀ e ∈ nodes.map Peer.pointer, e.2 = false) : (numbered number nodes).Nodup := by
  have hpointers : numbered number nodes =
      (nodes.map Peer.pointer).map fun e => (e.1, number) := by
    rw [List.map_map]
    rfl
  rw [hpointers]
  refine hnodup.map_on fun e he e' he' heq => ?_
  exact Prod.ext (Prod.mk.inj heq).1 ((hside e he).trans (hside e' he').symm)

/-- At most one end of a connection is a node of the list. -/
theorem le_count_numbered (hside : ∀ e ∈ nodes.map Peer.pointer, e.2 = false) (e : End) (r : ℕ) :
    ((if e ∈ nodes.map Peer.pointer ∧ number = r then 1 else 0) +
      if e.other ∈ nodes.map Peer.pointer ∧ number = r then 1 else 0) ≤
        (numbered number nodes).count (e.1, r) := by
  have hone : ∀ e' ∈ nodes.map Peer.pointer, e'.1 = e.1 → number = r →
      1 ≤ (numbered number nodes).count (e.1, r) := by
    intro e' he' hlink hr
    obtain ⟨p, hp, rfl⟩ := List.mem_map.mp he'
    exact List.one_le_count_iff.mpr (List.mem_map.mpr ⟨p, hp, Prod.ext hlink hr⟩)
  split
  · rename_i he
    have hother : e.other ∉ nodes.map Peer.pointer := by
      intro hmem
      have hsame := (hside e.other hmem).trans (hside e he.1).symm
      exact End.other_ne e (Prod.ext rfl hsame)
    rw [if_neg fun h => hother h.1]
    exact hone e he.1 rfl he.2
  · split
    · rename_i ho
      rw [Nat.zero_add]
      exact hone e.other ho.1 rfl ho.2
    · exact Nat.zero_le _

end Numbered

/-- The number of a request is new, and its message is pushed once to each connection. -/
theorem Tracked.broadcast (h : Tracked codec t) {host : ι} {vNodes : List (Peer End)}
    (hnodup : ((outbound vNodes).map Peer.pointer).Nodup)
    (hside : ∀ e ∈ (outbound vNodes).map Peer.pointer, e.2 = false) (command : Command) :
    Tracked codec (t.broadcast codec host vNodes command) := by
  refine ⟨fun e => ?_, h.wires, fun e => ?_, fun e r => ?_, ?_, fun push hpush => ?_, ?_, ?_⟩
  · rw [broadcast_nodes hnodup]
    split
    · refine (h.nodes e).push ?_
      rintro ⟨⟩
    · exact h.nodes e
  · rw [broadcast_nodes hnodup]
    split
    · rename_i he
      refine (h.backward e).push fun htrue => ?_
      rw [hside e he] at htrue
      cases htrue
    · exact h.backward e
  · have hbefore := h.copies e r
    have hcount := @le_count_numbered _ t.handled.length hside e r
    have hpushes : (t.broadcast codec host vNodes command).pushes.count (e.1, r) =
        t.pushes.count (e.1, r) +
          (numbered t.handled.length (outbound vNodes)).count (e.1, r) := List.count_append
    have hself := @load_broadcast _ codec t host vNodes command hnodup e r
    have hother := @load_broadcast _ codec t host vNodes command hnodup e.other r
    rw [hpushes]
    refine le_trans (le_of_eq (congrArg₂ (· + ·) (congrArg₂ (· + ·) hself hother) rfl)) ?_
    dsimp only [Traffic.broadcast]
    omega
  · refine h.pushes.append (nodup_numbered hnodup hside) fun push hold hnew => ?_
    obtain ⟨p, _, rfl⟩ := List.mem_map.mp hnew
    exact (h.numbers _ hold).false
  · have hlength : (t.broadcast codec host vNodes command).handled.length =
        t.handled.length + 1 := List.length_append
    rw [hlength]
    rcases List.mem_append.mp hpush with hpush | hpush
    · exact (h.numbers push hpush).trans (Nat.lt_succ_self _)
    · obtain ⟨p, _, rfl⟩ := List.mem_map.mp hpush
      exact Nat.lt_succ_self _
  · simp [Traffic.broadcast, h.total]
  · have hpushed := h.pushed
    simp only [Traffic.broadcast, List.length_append, List.length_map]
    omega

/-- What is taken up was pushed. -/
theorem Tracked.count_applied_le (h : Tracked codec t) (push : ℕ × ℕ) :
    (t.applied.map Prod.snd).count push ≤ t.pushes.count push :=
  (Nat.le_add_left _ _).trans (h.copies (push.1, false) push.2)

theorem Tracked.mem_pushes (h : Tracked codec t) {a : ι × ℕ × ℕ} (ha : a ∈ t.applied) :
    a.2 ∈ t.pushes := by
  have hone : 1 ≤ (t.applied.map Prod.snd).count a.2 :=
    List.one_le_count_iff.mpr (List.mem_map_of_mem ha)
  exact List.one_le_count_iff.mp (hone.trans (h.count_applied_le a.2))

/-- Sending and receiving leave the records alone. -/
theorem send_records : (t.send e).handled = t.handled ∧ (t.send e).pushes = t.pushes ∧
    (t.send e).applied = t.applied := by
  unfold send
  split
  · split
    · exact ⟨rfl, rfl, rfl⟩
    · exact ⟨rfl, rfl, rfl⟩
  · exact ⟨rfl, rfl, rfl⟩

theorem deliver_records : (t.deliver codec e).handled = t.handled ∧
    (t.deliver codec e).pushes = t.pushes ∧ (t.deliver codec e).applied = t.applied := by
  unfold deliver
  split
  · exact ⟨rfl, rfl, rfl⟩
  · exact ⟨rfl, rfl, rfl⟩

theorem reply_records {reply : Option Command} : (t.reply codec e reply).handled = t.handled ∧
    (t.reply codec e reply).pushes = t.pushes ∧ (t.reply codec e reply).applied = t.applied := by
  cases reply with
  | none => exact ⟨rfl, rfl, rfl⟩
  | some command => exact ⟨rfl, rfl, rfl⟩

end Traffic

namespace Mesh

open Bubi.Topology Traffic

variable {ι : Type} {hostOf : BService → Option ι} {peers : ι → List BService}
  {codec : MessageCodec}

/-- A message goes to an address on the list of its host, each to another one, and is taken up
by the host with that address. -/
structure Attributed (hostOf : BService → Option ι) (peers : ι → List BService) (w : Topology ι)
    (t : Traffic ι) : Prop where
  pushes : ∀ push ∈ t.pushes, push.1 < w.links ∧ ∃ b host k, w.service push.1 = some b ∧
    b ∈ peers host ∧ t.handled[push.2]? = some (host, k)
  distinct : ∀ push ∈ t.pushes, ∀ push' ∈ t.pushes, push.2 = push'.2 →
    w.service push.1 = w.service push'.1 → push = push'
  applied : ∀ a ∈ t.applied, ∀ b, w.service a.2.1 = some b → hostOf b = some a.1

variable {w w' : Topology ι} {t t' : Traffic ι}

theorem Attributed.of_records (h : Attributed hostOf peers w t)
    (hrecords : t'.handled = t.handled ∧ t'.pushes = t.pushes ∧ t'.applied = t.applied) :
    Attributed hostOf peers w t' := by
  obtain ⟨hhandled, hpushes, happlied⟩ := hrecords
  refine ⟨?_, ?_, ?_⟩
  · rw [hpushes, hhandled]
    exact h.pushes
  · rw [hpushes]
    exact h.distinct
  · rw [happlied]
    exact h.applied

/-- New connections carry no messages yet. -/
theorem Attributed.extend (h : Attributed hostOf peers w t) (htracked : Tracked codec t)
    (he : Extends w w') : Attributed hostOf peers w' t := by
  refine ⟨fun push hpush => ?_, fun push hpush push' hpush' => ?_, fun a ha => ?_⟩
  · obtain ⟨hlink, hservice⟩ := h.pushes push hpush
    rw [he.service _ hlink]
    exact ⟨hlink.trans_le he.links, hservice⟩
  · rw [he.service _ (h.pushes push hpush).1, he.service _ (h.pushes push' hpush').1]
    exact h.distinct push hpush push' hpush'
  · rw [he.service _ (h.pushes a.2 (htracked.mem_pushes ha)).1]
    exact h.applied a ha

/-- A message is taken up at the accepted end of its connection. -/
theorem Attributed.round (h : Attributed hostOf peers w t) (hwired : Wired hostOf peers w)
    (htracked : Tracked codec t) {host : ι} {e : End}
    (hlisted : ∃ p ∈ w.vNodes host, p.pointer = e) {message : BNetMessage} {origin : Option ℕ}
    {origins : List (Option ℕ)} (horigins : (t.nodes e).recvOrigins = origin :: origins)
    {reply : Option Command} :
    Attributed hostOf peers w ((t.take host e message origin).reply codec e reply) := by
  refine Attributed.of_records (t := t.take host e message origin) ?_ reply_records
  refine ⟨h.pushes, h.distinct, fun a ha b hb => ?_⟩
  rcases List.mem_append.mp ha with ha | ha
  · exact h.applied a ha b hb
  · obtain ⟨hhost, hlink, horigin⟩ := mem_note ha
    obtain ⟨p, hp, rfl⟩ := hlisted
    have hbelongs := hwired.vNodes host p hp
    rw [hlink] at hb
    rw [hhost]
    apply hbelongs.accepted _ b hb
    cases hside : p.fInbound with
    | true => rfl
    | false =>
      have hnone := (htracked.backward p.pointer).recv (hbelongs.direction.trans hside) origin
      rw [horigins] at hnone
      rw [hnone List.mem_cons_self] at horigin
      cases horigin

/-- The addresses that a host has connected to determine the connections. -/
theorem outbound_nodup (h : Wired hostOf peers w) (host : ι) :
    ((outbound (w.vNodes host)).map Peer.pointer).Nodup := by
  have hservices := h.services host
  refine List.Nodup.map_on (fun p hp p' hp' heq => ?_) hservices.of_map
  have hservice : ∀ p ∈ outbound (w.vNodes host),
      w.service p.pointer.1 = some p.bService := by
    intro p hp
    obtain ⟨hmem, hinbound⟩ := mem_outbound.mp hp
    exact ((h.vNodes host p hmem).opened hinbound).1
  apply List.inj_on_of_nodup_map hservices hp hp'
  have hsame := (hservice p hp).symm.trans (heq ▸ hservice p' hp')
  exact Option.some.inj hsame

/-- The messages of a request go to different addresses. -/
theorem Attributed.broadcast (h : Attributed hostOf peers w t) (hwired : Wired hostOf peers w)
    (htracked : Tracked codec t) {host : ι} {command : Command} :
    Attributed hostOf peers w (t.broadcast codec host (w.vNodes host) command) := by
  have hpeer : ∀ p ∈ outbound (w.vNodes host), p.pointer.1 < w.links ∧
      w.service p.pointer.1 = some p.bService ∧ p.bService ∈ peers host := by
    intro p hp
    obtain ⟨hmem, hinbound⟩ := mem_outbound.mp hp
    have hbelongs := hwired.vNodes host p hmem
    exact ⟨hbelongs.link, hbelongs.opened hinbound⟩
  refine ⟨fun push hpush => ?_, fun push hpush push' hpush' hnumber hservice => ?_, h.applied⟩
  · rcases List.mem_append.mp hpush with hpush | hpush
    · obtain ⟨hlink, b, i, k, hservice, hb, hhandled⟩ := h.pushes push hpush
      refine ⟨hlink, b, i, k, hservice, hb, ?_⟩
      rw [← hhandled]
      exact List.getElem?_append_left (htracked.numbers push hpush)
    · obtain ⟨p, hp, rfl⟩ := List.mem_map.mp hpush
      obtain ⟨hlink, hservice, hpeers⟩ := hpeer p hp
      refine ⟨hlink, p.bService, host, (outbound (w.vNodes host)).length, hservice, hpeers, ?_⟩
      exact List.getElem?_concat_length
  · rcases List.mem_append.mp hpush with hpush | hpush <;>
      rcases List.mem_append.mp hpush' with hpush' | hpush'
    · exact h.distinct push hpush push' hpush' hnumber hservice
    · obtain ⟨p', _, rfl⟩ := List.mem_map.mp hpush'
      exact absurd hnumber (htracked.numbers push hpush).ne
    · obtain ⟨p, _, rfl⟩ := List.mem_map.mp hpush
      exact absurd hnumber.symm (htracked.numbers push' hpush').ne
    · obtain ⟨p, hp, rfl⟩ := List.mem_map.mp hpush
      obtain ⟨p', hp', rfl⟩ := List.mem_map.mp hpush'
      have hsame : some p.bService = some p'.bService :=
        (hpeer p hp).2.1.symm.trans (hservice.trans (hpeer p' hp').2.1)
      rw [List.inj_on_of_nodup_map (hwired.services host) hp hp' (Option.some.inj hsame)]

/-- What every run keeps. -/
structure Accounted (hostOf : BService → Option ι) (peers : ι → List BService)
    (codec : MessageCodec) (n : Mesh ι) : Prop where
  wired : Wired hostOf peers n.topology
  tracked : Tracked codec n.traffic
  attributed : Attributed hostOf peers n.topology n.traffic

theorem accounted_start (ledgers : ι → Ledger.State) :
    Accounted hostOf peers codec (start ledgers) where
  wired := ⟨by simp [start], by simp [start, outbound], by simp [start], by simp [start]⟩
  tracked := by
    refine ⟨fun _ => ⟨.nil, .nil⟩, ?_, fun _ => ⟨?_, ?_, ?_⟩, ?_, List.nodup_nil, ?_, rfl,
      le_refl _⟩
      <;> simp [start, TrackedNode.new, load]
  attributed := ⟨by simp [start], by simp [start], by simp [start]⟩

section Runs

variable [DecidableEq ι] {sha : Bytes → Uint256} {pb : Protobuf} {extract : Bytes → Option ℚ}
  {n : Mesh ι}

omit [DecidableEq ι] in
theorem listed_iff {host : ι} {e : End} :
    n.listed host e = true ↔ ∃ p ∈ n.topology.vNodes host, p.pointer = e := by
  simp [listed]

/-- A step of a host keeps the account. -/
theorem Accounted.act (h : Accounted hostOf peers codec n) {e : MeshEvent ι}
    (henabled : n.enabled e = true) :
    Accounted hostOf peers codec (act sha pb codec extract hostOf peers n e) := by
  cases e with
  | findNode host bService =>
    exact ⟨h.wired.findNode, h.tracked, h.attributed.extend h.tracked extends_findNode⟩
  | connectSocket host connected =>
    unfold Mesh.act
    dsimp only
    split
    · exact h
    · rename_i bService hconnecting
      split
      · refine ⟨h.wired.connect hconnecting, h.tracked.renew, ?_⟩
        exact (h.attributed.extend h.tracked extends_connect).of_records ⟨rfl, rfl, rfl⟩
      · exact ⟨h.wired.giveUp, h.tracked, h.attributed.extend h.tracked .rfl⟩
  | dial host =>
    exact ⟨h.wired.dial, h.tracked, h.attributed.extend h.tracked extends_dial⟩
  | acceptSocket host bService =>
    unfold Mesh.act
    dsimp only
    split
    · exact h
    · rename_i link rest hbacklog
      have hattributed : Attributed hostOf peers (n.topology.accept host link rest bService)
          n.traffic := h.attributed.extend h.tracked .rfl
      refine ⟨h.wired.accept hbacklog, ?_, ?_⟩
      · dsimp only
        split
        · exact h.tracked
        · exact h.tracked.renew
      · dsimp only
        split
        · exact hattributed
        · exact hattributed.of_records ⟨rfl, rfl, rfl⟩
  | close host e => exact ⟨h.wired, h.tracked.close, h.attributed.of_records ⟨rfl, rfl, rfl⟩⟩
  | disconnect host =>
    exact ⟨h.wired.disconnect, h.tracked, h.attributed.extend h.tracked .rfl⟩
  | request host m request =>
    unfold Mesh.act
    dsimp only
    split
    · exact ⟨h.wired, h.tracked, h.attributed⟩
    · refine ⟨h.wired, h.tracked.broadcast (outbound_nodup h.wired host) ?_ _,
        h.attributed.broadcast h.wired h.tracked⟩
      intro e he
      obtain ⟨p, hp, rfl⟩ := List.mem_map.mp he
      obtain ⟨hmem, hinbound⟩ := mem_outbound.mp hp
      exact (h.wired.vNodes host p hmem).direction.trans hinbound
  | send host e => exact ⟨h.wired, h.tracked.send, h.attributed.of_records send_records⟩
  | deliver host e => exact ⟨h.wired, h.tracked.deliver, h.attributed.of_records deliver_records⟩
  | process host e =>
    unfold Mesh.act
    dsimp only
    split
    · rename_i message messages origin origins hqueue horigins
      have hlisted := listed_iff.mp henabled
      split
      · have htracked : Tracked codec ((n.traffic.take host e message origin).reply codec e none) :=
          h.tracked.round hqueue horigins (Or.inl rfl)
        have hattributed : Attributed hostOf peers n.topology
            ((n.traffic.take host e message origin).reply codec e none) :=
          h.attributed.round h.wired h.tracked hlisted horigins
        exact ⟨h.wired, htracked, hattributed⟩
      · rename_i r hr
        refine ⟨h.wired, h.tracked.round hqueue horigins (Or.inr (processMessage_snd hr)),
          h.attributed.round h.wired h.tracked hlisted horigins⟩
    · exact h

theorem Accounted.run (h : Accounted hostOf peers codec n) (events : List (MeshEvent ι)) :
    Accounted hostOf peers codec
      (events.foldl (event sha pb codec extract hostOf peers) n) := by
  induction events generalizing n with
  | nil => exact h
  | cons e events ih =>
    apply ih
    unfold event
    split
    · rename_i hcan
      exact h.act (Bool.and_eq_true_iff.mp hcan).2
    · exact h

/-- How often a host has taken up the message of a request. -/
def appliedBy (n : Mesh ι) (host : ι) (r : ℕ) : ℕ :=
  n.traffic.applied.countP fun a => a.1 = host ∧ a.2.2 = r

/-- A host stands behind one address, and a request goes to an address once. -/
theorem Accounted.appliedBy_le (h : Accounted hostOf peers codec n)
    (hdistinct : ∀ b b' i, hostOf b = some i → hostOf b' = some i → b = b') (host : ι) (r : ℕ) :
    n.appliedBy host r ≤ 1 := by
  unfold appliedBy
  by_cases hnone : ∃ a ∈ n.traffic.applied, a.1 = host ∧ a.2.2 = r
  · obtain ⟨a, ha, hhost, hr⟩ := hnone
    obtain ⟨_, b, _, _, hservice, _, _⟩ := h.attributed.pushes a.2 (h.tracked.mem_pushes ha)
    have hb := h.attributed.applied a ha b hservice
    have hsame : ∀ a' ∈ n.traffic.applied, a'.1 = host ∧ a'.2.2 = r → a'.2 = a.2 := by
      rintro a' ha' ⟨hhost', hr'⟩
      obtain ⟨_, b', _, _, hservice', _, _⟩ :=
        h.attributed.pushes a'.2 (h.tracked.mem_pushes ha')
      have hb' := h.attributed.applied a' ha' b' hservice'
      rw [hhost'] at hb'
      rw [hhost] at hb
      have haddress : b' = b := hdistinct b' b host hb' hb
      apply h.attributed.distinct _ (h.tracked.mem_pushes ha') _ (h.tracked.mem_pushes ha)
      · rw [hr', hr]
      · rw [hservice', hservice, haddress]
    calc n.traffic.applied.countP (fun a' => a'.1 = host ∧ a'.2.2 = r)
      _ ≤ n.traffic.applied.countP (fun a' => a'.2 == a.2) := by
        refine List.countP_mono_left fun a' ha' hmatch => ?_
        exact beq_iff_eq.mpr (hsame a' ha' (of_decide_eq_true hmatch))
      _ = (n.traffic.applied.map Prod.snd).count a.2 := by
        rw [List.count_eq_countP, List.countP_map]
        rfl
      _ ≤ n.traffic.pushes.count a.2 := h.tracked.count_applied_le a.2
      _ ≤ 1 := List.nodup_iff_count_le_one.mp h.tracked.pushes a.2
  · rw [List.countP_eq_zero.mpr]
    · exact Nat.zero_le _
    · intro a ha hmatch
      exact hnone ⟨a, ha, of_decide_eq_true hmatch⟩

theorem Accounted.appliedBy_handler (h : Accounted hostOf peers codec n)
    (hself : ∀ i, ∀ b ∈ peers i, hostOf b ≠ some i) {host : ι} {r k : ℕ}
    (hhandled : n.traffic.handled[r]? = some (host, k)) : n.appliedBy host r = 0 := by
  unfold appliedBy
  rw [List.countP_eq_zero]
  intro a ha hmatch
  obtain ⟨hhost, hr⟩ := of_decide_eq_true hmatch
  obtain ⟨_, b, i, k', hservice, hb, hhandled'⟩ :=
    h.attributed.pushes a.2 (h.tracked.mem_pushes ha)
  rw [hr, hhandled] at hhandled'
  cases hhandled'
  apply hself host b hb
  rw [← hhost]
  exact h.attributed.applied a ha b hservice

omit [DecidableEq ι] in
/-- No more replies are pushed than messages of requests. -/
theorem Accounted.pushed_le (h : Accounted hostOf peers codec n) :
    n.traffic.pushed ≤ 2 * (n.traffic.handled.map Prod.snd).sum := by
  have hpushed := h.tracked.pushed
  have htotal := h.tracked.total
  have happlied : (n.traffic.applied.map Prod.snd).length ≤ n.traffic.pushes.length :=
    (List.subperm_ext_iff.mpr fun push _ => h.tracked.count_applied_le push).length_le
  rw [List.length_map] at happlied
  omega

/-- For a message that is not replied to nothing is pushed. -/
theorem event_process_of_replyTo {host : ι} {e : End} {message : BNetMessage}
    {messages : List BNetMessage} (hqueue : (n.traffic.nodes e).node.vRecvMsg = message :: messages)
    (hreply : replyTo message = none) :
    (event sha pb codec extract hostOf peers n (.process host e)).traffic.pushed =
        n.traffic.pushed ∧
      ∀ e', ((event sha pb codec extract hostOf peers n
        (.process host e)).traffic.nodes e').node.vSendMsg =
          (n.traffic.nodes e').node.vSendMsg := by
  unfold event
  split
  · unfold Mesh.act
    dsimp only
    rw [hqueue]
    cases (n.traffic.nodes e).recvOrigins with
    | nil => exact ⟨rfl, fun _ => rfl⟩
    | cons origin origins =>
      simp only [processMessage_of_replyTo hreply]
      refine ⟨rfl, fun e' => ?_⟩
      simp only [Traffic.reply, take, Function.update_apply]
      split
      · rename_i he
        rw [he]
        rfl
      · rfl
  · exact ⟨rfl, fun _ => rfl⟩

omit [DecidableEq ι] in
/-- A message of a request is noted where it is taken up. -/
theorem Accounted.note_ne_nil (h : Accounted hostOf peers codec n) {host : ι} {e : End}
    {message : BNetMessage} {messages : List BNetMessage} {origin : Option ℕ}
    {origins : List (Option ℕ)}
    (hqueue : (n.traffic.nodes e).node.vRecvMsg = message :: messages)
    (horigins : (n.traffic.nodes e).recvOrigins = origin :: origins)
    (hreply : replyTo message ≠ none) : note host e message origin ≠ [] := by
  have haligned := (h.tracked.nodes e).recv
  rw [hqueue, horigins, List.forall₂_cons] at haligned
  cases origin with
  | none => exact absurd (haligned.1 rfl) hreply
  | some r => simp [note, Option.isSome_iff_ne_none, hreply]

/-- Every message that reaches the ledger is noted. -/
theorem Accounted.ledgers_of_applied (h : Accounted hostOf peers codec n) {host : ι} {e : End}
    (happlied : (event sha pb codec extract hostOf peers n (.process host e)).traffic.applied =
      n.traffic.applied) :
    (event sha pb codec extract hostOf peers n (.process host e)).ledgers = n.ledgers := by
  unfold event at happlied ⊢
  split at happlied
  · rename_i hcan
    rw [if_pos hcan]
    unfold Mesh.act at happlied ⊢
    dsimp only at happlied ⊢
    split at happlied
    · rename_i message messages origin origins hqueue horigins
      by_cases hreply : replyTo message = none
      · rw [processMessage_of_replyTo hreply]
        exact Function.update_eq_self _ _
      · have hnote : note host e message origin ≠ [] := h.note_ne_nil hqueue horigins hreply
        have hgrown : (n.traffic.take host e message origin).applied ≠ n.traffic.applied :=
          fun hsame => hnote (List.append_right_eq_self.mp hsame)
        split at happlied
        · exact absurd happlied hgrown
        · exact absurd (reply_records.2.2.symm.trans happlied) hgrown
    · rfl
  · rename_i hcan
    rw [if_neg hcan]

/-- Over any connects, accepts, disconnects, requests, sends and deliveries between any hosts with
any lists of addresses, where no two addresses are those of one host and no host lists its own:
every request is taken up at most once by a host, and not by the one that has handled it; what is
not noted as taken up leaves the ledgers alone; no host has connected twice to one address; a
reply is not replied to; and at most two messages are pushed for each peer that the host of a
request had connected to. -/
theorem requests_at_most_once (sha : Bytes → Uint256) (pb : Protobuf) (codec : MessageCodec)
    (extract : Bytes → Option ℚ) (hostOf : BService → Option ι) (peers : ι → List BService)
    (hdistinct : ∀ b b' i, hostOf b = some i → hostOf b' = some i → b = b')
    (hself : ∀ i, ∀ b ∈ peers i, hostOf b ≠ some i) (ledgers : ι → Ledger.State)
    (events : List (MeshEvent ι)) (n : Mesh ι)
    (hrun : events.foldl (event sha pb codec extract hostOf peers) (start ledgers) = n) :
    (∀ host r, n.appliedBy host r ≤ 1) ∧
    (∀ host r k, n.traffic.handled[r]? = some (host, k) → n.appliedBy host r = 0) ∧
    (∀ host e, (event sha pb codec extract hostOf peers n (.process host e)).traffic.applied =
        n.traffic.applied →
      (event sha pb codec extract hostOf peers n (.process host e)).ledgers = n.ledgers) ∧
    (∀ host, ((outbound (n.topology.vNodes host)).map Peer.bService).Nodup) ∧
    (∀ host e message messages, (n.traffic.nodes e).node.vRecvMsg = message :: messages →
      message.header.bchCommand = Command.txReply.1 ∨
        message.header.bchCommand = Command.accountReply.1 →
      (event sha pb codec extract hostOf peers n (.process host e)).traffic.pushed =
          n.traffic.pushed ∧
        ∀ e', ((event sha pb codec extract hostOf peers n
          (.process host e)).traffic.nodes e').node.vSendMsg =
            (n.traffic.nodes e').node.vSendMsg) ∧
    n.traffic.pushed ≤ 2 * (n.traffic.handled.map Prod.snd).sum := by
  have h : Accounted hostOf peers codec n := hrun ▸ (accounted_start ledgers).run events
  refine ⟨h.appliedBy_le hdistinct, fun _ _ _ => h.appliedBy_handler hself,
    fun _ _ => h.ledgers_of_applied, h.wired.services, ?_, h.pushed_le⟩
  intro host e message messages hqueue hcommand
  have hreply : replyTo message = none := by
    rw [replyTo_eq_none]
    rcases hcommand with hcommand | hcommand <;> rw [hcommand] <;> decide
  exact event_process_of_replyTo hqueue hreply

/-- The addresses of two hosts. -/
def addressOf (host : Bool) : BService := ⟨if host then 0x0a000002 else 0x0a000001, 30000⟩

/-- The host with an address. -/
def sampleHost (b : BService) : Option Bool :=
  if b = addressOf false then some false
  else if b = addressOf true then some true
  else none

theorem eq_addressOf {b : BService} {host : Bool} (h : sampleHost b = some host) :
    b = addressOf host := by
  unfold sampleHost at h
  split at h
  · rename_i hb
    cases h
    exact hb
  · split at h
    · rename_i hb
      cases h
      exact hb
    · cases h

/-- Each host lists the other. -/
def samplePeers (host : Bool) : List BService := [addressOf !host]

/-- The hosts connect to each other; one handles a request, and its message and the reply to it
go through. -/
def sampleExchange : List (MeshEvent Bool) :=
  [.findNode false (addressOf true), .findNode true (addressOf false),
    .connectSocket false true, .connectSocket true true,
    .acceptSocket true ⟨0x0a000001, 40000⟩, .acceptSocket false ⟨0x0a000002, 40000⟩,
    .request false sampleSurroundings (.createUser (sampleName 1)),
    .send false (0, false), .deliver true (0, true), .process true (0, true),
    .send true (0, true), .deliver false (0, false), .process false (0, false)]

/-- The request is taken up once, and two messages are pushed for the one peer. -/
theorem requests_at_most_once_sampleExchange :
    ∃ l n, Ledger.new checksum = .ok l ∧
      sampleExchange.foldl (event checksum plainProtobuf plainMessages decimal sampleHost
        samplePeers) (start fun _ => (fun _ => none, l)) = n ∧
      n.appliedBy true 0 = 1 ∧ n.traffic.pushed = 2 ∧
      (∀ host r, n.appliedBy host r ≤ 1) ∧
      n.traffic.pushed ≤ 2 * (n.traffic.handled.map Prod.snd).sum := by
  have hok : (do
      let l ← Ledger.new checksum
      let n := sampleExchange.foldl (event checksum plainProtobuf plainMessages decimal sampleHost
        samplePeers) (start fun _ => (fun _ => none, l))
      .ok (decide (n.appliedBy true 0 = 1 ∧ n.traffic.pushed = 2))) = .ok true :=
    eq_ok_of_toOption (by decide +kernel)
  obtain ⟨l, hl, hok⟩ := bind_eq_ok.mp hok
  obtain ⟨happlied, hpushed⟩ := of_decide_eq_true (Except.ok.inj hok)
  have hdistinct : ∀ b b' i, sampleHost b = some i → sampleHost b' = some i → b = b' :=
    fun b b' i hb hb' => (eq_addressOf hb).trans (eq_addressOf hb').symm
  have hself : ∀ i, ∀ b ∈ samplePeers i, sampleHost b ≠ some i := by decide
  have hresult := requests_at_most_once checksum plainProtobuf plainMessages decimal sampleHost
    samplePeers hdistinct hself (fun _ => (fun _ => none, l)) sampleExchange _ rfl
  exact ⟨l, _, hl, rfl, happlied, hpushed, hresult.1, hresult.2.2.2.2.2⟩

end Runs

end Mesh

end Bubi
