import Bubi.Core.Outcome
import Bubi.Net.Node

/-!
# Delivery of peer messages

The socket accepts exactly the bytes of the queued messages, in order. The stream carries
no boundaries: the receiver takes what one `recv` returns for one message. Messages that
arrive together are merged into the last of them, and a message that arrives in pieces is
queued once for each piece. So a queue of messages is received as sent when every
`recv` returns one message, and no queue of messages survives every cut of the stream.
-/

namespace Bubi.BNode

open Bubi.Core

section Sender

variable {codec : MessageCodec}

/-- What happens at the sending node of a connection. -/
inductive SendEvent where
  | pushMessage (command data : Bytes)
  | socketSendData (answers : List SendAnswer)

/-- One event: the node and the bytes that its socket has accepted. -/
def sendStep (codec : MessageCodec) (s : BNode × Bytes) : SendEvent → Except Fault (BNode × Bytes)
  | .pushMessage command data => .ok (s.1.pushMessage codec command data, s.2)
  | .socketSendData answers => do
    let r ← socketSendData answers s
    .ok r.1

/-- The messages that the events put on the connection. -/
def pushed : List SendEvent → List BNetMessage
  | [] => []
  | .pushMessage command data :: events => .new command 0 data :: pushed events
  | .socketSendData _ :: events => pushed events

/-- The accepted bytes and those still queued are the given ones. -/
structure Carries (bytes : Bytes) (s : BNode × Bytes) : Prop where
  stream : s.2 ++ s.1.vSendMsg.flatten.drop s.1.nSendOffset = bytes
  offset : s.1.nSendOffset ≤ s.1.vSendMsg.flatten.length

/-- The first bytes behind the offset move from the queue to the socket. -/
theorem Carries.accepted {bytes stream data : Bytes} {rest : List Bytes} {node : BNode}
    (h : Carries bytes (node, stream)) (hqueue : node.vSendMsg = data :: rest)
    (hoffset : node.nSendOffset < data.length) (nBytes : ℕ) :
    (stream ++ (data.drop node.nSendOffset).take nBytes) ++
      (data.drop (node.nSendOffset + nBytes) ++ rest.flatten) = bytes := by
  rw [← h.stream, List.append_assoc]
  simp only [hqueue, List.flatten_cons]
  rw [List.drop_append_of_le_length hoffset.le, ← List.drop_drop,
    ← List.append_assoc ((data.drop node.nSendOffset).take nBytes), List.take_append_drop]

/-- `SocketSendData` moves queued bytes to the socket. -/
theorem Carries.socketSendData {bytes : Bytes} {s : BNode × Bytes} (h : Carries bytes s)
    {answers : List SendAnswer} {r : (BNode × Bytes) × Bool}
    (hr : socketSendData answers s = .ok r) : Carries bytes r.1 := by
  refine socketSendData_induction (fun node stream h => ⟨h.stream, h.offset⟩)
    (fun node stream data rest nBytes hqueue hoffset hend h => ?_)
    (fun node stream data rest nBytes hqueue hpart h => ?_) h hr
  · have hmoved := h.accepted hqueue hoffset nBytes
    rw [hend, List.drop_length, List.nil_append] at hmoved
    exact ⟨hmoved, Nat.zero_le _⟩
  · have hmoved := h.accepted hqueue (by omega) nBytes
    refine ⟨?_, ?_⟩
    · simp only [hqueue, List.flatten_cons]
      rwa [List.drop_append_of_le_length (by omega)]
    · simp only [hqueue, List.flatten_cons, List.length_append]
      omega

theorem Carries.pushMessage {bytes : Bytes} {s : BNode × Bytes} (h : Carries bytes s)
    (command data : Bytes) :
    Carries (bytes ++ (BNetMessage.new command 0 data).serializer codec)
      (s.1.pushMessage codec command data, s.2) := by
  refine ⟨?_, ?_⟩
  · rw [← h.stream, List.append_assoc]
    simp only [BNode.pushMessage, List.flatten_append, List.flatten_singleton]
    rw [List.drop_append_of_le_length h.offset]
  · simp only [BNode.pushMessage, List.flatten_append, List.length_append]
    exact h.offset.trans (Nat.le_add_right _ _)

/-- Over any run the socket and the queue have the bytes of the messages, in order. -/
theorem Carries.run {bytes : Bytes} {s s' : BNode × Bytes} (h : Carries bytes s)
    {events : List SendEvent} (hrun : events.foldlM (sendStep codec) s = .ok s') :
    Carries (bytes ++ (pushed events).flatMap (BNetMessage.serializer codec)) s' := by
  induction events generalizing bytes s with
  | nil =>
    obtain rfl := foldlM_nil_ok.mp hrun
    simpa [pushed] using h
  | cons e events ih =>
    obtain ⟨m, hm, hrun⟩ := foldlM_cons_ok.mp hrun
    cases e with
    | pushMessage command data =>
      cases hm
      have hrest := ih (h.pushMessage command data) hrun
      rwa [List.append_assoc] at hrest
    | socketSendData answers =>
      obtain ⟨r, hr, hm⟩ := bind_eq_ok.mp hm
      cases hm
      exact ih (h.socketSendData hr) hrun

/-- A connection whose queue is empty has sent the bytes of its messages. -/
theorem stream_eq {socket : ℕ} {events : List SendEvent} {s : BNode × Bytes}
    (hrun : events.foldlM (sendStep codec) (new socket, []) = .ok s) (hqueue : s.1.vSendMsg = []) :
    s.2 = (pushed events).flatMap (BNetMessage.serializer codec) := by
  have hnew : Carries [] (new socket, []) := ⟨rfl, le_rfl⟩
  have hstream := (hnew.run hrun).stream
  rw [hqueue] at hstream
  simpa using hstream

end Sender

section Receiver

variable (codec : MessageCodec)

/-- The receiving node after a number of `recv` calls. -/
def deliver (node : BNode) (chunks : List Bytes) : BNode :=
  chunks.foldl (fun node chunk => node.socketRecvData codec (.received chunk)) node

/-- The message that one `recv` queues. -/
def parsed : Bytes → Option BNetMessage
  | [] => none
  | byte :: rest =>
    if byte ≠ 0x7b then some (BNetMessage.unserializer codec (byte :: rest)) else none

/-- The receiver queues the messages of its chunks. -/
theorem deliver_vRecvMsg (node : BNode) (chunks : List Bytes) :
    (deliver codec node chunks).vRecvMsg = node.vRecvMsg ++ chunks.filterMap (parsed codec) := by
  induction chunks generalizing node with
  | nil => simp [deliver]
  | cons chunk chunks ih =>
    have hone : (node.socketRecvData codec (.received chunk)).vRecvMsg =
        node.vRecvMsg ++ (parsed codec chunk).toList := by
      cases chunk with
      | nil => simp [socketRecvData, parsed, closeSocketDisconnect]
      | cons byte rest =>
        by_cases hbyte : byte = 0x7b <;> simp [socketRecvData, parsed, hbyte]
    change (deliver codec (node.socketRecvData codec (.received chunk)) chunks).vRecvMsg = _
    rw [ih, hone, List.append_assoc]
    cases hparsed : parsed codec chunk <;> simp [hparsed]

/-- A chunk of whole messages is taken for the last of them. -/
theorem parsed_flatMap (messages : List BNetMessage) (h : messages ≠ []) :
    parsed codec (messages.flatMap (BNetMessage.serializer codec)) =
      some (messages.getLast h) := by
  have hread := BNetMessage.unserializer_flatMap codec messages h
  cases messages with
  | nil => exact absurd rfl h
  | cons message messages =>
    obtain ⟨header, data, hlayout⟩ := codec.layout message.bubiMsg
    have hbytes : (message :: messages).flatMap (BNetMessage.serializer codec) =
        0x0a :: (header ++ 0x12 :: data ++ messages.flatMap (BNetMessage.serializer codec)) := by
      rw [List.flatMap_cons, BNetMessage.serializer, hlayout, List.cons_append]
    rw [hbytes] at hread ⊢
    rw [parsed, if_pos (by decide), hread]

theorem parsed_serializer (message : BNetMessage) :
    parsed codec (message.serializer codec) = some message := by
  have hone := parsed_flatMap codec [message] (List.cons_ne_nil _ _)
  rwa [List.flatMap_singleton] at hone

/-- Chunks of one message each are received as sent. -/
theorem filterMap_parsed_map (messages : List BNetMessage) :
    (messages.map (BNetMessage.serializer codec)).filterMap (parsed codec) = messages := by
  induction messages with
  | nil => rfl
  | cons message messages ih =>
    rw [List.map_cons, List.filterMap_cons_some (parsed_serializer codec message), ih]

/-- Whether a chunk is queued does not depend on the parser. -/
theorem isSome_parsed (codec' : MessageCodec) (chunk : Bytes) :
    (parsed codec chunk).isSome = (parsed codec' chunk).isSome := by
  cases chunk with
  | nil => rfl
  | cons byte rest => by_cases hbyte : byte = 0x7b <;> simp [parsed, hbyte]

/-- One `recv` for each byte queues a message for each byte that is no brace. -/
theorem length_filterMap_parsed_bytes (stream : Bytes) :
    ((stream.map fun byte => [byte]).filterMap (parsed codec)).length =
      stream.countP (· ≠ 0x7b) := by
  induction stream with
  | nil => rfl
  | cons byte stream ih =>
    by_cases hbyte : byte = 0x7b <;> simpa [parsed, hbyte] using ih

/-- Every message has two bytes that are no braces. -/
theorem two_mul_length_le (messages : List BNetMessage) :
    2 * messages.length ≤
      (messages.flatMap (BNetMessage.serializer codec)).countP (· ≠ 0x7b) := by
  induction messages with
  | nil => simp
  | cons message messages ih =>
    obtain ⟨header, data, hlayout⟩ := codec.layout message.bubiMsg
    have htwo : 2 ≤ (message.serializer codec).countP (· ≠ 0x7b) := by
      rw [BNetMessage.serializer, hlayout, List.countP_cons_of_pos (by decide), List.countP_append,
        List.countP_cons_of_pos (by decide)]
      omega
    rw [List.flatMap_cons, List.countP_append, List.length_cons]
    omega

end Receiver

/-- A stream as successive `recv` calls into a buffer of `0x10000` bytes return it. -/
structure Cut (stream : Bytes) (chunks : List Bytes) : Prop where
  flatten : chunks.flatten = stream
  size : ∀ chunk ∈ chunks, chunk ≠ [] ∧ chunk.length ≤ 0x10000

section Rows

variable {codec : MessageCodec}

/-- A chunk of whole messages. -/
def IsRow (codec : MessageCodec) (chunk : Bytes) : Prop :=
  ∃ messages, messages ≠ [] ∧ messages.flatMap (BNetMessage.serializer codec) = chunk

/-- A row is at least as long as the message that is read from it. -/
theorem IsRow.length_le {chunk : Bytes} (h : IsRow codec chunk) :
    ∃ message, parsed codec chunk = some message ∧
      (message.serializer codec).length ≤ chunk.length ∧
      (chunk.length = (message.serializer codec).length → chunk = message.serializer codec) := by
  obtain ⟨messages, hne, rfl⟩ := h
  refine ⟨messages.getLast hne, parsed_flatMap codec messages hne, ?_⟩
  have hsplit : messages.flatMap (BNetMessage.serializer codec) =
      messages.dropLast.flatMap (BNetMessage.serializer codec) ++
        (messages.getLast hne).serializer codec := by
    conv_lhs => rw [← List.dropLast_append_getLast hne]
    rw [List.flatMap_append, List.flatMap_singleton]
  rw [hsplit, List.length_append]
  refine ⟨Nat.le_add_left _ _, fun hlength => ?_⟩
  rw [List.length_eq_zero_iff.mp (by omega :
    (messages.dropLast.flatMap (BNetMessage.serializer codec)).length = 0), List.nil_append]

/-- The messages read from rows have no more bytes than the rows, and as many only if every
row is one message. -/
theorem chunks_eq_of_length {chunks : List Bytes}
    (hrow : ∀ chunk ∈ chunks, chunk.head? = some 0x7b ∨ IsRow codec chunk) :
    ((chunks.filterMap (parsed codec)).flatMap (BNetMessage.serializer codec)).length ≤
        chunks.flatten.length ∧
      (chunks.flatten.length =
          ((chunks.filterMap (parsed codec)).flatMap (BNetMessage.serializer codec)).length →
        chunks = (chunks.filterMap (parsed codec)).map (BNetMessage.serializer codec)) := by
  induction chunks with
  | nil => simp
  | cons chunk chunks ih =>
    obtain ⟨hle, heq⟩ := ih fun c hc => hrow c (List.mem_cons_of_mem _ hc)
    rcases hrow chunk List.mem_cons_self with hbrace | hchunk
    · -- A client's request adds bytes and no message.
      cases chunk with
      | nil => cases hbrace
      | cons byte rest =>
        obtain rfl : byte = 0x7b := Option.some.inj hbrace
        have hnone : parsed codec (0x7b :: rest) = none := by simp [parsed]
        rw [List.filterMap_cons_none hnone, List.flatten_cons, List.length_append,
          List.length_cons]
        exact ⟨by omega, fun hlength => absurd hlength (by omega)⟩
    · obtain ⟨message, hparsed, hmessage, hone⟩ := hchunk.length_le
      rw [List.filterMap_cons_some hparsed, List.flatMap_cons, List.flatten_cons,
        List.length_append, List.length_append, List.map_cons]
      refine ⟨by omega, fun hlength => ?_⟩
      rw [← hone (by omega), ← heq (by omega)]

/-- Rows that are received as sent are one message each. -/
theorem eq_map_of_received {messages : List BNetMessage} {chunks : List Bytes}
    (hcut : Cut (messages.flatMap (BNetMessage.serializer codec)) chunks)
    (hrow : ∀ chunk ∈ chunks, chunk.head? = some 0x7b ∨ IsRow codec chunk)
    (h : chunks.filterMap (parsed codec) = messages) :
    chunks = messages.map (BNetMessage.serializer codec) := by
  have hchunks := (chunks_eq_of_length hrow).2
  rw [h, hcut.flatten] at hchunks
  exact hchunks rfl

/-- Another parser for the same messages: it reads one string, which is no row, as a given
message. -/
def misread (codec : MessageCodec) (chunk : Bytes) (message : BubiMsg) (h : ¬ IsRow codec chunk) :
    MessageCodec where
  serializeToString := codec.serializeToString
  parseFromString str := if str = chunk then message else codec.parseFromString str
  parse_serialize m := by
    rw [if_neg, codec.parse_serialize]
    rintro rfl
    exact h ⟨[⟨⟨m.checkSum, m.msgSize, m.command⟩, m.data⟩], List.cons_ne_nil _ _,
      List.flatMap_singleton ..⟩
  parse_concat messages hne := by
    rw [if_neg, codec.parse_concat messages hne]
    rintro rfl
    refine h ⟨messages.map fun m => ⟨⟨m.checkSum, m.msgSize, m.command⟩, m.data⟩, ?_, ?_⟩
    · simpa using hne
    · rw [List.flatMap_map]
      rfl
  layout := codec.layout

/-- Two readings of a list that queue something for the same elements, and queue the same, are
equal on the list. -/
theorem eq_of_filterMap_eq {α β : Type} {f g : α → Option β} {l : List α}
    (hsome : ∀ a, (f a).isSome = (g a).isSome) (h : l.filterMap f = l.filterMap g) :
    ∀ a ∈ l, f a = g a := by
  induction l with
  | nil => simp
  | cons a l ih =>
    have ha := hsome a
    cases hf : f a with
    | none =>
      have hg : g a = none := by simpa [hf] using ha
      rw [List.filterMap_cons_none hf, List.filterMap_cons_none hg] at h
      simpa [hf, hg] using ih h
    | some b =>
      obtain ⟨b', hg⟩ : ∃ b', g a = some b' := by simpa [hf, Option.isSome_iff_exists] using ha.symm
      rw [List.filterMap_cons_some hf, List.filterMap_cons_some hg] at h
      obtain ⟨hb, hl⟩ := List.cons.inj h
      simpa [hf, hg, hb] using ih hl

/-- Chunks that every parser reads in the same way are rows. -/
theorem isRow_of_forall_codec {messages : List BNetMessage} {chunks : List Bytes}
    (h : ∀ codec' : MessageCodec, codec'.serializeToString = codec.serializeToString →
      chunks.filterMap (parsed codec') = messages) {chunk : Bytes} (hchunk : chunk ∈ chunks)
    (hne : chunk ≠ []) : chunk.head? = some 0x7b ∨ IsRow codec chunk := by
  by_contra hno
  obtain ⟨hbrace, hrow⟩ := not_or.mp hno
  have hread : ∀ message, parsed (misread codec chunk message hrow) chunk =
      some ⟨⟨message.checkSum, message.msgSize, message.command⟩, message.data⟩ := by
    intro message
    cases chunk with
    | nil => exact absurd rfl hne
    | cons byte rest =>
      have hbyte : byte ≠ 0x7b := fun heq => hbrace (congrArg some heq)
      simp [parsed, hbyte, BNetMessage.unserializer, misread]
  have hsame := eq_of_filterMap_eq (isSome_parsed _ _)
    ((h (misread codec chunk default hrow) rfl).trans
      (h (misread codec chunk { (default : BubiMsg) with command := [0] } hrow) rfl).symm)
    chunk hchunk
  rw [hread, hread] at hsame
  cases hsame

end Rows

/-- Messages that are sent in full are received as sent, whatever the parser does with other
strings than rows of messages, exactly when every `recv` returns one message. For cuts into
rows of whole messages this holds of every single parser, and only the empty sequence
survives every cut. -/
theorem messages_received_iff (codec : MessageCodec) (socket : ℕ) (events : List SendEvent)
    (s : BNode × Bytes) (hrun : events.foldlM (sendStep codec) (new socket, []) = .ok s)
    (hqueue : s.1.vSendMsg = []) (receiver : BNode) :
    (∀ chunks, Cut s.2 chunks →
      ((∀ codec' : MessageCodec, codec'.serializeToString = codec.serializeToString →
          (deliver codec' receiver chunks).vRecvMsg = receiver.vRecvMsg ++ pushed events) ↔
        chunks = (pushed events).map (BNetMessage.serializer codec)) ∧
      ((∀ chunk ∈ chunks, IsRow codec chunk) →
        ((deliver codec receiver chunks).vRecvMsg = receiver.vRecvMsg ++ pushed events ↔
          chunks = (pushed events).map (BNetMessage.serializer codec)))) ∧
      ((∀ chunks, Cut s.2 chunks →
          (deliver codec receiver chunks).vRecvMsg = receiver.vRecvMsg ++ pushed events) ↔
        pushed events = []) := by
  have hstream := stream_eq hrun hqueue
  simp only [deliver_vRecvMsg, List.append_cancel_left_eq, hstream]
  refine ⟨fun chunks hcut => ⟨⟨fun hall => ?_, ?_⟩, fun hrow => ⟨fun h => ?_, ?_⟩⟩,
    ⟨fun hall => ?_, fun hnil chunks hcut => ?_⟩⟩
  · refine eq_map_of_received hcut (fun chunk hchunk => ?_) (hall codec rfl)
    exact isRow_of_forall_codec hall hchunk (hcut.size chunk hchunk).1
  · rintro rfl codec' hcodec
    have hserializer : BNetMessage.serializer codec = BNetMessage.serializer codec' := by
      funext message
      rw [BNetMessage.serializer, BNetMessage.serializer, hcodec]
    rw [hserializer, filterMap_parsed_map]
  · exact eq_map_of_received hcut (fun chunk hchunk => Or.inr (hrow chunk hchunk)) h
  · rintro rfl
    exact filterMap_parsed_map codec _
  · -- Byte by byte more messages arrive than were sent.
    have hcut : Cut ((pushed events).flatMap (BNetMessage.serializer codec))
        (((pushed events).flatMap (BNetMessage.serializer codec)).map fun byte => [byte]) := by
      refine ⟨List.flatMap_singleton' _, fun chunk hchunk => ?_⟩
      obtain ⟨byte, _, rfl⟩ := List.mem_map.mp hchunk
      exact ⟨List.cons_ne_nil _ _, by simp⟩
    have hlength := congrArg List.length (hall _ hcut)
    rw [length_filterMap_parsed_bytes] at hlength
    have htwo := two_mul_length_le codec (pushed events)
    exact List.length_eq_zero_iff.mp (by omega)
  · have hchunks : chunks = [] := by
      refine List.eq_nil_iff_forall_not_mem.mpr fun chunk hchunk => (hcut.size chunk hchunk).1 ?_
      have hflatten := hcut.flatten
      rw [hnil, List.flatMap_nil] at hflatten
      exact List.flatten_eq_nil_iff.mp hflatten chunk hchunk
    rw [hchunks, hnil]
    rfl

/-- A message of a one-byte command and one-byte data. -/
def sampleMessage (command data : UInt8) : BNetMessage := .new [command] 0 [data]

/-- Two messages, sent by one call that is asked to repeat its first `send`. -/
def twoMessages : List SendEvent :=
  [.pushMessage [1] [10], .pushMessage [2] [20],
    .socketSendData [.again,
      .accepted ((sampleMessage 1 10).serializer plainMessages).length,
      .accepted ((sampleMessage 2 20).serializer plainMessages).length]]

theorem messages_received_twoMessages :
    ∃ s, twoMessages.foldlM (sendStep plainMessages) (new 3, []) = .ok s ∧
      s.1.vSendMsg = [] ∧
      (deliver plainMessages (new 4) ([sampleMessage 1 10, sampleMessage 2 20].map
        (BNetMessage.serializer plainMessages))).vRecvMsg =
          [sampleMessage 1 10, sampleMessage 2 20] := by
  have hok : (do
      let s ← twoMessages.foldlM (sendStep plainMessages) (new 3, [])
      .ok s.1.vSendMsg) = .ok [] := eq_ok_of_toOption (by decide +kernel)
  obtain ⟨s, hs, hqueue⟩ := bind_eq_ok.mp hok
  replace hqueue := Except.ok.inj hqueue
  have hcut : Cut s.2 ([sampleMessage 1 10, sampleMessage 2 20].map
      (BNetMessage.serializer plainMessages)) :=
    ⟨(stream_eq hs hqueue).symm ▸ rfl, by decide +kernel⟩
  refine ⟨s, hs, hqueue, ?_⟩
  exact ((messages_received_iff plainMessages 3 twoMessages s hs hqueue (new 4)).1 _ hcut).1.mpr
    rfl plainMessages rfl

/-- Two messages that arrive in one `recv` are received as the second alone. -/
theorem coalesced_messages_lost :
    pushed twoMessages = [sampleMessage 1 10, sampleMessage 2 20] ∧
    (do
      let s ← twoMessages.foldlM (sendStep plainMessages) (new 3, [])
      .ok (s.1.vSendMsg, decide (s.2 ≠ [] ∧ s.2.length ≤ 0x10000),
        (deliver plainMessages (new 4) [s.2]).vRecvMsg)).toOption =
      some ([], true, [sampleMessage 2 20]) := by
  decide +kernel

end Bubi.BNode
