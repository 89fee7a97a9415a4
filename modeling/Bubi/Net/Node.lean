import Bubi.Ledger.Records

/-!
# Peers and their messages

A message is serialized by protobuf and queued; `SocketSendData` hands the queue to the
socket, and `SocketRecvData` parses what one `recv` returns. What `send` and `recv`
answer is an argument of the model. The bytes that a socket has accepted are kept
beside its node.
-/

namespace Bubi

/-- `protocol::bubiMsg` with its `protocol::bubiMsgHeader`. -/
structure BubiMsg where
  command : Bytes
  msgSize : BitVec 32
  checkSum : BitVec 32
  data : Bytes
  deriving DecidableEq, Inhabited

/-- Protobuf for `bubiMsg`: concatenated messages are merged, and the last value of a
singular field stays. The header, field 1, is written before the data, field 2. -/
structure MessageCodec extends Codec BubiMsg where
  parse_concat : ∀ messages (h : messages ≠ []),
    parseFromString (messages.flatMap serializeToString) = messages.getLast h
  layout : ∀ message, ∃ header data, serializeToString message = 0x0a :: (header ++ 0x12 :: data)

/-- The format of `plainMessages`. -/
def messageWire : Core.Wire BubiMsg :=
  ((Core.Wire.tag 0x0a (Core.Wire.bytes.pair ((Core.Wire.bitVec 32).pair
    (Core.Wire.bitVec 32)))).pair (Core.Wire.tag 0x12 Core.Wire.bytes)).image
      (fun p => ⟨p.1.1, p.1.2.1, p.1.2.2, p.2⟩)
      (fun m => ((m.command, m.msgSize, m.checkSum), m.data))
      fun _ => rfl

/-- A format that takes the place of protobuf where the model is evaluated. -/
def plainMessages : MessageCodec where
  toCodec := .ofWire messageWire
  parse_concat := by
    intro messages h
    have hlast : messages.getLastD default = messages.getLast h := by
      simp [List.getLastD_eq_getLast?, List.getLast?_eq_some_getLast h]
    exact (messageWire.parse_flatMap_write messages).trans hlast
  layout message := ⟨_, _, rfl⟩

/-- `BNetMessageHeader`. -/
structure BNetMessageHeader where
  /-- `nChecksum_`. -/
  nChecksum : BitVec 32
  /-- `nMessageSize_`. -/
  nMessageSize : BitVec 32
  /-- `bchCommand_`. -/
  bchCommand : Bytes
  deriving DecidableEq

/-- `BNetMessage`. -/
structure BNetMessage where
  /-- `header_`. -/
  header : BNetMessageHeader
  /-- `data_`. -/
  data : Bytes
  deriving DecidableEq

namespace BNetMessage

/-- `BNetMessage::BNetMessage`. -/
def new (command : Bytes) (msize : BitVec 32) (data : Bytes) : BNetMessage :=
  ⟨⟨0, msize, command⟩, data⟩

/-- The protobuf message that `BNetMessage::serializer` fills. -/
def bubiMsg (message : BNetMessage) : BubiMsg :=
  ⟨message.header.bchCommand, message.header.nMessageSize, message.header.nChecksum, message.data⟩

/-- `BNetMessage::serializer`. -/
def serializer (codec : MessageCodec) (message : BNetMessage) : Bytes :=
  codec.serializeToString message.bubiMsg

/-- `BNetMessage::unserializer`: a failed parse is only printed. -/
def unserializer (codec : MessageCodec) (str : Bytes) : BNetMessage :=
  let bm := codec.parseFromString str
  ⟨⟨bm.checkSum, bm.msgSize, bm.command⟩, bm.data⟩

theorem serializer_ne_nil (codec : MessageCodec) (message : BNetMessage) :
    message.serializer codec ≠ [] := by
  obtain ⟨header, data, hlayout⟩ := codec.layout message.bubiMsg
  rw [serializer, hlayout]
  exact List.cons_ne_nil _ _

/-- A string of messages is read as its last message. -/
theorem unserializer_flatMap (codec : MessageCodec) (messages : List BNetMessage)
    (h : messages ≠ []) :
    unserializer codec (messages.flatMap (serializer codec)) = messages.getLast h := by
  have hmap : messages.flatMap (serializer codec) =
      (messages.map bubiMsg).flatMap codec.serializeToString := by
    rw [List.flatMap_map]
    rfl
  have hne : messages.map bubiMsg ≠ [] := by simpa using h
  rw [unserializer, hmap, codec.parse_concat _ hne, List.getLast_map]
  rfl

end BNetMessage

/-- `BNode`: a connection to a peer. -/
structure BNode where
  /-- `bSocket_`, without a value for `INVALID_SOCKET`. -/
  bSocket : Option ℕ
  /-- `vSendMsg_`. -/
  vSendMsg : List Bytes
  /-- `nSendOffset_`. -/
  nSendOffset : ℕ
  /-- `nSendBytes_`. -/
  nSendBytes : BitVec 64
  /-- `vRecvMsg_`. -/
  vRecvMsg : List BNetMessage
  /-- `nRecvBytes_`. -/
  nRecvBytes : BitVec 64
  /-- `fDisconnect_`. -/
  fDisconnect : Bool
  deriving DecidableEq

/-- What a call of `send` answers. -/
inductive SendAnswer where
  | accepted (nBytes : ℕ)
  /-- An error after which the call is repeated: `EINPROGRESS`, `EMSGSIZE`, `EINTR` or
  `EWOULDBLOCK`. -/
  | again
  /-- Any other error. -/
  | failed

/-- What a call of `recv` answers; no bytes for an orderly shutdown. -/
inductive RecvAnswer where
  | received (data : Bytes)
  | again
  | failed

namespace BNode

/-- `BNode::BNode`. -/
def new (bSocket : ℕ) : BNode where
  bSocket := some bSocket
  vSendMsg := []
  nSendOffset := 0
  nSendBytes := 0
  vRecvMsg := []
  nRecvBytes := 0
  fDisconnect := false

/-- `BNode::CloseSocketDisconnect`. -/
def closeSocketDisconnect (node : BNode) : BNode :=
  { node with fDisconnect := true, bSocket := none }

/-- `BNode::PushMessage`. -/
def pushMessage (codec : MessageCodec) (node : BNode) (command data : Bytes) : BNode :=
  { node with vSendMsg := node.vSendMsg ++ [(BNetMessage.new command 0 data).serializer codec] }

/-- `SocketSendData`, over the answers of `send`: the node and the bytes accepted so far,
and whether the call has returned. The queue is what `it` has before it, so a message
leaves it when it is sent. A `send` that reads behind the end of the message is a fault. -/
def socketSendData : List SendAnswer → BNode × Bytes → Except Fault ((BNode × Bytes) × Bool)
  | answers, (node, stream) =>
    match node.vSendMsg with
    | [] => if node.nSendOffset = 0 then .ok ((node, stream), true) else .error .assertion
    | data :: rest =>
      if node.nSendOffset < data.length then
        match answers with
        | [] => .ok ((node, stream), false)
        | .again :: answers => socketSendData answers (node, stream)
        | .failed :: answers => socketSendData answers (node.closeSocketDisconnect, stream)
        | .accepted nBytes :: answers =>
          if nBytes = 0 then socketSendData answers (node, stream)
          else if data.length < node.nSendOffset + nBytes then .error .outOfRange
          else
            let stream := stream ++ (data.drop node.nSendOffset).take nBytes
            let nSendBytes := node.nSendBytes + BitVec.ofNat 64 nBytes
            if node.nSendOffset + nBytes = data.length then
              socketSendData answers
                ({ node with nSendOffset := 0, nSendBytes, vSendMsg := rest }, stream)
            else
              -- The message is not sent in full: the call stops here.
              .ok (({ node with nSendOffset := node.nSendOffset + nBytes, nSendBytes }, stream),
                true)
      else .error .assertion

/-- `SocketRecvData`: one `recv` is parsed as one message. Data that starts with a brace is a
client's request; its answer goes back on the socket and nothing is queued. -/
def socketRecvData (codec : MessageCodec) (node : BNode) : RecvAnswer → BNode
  | .received [] => node.closeSocketDisconnect
  | .received (byte :: rest) =>
    let node := { node with
      nRecvBytes := node.nRecvBytes + BitVec.ofNat 64 (byte :: rest).length }
    if byte ≠ 0x7b then
      { node with vRecvMsg := node.vRecvMsg ++ [BNetMessage.unserializer codec (byte :: rest)] }
    else node
  | .again => node
  | .failed => node.closeSocketDisconnect

/-- What a closed socket, a message that is sent to its end and a message that is sent in part
keep, a call of `SocketSendData` keeps. -/
theorem socketSendData_induction {P : BNode × Bytes → Prop}
    (hclose : ∀ node stream, P (node, stream) → P (node.closeSocketDisconnect, stream))
    (hwhole : ∀ node stream data rest nBytes, node.vSendMsg = data :: rest →
      node.nSendOffset < data.length → node.nSendOffset + nBytes = data.length →
      P (node, stream) →
      P ({ node with
          nSendOffset := 0
          nSendBytes := node.nSendBytes + BitVec.ofNat 64 nBytes
          vSendMsg := rest }, stream ++ (data.drop node.nSendOffset).take nBytes))
    (hpart : ∀ node stream data rest nBytes, node.vSendMsg = data :: rest →
      node.nSendOffset + nBytes < data.length → P (node, stream) →
      P ({ node with
          nSendOffset := node.nSendOffset + nBytes
          nSendBytes := node.nSendBytes + BitVec.ofNat 64 nBytes },
        stream ++ (data.drop node.nSendOffset).take nBytes))
    {answers : List SendAnswer} {s : BNode × Bytes} {r : (BNode × Bytes) × Bool} (h : P s)
    (hr : socketSendData answers s = .ok r) : P r.1 := by
  obtain ⟨node, stream⟩ := s
  induction answers generalizing node stream with
  | nil =>
    unfold socketSendData at hr
    split at hr <;> split at hr <;> cases hr <;> exact h
  | cons answer answers ih =>
    unfold socketSendData at hr
    split at hr
    · split at hr <;> cases hr
      exact h
    · rename_i data rest hqueue
      split at hr
      · rename_i hoffset
        cases answer with
        | again => exact ih node stream h hr
        | failed => exact ih _ stream (hclose node stream h) hr
        | accepted nBytes =>
          dsimp only at hr
          split at hr
          · exact ih node stream h hr
          · split at hr
            · cases hr
            · split at hr
              · rename_i hend
                exact ih _ _ (hwhole node stream data rest nBytes hqueue hoffset hend h) hr
              · cases hr
                exact hpart node stream data rest nBytes hqueue (by omega) h
      · cases hr

end BNode

end Bubi
