import Bubi.Ledger.Ledger
import Bubi.Net.Node

/-!
# Requests and messages at the ledger

`ParseHandleJsonData` serves the clients and `ProcessMessages` the peers, both on the
ledger behind `last_ledger`. A transfer is serialized for the peers before
`add_transaction_entry` sets its links, so its message carries whatever the memory of
the new transaction held. The message is pushed whether or not the ledger accepts the
transfer.
-/

namespace Bubi

open Bubi.Core

/-- A client's request of method 1001 or 1004, with its parameters. -/
inductive Request where
  | transfer (sendAddr fee recvAddr : Bytes)
  | createUser (bubiAddr : Bytes)

/-- What the handler of a request finds in uninitialised memory, the variable `amount` and the
links of the new transaction, and the time that it prints. -/
structure Surroundings where
  amount : ℚ
  sourcePreviousLedgerSeq : BitVec 32
  sourcePreviousTxHash : Uint256
  destinationPreviousLedgerSeq : BitVec 32
  destinationPreviousTxHash : Uint256
  time : Bytes

/-- The fields of the answer to a client. -/
structure Output where
  errCode : Bytes
  msg : Bytes
  transNo : Option Bytes
  deriving DecidableEq

/-- A peer's command with its data. -/
abbrev Command := Bytes × Bytes

namespace Command

/-- The command of a transfer's message. -/
def transaction : Bytes := ascii ['t', 'r', 'a', 'n', 's', 'a', 'c', 't', 'i', 'o', 'n']

/-- The command of a new account's message. -/
def account : Bytes := ascii ['a', 'c', 'c', 'o', 'u', 'n', 't']

/-- The reply to a transfer's message. -/
def txReply : Command :=
  (ascii "tx-reply".toList, ascii "i have got your tx message......".toList)

/-- The reply to a new account's message. -/
def accountReply : Command :=
  (ascii "account-reply".toList, ascii "i have got your account message......".toList)

end Command

/-- An element of `vNodes`: a node with its `fInbound_`. -/
structure Connection where
  fInbound : Bool
  node : BNode

/-- The globals of a process. -/
structure Process where
  /-- `last_ledger`, with the store behind it. -/
  lastLedger : Ledger.State
  /-- `vNodes`. -/
  vNodes : List Connection

namespace Process

/-- `output` of a request that succeeded, and of one that failed. -/
def answer (success : Bool) (transNo : Option Bytes) : Output :=
  if success then ⟨ascii ['1'], ascii ['s', 'u', 'c', 'c', 'e', 's', 's'], transNo⟩
  else ⟨ascii ['0'], ascii ['f', 'a', 'i', 'l'], transNo⟩

/-- Error code 0 stands for a failure. -/
theorem errCode_answer_zero {success : Bool} {transNo : Option Bytes} :
    (answer success transNo).errCode = ascii ['0'] ↔ success = false := by
  cases success with
  | false => exact iff_of_true rfl rfl
  | true =>
    have hcode : ascii ['1'] ≠ ascii ['0'] := by decide
    exact iff_of_false hcode Bool.noConfusion

/-- Error code 1 stands for a success. -/
theorem errCode_answer_one {success : Bool} {transNo : Option Bytes} :
    (answer success transNo).errCode = ascii ['1'] ↔ success = true := by
  cases success with
  | false =>
    have hcode : ascii ['0'] ≠ ascii ['1'] := by decide
    exact iff_of_false hcode Bool.noConfusion
  | true => exact iff_of_true rfl rfl

section Handlers

variable (sha : Bytes → Uint256) (pb : Protobuf) (codec : MessageCodec)
  (extract : Bytes → Option ℚ)

/-- The transaction of a transfer as its constructor leaves it. The number that `operator>>`
reads from `fee` is given by `extract`, without a value where it leaves `amount` alone. -/
def newTransaction (m : Surroundings) (sendAddr fee recvAddr : Bytes) :
    Except Fault Transaction := do
  let ser ← Serializer.ofString sendAddr
  let ds ← Serializer.ofString recvAddr
  .ok
    { sourceAddress := sha ser.1
      destinationAddress := sha ds.1
      paymentAmount := (extract fee).getD m.amount
      sourcePreviousLedgerSeq := m.sourcePreviousLedgerSeq
      sourcePreviousTxHash := m.sourcePreviousTxHash
      destinationPreviousLedgerSeq := m.destinationPreviousLedgerSeq
      destinationPreviousTxHash := m.destinationPreviousTxHash }

/-- `ParseHandleJsonData` without its loop over `vNodes`: the ledger after the request, the
message that the loop pushes and the answer. -/
def handleRequest (m : Surroundings) (s : Ledger.State) :
    Request → Except Fault (Ledger.State × Command × Output)
  | .transfer sendAddr fee recvAddr => do
    let tx ← newTransaction sha extract m sendAddr fee recvAddr
    let txserialize := tx.serializer pb
    let r ← Ledger.addTransactionEntry sha pb s tx
    .ok (r.1, (Command.transaction, txserialize), answer (decide (r.2.2 = 0)) (some m.time))
  | .createUser bubiAddr => do
    let s ← Ledger.createAccount sha pb s bubiAddr
    .ok (s, (Command.account, bubiAddr), answer true none)

/-- The loops that push a message to every node that this process connected to. -/
def broadcast (vNodes : List Connection) (command : Command) : List Connection :=
  vNodes.map fun c =>
    if c.fInbound then c else { c with node := c.node.pushMessage codec command.1 command.2 }

/-- `ParseHandleJsonData` for the methods 1001 and 1004. -/
def parseHandleJsonData (m : Surroundings) (p : Process) (request : Request) :
    Except Fault (Process × Output) := do
  let r ← handleRequest sha pb extract m p.lastLedger request
  .ok (⟨r.1, broadcast codec p.vNodes r.2.1⟩, r.2.2)

/-- One round of the loop of `ProcessMessages`: the ledger, and the reply that is pushed. The
value that `add_transaction_entry` returns is dropped. -/
def processMessage (s : Ledger.State) (message : BNetMessage) :
    Except Fault (Ledger.State × Option Command) :=
  if message.header.bchCommand = Command.transaction then do
    let tx ← Transaction.unserializer pb message.data
    let r ← Ledger.addTransactionEntry sha pb s tx
    .ok (r.1, some Command.txReply)
  else if message.header.bchCommand = Command.account then do
    let s ← Ledger.createAccount sha pb s message.data
    .ok (s, some Command.accountReply)
  else .ok (s, none)

/-- The loop of `ProcessMessages`. -/
def processLoop : List BNetMessage → Ledger.State × BNode → Except Fault (Ledger.State × BNode)
  | [], p => .ok p
  | message :: messages, p => do
    let r ← processMessage sha pb p.1 message
    match r.2 with
    | none => processLoop messages (r.1, p.2)
    | some reply => processLoop messages (r.1, p.2.pushMessage codec reply.1 reply.2)

/-- `ProcessMessages`. -/
def processMessages (p : Ledger.State × BNode) : Except Fault (Ledger.State × BNode) := do
  let r ← processLoop sha pb codec p.2.vRecvMsg p
  .ok (r.1, { r.2 with vRecvMsg := [] })

end Handlers

section Messages

variable {sha : Bytes → Uint256} {pb : Protobuf} {codec : MessageCodec}
  {extract : Bytes → Option ℚ}

/-- The message that carries a command. -/
def messageOf (command : Command) : BNetMessage := .new command.1 0 command.2

theorem unserializer_messageOf (codec : MessageCodec) (command : Command) :
    BNetMessage.unserializer codec ((messageOf command).serializer codec) = messageOf command := by
  have h := BNetMessage.unserializer_flatMap codec [messageOf command] (List.cons_ne_nil _ _)
  rwa [List.flatMap_singleton] at h

/-- A string that arrives alone is queued as the message that was pushed. -/
theorem socketRecvData_message (node : BNode) (command : Command) :
    BNode.socketRecvData codec node (.received ((messageOf command).serializer codec)) =
      { node with
        nRecvBytes := node.nRecvBytes +
          BitVec.ofNat 64 ((messageOf command).serializer codec).length
        vRecvMsg := node.vRecvMsg ++ [messageOf command] } := by
  obtain ⟨header, data, hlayout⟩ := codec.layout (messageOf command).bubiMsg
  have hstring : (messageOf command).serializer codec = 0x0a :: (header ++ 0x12 :: data) := hlayout
  have hback := unserializer_messageOf codec command
  rw [hstring] at hback ⊢
  have hbyte : (0x0a : UInt8) ≠ 0x7b := by decide
  simp only [BNode.socketRecvData, if_pos hbyte, hback]

/-- A transfer's message is the transfer, decoded. -/
theorem processMessage_transaction (s : Ledger.State) (tx : Transaction) :
    processMessage sha pb s (messageOf (Command.transaction, tx.serializer pb)) = (do
      let r ← Ledger.addTransactionEntry sha pb s tx
      .ok (r.1, some Command.txReply)) := by
  have hcommand : (messageOf (Command.transaction, tx.serializer pb)).header.bchCommand =
      Command.transaction := rfl
  have hdata : (messageOf (Command.transaction, tx.serializer pb)).data = tx.serializer pb := rfl
  rw [processMessage, if_pos hcommand, hdata, Transaction.unserializer_serializer, ok_bind]

theorem processMessage_account (s : Ledger.State) (bubiAddr : Bytes) :
    processMessage sha pb s (messageOf (Command.account, bubiAddr)) = (do
      let s ← Ledger.createAccount sha pb s bubiAddr
      .ok (s, some Command.accountReply)) := by
  have hcommand : (messageOf (Command.account, bubiAddr)).header.bchCommand = Command.account := rfl
  have hother : Command.account ≠ Command.transaction := by decide
  have hdata : (messageOf (Command.account, bubiAddr)).data = bubiAddr := rfl
  rw [processMessage, hcommand, if_neg hother, if_pos rfl, hdata]

/-- The reply that a round of `ProcessMessages` pushes. -/
def replyTo (message : BNetMessage) : Option Command :=
  if message.header.bchCommand = Command.transaction then some Command.txReply
  else if message.header.bchCommand = Command.account then some Command.accountReply
  else none

theorem replyTo_eq_none {message : BNetMessage} :
    replyTo message = none ↔ message.header.bchCommand ≠ Command.transaction ∧
      message.header.bchCommand ≠ Command.account := by
  unfold replyTo
  split
  · rename_i h
    simp [h]
  · rename_i h
    split
    · rename_i h'
      simp [h']
    · rename_i h'
      exact iff_of_true rfl ⟨h, h'⟩

/-- A reply gets no reply. -/
theorem replyTo_messageOf {message : BNetMessage} {reply : Command}
    (h : replyTo message = some reply) : replyTo (messageOf reply) = none := by
  unfold replyTo at h
  split at h
  · cases h
    decide
  · split at h
    · cases h
      decide
    · cases h

theorem processMessage_snd {s : Ledger.State} {message : BNetMessage}
    {r : Ledger.State × Option Command} (hr : processMessage sha pb s message = .ok r) :
    r.2 = replyTo message := by
  unfold processMessage at hr
  unfold replyTo
  split at hr
  · rename_i htransaction
    obtain ⟨tx, _, hr⟩ := bind_eq_ok.mp hr
    obtain ⟨v, _, hr⟩ := bind_eq_ok.mp hr
    cases hr
    rw [if_pos htransaction]
  · rename_i htransaction
    rw [if_neg htransaction]
    split at hr
    · rename_i haccount
      obtain ⟨v, _, hr⟩ := bind_eq_ok.mp hr
      cases hr
      rw [if_pos haccount]
    · rename_i haccount
      cases hr
      rw [if_neg haccount]

/-- A message without a reply is passed over. -/
theorem processMessage_of_replyTo {s : Ledger.State} {message : BNetMessage}
    (h : replyTo message = none) : processMessage sha pb s message = .ok (s, none) := by
  obtain ⟨htransaction, haccount⟩ := replyTo_eq_none.mp h
  rw [processMessage, if_neg htransaction, if_neg haccount]

/-- The strings that the loop of `ProcessMessages` pushes. -/
def replies (codec : MessageCodec) (messages : List BNetMessage) : List Bytes :=
  (messages.filterMap replyTo).map fun reply => (messageOf reply).serializer codec

theorem replies_cons (codec : MessageCodec) (message : BNetMessage) (messages : List BNetMessage) :
    replies codec (message :: messages) =
      (match replyTo message with
        | none => []
        | some reply => [(messageOf reply).serializer codec]) ++ replies codec messages := by
  unfold replies
  rw [List.filterMap_cons]
  cases replyTo message with
  | none => rfl
  | some reply => rfl

theorem processLoop_node {messages : List BNetMessage} {s : Ledger.State} {node : BNode}
    {r : Ledger.State × BNode} (hr : processLoop sha pb codec messages (s, node) = .ok r) :
    r.2 = { node with vSendMsg := node.vSendMsg ++ replies codec messages } := by
  induction messages generalizing s node with
  | nil =>
    cases hr
    simp [replies]
  | cons message messages ih =>
    obtain ⟨v, hv, hr⟩ := bind_eq_ok.mp hr
    rw [replies_cons, ← processMessage_snd hv]
    cases hcase : v.2 with
    | none =>
      rw [hcase] at hr
      exact ih hr
    | some reply =>
      rw [hcase] at hr
      rw [ih hr, ← List.append_assoc]
      rfl

/-- `ProcessMessages` answers all messages and drops them. -/
theorem processMessages_node {p r : Ledger.State × BNode}
    (hr : processMessages sha pb codec p = .ok r) :
    r.2 = { p.2 with
      vSendMsg := p.2.vSendMsg ++ replies codec p.2.vRecvMsg
      vRecvMsg := [] } := by
  obtain ⟨v, hv, hr⟩ := bind_eq_ok.mp hr
  cases hr
  rw [processLoop_node hv]

theorem processLoop_of_replyTo {messages : List BNetMessage} {p : Ledger.State × BNode}
    (h : ∀ message ∈ messages, replyTo message = none) :
    processLoop sha pb codec messages p = .ok p := by
  induction messages with
  | nil => rfl
  | cons message messages ih =>
    rw [processLoop, processMessage_of_replyTo (h message List.mem_cons_self), ok_bind]
    exact ih fun m hm => h m (List.mem_cons_of_mem _ hm)

/-- Messages without a reply are dropped. -/
theorem processMessages_of_replyTo {p : Ledger.State × BNode}
    (h : ∀ message ∈ p.2.vRecvMsg, replyTo message = none) :
    processMessages sha pb codec p = .ok (p.1, { p.2 with vRecvMsg := [] }) := by
  rw [processMessages, processLoop_of_replyTo h, ok_bind]

/-- What a handled request did: a transfer went through `add_transaction_entry`, and its message
carries the transaction as it was before; a new account went through `create_account`. -/
theorem handleRequest_path {m : Surroundings} {s : Ledger.State} {request : Request}
    {r : Ledger.State × Command × Output}
    (hr : handleRequest sha pb extract m s request = .ok r) :
    (∃ tx v, Ledger.addTransactionEntry sha pb s tx = .ok v ∧ r.1 = v.1 ∧
        r.2.1 = (Command.transaction, tx.serializer pb) ∧
        r.2.2 = answer (decide (v.2.2 = 0)) (some m.time)) ∨
      ∃ bubiAddr, Ledger.createAccount sha pb s bubiAddr = .ok r.1 ∧
        r.2 = ((Command.account, bubiAddr), answer true none) := by
  cases request with
  | transfer sendAddr fee recvAddr =>
    obtain ⟨tx, _, hr⟩ := bind_eq_ok.mp hr
    obtain ⟨v, hv, hr⟩ := bind_eq_ok.mp hr
    cases hr
    exact Or.inl ⟨tx, v, hv, rfl, rfl, rfl⟩
  | createUser bubiAddr =>
    obtain ⟨v, hv, hr⟩ := bind_eq_ok.mp hr
    cases hr
    exact Or.inr ⟨bubiAddr, hv, rfl⟩

end Messages

/-- The number that a string of decimal digits stands for. -/
def digits (str : Bytes) : Option ℕ :=
  if !str.isEmpty && str.all (fun d => 0x30 ≤ d && d ≤ 0x39) then
    some (str.foldl (fun n d => 10 * n + (d.toNat - 0x30)) 0)
  else none

/-- Digits behind an optional sign, in the place of `operator>>` where the model is evaluated. -/
def decimal : Bytes → Option ℚ
  | 0x2d :: str => (digits str).map fun n => -(n : ℚ)
  | str => (digits str).map fun n => (n : ℚ)

/-- What a handler finds in memory where the model is evaluated. -/
def sampleSurroundings : Surroundings where
  amount := -1
  sourcePreviousLedgerSeq := 0xdead
  sourcePreviousTxHash := checksum (sampleName 7)
  destinationPreviousLedgerSeq := 0xbeef
  destinationPreviousTxHash := checksum (sampleName 8)
  time := ascii ['0']

/-- A transfer between two accounts where the model is evaluated. -/
def sampleTransfer (source destination : UInt8) (fee : List Char) : Request :=
  .transfer (sampleName source) (ascii fee) (sampleName destination)

end Process

end Bubi
