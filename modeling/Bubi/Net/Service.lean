import Bubi.Ledger.Server
import Bubi.Net.Client

/-!
# A server as a bank

Clients' requests, peers' messages and the timer reach the ledger of a server in some order. A
bank that has nothing but accounts and a list of accepted transfers gives the same answers.
-/

namespace Bubi.Service

open Bubi.Core Process Ledger Server

/-- What reaches the ledger of a server. -/
inductive Input where
  /-- `ParseHandleJsonData`, with the nodes of that moment. -/
  | request (m : Surroundings) (vNodes : List Connection) (data : Bytes)
  /-- A round of the loop of `ProcessMessages`. -/
  | message (message : BNetMessage)
  /-- `auto_print_account_balance`. -/
  | timer

/-- What comes of it. -/
inductive Response where
  /-- The answer to a client, and the nodes with the messages that were pushed. -/
  | answer (text : Bytes) (vNodes : List Connection)
  /-- The reply to a peer. -/
  | reply (command : Option Command)
  /-- The accounts that are printed. -/
  | printed (accs : List Account)

section Model

variable (sha : Bytes → Uint256) (pb : Protobuf) (codec : MessageCodec)
  (extract : Bytes → Option ℚ) (print : ℚ → Bytes) (json : JsonLibrary)

/-- The server takes an input. -/
def serve (s : State) : Input → Except Fault (State × Response)
  | .request m vNodes data => do
    let r ← Client.parseHandleJsonData sha pb codec extract print json m ⟨s, vNodes⟩ data
    .ok (r.1.lastLedger, .answer r.2 r.1.vNodes)
  | .message message => do
    let r ← processMessage sha pb s message
    .ok (r.1, .reply r.2)
  | .timer => do
    let accs ← dfs pb s.2.accountTree
    .ok (s, .printed accs)

/-- The server takes inputs one after the other. -/
def serveAll (s : State) : List Input → Except Fault (State × List Response)
  | [] => .ok (s, [])
  | input :: inputs => do
    let r ← serve sha pb codec extract print json s input
    let rest ← serveAll r.1 inputs
    .ok (rest.1, r.2 :: rest.2)

/-- Data that is a request of a served version, with its method. -/
structure Reads (data : Bytes) (root : json.Value) (code : Bytes) : Prop where
  parse : json.parse data = some root
  version : json.text root [.versionClient] = .ok Client.version
  method : json.text root [.methodType] = .ok code

/-- The answer to a request of method 1000. -/
def balanceAnswer (address : json.Value) (balance : ℚ) : Bytes :=
  json.write (json.ofMembers
    [(.errCode, json.ofString (ascii ['1'])), (.msg, json.ofString (ascii "success".toList)),
      (.data, json.ofMembers [(.bubiAddr, address), (.balance, json.ofString (print balance))])])

/-- The answer to a request of method 1001 or 1004. -/
def outcomeAnswer (success : Bool) (transNo : Option Bytes) : Bytes :=
  json.write (json.ofMembers (Client.members json (answer success transNo)))

/-- The answer to a request of a method that does not exist. -/
def unknownAnswer : Bytes :=
  json.write (json.ofMembers [(.errCode, json.ofString (ascii ['0'])),
    (.msg, json.ofString (ascii "the methodType does not exits".toList))])

/-- How a bank with its books and its accepted transfers takes an input. -/
inductive Takes (bank : Books × List Transaction) :
    Input → Response → Books × List Transaction → Prop
  | balance {m : Surroundings} {vNodes : List Connection} {data accPub : Bytes}
      {root address : json.Value} {acc : Account}
      (hreads : Reads json data root Client.Method.getBalance.code)
      (haddress : json.follow root [.params, .bubiAddr] = .ok address)
      (haccPub : json.asString address = .ok accPub)
      (hacc : bank.1.accounts (sha accPub) = some acc) :
    Takes bank (.request m vNodes data)
      (.answer (balanceAnswer print json address acc.accountBalance) vNodes) bank
  | transfer {m : Surroundings} {vNodes : List Connection} {data sendAddr fee recvAddr : Bytes}
      {root : json.Value} {tx tx' : Transaction} {code : ℕ} {bank' : Books × List Transaction}
      (hreads : Reads json data root Client.Method.transfer.code)
      (hsendAddr : json.text root [.params, .sendAddr] = .ok sendAddr)
      (hfee : json.text root [.params, .fee] = .ok fee)
      (hrecvAddr : json.text root [.params, .receiveAddr] = .ok recvAddr)
      (htx : newTransaction sha extract m sendAddr fee recvAddr = .ok tx)
      (hserves : Serves sha pb bank (.addTransactionEntry tx) (.posted tx' code) bank') :
    Takes bank (.request m vNodes data)
      (.answer (outcomeAnswer json (decide (code = 0)) (some m.time))
        (broadcast codec vNodes (Command.transaction, tx.serializer pb))) bank'
  | createUser {m : Surroundings} {vNodes : List Connection} {data bubiAddr : Bytes}
      {root : json.Value} {bank' : Books × List Transaction}
      (hreads : Reads json data root Client.Method.createUser.code)
      (hbubiAddr : json.text root [.params, .bubiAddr] = .ok bubiAddr)
      (hserves : Serves sha pb bank (.createAccount bubiAddr) .done bank') :
    Takes bank (.request m vNodes data)
      (.answer (outcomeAnswer json true none)
        (broadcast codec vNodes (Command.account, bubiAddr))) bank'
  | unknown {m : Surroundings} {vNodes : List Connection} {data code : Bytes} {root : json.Value}
      (hreads : Reads json data root code)
      (hunknown : ∀ method : Client.Method, code ≠ method.code) :
    Takes bank (.request m vNodes data) (.answer (unknownAnswer json) vNodes) bank
  | transferMessage {message : BNetMessage} {tx tx' : Transaction} {code : ℕ}
      {bank' : Books × List Transaction}
      (hcommand : message.header.bchCommand = Command.transaction)
      (htx : Transaction.unserializer pb message.data = .ok tx)
      (hserves : Serves sha pb bank (.addTransactionEntry tx) (.posted tx' code) bank') :
    Takes bank (.message message) (.reply (some Command.txReply)) bank'
  | accountMessage {message : BNetMessage} {bank' : Books × List Transaction}
      (hcommand : message.header.bchCommand = Command.account)
      (hserves : Serves sha pb bank (.createAccount message.data) .done bank') :
    Takes bank (.message message) (.reply (some Command.accountReply)) bank'
  | otherMessage {message : BNetMessage} (hother : replyTo message = none) :
    Takes bank (.message message) (.reply none) bank
  | timer {accs : List Account} (haccs : Lists bank.1 accs) :
    Takes bank .timer (.printed accs) bank

/-- How a bank takes inputs one after the other. -/
inductive TakesAll : Books × List Transaction → List Input → List Response →
    Books × List Transaction → Prop
  | nil (bank : Books × List Transaction) : TakesAll bank [] [] bank
  | cons {bank bank' bank'' : Books × List Transaction} {input : Input} {inputs : List Input}
      {response : Response} {responses : List Response}
      (h : Takes sha pb codec extract print json bank input response bank')
      (hrest : TakesAll bank' inputs responses bank'') :
    TakesAll bank (input :: inputs) (response :: responses) bank''

end Model

section Refinement

variable {sha : Bytes → Uint256} {pb : Protobuf} {codec : MessageCodec}
  {extract : Bytes → Option ℚ} {print : ℚ → Bytes} {json : JsonLibrary} {s s' : State}
  {bank : Books × List Transaction}

/-- A request of method 1001 or 1004 is handled as the bank does. -/
theorem handleRequest_serves (h : InMemory sha pb s bank) {m : Surroundings} {request : Request}
    {r : State × Command × Output} (hr : handleRequest sha pb extract m s request = .ok r) :
    ∃ bank', InMemory sha pb r.1 bank' ∧
      match request with
      | .transfer sendAddr fee recvAddr => ∃ tx tx' code,
          newTransaction sha extract m sendAddr fee recvAddr = .ok tx ∧
          Serves sha pb bank (.addTransactionEntry tx) (.posted tx' code) bank' ∧
          r.2 = ((Command.transaction, tx.serializer pb),
            answer (decide (code = 0)) (some m.time))
      | .createUser bubiAddr => Serves sha pb bank (.createAccount bubiAddr) .done bank' ∧
          r.2 = ((Command.account, bubiAddr), answer true none) := by
  cases request with
  | transfer sendAddr fee recvAddr =>
    obtain ⟨tx, htx, hr⟩ := bind_eq_ok.mp hr
    obtain ⟨v, hv, hr⟩ := bind_eq_ok.mp hr
    cases hr
    obtain ⟨bank', hserves, hmemory, _⟩ := h.addTransactionEntry hv
    exact ⟨bank', hmemory, tx, v.2.1, v.2.2, htx, hserves, rfl⟩
  | createUser bubiAddr =>
    obtain ⟨v, hv, hr⟩ := bind_eq_ok.mp hr
    cases hr
    obtain ⟨bank', hserves, hmemory, _⟩ :=
      h.act (a := .createAccount bubiAddr) (bind_eq_ok.mpr ⟨v, hv, rfl⟩)
    exact ⟨bank', hmemory, hserves, rfl⟩

/-- A client's request is answered as by the bank. -/
theorem parseHandleJsonData_takes (h : InMemory sha pb s bank) {m : Surroundings}
    {vNodes : List Connection} {data : Bytes} {r : Process × Bytes}
    (hr : Client.parseHandleJsonData sha pb codec extract print json m ⟨s, vNodes⟩ data = .ok r) :
    ∃ bank', Takes sha pb codec extract print json bank (.request m vNodes data)
      (.answer r.2 r.1.vNodes) bank' ∧ InMemory sha pb r.1.lastLedger bank' := by
  -- The kinds of requests that have an answer are those of `Client.Asks`.
  obtain ⟨call, root, hparse, hversion, hasks⟩ := Client.served_of_ok hr
  unfold Client.parseHandleJsonData at hr
  simp only [hparse, hversion, ok_bind, if_pos] at hr
  cases hasks with
  | known hmethod hparameters =>
    have hreads := Reads.mk hparse hversion hmethod
    rw [hmethod, ok_bind] at hr
    cases hparameters with
    | getBalance haccPub =>
      rw [if_pos rfl, haccPub, ok_bind] at hr
      obtain ⟨v, hv, hr⟩ := bind_eq_ok.mp hr
      obtain ⟨address, haddress, hstring⟩ := bind_eq_ok.mp haccPub
      rw [haddress, ok_bind] at hr
      cases hr
      obtain ⟨acc, hacc, hbalance, hmemory, _⟩ := h.getBalance hv
      rw [hbalance]
      exact ⟨bank, .balance hreads haddress hstring hacc, hmemory⟩
    | transfer hsendAddr hfee hrecvAddr =>
      rw [if_neg (by decide), if_pos rfl, hsendAddr, ok_bind, hfee, ok_bind, hrecvAddr,
        ok_bind] at hr
      obtain ⟨v, hv, hr⟩ := bind_eq_ok.mp hr
      obtain ⟨w, hw, hv⟩ := bind_eq_ok.mp hv
      cases hr
      cases hv
      obtain ⟨bank', hmemory, tx, tx', code, htx, hserves, hout⟩ := handleRequest_serves h hw
      rw [hout]
      exact ⟨bank', .transfer hreads hsendAddr hfee hrecvAddr htx hserves, hmemory⟩
    | createUser hbubiAddr =>
      rw [if_neg (by decide), if_neg (by decide), if_neg (by decide), if_neg (by decide),
        if_pos rfl, hbubiAddr, ok_bind] at hr
      obtain ⟨v, hv, hr⟩ := bind_eq_ok.mp hr
      obtain ⟨w, hw, hv⟩ := bind_eq_ok.mp hv
      cases hr
      cases hv
      obtain ⟨bank', hmemory, hserves, hout⟩ := handleRequest_serves h hw
      rw [hout]
      exact ⟨bank', .createUser hreads hbubiAddr hserves, hmemory⟩
  | unknown hmethod hunknown =>
    rw [hmethod, ok_bind, if_neg (hunknown _), if_neg (hunknown _), if_neg (hunknown _),
      if_neg (hunknown _), if_neg (hunknown _)] at hr
    cases hr
    exact ⟨bank, .unknown ⟨hparse, hversion, hmethod⟩ hunknown, h⟩

/-- A peer's message is taken as by the bank. -/
theorem processMessage_takes (h : InMemory sha pb s bank) {message : BNetMessage}
    {r : State × Option Command} (hr : processMessage sha pb s message = .ok r) :
    ∃ bank', Takes sha pb codec extract print json bank (.message message) (.reply r.2) bank' ∧
      InMemory sha pb r.1 bank' := by
  unfold processMessage at hr
  split at hr
  next hcommand =>
    obtain ⟨tx, htx, hr⟩ := bind_eq_ok.mp hr
    obtain ⟨v, hv, hr⟩ := bind_eq_ok.mp hr
    cases hr
    obtain ⟨bank', hserves, hmemory, _⟩ := h.addTransactionEntry hv
    exact ⟨bank', .transferMessage hcommand htx hserves, hmemory⟩
  next htransaction =>
    split at hr
    next hcommand =>
      obtain ⟨v, hv, hr⟩ := bind_eq_ok.mp hr
      cases hr
      obtain ⟨bank', hserves, hmemory, _⟩ :=
        h.act (a := .createAccount message.data) (bind_eq_ok.mpr ⟨v, hv, rfl⟩)
      exact ⟨bank', .accountMessage hcommand hserves, hmemory⟩
    next haccount =>
      cases hr
      exact ⟨bank, .otherMessage (replyTo_eq_none.mpr ⟨htransaction, haccount⟩), h⟩

/-- A loaded ledger takes every input as a bank. -/
theorem serve_takes (h : InMemory sha pb s bank) {input : Input} {r : State × Response}
    (hr : serve sha pb codec extract print json s input = .ok r) :
    ∃ bank', Takes sha pb codec extract print json bank input r.2 bank' ∧
      InMemory sha pb r.1 bank' := by
  cases input with
  | request m vNodes data =>
    obtain ⟨v, hv, hr⟩ := bind_eq_ok.mp hr
    cases hr
    exact parseHandleJsonData_takes h hv
  | message message =>
    obtain ⟨v, hv, hr⟩ := bind_eq_ok.mp hr
    cases hr
    exact processMessage_takes h hv
  | timer =>
    obtain ⟨accs, haccs, hr⟩ := bind_eq_ok.mp hr
    cases hr
    obtain ⟨bank', hserves, hmemory, _⟩ :=
      h.act (a := .printAccounts) (bind_eq_ok.mpr ⟨accs, haccs, rfl⟩)
    cases hserves with
    | printAccounts hlists => exact ⟨bank, .timer hlists, hmemory⟩

/-- And so it takes inputs one after the other. -/
theorem serveAll_takesAll (h : InMemory sha pb s bank) {inputs : List Input}
    {r : State × List Response}
    (hr : serveAll sha pb codec extract print json s inputs = .ok r) :
    ∃ bank', TakesAll sha pb codec extract print json bank inputs r.2 bank' ∧
      InMemory sha pb r.1 bank' := by
  induction inputs generalizing s bank r with
  | nil =>
    cases hr
    exact ⟨bank, .nil bank, h⟩
  | cons input inputs ih =>
    obtain ⟨v, hv, hr⟩ := bind_eq_ok.mp hr
    obtain ⟨rest, hrest, hr⟩ := bind_eq_ok.mp hr
    cases hr
    obtain ⟨bank₁, htakes, h₁⟩ := serve_takes h hv
    obtain ⟨bank₂, hall, h₂⟩ := ih h₁ hrest
    exact ⟨bank₂, .cons htakes hall, h₂⟩

end Refinement

/-- A request of the served version, where the model is evaluated. -/
def servedRequest (method : Client.Method) (params : List (JsonKey × Client.SampleValue)) :
    Client.SampleValue :=
  Client.sampleRequest Client.version method.code
    (.object (params.map fun member => (member.1.name, member.2)))

/-- A reader of short requests. -/
def shortReader (data : Bytes) : Option Client.SampleValue :=
  match data with
  | [0x7b, name] => some (servedRequest .getBalance [(.bubiAddr, .string (sampleName name))])
  | [0x7b, source, destination] => some (servedRequest .transfer
      [(.sendAddr, .string (sampleName source)), (.fee, .string (ascii "70".toList)),
        (.receiveAddr, .string (sampleName destination))])
  | [] => none
  | _ => some (servedRequest .createUser [(.bubiAddr, .string (sampleName 3))])

/-- An account is created, a peer's message creates another one, and a client pays. -/
def sampleInputs : List Input :=
  [.request sampleSurroundings [] [0x7b, 0, 0, 0],
    .message (messageOf (Command.account, sampleName 4)),
    .request sampleSurroundings [] [0x7b, 3, 4], .request sampleSurroundings [] [0x7b, 1], .timer]

end Bubi.Service
