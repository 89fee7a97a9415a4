import Bubi.Ledger.Effect
import Bubi.Net.Handler

/-!
# The requests of clients

`ParseHandleJsonData` reads a client's request with jsoncpp, calls the ledger and writes an
object as its answer. It has a `return` in the arms of the methods 1000, 1001 and 1004 and
of the methods that it does not know. Control reaches the end of the function for data that
is no JSON, for another version of the client and for the methods 1002 and 1003. Where it
returns, error code 1 stands for a transfer or an account that was added.
-/

namespace Bubi

open Bubi.Core Process

/-- The keys of requests and answers. -/
inductive JsonKey where
  | versionClient
  | methodType
  | params
  | bubiAddr
  | sendAddr
  | fee
  | receiveAddr
  | errCode
  | msg
  | data
  | balance
  | transNo
  deriving DecidableEq

/-- The text of a key. -/
def JsonKey.name : JsonKey → Bytes
  | .versionClient => ascii "versionClient".toList
  | .methodType => ascii "methodType".toList
  | .params => ascii "params".toList
  | .bubiAddr => ascii "bubiAddr".toList
  | .sendAddr => ascii "sendAddr".toList
  | .fee => ascii "fee".toList
  | .receiveAddr => ascii "receive_addr".toList
  | .errCode => ascii "errCode".toList
  | .msg => ascii "msg".toList
  | .data => ascii "data".toList
  | .balance => ascii "balance".toList
  | .transNo => ascii "transNo".toList

/-- The parts of jsoncpp that are called. What an assertion of the library stops is a fault. -/
structure JsonLibrary where
  /-- `Json::Value`. -/
  Value : Type
  /-- `Reader::parse`, without a value where it returns false. -/
  parse : Bytes → Option Value
  /-- `Value::operator[]` where a member is read. The member that it inserts where there is
  none is not visible to later reads: they give the same null. -/
  get : Value → Bytes → Except Fault Value
  /-- `Value::asString`. -/
  asString : Value → Except Fault Bytes
  /-- The default constructor of `Value`. -/
  null : Value
  /-- The constructor of `Value` from a text. -/
  ofString : Bytes → Value
  /-- What assignments to members through `operator[]` make of a null value. -/
  object : List (Bytes × Value) → Value
  /-- `FastWriter::write`. -/
  write : Value → Bytes

namespace JsonLibrary

/-- What the answers need of the library: a member that was assigned is read back, and so is a
text without a null character. -/
structure Faithful (json : JsonLibrary) : Prop where
  get_object : ∀ (members : List (Bytes × json.Value)) (key : Bytes),
    (members.map Prod.fst).Nodup →
      json.get (json.object members) key = .ok ((members.lookup key).getD json.null)
  asString_ofString : ∀ s : Bytes, 0 ∉ s → json.asString (json.ofString s) = .ok s

variable (json : JsonLibrary)

/-- The value behind some keys. -/
def follow (root : json.Value) (keys : List JsonKey) : Except Fault json.Value :=
  keys.foldlM (fun value key => json.get value key.name) root

/-- The string behind some keys. -/
def text (root : json.Value) (keys : List JsonKey) : Except Fault Bytes := do
  let value ← json.follow root keys
  json.asString value

/-- An object with the given members. -/
def ofMembers (members : List (JsonKey × json.Value)) : json.Value :=
  json.object (members.map fun member => (member.1.name, member.2))

end JsonLibrary

namespace Client

/-- The version of the clients that are served. -/
def version : Bytes := ascii "1.0".toList

/-- The methods of clients. -/
inductive Method where
  | getBalance
  | transfer
  | unused1002
  | unused1003
  | createUser
  deriving DecidableEq

/-- The text of a method. -/
def Method.code : Method → Bytes
  | .getBalance => ascii "1000".toList
  | .transfer => ascii "1001".toList
  | .unused1002 => ascii "1002".toList
  | .unused1003 => ascii "1003".toList
  | .createUser => ascii "1004".toList

section Model

variable (sha : Bytes → Uint256) (pb : Protobuf) (codec : MessageCodec)
  (extract : Bytes → Option ℚ) (print : ℚ → Bytes) (json : JsonLibrary)

/-- The answer to a request of method 1001 or 1004. -/
def members (o : Output) : List (JsonKey × json.Value) :=
  [(.errCode, json.ofString o.errCode), (.msg, json.ofString o.msg),
    (.data, match o.transNo with
      | none => json.null
      | some transid => json.ofMembers [(.transNo, json.ofString transid)])]

/-- `ParseHandleJsonData`; the text of a balance is given by `print`. -/
def parseHandleJsonData (m : Surroundings) (p : Process) (data : Bytes) :
    Except Fault (Process × Bytes) :=
  match json.parse data with
  | none => .error .noReturn
  | some root => do
    let versionClient ← json.text root [.versionClient]
    if versionClient = version then do
      let method ← json.text root [.methodType]
      if method = Method.getBalance.code then do
        let accPub ← json.text root [.params, .bubiAddr]
        let r ← Ledger.getBalance sha pb p.lastLedger accPub
        let address ← json.follow root [.params, .bubiAddr]
        .ok ({ p with lastLedger := r.1 }, json.write (json.ofMembers
          [(.errCode, json.ofString (ascii ['1'])),
            (.msg, json.ofString (ascii "success".toList)),
            (.data, json.ofMembers
              [(.bubiAddr, address), (.balance, json.ofString (print r.2))])]))
      else if method = Method.transfer.code then do
        let sendAddr ← json.text root [.params, .sendAddr]
        let fee ← json.text root [.params, .fee]
        let recvAddr ← json.text root [.params, .receiveAddr]
        let r ← Process.parseHandleJsonData sha pb codec extract m p
          (.transfer sendAddr fee recvAddr)
        .ok (r.1, json.write (json.ofMembers (members json r.2)))
      else if method = Method.unused1002.code then .error .noReturn
      else if method = Method.unused1003.code then .error .noReturn
      else if method = Method.createUser.code then do
        let bubiAddr ← json.text root [.params, .bubiAddr]
        let r ← Process.parseHandleJsonData sha pb codec extract m p (.createUser bubiAddr)
        .ok (r.1, json.write (json.ofMembers (members json r.2)))
      else
        .ok (p, json.write (json.ofMembers
          [(.errCode, json.ofString (ascii ['0'])),
            (.msg, json.ofString (ascii "the methodType does not exits".toList))]))
    else .error .noReturn

/-- A call of the ledger. -/
inductive LedgerCall where
  | getBalance (accPub : Bytes)
  | addTransactionEntry (tx : Transaction)
  | createAccount (accPub : Bytes)

/-- A call returns. -/
def Returns (s : Ledger.State) : LedgerCall → Prop
  | .getBalance accPub => ∃ r, Ledger.getBalance sha pb s accPub = .ok r
  | .addTransactionEntry tx => ∃ r, Ledger.addTransactionEntry sha pb s tx = .ok r
  | .createAccount accPub => ∃ r, Ledger.createAccount sha pb s accPub = .ok r

/-- Error code 1 stands for a transfer or an account that was added. -/
def Truthful (s s' : Ledger.State) (code : Bytes) : LedgerCall → Prop
  | .getBalance _ => True
  | .addTransactionEntry _ => code = ascii ['1'] ↔ Ledger.TransactionTreeChanged s s'
  | .createAccount _ => code = ascii ['1'] ↔ Ledger.AccountTreeChanged s s'

/-- The parameters of the methods that have an answer, with the call that they trigger. -/
inductive Parameters (m : Surroundings) (root : json.Value) :
    Method → LedgerCall → Prop where
  | getBalance {accPub : Bytes} (haccPub : json.text root [.params, .bubiAddr] = .ok accPub) :
    Parameters m root .getBalance (.getBalance accPub)
  | transfer {source amount destination : Bytes} {tx : Transaction}
    (hsource : json.text root [.params, .sendAddr] = .ok source)
    (hamount : json.text root [.params, .fee] = .ok amount)
    (hdestination : json.text root [.params, .receiveAddr] = .ok destination)
    (htx : newTransaction sha extract m source amount destination = .ok tx) :
    Parameters m root .transfer (.addTransactionEntry tx)
  | createUser {accPub : Bytes} (haccPub : json.text root [.params, .bubiAddr] = .ok accPub) :
    Parameters m root .createUser (.createAccount accPub)

/-- The requests that have an answer, with the call that they trigger. -/
inductive Asks (m : Surroundings) (root : json.Value) : Option LedgerCall → Prop where
  | known {method : Method} {call : LedgerCall}
    (hmethod : json.text root [.methodType] = .ok method.code)
    (hparameters : Parameters sha extract json m root method call) : Asks m root (some call)
  | unknown {code : Bytes} (hmethod : json.text root [.methodType] = .ok code)
    (hunknown : ∀ method : Method, code ≠ method.code) : Asks m root none

/-- Data that is a request with an answer. -/
def Served (m : Surroundings) (data : Bytes) (call : Option LedgerCall) : Prop :=
  ∃ root, json.parse data = some root ∧ json.text root [.versionClient] = .ok version ∧
    Asks sha extract json m root call

/-- Whenever the call of the ledger that it triggers returns, `ParseHandleJsonData` returns an
object with an error code that tells whether the call was applied. -/
def Answers (m : Surroundings) (p : Process) (data : Bytes) : Prop :=
  (∀ call, Served sha extract json m data (some call) → Returns sha pb p.lastLedger call) →
    ∃ p' members code,
      parseHandleJsonData sha pb codec extract print json m p data =
        .ok (p', json.write (json.ofMembers members)) ∧
      json.text (json.ofMembers members) [.errCode] = .ok code ∧
      ∀ call, Served sha extract json m data (some call) →
        Truthful p.lastLedger p'.lastLedger code call

/-- The parameters of a method can be read; the addresses of a transfer are below the length of
a `Serializer`. The methods 1002 and 1003 have no answer with any parameters. -/
def Readable (root : json.Value) : Method → Prop
  | .getBalance => ∃ accPub, json.text root [.params, .bubiAddr] = .ok accPub
  | .transfer => ∃ sendAddr fee recvAddr, json.text root [.params, .sendAddr] = .ok sendAddr ∧
      json.text root [.params, .fee] = .ok fee ∧
      json.text root [.params, .receiveAddr] = .ok recvAddr ∧
      sendAddr.length < 2 ^ 31 ∧ recvAddr.length < 2 ^ 31
  | .unused1002 => False
  | .unused1003 => False
  | .createUser => ∃ bubiAddr, json.text root [.params, .bubiAddr] = .ok bubiAddr

end Model

section Answers

variable {sha : Bytes → Uint256} {pb : Protobuf} {codec : MessageCodec}
  {extract : Bytes → Option ℚ} {print : ℚ → Bytes} {json : JsonLibrary} {m : Surroundings}
  {p : Process} {data : Bytes} {root : json.Value}

theorem Method.code_injective : Function.Injective Method.code := by
  intro a b h
  cases a <;> cases b <;> first | rfl | exact absurd h (by decide)

theorem Parameters.unique {method : Method} {call call' : LedgerCall}
    (h : Parameters sha extract json m root method call)
    (h' : Parameters sha extract json m root method call') : call = call' := by
  cases h with
  | getBalance haccPub =>
    cases h' with
    | getBalance haccPub' => rw [Except.ok.inj (haccPub.symm.trans haccPub')]
  | transfer hsource hamount hdestination htx =>
    cases h' with
    | transfer hsource' hamount' hdestination' htx' =>
      cases hsource.symm.trans hsource'
      cases hamount.symm.trans hamount'
      cases hdestination.symm.trans hdestination'
      rw [Except.ok.inj (htx.symm.trans htx')]
  | createUser haccPub =>
    cases h' with
    | createUser haccPub' => rw [Except.ok.inj (haccPub.symm.trans haccPub')]

/-- A request triggers one call. -/
theorem Asks.unique {call call' : Option LedgerCall} (h : Asks sha extract json m root call)
    (h' : Asks sha extract json m root call') : call = call' := by
  cases h with
  | known hmethod hparameters =>
    cases h' with
    | known hmethod' hparameters' =>
      cases Method.code_injective (Except.ok.inj (hmethod.symm.trans hmethod'))
      rw [hparameters.unique hparameters']
    | unknown hmethod' hunknown =>
      exact absurd (Except.ok.inj (hmethod'.symm.trans hmethod)) (hunknown _)
  | unknown hmethod hunknown =>
    cases h' with
    | known hmethod' =>
      exact absurd (Except.ok.inj (hmethod.symm.trans hmethod')) (hunknown _)
    | unknown => rfl

theorem Served.unique {call call' : Option LedgerCall} (h : Served sha extract json m data call)
    (h' : Served sha extract json m data call') : call = call' := by
  obtain ⟨root, hparse, _, hasks⟩ := h
  obtain ⟨root', hparse', _, hasks'⟩ := h'
  cases hparse.symm.trans hparse'
  exact hasks.unique hasks'

/-- Only requests with an answer are answered. -/
theorem served_of_ok {r : Process × Bytes}
    (h : parseHandleJsonData sha pb codec extract print json m p data = .ok r) :
    ∃ call, Served sha extract json m data call := by
  unfold parseHandleJsonData at h
  split at h
  · cases h
  · rename_i root hparse
    obtain ⟨versionClient, hversion, h⟩ := bind_eq_ok.mp h
    split at h
    · rename_i hserved
      rw [hserved] at hversion
      obtain ⟨code, hmethod, h⟩ := bind_eq_ok.mp h
      have hknown : ∀ {method : Method} {call : LedgerCall}, code = method.code →
          Parameters sha extract json m root method call →
          ∃ call, Served sha extract json m data call := by
        intro method call hcode hparameters
        exact ⟨_, root, hparse, hversion, .known (hcode ▸ hmethod) hparameters⟩
      split at h
      · rename_i hcode
        obtain ⟨accPub, haccPub, _⟩ := bind_eq_ok.mp h
        exact hknown hcode (.getBalance haccPub)
      · rename_i hgetBalance
        split at h
        · rename_i hcode
          obtain ⟨source, hsource, h⟩ := bind_eq_ok.mp h
          obtain ⟨amount, hamount, h⟩ := bind_eq_ok.mp h
          obtain ⟨destination, hdestination, h⟩ := bind_eq_ok.mp h
          obtain ⟨v, hv, _⟩ := bind_eq_ok.mp h
          obtain ⟨w, hw, _⟩ := bind_eq_ok.mp hv
          obtain ⟨tx, htx, _⟩ := bind_eq_ok.mp hw
          exact hknown hcode (.transfer hsource hamount hdestination htx)
        · rename_i htransfer
          split at h
          · cases h
          · rename_i hunused
            split at h
            · cases h
            · rename_i hunused'
              split at h
              · rename_i hcode
                obtain ⟨accPub, haccPub, _⟩ := bind_eq_ok.mp h
                exact hknown hcode (.createUser haccPub)
              · rename_i hcreateUser
                refine ⟨none, root, hparse, hversion, .unknown hmethod fun method => ?_⟩
                cases method with
                | getBalance => exact hgetBalance
                | transfer => exact htransfer
                | unused1002 => exact hunused
                | unused1003 => exact hunused'
                | createUser => exact hcreateUser
    · cases h

/-- The error code that was assigned is read back. -/
theorem text_errCode (hjson : json.Faithful) {code : Bytes} (hcode : 0 ∉ code)
    {rest : List (JsonKey × json.Value)}
    (hkeys : (((JsonKey.errCode, json.ofString code) :: rest).map
      fun member => member.1.name).Nodup) :
    json.text (json.ofMembers ((.errCode, json.ofString code) :: rest)) [.errCode] =
      .ok code := by
  have hget := hjson.get_object (((JsonKey.errCode, json.ofString code) :: rest).map
    fun member => (member.1.name, member.2)) JsonKey.errCode.name (by rwa [List.map_map])
  rw [List.map_cons, List.lookup_cons_self, Option.getD_some] at hget
  unfold JsonLibrary.text JsonLibrary.follow JsonLibrary.ofMembers
  rw [List.foldlM_cons, List.map_cons, hget, ok_bind, List.foldlM_nil]
  exact hjson.asString_ofString code hcode

theorem text_members (hjson : json.Faithful) {success : Bool} {transNo : Option Bytes} :
    json.text (json.ofMembers (members json (answer success transNo))) [.errCode] =
      .ok (answer success transNo).errCode := by
  refine text_errCode hjson ?_ ?_
  · cases success with
    | false => exact (by decide : (0 : UInt8) ∉ ascii ['0'])
    | true => exact (by decide : (0 : UInt8) ∉ ascii ['1'])
  · simp only [List.map_cons, List.map_nil]
    decide

/-- A request whose call returns is answered with the truth. -/
theorem answered_of_served (hjson : json.Faithful) {call : Option LedgerCall}
    (h : Served sha extract json m data call)
    (hreturns : ∀ c ∈ call, Returns sha pb p.lastLedger c) :
    ∃ p' members code,
      parseHandleJsonData sha pb codec extract print json m p data =
        .ok (p', json.write (json.ofMembers members)) ∧
      json.text (json.ofMembers members) [.errCode] = .ok code ∧
      ∀ c ∈ call, Truthful p.lastLedger p'.lastLedger code c := by
  obtain ⟨root, hparse, hversion, hasks⟩ := h
  unfold parseHandleJsonData
  simp only [hparse, hversion, ok_bind, if_pos]
  cases hasks with
  | known hmethod hparameters =>
    rw [hmethod, ok_bind]
    cases hparameters with
    | getBalance haccPub =>
      obtain ⟨r, hr⟩ := hreturns _ rfl
      obtain ⟨address, haddress, _⟩ := bind_eq_ok.mp haccPub
      rw [if_pos rfl, haccPub, ok_bind, hr, ok_bind, haddress, ok_bind]
      refine ⟨_, _, _, rfl, text_errCode hjson (by decide) ?_, fun c hc => ?_⟩
      · simp only [List.map_cons, List.map_nil]
        decide
      · cases hc
        trivial
    | transfer hsource hamount hdestination htx =>
      obtain ⟨r, hr⟩ := hreturns _ rfl
      rw [if_neg (by decide), if_pos rfl, hsource, ok_bind, hamount, ok_bind, hdestination, ok_bind]
      simp only [Process.parseHandleJsonData, handleRequest, htx, hr, ok_bind]
      refine ⟨_, _, _, rfl, text_members hjson, fun c hc => ?_⟩
      cases hc
      refine errCode_answer_one.trans (decide_eq_true_iff.trans ?_)
      exact Ledger.addTransactionEntry_zero_iff hr
    | createUser haccPub =>
      obtain ⟨r, hr⟩ := hreturns _ rfl
      rw [if_neg (by decide), if_neg (by decide), if_neg (by decide), if_neg (by decide),
        if_pos rfl, haccPub, ok_bind]
      simp only [Process.parseHandleJsonData, handleRequest, hr, ok_bind]
      refine ⟨_, _, _, rfl, text_members hjson, fun c hc => ?_⟩
      cases hc
      exact iff_of_true rfl (Ledger.createAccount_changes hr)
  | unknown hmethod hunknown =>
    rw [hmethod, ok_bind, if_neg (hunknown _), if_neg (hunknown _), if_neg (hunknown _),
      if_neg (hunknown _), if_neg (hunknown _)]
    refine ⟨_, _, _, rfl, text_errCode hjson (by decide) ?_, fun c hc => ?_⟩
    · simp only [List.map_cons, List.map_nil]
      decide
    · cases hc

theorem served_of_answers (h : Answers sha pb codec extract print json m p data) :
    ∃ call, Served sha extract json m data call := by
  by_contra hserved
  obtain ⟨p', members, code, hok, _⟩ := h fun call hcall => absurd ⟨some call, hcall⟩ hserved
  exact hserved (served_of_ok hok)

/-- The addresses of a transfer are read by serializers. -/
theorem exists_newTransaction {source amount destination : Bytes} :
    (∃ tx, newTransaction sha extract m source amount destination = .ok tx) ↔
      source.length < 2 ^ 31 ∧ destination.length < 2 ^ 31 := by
  constructor
  · rintro ⟨tx, htx⟩
    obtain ⟨ser, hser, htx⟩ := bind_eq_ok.mp htx
    obtain ⟨ds, hds, _⟩ := bind_eq_ok.mp htx
    exact ⟨Ledger.ofString_ok hser ▸ ser.2, Ledger.ofString_ok hds ▸ ds.2⟩
  · rintro ⟨hsource, hdestination⟩
    unfold newTransaction Serializer.ofString
    rw [dif_pos hsource, dif_pos hdestination]
    exact ⟨_, rfl⟩

theorem exists_parameters_iff {method : Method} :
    (∃ call, Parameters sha extract json m root method call) ↔ Readable json root method := by
  constructor
  · rintro ⟨call, hparameters⟩
    cases hparameters with
    | getBalance haccPub => exact ⟨_, haccPub⟩
    | transfer hsource hamount hdestination htx =>
      exact ⟨_, _, _, hsource, hamount, hdestination, exists_newTransaction.mp ⟨_, htx⟩⟩
    | createUser haccPub => exact ⟨_, haccPub⟩
  · intro h
    cases method with
    | getBalance =>
      obtain ⟨accPub, haccPub⟩ := h
      exact ⟨_, .getBalance haccPub⟩
    | transfer =>
      obtain ⟨sendAddr, fee, recvAddr, hsendAddr, hfee, hrecvAddr, hlengths⟩ := h
      obtain ⟨tx, htx⟩ := exists_newTransaction.mpr hlengths
      exact ⟨_, .transfer hsendAddr hfee hrecvAddr htx⟩
    | unused1002 => exact h.elim
    | unused1003 => exact h.elim
    | createUser =>
      obtain ⟨bubiAddr, hbubiAddr⟩ := h
      exact ⟨_, .createUser hbubiAddr⟩

/-- The requests that have an answer, read off the data. -/
theorem exists_served_iff :
    (∃ call, Served sha extract json m data call) ↔
      ∃ root code, json.parse data = some root ∧
        json.text root [.versionClient] = .ok version ∧
        json.text root [.methodType] = .ok code ∧
        ∀ method : Method, code = method.code → Readable json root method := by
  constructor
  · rintro ⟨call, root, hparse, hversion, hasks⟩
    cases hasks with
    | known hmethod hparameters =>
      refine ⟨root, _, hparse, hversion, hmethod, fun method hcode => ?_⟩
      cases Method.code_injective hcode
      exact exists_parameters_iff.mp ⟨_, hparameters⟩
    | unknown hmethod hunknown =>
      exact ⟨root, _, hparse, hversion, hmethod, fun method hcode => absurd hcode (hunknown method)⟩
  · rintro ⟨root, code, hparse, hversion, hmethod, hreadable⟩
    by_cases hknown : ∃ method : Method, code = method.code
    · obtain ⟨method, rfl⟩ := hknown
      obtain ⟨call, hparameters⟩ :=
        (@exists_parameters_iff sha extract json m root method).mpr
          (hreadable method rfl)
      exact ⟨_, root, hparse, hversion, .known hmethod hparameters⟩
    · refine ⟨none, root, hparse, hversion, .unknown hmethod fun method hcode => ?_⟩
      exact hknown ⟨method, hcode⟩

end Answers

/-- For every ledger and every string that starts with a brace: whenever the call of the ledger
that it triggers returns, the request is answered by an object with an error code that tells
whether the call was applied, exactly when the string is JSON, the version is 1.0, and the method
is an unknown one or 1000, 1001 or 1004 with parameters that can be read. -/
theorem request_answered_iff (sha : Bytes → Uint256) (pb : Protobuf) (codec : MessageCodec)
    (extract : Bytes → Option ℚ) (print : ℚ → Bytes) (json : JsonLibrary) (hjson : json.Faithful)
    (m : Surroundings) (p : Process) (rest : Bytes) :
    Answers sha pb codec extract print json m p (0x7b :: rest) ↔
      ∃ root code, json.parse (0x7b :: rest) = some root ∧
        json.text root [.versionClient] = .ok version ∧
        json.text root [.methodType] = .ok code ∧
        ∀ method : Method, code = method.code → Readable json root method := by
  rw [← @exists_served_iff sha extract json m]
  constructor
  · exact served_of_answers
  · rintro ⟨call, hserved⟩ hreturns
    obtain ⟨p', members, code, hok, hcode, htruthful⟩ := answered_of_served hjson hserved
      fun c hc => hreturns c (Option.mem_def.mp hc ▸ hserved)
    refine ⟨p', members, code, hok, hcode, fun c hc => htruthful c ?_⟩
    exact hserved.unique hc

/-- Texts and objects, as the values of a library where the model is evaluated. -/
inductive SampleValue where
  | null
  | string (s : Bytes)
  | object (members : List (Bytes × SampleValue))

/-- A member of a sample value. -/
def SampleValue.get (value : SampleValue) (key : Bytes) : Except Fault SampleValue :=
  match value with
  | .null => .ok .null
  | .string _ => .error .assertion
  | .object members => .ok ((members.lookup key).getD .null)

/-- The text of a sample value. -/
def SampleValue.asString : SampleValue → Except Fault Bytes
  | .null => .ok []
  | .string s => .ok s
  | .object _ => .error .assertion

/-- The library of these values with a given reader. -/
def sampleLibrary (parse : Bytes → Option SampleValue) : JsonLibrary where
  Value := SampleValue
  parse := parse
  get := SampleValue.get
  asString := SampleValue.asString
  null := .null
  ofString := .string
  object := .object
  write _ := []

theorem faithful_sampleLibrary (parse : Bytes → Option SampleValue) :
    (sampleLibrary parse).Faithful :=
  ⟨fun _ _ _ => rfl, fun _ _ => rfl⟩

/-- An object with a version and a method, as a request of a client. -/
def sampleRequest (versionClient methodType : Bytes) (params : SampleValue) : SampleValue :=
  .object [(JsonKey.versionClient.name, .string versionClient),
    (JsonKey.methodType.name, .string methodType), (JsonKey.params.name, params)]

/-- A request of method 1005. -/
def unknownRequest : Bytes :=
  ascii "\x7b\"versionClient\":\"1.0\",\"methodType\":\"1005\"\x7d".toList

/-- A request of method 1002. -/
def unusedRequest : Bytes :=
  ascii "\x7b\"versionClient\":\"1.0\",\"methodType\":\"1002\"\x7d".toList

/-- A request of another version. -/
def oldRequest : Bytes :=
  ascii "\x7b\"versionClient\":\"0.9\",\"methodType\":\"1000\"\x7d".toList

/-- A reader of these requests. -/
def sampleReader (data : Bytes) : Option SampleValue :=
  if data = unknownRequest then some (sampleRequest version (ascii "1005".toList) .null)
  else if data = unusedRequest then some (sampleRequest version Method.unused1002.code .null)
  else if data = oldRequest then
    some (sampleRequest (ascii "0.9".toList) Method.getBalance.code .null)
  else none

theorem request_answered_unknown :
    ∃ l, Ledger.new checksum = .ok l ∧
      Answers checksum plainProtobuf plainMessages decimal (fun _ => [])
        (sampleLibrary sampleReader) sampleSurroundings ⟨(fun _ => none, l), []⟩
        unknownRequest := by
  obtain ⟨l, hl⟩ : ∃ l, Ledger.new checksum = .ok l := ⟨_, rfl⟩
  refine ⟨l, hl, ?_⟩
  have hbrace : unknownRequest = 0x7b :: unknownRequest.tail := rfl
  rw [hbrace, request_answered_iff _ _ _ _ _ _ (faithful_sampleLibrary sampleReader)]
  have hread : sampleReader unknownRequest =
      some (sampleRequest version (ascii "1005".toList) .null) := if_pos rfl
  refine ⟨_, ascii "1005".toList, hread, rfl, rfl, fun method hcode => ?_⟩
  -- No method has this code.
  cases method <;> exact absurd hcode (by decide)

/-- An unused method, another version and a single brace end without a `return`. -/
theorem requests_unanswered :
    ∃ l, Ledger.new checksum = .ok l ∧
      ∀ data ∈ [unusedRequest, oldRequest, [0x7b]], data.head? = some 0x7b ∧
        ¬ Answers checksum plainProtobuf plainMessages decimal (fun _ => [])
          (sampleLibrary sampleReader) sampleSurroundings ⟨(fun _ => none, l), []⟩ data := by
  obtain ⟨l, hl⟩ : ∃ l, Ledger.new checksum = .ok l := ⟨_, rfl⟩
  refine ⟨l, hl, fun data hdata => ?_⟩
  simp only [List.mem_cons, List.not_mem_nil, or_false] at hdata
  rcases hdata with rfl | rfl | rfl
  · refine ⟨by decide, fun hanswers => ?_⟩
    obtain ⟨root, code, hparse, _, hmethod, hreadable⟩ :=
      exists_served_iff.mp (served_of_answers hanswers)
    have hread : sampleReader unusedRequest = some root := hparse
    rw [sampleReader, if_neg (by decide), if_pos rfl] at hread
    cases hread
    exact hreadable .unused1002 (Except.ok.inj hmethod).symm
  · refine ⟨by decide, fun hanswers => ?_⟩
    obtain ⟨root, code, hparse, hversion, _⟩ :=
      exists_served_iff.mp (served_of_answers hanswers)
    have hread : sampleReader oldRequest = some root := hparse
    rw [sampleReader, if_neg (by decide), if_neg (by decide), if_pos rfl] at hread
    cases hread
    have hother : (Except.ok (ascii "0.9".toList) : Except Fault Bytes) = .ok version := hversion
    exact absurd (Except.ok.inj hother) (by decide)
  · refine ⟨by decide, fun hanswers => ?_⟩
    obtain ⟨root, code, hparse, _⟩ := exists_served_iff.mp (served_of_answers hanswers)
    have hread : sampleReader [0x7b] = some root := hparse
    rw [sampleReader, if_neg (by decide), if_neg (by decide), if_neg (by decide)] at hread
    cases hread

end Client

end Bubi
