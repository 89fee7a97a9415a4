import Bubi.Base.Uint256
import Bubi.Core.Wire

/-!
# Accounts and transactions

The records of the ledger and their serialized form. Protobuf is a parameter: a message
parses back from its own serialization. Amounts and balances are exact numbers. The
addresses and hashes of a record are printed into its message, so a record is read back
by `binary_init`.
-/

namespace Bubi

/-- `SerializeToString` and `ParseFromString` of one message type; a failed parse leaves
some message as well. -/
structure Codec (β : Type) where
  serializeToString : β → Bytes
  parseFromString : Bytes → β
  parse_serialize : ∀ message, parseFromString (serializeToString message) = message

/-- A format with a parser of its own is a codec. -/
def Codec.ofWire {β : Type} [Inhabited β] (w : Core.Wire β) : Codec β where
  serializeToString := w.write
  parseFromString := w.parse
  parse_serialize := w.parse_write

/-- A codec whose messages start with a fixed byte. -/
def Codec.tag {β : Type} (byte : UInt8) (codec : Codec β) : Codec β where
  serializeToString := fun message => byte :: codec.serializeToString message
  parseFromString := fun bytes => codec.parseFromString bytes.tail
  parse_serialize := codec.parse_serialize

/-- `bubi::Account`. -/
structure AccountMessage where
  accountAddress : Bytes
  accountBalance : ℚ
  previousLedgerSeq : BitVec 32
  previousTxHash : Bytes
  deriving Inhabited

/-- `bubi::Transaction`. -/
structure TransactionMessage where
  sourceAddress : Bytes
  destinationAddress : Bytes
  paymentAmount : ℚ
  sourcePreviousLedgerSeq : BitVec 32
  sourcePreviousTxHash : Bytes
  destinationPreviousLedgerSeq : BitVec 32
  destinationPreviousTxHash : Bytes
  deriving Inhabited

/-- The messages that the ledger stores. -/
structure Protobuf where
  account : Codec AccountMessage
  transaction : Codec TransactionMessage

/-- A format that takes the place of protobuf where the model is evaluated. -/
def plainProtobuf : Protobuf where
  account := .ofWire <|
    (Core.Wire.bytes.pair (Core.Wire.rat.pair ((Core.Wire.bitVec 32).pair Core.Wire.bytes))).image
      (fun p => ⟨p.1, p.2.1, p.2.2.1, p.2.2.2⟩)
      (fun m => (m.accountAddress, m.accountBalance, m.previousLedgerSeq, m.previousTxHash))
      fun _ => rfl
  transaction := .ofWire <|
    (Core.Wire.bytes.pair (Core.Wire.bytes.pair (Core.Wire.rat.pair ((Core.Wire.bitVec 32).pair
      (Core.Wire.bytes.pair ((Core.Wire.bitVec 32).pair Core.Wire.bytes)))))).image
      (fun p => ⟨p.1, p.2.1, p.2.2.1, p.2.2.2.1, p.2.2.2.2.1, p.2.2.2.2.2.1, p.2.2.2.2.2.2⟩)
      (fun m => (m.sourceAddress, m.destinationAddress, m.paymentAmount, m.sourcePreviousLedgerSeq,
        m.sourcePreviousTxHash, m.destinationPreviousLedgerSeq, m.destinationPreviousTxHash))
      fun _ => rfl

/-- Protobuf writes the tag byte of field 1, the source address, before everything else. -/
def Protobuf.Tagged (pb : Protobuf) : Prop :=
  ∀ message, ∃ rest, pb.transaction.serializeToString message = 0x0A :: rest

/-- The same format with protobuf's first byte. -/
def taggedProtobuf : Protobuf where
  account := plainProtobuf.account
  transaction := plainProtobuf.transaction.tag 0x0A

theorem tagged_taggedProtobuf : taggedProtobuf.Tagged := fun _ => ⟨_, rfl⟩

/-- `Account`. -/
structure Account where
  /-- `account_address_`. -/
  accountAddress : Uint256
  /-- `account_balance_`. -/
  accountBalance : ℚ
  /-- `previous_ledger_seq_`. -/
  previousLedgerSeq : BitVec 32
  /-- `previous_tx_hash_`. -/
  previousTxHash : Uint256
  deriving DecidableEq

namespace Account

/-- `Account::add_balance`: the account after the call and the returned flag. -/
def addBalance (acc : Account) (amount : ℚ) : Account × Bool :=
  let tmp := acc.accountBalance + amount
  if tmp < 0 then (acc, false) else ({ acc with accountBalance := tmp }, true)

/-- `set_previous_ledger_seq` and `set_previous_tx_hash`. -/
def setPrevious (acc : Account) (seq : BitVec 32) (hash : Uint256) : Account :=
  { acc with previousLedgerSeq := seq, previousTxHash := hash }

/-- `Account::serializer`. -/
def serializer (pb : Protobuf) (acc : Account) : Bytes :=
  pb.account.serializeToString
    { accountAddress := acc.accountAddress.toString
      accountBalance := acc.accountBalance
      previousLedgerSeq := acc.previousLedgerSeq
      previousTxHash := acc.previousTxHash.toString }

/-- `Account::unserializer`. -/
def unserializer (pb : Protobuf) (str : Bytes) : Except Fault Account := do
  let acc := pb.account.parseFromString str
  let accountAddress ← Uint256.binaryInit acc.accountAddress
  let previousTxHash ← Uint256.binaryInit acc.previousTxHash
  .ok
    { accountAddress
      accountBalance := acc.accountBalance
      previousLedgerSeq := acc.previousLedgerSeq
      previousTxHash }

@[simp] theorem unserializer_serializer (pb : Protobuf) (acc : Account) :
    unserializer pb (acc.serializer pb) = .ok acc := by
  unfold unserializer serializer
  simp [pb.account.parse_serialize, Uint256.binaryInit_toString]

/-- A balance that would drop below zero stays. -/
theorem addBalance_of_lt {acc : Account} {amount : ℚ} (h : acc.accountBalance + amount < 0) :
    acc.addBalance amount = (acc, false) :=
  if_pos h

theorem addBalance_of_le {acc : Account} {amount : ℚ} (h : 0 ≤ acc.accountBalance + amount) :
    acc.addBalance amount = ({ acc with accountBalance := acc.accountBalance + amount }, true) :=
  if_neg (not_lt.mpr h)

@[simp] theorem addBalance_address (acc : Account) (amount : ℚ) :
    (acc.addBalance amount).1.accountAddress = acc.accountAddress := by
  rcases lt_or_ge (acc.accountBalance + amount) 0 with h | h
  · rw [addBalance_of_lt h]
  · rw [addBalance_of_le h]

@[simp] theorem setPrevious_address (acc : Account) (seq : BitVec 32) (hash : Uint256) :
    (acc.setPrevious seq hash).accountAddress = acc.accountAddress :=
  rfl

@[simp] theorem setPrevious_balance (acc : Account) (seq : BitVec 32) (hash : Uint256) :
    (acc.setPrevious seq hash).accountBalance = acc.accountBalance :=
  rfl

theorem addBalance_balance (acc : Account) (amount : ℚ) :
    (acc.addBalance amount).1.accountBalance =
      if acc.accountBalance + amount < 0 then acc.accountBalance
      else acc.accountBalance + amount := by
  rcases lt_or_ge (acc.accountBalance + amount) 0 with h | h
  · rw [addBalance_of_lt h, if_pos h]
  · rw [addBalance_of_le h, if_neg (not_lt.mpr h)]

/-- The source of a rejected transaction is kept. -/
theorem addBalance_neg_of_lt {acc : Account} {amount : ℚ} (h : acc.accountBalance - amount < 0) :
    acc.addBalance (-amount) = (acc, false) := by
  rw [sub_eq_add_neg] at h
  exact addBalance_of_lt h

theorem addBalance_neg_of_le {acc : Account} {amount : ℚ} (h : 0 ≤ acc.accountBalance - amount) :
    (acc.addBalance (-amount)).2 = true := by
  rw [sub_eq_add_neg] at h
  rw [addBalance_of_le h]

/-- The source of an accepted transaction pays the amount. -/
theorem addBalance_neg_balance {acc : Account} {amount : ℚ}
    (h : 0 ≤ acc.accountBalance - amount) :
    (acc.addBalance (-amount)).1.accountBalance = acc.accountBalance - amount := by
  rw [sub_eq_add_neg] at h ⊢
  rw [addBalance_of_le h]

end Account

/-- `Transaction`. The constructor leaves the four previous links uninitialised. -/
structure Transaction where
  /-- `source_address_`. -/
  sourceAddress : Uint256
  /-- `destination_address_`. -/
  destinationAddress : Uint256
  /-- `payment_amount_`. -/
  paymentAmount : ℚ
  /-- `source_previous_ledger_seq_`. -/
  sourcePreviousLedgerSeq : BitVec 32
  /-- `source_previous_tx_hash_`. -/
  sourcePreviousTxHash : Uint256
  /-- `destination_previous_ledger_seq_`. -/
  destinationPreviousLedgerSeq : BitVec 32
  /-- `destination_previous_tx_hash_`. -/
  destinationPreviousTxHash : Uint256
  deriving DecidableEq

namespace Transaction

/-- The four setters that `add_transaction_entry` calls with the links of the two accounts. -/
def setPrevious (tx : Transaction) (source destination : Account) : Transaction :=
  { tx with
    sourcePreviousLedgerSeq := source.previousLedgerSeq
    sourcePreviousTxHash := source.previousTxHash
    destinationPreviousLedgerSeq := destination.previousLedgerSeq
    destinationPreviousTxHash := destination.previousTxHash }

/-- The links of an account do not depend on its balance. -/
theorem setPrevious_addBalance (tx : Transaction) (source destination : Account) (x y : ℚ) :
    tx.setPrevious (source.addBalance x).1 (destination.addBalance y).1 =
      tx.setPrevious source destination := by
  have hlinks : ∀ (acc : Account) (z : ℚ),
      (acc.addBalance z).1.previousLedgerSeq = acc.previousLedgerSeq ∧
        (acc.addBalance z).1.previousTxHash = acc.previousTxHash := by
    intro acc z
    rcases lt_or_ge (acc.accountBalance + z) 0 with h | h
    · simp [Account.addBalance_of_lt h]
    · simp [Account.addBalance_of_le h]
  simp [setPrevious, hlinks]

/-- `Transaction::serializer`. -/
def serializer (pb : Protobuf) (tx : Transaction) : Bytes :=
  pb.transaction.serializeToString
    { sourceAddress := tx.sourceAddress.toString
      destinationAddress := tx.destinationAddress.toString
      paymentAmount := tx.paymentAmount
      sourcePreviousLedgerSeq := tx.sourcePreviousLedgerSeq
      sourcePreviousTxHash := tx.sourcePreviousTxHash.toString
      destinationPreviousLedgerSeq := tx.destinationPreviousLedgerSeq
      destinationPreviousTxHash := tx.destinationPreviousTxHash.toString }

/-- `Transaction::unserializer`. -/
def unserializer (pb : Protobuf) (str : Bytes) : Except Fault Transaction := do
  let tx := pb.transaction.parseFromString str
  let sourceAddress ← Uint256.binaryInit tx.sourceAddress
  let destinationAddress ← Uint256.binaryInit tx.destinationAddress
  let sourcePreviousTxHash ← Uint256.binaryInit tx.sourcePreviousTxHash
  let destinationPreviousTxHash ← Uint256.binaryInit tx.destinationPreviousTxHash
  .ok
    { sourceAddress
      destinationAddress
      paymentAmount := tx.paymentAmount
      sourcePreviousLedgerSeq := tx.sourcePreviousLedgerSeq
      sourcePreviousTxHash
      destinationPreviousLedgerSeq := tx.destinationPreviousLedgerSeq
      destinationPreviousTxHash }

@[simp] theorem unserializer_serializer (pb : Protobuf) (tx : Transaction) :
    unserializer pb (tx.serializer pb) = .ok tx := by
  unfold unserializer serializer
  simp [pb.transaction.parse_serialize, Uint256.binaryInit_toString]

theorem serializer_injective (pb : Protobuf) : Function.Injective (serializer pb) := by
  intro tx tx' h
  have hback := congrArg (unserializer pb) h
  rw [unserializer_serializer, unserializer_serializer] at hback
  exact Except.ok.inj hback

end Transaction

/-- An account's name where the model is evaluated, long enough for checksums to differ early. -/
def sampleName (byte : UInt8) : Bytes := List.replicate 33 byte

/-- A transaction between two such accounts, before its links are set. -/
def samplePayment (source destination : UInt8) (amount : ℚ) : Transaction where
  sourceAddress := checksum (sampleName source)
  destinationAddress := checksum (sampleName destination)
  paymentAmount := amount
  sourcePreviousLedgerSeq := 0
  sourcePreviousTxHash := Uint256.zero
  destinationPreviousLedgerSeq := 0
  destinationPreviousTxHash := Uint256.zero

end Bubi
