import Bubi.Ledger.Records

/-!
# The stored form of accounts and transactions

`serializer` prints the addresses and hashes of a record into its message, and
`unserializer` reads them back. The number of a record is only handed on, so here it is of
any type; the records of the ledger are those with exact numbers.
-/

namespace Bubi

/-- The fields of an account, with its balance in `ν` and its address and hash in `α`: printed
in `bubi::Account`, and 256-bit values in `Account`. -/
structure AccountFields (ν α : Type) where
  accountAddress : α
  accountBalance : ν
  previousLedgerSeq : BitVec 32
  previousTxHash : α

/-- The fields of a transaction, likewise. -/
structure TransactionFields (ν α : Type) where
  sourceAddress : α
  destinationAddress : α
  paymentAmount : ν
  sourcePreviousLedgerSeq : BitVec 32
  sourcePreviousTxHash : α
  destinationPreviousLedgerSeq : BitVec 32
  destinationPreviousTxHash : α

/-- What can be read back is written differently. -/
theorem injective_of_read {β : Type} {write : β → Bytes} {read : Bytes → Except Fault β}
    (h : ∀ v, read (write v) = .ok v) : Function.Injective write := by
  intro v v' heq
  have hv := h v
  rw [heq, h v'] at hv
  exact (Except.ok.inj hv).symm

variable {ν : Type}

namespace AccountFields

/-- `Account::serializer`. -/
def serializer (codec : Codec (AccountFields ν Bytes)) (acc : AccountFields ν Uint256) : Bytes :=
  codec.serializeToString
    { accountAddress := acc.accountAddress.toString
      accountBalance := acc.accountBalance
      previousLedgerSeq := acc.previousLedgerSeq
      previousTxHash := acc.previousTxHash.toString }

/-- `Account::unserializer`. -/
def unserializer (codec : Codec (AccountFields ν Bytes)) (str : Bytes) :
    Except Fault (AccountFields ν Uint256) := do
  let acc := codec.parseFromString str
  let accountAddress ← Uint256.binaryInit acc.accountAddress
  let previousTxHash ← Uint256.binaryInit acc.previousTxHash
  .ok
    { accountAddress
      accountBalance := acc.accountBalance
      previousLedgerSeq := acc.previousLedgerSeq
      previousTxHash }

theorem read_serializer (codec : Codec (AccountFields ν Bytes)) (acc : AccountFields ν Uint256) :
    unserializer codec (serializer codec acc) = .ok acc := by
  unfold unserializer serializer
  simp [codec.parse_serialize, Uint256.binaryInit_toString]

end AccountFields

namespace TransactionFields

/-- `Transaction::serializer`. -/
def serializer (codec : Codec (TransactionFields ν Bytes)) (tx : TransactionFields ν Uint256) :
    Bytes :=
  codec.serializeToString
    { sourceAddress := tx.sourceAddress.toString
      destinationAddress := tx.destinationAddress.toString
      paymentAmount := tx.paymentAmount
      sourcePreviousLedgerSeq := tx.sourcePreviousLedgerSeq
      sourcePreviousTxHash := tx.sourcePreviousTxHash.toString
      destinationPreviousLedgerSeq := tx.destinationPreviousLedgerSeq
      destinationPreviousTxHash := tx.destinationPreviousTxHash.toString }

/-- `Transaction::unserializer`. -/
def unserializer (codec : Codec (TransactionFields ν Bytes)) (str : Bytes) :
    Except Fault (TransactionFields ν Uint256) := do
  let tx := codec.parseFromString str
  let sourceAddress ← Uint256.binaryInit tx.sourceAddress
  let destinationAddress ← Uint256.binaryInit tx.destinationAddress
  let sourcePreviousTxHash ← Uint256.binaryInit tx.sourcePreviousTxHash
  let destinationPreviousTxHash ← Uint256.binaryInit tx.destinationPreviousTxHash
  .ok
    { sourceAddress
      destinationAddress
      paymentAmount := tx.paymentAmount
      sourcePreviousLedgerSeq := tx.sourcePreviousLedgerSeq
      sourcePreviousTxHash
      destinationPreviousLedgerSeq := tx.destinationPreviousLedgerSeq
      destinationPreviousTxHash }

theorem read_serializer (codec : Codec (TransactionFields ν Bytes))
    (tx : TransactionFields ν Uint256) : unserializer codec (serializer codec tx) = .ok tx := by
  unfold unserializer serializer
  simp [codec.parse_serialize, Uint256.binaryInit_toString]

end TransactionFields

section Records

/-- The codec of another form of the same messages. -/
def Codec.via {β γ : Type} (codec : Codec β) (forth : γ → β) (back : β → γ)
    (h : ∀ message, back (forth message) = message) : Codec γ where
  serializeToString message := codec.serializeToString (forth message)
  parseFromString bytes := back (codec.parseFromString bytes)
  parse_serialize message := by rw [codec.parse_serialize, h]

/-- The accounts' messages of the ledger. -/
def Protobuf.accountFields (pb : Protobuf) : Codec (AccountFields ℚ Bytes) :=
  pb.account.via (fun m => ⟨m.1, m.2, m.3, m.4⟩) (fun m => ⟨m.1, m.2, m.3, m.4⟩) fun _ => rfl

/-- The transactions' messages of the ledger. -/
def Protobuf.transactionFields (pb : Protobuf) : Codec (TransactionFields ℚ Bytes) :=
  pb.transaction.via (fun m => ⟨m.1, m.2, m.3, m.4, m.5, m.6, m.7⟩)
    (fun m => ⟨m.1, m.2, m.3, m.4, m.5, m.6, m.7⟩) fun _ => rfl

/-- The fields of an account of the ledger. -/
def Account.fields (acc : Account) : AccountFields ℚ Uint256 :=
  ⟨acc.accountAddress, acc.accountBalance, acc.previousLedgerSeq, acc.previousTxHash⟩

/-- The fields of a transaction of the ledger. -/
def Transaction.fields (tx : Transaction) : TransactionFields ℚ Uint256 :=
  ⟨tx.sourceAddress, tx.destinationAddress, tx.paymentAmount, tx.sourcePreviousLedgerSeq,
    tx.sourcePreviousTxHash, tx.destinationPreviousLedgerSeq, tx.destinationPreviousTxHash⟩

/-- The ledger writes and reads its accounts in this form. -/
theorem Account.serializer_fields (pb : Protobuf) (acc : Account) (str : Bytes) :
    acc.serializer pb = acc.fields.serializer pb.accountFields ∧
      Account.fields <$> Account.unserializer pb str =
        AccountFields.unserializer pb.accountFields str := by
  refine ⟨rfl, ?_⟩
  unfold Account.unserializer AccountFields.unserializer
  simp only [map_bind]
  rfl

/-- The ledger writes and reads its transactions in this form. -/
theorem Transaction.serializer_fields (pb : Protobuf) (tx : Transaction) (str : Bytes) :
    tx.serializer pb = tx.fields.serializer pb.transactionFields ∧
      Transaction.fields <$> Transaction.unserializer pb str =
        TransactionFields.unserializer pb.transactionFields str := by
  refine ⟨rfl, ?_⟩
  unfold Transaction.unserializer TransactionFields.unserializer
  simp only [map_bind]
  rfl

end Records

/-- Every account and every transaction is read back from its serialization, so that distinct
records are serialized differently. The parser of 256-bit values inverts their printer, and the
printer inverts the parser on 64 digits of either case. -/
theorem records_read_back (ν : Type) (account : Codec (AccountFields ν Bytes))
    (transaction : Codec (TransactionFields ν Bytes)) :
    (∀ acc, AccountFields.unserializer account (AccountFields.serializer account acc) = .ok acc) ∧
    (∀ tx, TransactionFields.unserializer transaction
      (TransactionFields.serializer transaction tx) = .ok tx) ∧
    Function.Injective (AccountFields.serializer account) ∧
    Function.Injective (TransactionFields.serializer transaction) ∧
    (∀ u : Uint256, Uint256.binaryInit u.toString = .ok u) ∧
    ∀ s : Bytes, s.length = 64 → (∀ a ∈ s, Uint256.isHexDigit a = true) →
      ∃ u, Uint256.binaryInit s = .ok u ∧ u.toString = s.map Uint256.lower := by
  have haccount := AccountFields.read_serializer account
  have htransaction := TransactionFields.read_serializer transaction
  refine ⟨haccount, htransaction, injective_of_read haccount, injective_of_read htransaction,
    Uint256.binaryInit_toString, ?_⟩
  intro s hlength hdigits
  exact Uint256.exists_toString_eq hlength hdigits

theorem records_read_back_uppercase :
    ∃ u, Uint256.binaryInit (List.replicate 64 0x41) = .ok u ∧
      u.toString = List.replicate 64 0x61 := by
  obtain ⟨_, _, _, _, _, hdigits⟩ :=
    records_read_back ℚ plainProtobuf.accountFields plainProtobuf.transactionFields
  obtain ⟨u, hu, hstring⟩ := hdigits (List.replicate 64 0x41) List.length_replicate
    fun a ha => by rw [List.eq_of_mem_replicate ha]; decide
  rw [List.map_replicate] at hstring
  exact ⟨u, hu, hstring⟩

end Bubi
