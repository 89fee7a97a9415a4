import Bubi.Ledger.Unknown
import Bubi.Net.Handler

/-!
# Malformed messages

The value that protobuf's `ParseFromString` returns is only printed, and decoding goes on
with whatever fields were obtained. `binary_init` takes 64 characters of an address
whatever its length, and `hex_to_decimal` has no value for a character that is no hex
digit. So what a peer's chunk does depends on its obtained fields alone: it is harmless
when its command is unknown, or when it is a transfer that decodes and is refused.
-/

namespace Bubi

open Bubi.Core

/-- The strings of a transaction that `binary_init` reads. -/
def TransactionMessage.hashes (tx : TransactionMessage) : List Bytes :=
  [tx.sourceAddress, tx.destinationAddress, tx.sourcePreviousTxHash, tx.destinationPreviousTxHash]

/-- A transaction is decoded exactly when its four strings start with 64 hex digits. -/
theorem Transaction.exists_unserializer {pb : Protobuf} {str : Bytes} :
    (∃ tx, Transaction.unserializer pb str = .ok tx) ↔
      ∀ ch ∈ (pb.transaction.parseFromString str).hashes, Uint256.startsHex 64 ch = true := by
  simp only [TransactionMessage.hashes, List.forall_mem_cons, ← Uint256.exists_binaryInit]
  constructor
  · rintro ⟨tx, htx⟩
    obtain ⟨source, hsource, htx⟩ := bind_eq_ok.mp htx
    obtain ⟨destination, hdestination, htx⟩ := bind_eq_ok.mp htx
    obtain ⟨sourceLink, hsourceLink, htx⟩ := bind_eq_ok.mp htx
    obtain ⟨destinationLink, hdestinationLink, _⟩ := bind_eq_ok.mp htx
    exact ⟨⟨source, hsource⟩, ⟨destination, hdestination⟩, ⟨sourceLink, hsourceLink⟩,
      ⟨destinationLink, hdestinationLink⟩, by simp⟩
  · rintro ⟨⟨source, hsource⟩, ⟨destination, hdestination⟩, ⟨sourceLink, hsourceLink⟩,
      ⟨destinationLink, hdestinationLink⟩, _⟩
    refine ⟨_, bind_eq_ok.mpr ⟨source, hsource, bind_eq_ok.mpr ⟨destination, hdestination,
      bind_eq_ok.mpr ⟨sourceLink, hsourceLink,
        bind_eq_ok.mpr ⟨destinationLink, hdestinationLink, rfl⟩⟩⟩⟩⟩

/-- The fields of a decoded transaction that the ledger's checks read. -/
theorem Transaction.unserializer_fields {pb : Protobuf} {str : Bytes} {tx : Transaction}
    (h : Transaction.unserializer pb str = .ok tx) :
    Uint256.binaryInit (pb.transaction.parseFromString str).sourceAddress =
        .ok tx.sourceAddress ∧
      tx.paymentAmount = (pb.transaction.parseFromString str).paymentAmount := by
  obtain ⟨source, hsource, h⟩ := bind_eq_ok.mp h
  obtain ⟨_, _, h⟩ := bind_eq_ok.mp h
  obtain ⟨_, _, h⟩ := bind_eq_ok.mp h
  obtain ⟨_, _, h⟩ := bind_eq_ok.mp h
  cases h
  exact ⟨hsource, rfl⟩

namespace Process

section Chunks

variable (sha : Bytes → Uint256) (pb : Protobuf) (codec : MessageCodec)

/-- What `ParseFromString` returns for the strings of `bubiMsg` and of `Transaction`. -/
structure Accepted where
  message : Bytes → Prop
  transaction : Bytes → Prop

/-- A chunk that is no message, or a transfer's message whose data is no transaction with four
strings of 64 hex digits. -/
def Malformed (accepted : Accepted) (chunk : Bytes) : Prop :=
  ¬ accepted.message chunk ∨
    (BNetMessage.unserializer codec chunk).header.bchCommand = Command.transaction ∧
      ¬ (accepted.transaction (BNetMessage.unserializer codec chunk).data ∧
        ∀ ch ∈ (pb.transaction.parseFromString
            (BNetMessage.unserializer codec chunk).data).hashes,
          ch.length = 64 ∧ Uint256.startsHex 64 ch = true)

/-- A chunk through `SocketRecvData` and `ProcessMessages`. -/
def handleChunk (s : Ledger.State) (node : BNode) (chunk : Bytes) :
    Except Fault (Ledger.State × BNode) :=
  processMessages sha pb codec (s, node.socketRecvData codec (.received chunk))

/-- A chunk is handled without a fault, and the ledger stays as it is. -/
def Harmless (s : Ledger.State) (node : BNode) (chunk : Bytes) : Prop :=
  ∃ r, handleChunk sha pb codec s node chunk = .ok r ∧ Ledger.Alike sha s r.1

/-- The command that was obtained is unknown, or it is a transfer with four strings that start
with 64 hex digits, from an existing account that cannot pay it. -/
def Ignored (s : Ledger.State) (message : BNetMessage) : Prop :=
  (message.header.bchCommand ≠ Command.transaction ∧
      message.header.bchCommand ≠ Command.account) ∨
    message.header.bchCommand = Command.transaction ∧
      (∀ ch ∈ (pb.transaction.parseFromString message.data).hashes,
        Uint256.startsHex 64 ch = true) ∧
      ∃ address source,
        Uint256.binaryInit (pb.transaction.parseFromString message.data).sourceAddress =
          .ok address ∧
        Ledger.entry sha pb s address = some source ∧
        source.accountBalance < (pb.transaction.parseFromString message.data).paymentAmount

end Chunks

variable {sha : Bytes → Uint256} {pb : Protobuf} {codec : MessageCodec} {s : Ledger.State}

/-- A chunk is one message, and a reply does not touch the ledger. -/
theorem harmless_iff {node : BNode} (hnode : node.vRecvMsg = []) {byte : UInt8} {rest : Bytes}
    (hbyte : byte ≠ 0x7b) :
    Harmless sha pb codec s node (byte :: rest) ↔
      ∃ r, processMessage sha pb s (BNetMessage.unserializer codec (byte :: rest)) = .ok r ∧
        Ledger.Alike sha s r.1 := by
  have hqueue : (node.socketRecvData codec (.received (byte :: rest))).vRecvMsg =
      [BNetMessage.unserializer codec (byte :: rest)] := by
    simp [BNode.socketRecvData, hbyte, hnode]
  unfold Harmless handleChunk processMessages
  rw [hqueue, processLoop]
  cases processMessage sha pb s (BNetMessage.unserializer codec (byte :: rest)) with
  | error e => simp
  | ok r =>
    rw [ok_bind]
    cases r.2 with
    | none => simp [processLoop]
    | some reply => simp [processLoop]

section Reflects

open Ledger

variable {b : Books} {accepted : List Transaction} {ta tt : MerkleTrie}

/-- A decoded transfer leaves the ledger as it is when it is refused. -/
theorem transaction_harmless_iff (h : Reflects sha pb s b accepted ta tt)
    {message : BNetMessage} (hcommand : message.header.bchCommand = Command.transaction) :
    (∃ r, processMessage sha pb s message = .ok r ∧ Alike sha s r.1) ↔
      ∃ tx source, Transaction.unserializer pb message.data = .ok tx ∧
        b.accounts tx.sourceAddress = some source ∧
        source.accountBalance < tx.paymentAmount := by
  rw [processMessage, if_pos hcommand]
  constructor
  · rintro ⟨r, hr, halike⟩
    obtain ⟨tx, htx, hr⟩ := bind_eq_ok.mp hr
    obtain ⟨v, hv, hr⟩ := bind_eq_ok.mp hr
    cases hr
    obtain ⟨hrefused, hcause⟩ := h.addTransactionEntry_alike_iff hv
    obtain ⟨source, hsource, hlt⟩ := hcause.mp (hrefused.mp halike)
    exact ⟨tx, source, htx, hsource, hlt⟩
  · rintro ⟨tx, source, htx, hsource, hlt⟩
    obtain ⟨s', hv, halike⟩ := h.addTransactionEntry_refused hsource (sub_neg.mpr hlt)
    exact ⟨_, bind_eq_ok.mpr ⟨tx, htx, bind_eq_ok.mpr ⟨_, hv, rfl⟩⟩, halike⟩

/-- A message is harmless exactly when it is ignored. -/
theorem harmless_iff_ignored (h : Reflects sha pb s b accepted ta tt)
    (message : BNetMessage) :
    (∃ r, processMessage sha pb s message = .ok r ∧ Alike sha s r.1) ↔
      Ignored sha pb s message := by
  unfold Ignored
  by_cases htransaction : message.header.bchCommand = Command.transaction
  · rw [transaction_harmless_iff h htransaction, ← Transaction.exists_unserializer]
    constructor
    · rintro ⟨tx, source, htx, hsource, hlt⟩
      obtain ⟨haddress, hamount⟩ := Transaction.unserializer_fields htx
      refine Or.inr ⟨htransaction, ⟨tx, htx⟩, tx.sourceAddress, source, haddress, ?_, ?_⟩
      · rwa [h.entry_eq]
      · rwa [← hamount]
    · rintro (⟨hne, _⟩ | ⟨_, ⟨tx, htx⟩, address, source, haddress, hsource, hlt⟩)
      · exact absurd htransaction hne
      · obtain ⟨haddress', hamount⟩ := Transaction.unserializer_fields htx
        rw [haddress'] at haddress
        rw [h.entry_eq, ← Except.ok.inj haddress] at hsource
        refine ⟨tx, source, htx, hsource, ?_⟩
        rwa [hamount]
  · rw [processMessage, if_neg htransaction]
    split
    · next haccount =>
      refine iff_of_false ?_ ?_
      · rintro ⟨r, hr, halike⟩
        obtain ⟨s', hs', hr⟩ := bind_eq_ok.mp hr
        cases hr
        exact h.createAccount_not_alike hs' halike
      · rintro (⟨_, hne⟩ | ⟨hcommand, _⟩)
        · exact hne haccount
        · exact htransaction hcommand
    · next haccount =>
      exact iff_of_true ⟨_, rfl, h.trees.alike⟩ (Or.inl ⟨htransaction, haccount⟩)

end Reflects

/-- On every ledger in use, any chunk that does not start with a brace, malformed or not, is
harmless exactly when the message obtained from it is ignored. -/
theorem chunk_harmless_iff {db : Database} {us : List Ledger.Usage}
    {r : Ledger.State × List Transaction} (hr : Ledger.runUsages sha pb db us = .ok r)
    (hintact : Ledger.Intact sha pb db us) {node : BNode} (hnode : node.vRecvMsg = [])
    {byte : UInt8} (rest : Bytes) (hbyte : byte ≠ 0x7b) :
    Harmless sha pb codec r.1 node (byte :: rest) ↔
      Ignored sha pb r.1 (BNetMessage.unserializer codec (byte :: rest)) := by
  obtain ⟨b, ta, tt, h⟩ := Ledger.runUsages_inUse hr hintact
  rw [harmless_iff hnode hbyte]
  exact harmless_iff_ignored h.reflects _

/-- On every ledger in use, a malformed chunk that does not start with a brace is handled
without a read behind a string's end, an undefined digit or another fault and leaves the ledger
as it is, exactly when its command is obtained as an unknown one, or it is obtained as a
transfer whose strings start with 64 hex digits from an existing account that cannot pay it. -/
theorem malformed_harmless_iff (sha : Bytes → Uint256) (pb : Protobuf) (codec : MessageCodec)
    (db : Database) (us : List Ledger.Usage) (r : Ledger.State × List Transaction)
    (hr : Ledger.runUsages sha pb db us = .ok r) (hintact : Ledger.Intact sha pb db us)
    (accepted : Accepted) (node : BNode) (hnode : node.vRecvMsg = []) (byte : UInt8)
    (rest : Bytes) (hbyte : byte ≠ 0x7b) :
    Malformed pb codec accepted (byte :: rest) →
      (Harmless sha pb codec r.1 node (byte :: rest) ↔
        Ignored sha pb r.1 (BNetMessage.unserializer codec (byte :: rest))) := by
  -- That the chunk is malformed makes no difference.
  intro _
  exact chunk_harmless_iff hr hintact hnode rest hbyte

/-- A parser that accepts what its serializer writes, where the model is evaluated. -/
def canonical : Accepted where
  message := fun x => plainMessages.serializeToString (plainMessages.parseFromString x) = x
  transaction := fun x =>
    plainProtobuf.transaction.serializeToString (plainProtobuf.transaction.parseFromString x) = x

/-- The first byte of a message. -/
theorem malformed_harmless_truncated :
    ∃ r, Ledger.runUsages checksum plainProtobuf (fun _ => none) Ledger.savedLedger = .ok r ∧
      Harmless checksum plainProtobuf plainMessages r.1 (BNode.new 3) [0x0a] := by
  obtain ⟨r, hr⟩ : ∃ r, Ledger.runUsages checksum plainProtobuf (fun _ => none)
      Ledger.savedLedger = .ok r :=
    exists_of_isOk (by decide +kernel)
  refine ⟨r, hr, (malformed_harmless_iff _ _ _ _ _ r hr Ledger.intact_savedLedger canonical
    (BNode.new 3) rfl 0x0a [] (by decide) (Or.inl ?_)).mpr (Or.inl ?_)⟩
  · change ¬ plainMessages.serializeToString (plainMessages.parseFromString [0x0a]) = [0x0a]
    decide +kernel
  · decide +kernel

/-- A transfer's message without data. -/
def emptyTransaction : Bytes :=
  (messageOf (Command.transaction, [])).serializer plainMessages

/-- A transfer's message with a character too much in the source address. -/
def longTransaction : Bytes :=
  (messageOf (Command.transaction, plainProtobuf.transaction.serializeToString
    { sourceAddress := (checksum (sampleName 1)).toString ++ [0x30]
      destinationAddress := (checksum (sampleName 2)).toString
      paymentAmount := 100
      sourcePreviousLedgerSeq := 0
      sourcePreviousTxHash := Uint256.zero.toString
      destinationPreviousLedgerSeq := 0
      destinationPreviousTxHash := Uint256.zero.toString })).serializer plainMessages

/-- Both messages are malformed. One has an undefined digit computed, and the other one is
executed. -/
theorem malformed_transaction_decoded :
    ∃ r v acc, Ledger.runUsages checksum plainProtobuf (fun _ => none)
        (Ledger.threeAccounts.map .step) = .ok r ∧
      Malformed plainProtobuf plainMessages canonical emptyTransaction ∧
      handleChunk checksum plainProtobuf plainMessages r.1 (BNode.new 3) emptyTransaction =
        .error .noReturn ∧
      Malformed plainProtobuf plainMessages canonical longTransaction ∧
      handleChunk checksum plainProtobuf plainMessages r.1 (BNode.new 3) longTransaction =
        .ok v ∧
      Ledger.entry checksum plainProtobuf v.1 (checksum (sampleName 1)) = some acc ∧
      acc.accountBalance = 900 := by
  have hok : (do
      let r ← Ledger.runUsages checksum plainProtobuf (fun _ => none)
        (Ledger.threeAccounts.map .step)
      let v ← handleChunk checksum plainProtobuf plainMessages r.1 (BNode.new 3) longTransaction
      .ok (fault (handleChunk checksum plainProtobuf plainMessages r.1 (BNode.new 3)
          emptyTransaction),
        (Ledger.entry checksum plainProtobuf v.1 (checksum (sampleName 1))).map
          Account.accountBalance)) = .ok (some .noReturn, some 900) :=
    eq_ok_of_toOption (by decide +kernel)
  obtain ⟨r, hr, hok⟩ := bind_eq_ok.mp hok
  obtain ⟨v, hv, hok⟩ := bind_eq_ok.mp hok
  simp only [Except.ok.injEq, Prod.mk.injEq, Option.map_eq_some_iff] at hok
  obtain ⟨hfault, acc, hacc, hbalance⟩ := hok
  refine ⟨r, v, acc, hr, Or.inr ⟨by decide +kernel, fun hwell => ?_⟩, eq_error_of_fault hfault,
    Or.inr ⟨by decide +kernel, fun hwell => ?_⟩, hv, hacc, hbalance⟩
  · exact absurd hwell.2 (by decide +kernel)
  · exact absurd hwell.2 (by decide +kernel)

end Process

end Bubi
