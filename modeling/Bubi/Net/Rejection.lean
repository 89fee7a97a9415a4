import Bubi.Ledger.Alike
import Bubi.Net.Network

/-!
# Rejected transfers

A transfer that its node rejects is pushed to the peers all the same, and a peer decides
on its own balances. At the node itself nothing changes; at a peer nothing changes
exactly when the source's balance there does not cover the transfer either.
-/

namespace Bubi.Network

open Bubi.Core Process Ledger

section Model

variable {ι : Type} [DecidableEq ι] (sha : Bytes → Uint256) (pb : Protobuf) (codec : MessageCodec)
  (extract : Bytes → Option ℚ)

/-- An event of a request that was answered with error code 0: the request itself, or the handling
of a string that it pushed. -/
def OfRejected (n : Network ι) (k : ℕ) : NetworkEvent ι → Prop
  | .request host m request => n.requests = k ∧
      ∃ r, handleRequest sha pb extract m (n.ledgers host) request = .ok r ∧
        r.2.2.errCode = ascii ['0']
  | .process sender receiver => ∃ sent rest, n.channels sender receiver = sent :: rest ∧
      sent.request = k ∧ sent.answer.errCode = ascii ['0']

/-- The next string of a channel is a transfer that its receiver cannot cover. -/
def Uncovered (n : Network ι) (sender receiver : ι) : Prop :=
  ∃ sent rest tx r source, n.channels sender receiver = sent :: rest ∧
    Transaction.unserializer pb (BNetMessage.unserializer codec sent.data).data = .ok tx ∧
    getAccountEntry sha pb (n.ledgers receiver) tx.sourceAddress = .ok r ∧ r.2 = some source ∧
    source.accountBalance < tx.paymentAmount

end Model

variable {ι : Type} [DecidableEq ι] {sha : Bytes → Uint256} {pb : Protobuf} {codec : MessageCodec}
  {extract : Bytes → Option ℚ} {outbound : ι → ι → Bool} {n n' : Network ι}

theorem Kept.alike {s : State} (h : Kept sha pb s) : Alike sha s s := by
  obtain ⟨_, _, ta, tt, hreflects⟩ := h
  exact hreflects.trees.alike

/-- An event changes the ledger of one host. -/
theorem Sound.alike_update_iff (h : Sound sha pb codec n) {host : ι} {s : State} :
    (∀ a, Alike sha (n.ledgers a) (Function.update n.ledgers host s a)) ↔
      Alike sha (n.ledgers host) s := by
  rw [Function.forall_update_iff n.ledgers fun a s' => Alike sha (n.ledgers a) s']
  exact and_iff_left fun a _ => (h.ledgers a).alike

/-- A rejected request changes nothing where it was made. -/
theorem Sound.request_unchanged (h : Sound sha pb codec n) {host : ι} {m : Surroundings}
    {request : Request} {k : ℕ} (hof : OfRejected sha pb extract n k (.request host m request))
    (he : Network.event sha pb codec extract outbound n (.request host m request) = .ok n')
    (a : ι) : Alike sha (n.ledgers a) (n'.ledgers a) := by
  obtain ⟨_, r, hr, hcode⟩ := hof
  obtain ⟨r', hr', he⟩ := bind_eq_ok.mp he
  cases he
  obtain rfl := Except.ok.inj (hr.symm.trans hr')
  refine h.alike_update_iff.mpr ?_ a
  rcases handleRequest_path hr with ⟨tx, v, hv, hs, _, hanswer⟩ | ⟨bubiAddr, _, hanswer⟩
  · rw [hanswer, errCode_answer_zero, decide_eq_false_iff_not] at hcode
    obtain ⟨b, accepted, ta, tt, hreflects⟩ := h.ledgers host
    rw [hs]
    exact (hreflects.addTransactionEntry_alike_iff hv).1.mpr hcode
  · rw [hanswer, errCode_answer_zero] at hcode
    cases hcode

/-- The string of a rejected request changes nothing at its receiver exactly when the balance of
the source there does not cover the transfer. -/
theorem Sound.process_unchanged_iff (h : Sound sha pb codec n) {sender receiver : ι} {k : ℕ}
    (hof : OfRejected sha pb extract n k (.process sender receiver))
    (he : Network.event sha pb codec extract outbound n (.process sender receiver) = .ok n') :
    (∀ a, Alike sha (n.ledgers a) (n'.ledgers a)) ↔ Uncovered sha pb codec n sender receiver := by
  obtain ⟨sent, rest, hchannel, _, hcode⟩ := hof
  obtain ⟨r, hr, rfl⟩ := process_ok hchannel he
  have hsent := h.channels sender receiver sent (hchannel ▸ List.mem_cons_self)
  rcases hsent.process hr with ⟨tx, v, hdata, hv, hs⟩ | ⟨bubiAddr, _, hanswer⟩
  · obtain ⟨b, accepted, ta, tt, hreflects⟩ := h.ledgers receiver
    obtain ⟨halike, hcovered⟩ := hreflects.addTransactionEntry_alike_iff hv
    have hdecoded : Transaction.unserializer pb (BNetMessage.unserializer codec sent.data).data =
        .ok tx := by
      rw [hdata, unserializer_messageOf]
      exact Transaction.unserializer_serializer pb tx
    rw [h.alike_update_iff, hs, halike, hcovered]
    constructor
    · rintro ⟨source, hsource, hlt⟩
      obtain ⟨w, hw⟩ := exists_getAccountEntry hreflects.trees hreflects.accounts tx.sourceAddress
      have hfound := (getAccountEntry_ok hreflects.trees hreflects.accounts hw).2
      exact ⟨sent, rest, tx, w, source, hchannel, hdecoded, hw, hfound.trans hsource, hlt⟩
    · rintro ⟨sent', rest', tx', w, source, hchannel', hdecoded', hw, hsource, hlt⟩
      obtain rfl := (List.cons.inj (hchannel.symm.trans hchannel')).1
      obtain rfl := Except.ok.inj (hdecoded.symm.trans hdecoded')
      have hfound := (getAccountEntry_ok hreflects.trees hreflects.accounts hw).2
      exact ⟨source, hfound.symm.trans hsource, hlt⟩
  · rw [hanswer, errCode_answer_zero] at hcode
    cases hcode

/-- In every run: the events of a rejected request leave all ledgers as they were exactly when
each of its strings, where it is handled, finds the source's balance below the amount. -/
theorem rejected_transfer_unchanged_iff (sha : Bytes → Uint256) (pb : Protobuf)
    (codec : MessageCodec) (extract : Bytes → Option ℚ) (outbound : ι → ι → Bool)
    (n₀ : Network ι) (hledgers : ∀ a, Kept sha pb (n₀.ledgers a))
    (hchannels : ∀ i j, n₀.channels i j = []) (events : List (NetworkEvent ι)) (k : ℕ) :
    (∀ n e n', StepOf sha pb codec extract outbound n₀ events n e n' →
      OfRejected sha pb extract n k e → ∀ a, Alike sha (n.ledgers a) (n'.ledgers a)) ↔
    ∀ n sender receiver n',
      StepOf sha pb codec extract outbound n₀ events n (.process sender receiver) n' →
        OfRejected sha pb extract n k (.process sender receiver) →
          Uncovered sha pb codec n sender receiver := by
  have hsound : Sound sha pb codec n₀ := sound_of_empty hledgers hchannels
  constructor
  · intro hunchanged n sender receiver n' hstep hof
    have he := hstep.event_eq
    exact ((hsound.stepOf hstep).process_unchanged_iff hof he).mp (hunchanged n _ n' hstep hof)
  · intro huncovered n e n' hstep hof
    have he := hstep.event_eq
    cases e with
    | request host m request => exact (hsound.stepOf hstep).request_unchanged hof he
    | process sender receiver =>
      exact ((hsound.stepOf hstep).process_unchanged_iff hof he).mpr
        (huncovered n sender receiver n' hstep hof)

/-- A transfer at one host that raises a balance there, and one at the other host that the same
balance does not cover. -/
def rejectedEvents : List (NetworkEvent Bool) :=
  [.request true sampleSurroundings (sampleTransfer 2 1 ['5', '0', '0']),
    .request false sampleSurroundings (sampleTransfer 1 3 ['1', '2', '0', '0']),
    .process false true, .process true false]

theorem rejected_transfer_unchanged_rejectedEvents :
    ∃ r, run checksum plainProtobuf (fun _ => none) threeAccounts = .ok r ∧
      Kept checksum plainProtobuf r.1 ∧
      ((∀ n e n', StepOf checksum plainProtobuf plainMessages decimal eachOther (twoHosts r.1)
          rejectedEvents n e n' → OfRejected checksum plainProtobuf decimal n 1 e →
            ∀ a, Alike checksum (n.ledgers a) (n'.ledgers a)) ↔
        ∀ n sender receiver n', StepOf checksum plainProtobuf plainMessages decimal eachOther
          (twoHosts r.1) rejectedEvents n (.process sender receiver) n' →
            OfRejected checksum plainProtobuf decimal n 1 (.process sender receiver) →
              Uncovered checksum plainProtobuf plainMessages n sender receiver) := by
  obtain ⟨r, hr, hkept⟩ := exists_threeAccounts
  exact ⟨r, hr, hkept, rejected_transfer_unchanged_iff _ _ _ _ _ (twoHosts r.1) (fun _ => hkept)
    (fun _ _ => rfl) rejectedEvents 1⟩

/-- A host rejects a transfer of 1200 out of a balance of 1000. The string that it pushed reaches
a host where the balance is 1500, and 1200 arrive in the destination's account there. -/
theorem rejected_transfer_applied :
    (do
      let r ← run checksum plainProtobuf (fun _ => none) threeAccounts
      let n ← (rejectedEvents.take 2).foldlM sampleEvent (twoHosts r.1)
      let n' ← sampleEvent n (.process false true)
      .ok ((n.channels false true).map (fun sent : Sent => (sent.request, sent.answer.errCode)),
        balanceOf checksum plainProtobuf (n.ledgers true) (checksum (sampleName 3)),
        balanceOf checksum plainProtobuf (n'.ledgers true) (checksum (sampleName 3)))).toOption =
      some ([(1, ascii ['0'])], some 1000, some 2200) := by
  decide +kernel

end Bubi.Network
