import Bubi.Ledger.Conservation
import Bubi.Ledger.Solvency
import Bubi.Net.Network

/-!
# Convergence

Every host posts its own transfers at once and those of the other hosts as they arrive,
so the hosts post them in different orders. An accepted transfer of an amount that is not
negative moves the same amounts whatever the balances are; only the decision to accept it
depends on the order. Where every host decides as the first one did, the balances at a
host together with the transfers under way to it are those at any other host.
-/

namespace Bubi

open Bubi.Core

/-- What an accepted transfer adds to the balances. The destination's copy is written last, so a
transfer to the payer itself adds its amount. -/
def Transaction.effect (tx : Transaction) (k : Uint256) : ℚ :=
  if k = tx.destinationAddress then tx.paymentAmount
  else if k = tx.sourceAddress then -tx.paymentAmount
  else 0

namespace Books

variable {b : Books} {tx : Transaction} {source destination : Account} {seq : BitVec 32}
  {hash : Uint256}

/-- No destination refuses an amount that is not negative. -/
theorem balance_pay_eq_add (hb : b.Solvent) (hs : b.accounts tx.sourceAddress = some source)
    (hd : b.accounts tx.destinationAddress = some destination)
    (hle : 0 ≤ source.accountBalance - tx.paymentAmount) (hamount : 0 ≤ tx.paymentAmount)
    (k : Uint256) :
    (b.pay tx source destination seq hash).balance k = b.balance k + tx.effect k := by
  have hcredit : ¬ destination.accountBalance + tx.paymentAmount < 0 :=
    not_lt.mpr (add_nonneg (hb _ _ hd) hamount)
  rw [balance_pay hs hd hle, if_neg hcredit, Transaction.effect]
  split
  · next hk => rw [hk, balance_eq hd]
  · split
    · next hk => rw [hk, balance_eq hs, sub_eq_add_neg]
    · rw [add_zero]

/-- A transfer opens no account. -/
theorem addresses_pay (hs : b.accounts tx.sourceAddress = some source)
    (hd : b.accounts tx.destinationAddress = some destination) :
    (b.pay tx source destination seq hash).addresses = b.addresses := by
  have hsource : source.accountAddress ∈ b.addresses := by
    rw [b.address_eq _ _ hs, b.mem_addresses, hs, Option.isSome_some]
  have hdestination : destination.accountAddress ∈ b.addresses := by
    rw [b.address_eq _ _ hd, b.mem_addresses, hd, Option.isSome_some]
  simp only [pay, write, Account.setPrevious_address, Account.addBalance_address,
    Finset.insert_eq_of_mem hsource, Finset.insert_eq_of_mem hdestination]

end Books

namespace Ledger

variable {sha : Bytes → Uint256} {pb : Protobuf} {s : State} {ta tt : MerkleTrie} {b : Books}
  {accepted : List Transaction}

/-- What a transfer does to the balances of a solvent ledger. -/
theorem Reflects.addTransactionEntry_balance (h : Reflects sha pb s b accepted ta tt)
    (hb : b.Solvent) {tx : Transaction} (hamount : 0 ≤ tx.paymentAmount)
    {v : State × Transaction × ℕ} (hv : addTransactionEntry sha pb s tx = .ok v) :
    ∃ b' accepted' ta' tt', Reflects sha pb v.1 b' accepted' ta' tt' ∧ b'.Solvent ∧
      b'.addresses = b.addresses ∧
      ∀ k, b'.balance k = b.balance k + if v.2.2 = 0 then tx.effect k else 0 := by
  obtain ⟨source, hs, ⟨_, hcode, hadv⟩ |
    ⟨hle, destination, hd, hcode, ta', tt', hadv, ha, ht⟩⟩ := h.addTransactionEntry_ok hv
  · refine ⟨b, accepted, ta, tt, ⟨hadv.trees, h.accounts, h.transactions⟩, hb, rfl, fun k => ?_⟩
    rw [hcode, if_neg Nat.one_ne_zero, add_zero]
  · refine ⟨_, _, ta', tt', ⟨hadv.trees, ha, ht⟩, hb.pay hs hd _ _, Books.addresses_pay hs hd,
      fun k => ?_⟩
    rw [hcode, if_pos rfl, Books.balance_pay_eq_add hb hs hd hle hamount]

end Ledger

namespace Network

open Ledger Process

variable {ι : Type} [DecidableEq ι] {sha : Bytes → Uint256} {pb : Protobuf} {codec : MessageCodec}
  {extract : Bytes → Option ℚ} {outbound : ι → ι → Bool} {n n' : Network ι}

section Shares

/-- What a transfer under way adds where it arrives, if it is accepted there as it was before. -/
def share (pb : Protobuf) (codec : MessageCodec) (k : Uint256) (sent : Sent) : ℚ :=
  match Transaction.unserializer pb (BNetMessage.unserializer codec sent.data).data with
  | .ok tx => if sent.answer.errCode = ascii ['1'] then tx.effect k else 0
  | .error _ => 0

/-- A string is the message of a transfer of an amount that is not negative. -/
def IsTransfer (pb : Protobuf) (codec : MessageCodec) (sent : Sent) (tx : Transaction) : Prop :=
  sent.data = (messageOf (Command.transaction, tx.serializer pb)).serializer codec ∧
    0 ≤ tx.paymentAmount

theorem IsTransfer.unserializer {sent : Sent} {tx : Transaction}
    (h : IsTransfer pb codec sent tx) :
    Transaction.unserializer pb (BNetMessage.unserializer codec sent.data).data = .ok tx := by
  rw [h.1, unserializer_messageOf]
  exact Transaction.unserializer_serializer pb tx

theorem IsTransfer.share_eq {sent : Sent} {tx : Transaction} (h : IsTransfer pb codec sent tx)
    (k : Uint256) :
    share pb codec k sent = if sent.answer.errCode = ascii ['1'] then tx.effect k else 0 := by
  rw [share, h.unserializer]

variable [Fintype ι]

/-- What all transfers under way to a host add there. -/
def underWay (pb : Protobuf) (codec : MessageCodec) (channels : ι → ι → List Sent) (host : ι)
    (k : Uint256) : ℚ :=
  ∑ sender, ((channels sender host).map (share pb codec k)).sum

/-- A pushed string is under way to every host but the sender. -/
theorem underWay_push (hout : ∀ i j, outbound i j = true ↔ i ≠ j) (host : ι) (sent : Sent) (a : ι)
    (k : Uint256) :
    underWay pb codec (n.push outbound host sent) a k =
      underWay pb codec n.channels a k + if a = host then 0 else share pb codec k sent := by
  have hterm : ∀ sender, ((n.push outbound host sent sender a).map (share pb codec k)).sum =
      ((n.channels sender a).map (share pb codec k)).sum +
        if sender = host then (if a = host then 0 else share pb codec k sent) else 0 := by
    intro sender
    unfold push
    by_cases hsender : sender = host
    · subst hsender
      by_cases ha : a = sender
      · have hself : ¬ outbound sender a = true := by
          rw [hout]
          exact not_not_intro ha.symm
        simp [ha, ha ▸ hself]
      · have hother : outbound sender a = true := (hout sender a).mpr (Ne.symm ha)
        simp [ha, hother]
    · simp [hsender]
  unfold underWay
  rw [Finset.sum_congr rfl fun sender _ => hterm sender, Finset.sum_add_distrib,
    Finset.sum_ite_eq' Finset.univ host, if_pos (Finset.mem_univ host)]

/-- A handled string is no longer under way to its receiver. -/
theorem underWay_pop {sender receiver : ι} {sent : Sent} {rest : List Sent}
    (hchannel : n.channels sender receiver = sent :: rest) (a : ι) (k : Uint256) :
    underWay pb codec (Function.update n.channels sender
        (Function.update (n.channels sender) receiver rest)) a k +
      (if a = receiver then share pb codec k sent else 0) =
      underWay pb codec n.channels a k := by
  have hterm : ∀ i, ((n.channels i a).map (share pb codec k)).sum =
      ((Function.update n.channels sender (Function.update (n.channels sender) receiver rest) i
        a).map (share pb codec k)).sum +
        if i = sender then (if a = receiver then share pb codec k sent else 0) else 0 := by
    intro i
    by_cases hi : i = sender
    · subst hi
      by_cases ha : a = receiver
      · subst ha
        simp [hchannel, add_comm]
      · simp [ha]
    · simp [hi]
  unfold underWay
  rw [Finset.sum_congr rfl fun i _ => hterm i, Finset.sum_add_distrib,
    Finset.sum_ite_eq' Finset.univ sender, if_pos (Finset.mem_univ sender)]

end Shares

section Level

variable [Fintype ι]

/-- The hosts keep solvent books on the same accounts; with the transfers under way, all balances
are the same at every host. -/
structure Level (sha : Bytes → Uint256) (pb : Protobuf) (codec : MessageCodec) (n : Network ι)
    (books : ι → Books) : Prop where
  reflects : ∀ a, ∃ accepted ta tt, Reflects sha pb (n.ledgers a) (books a) accepted ta tt
  solvent : ∀ a, (books a).Solvent
  addresses : ∀ a a', (books a).addresses = (books a').addresses
  transfers : ∀ i j, ∀ m ∈ n.channels i j, ∃ tx, IsTransfer pb codec m tx
  balances : ∀ a a' k, (books a).balance k + underWay pb codec n.channels a k =
    (books a').balance k + underWay pb codec n.channels a' k

/-- A transfer posted at one host: only what it adds to the sums is left to compare. -/
theorem Level.post {books : ι → Books} (h : Level sha pb codec n books) {host : ι}
    {tx : Transaction} (hamount : 0 ≤ tx.paymentAmount) {v : State × Transaction × ℕ}
    (hv : addTransactionEntry sha pb (n.ledgers host) tx = .ok v)
    (hledgers : n'.ledgers = Function.update n.ledgers host v.1)
    (htransfers : ∀ i j, ∀ m ∈ n'.channels i j, ∃ tx, IsTransfer pb codec m tx)
    (total : Uint256 → ℚ)
    (hunderWay : ∀ a k, underWay pb codec n'.channels a k +
      (if a = host then if v.2.2 = 0 then tx.effect k else 0 else 0) =
        underWay pb codec n.channels a k + total k) :
    ∃ books', Level sha pb codec n' books' := by
  obtain ⟨accepted, ta, tt, hreflects⟩ := h.reflects host
  obtain ⟨b', accepted', ta', tt', hreflects', hsolvent, haddresses, hbalance⟩ :=
    hreflects.addTransactionEntry_balance (h.solvent host) hamount hv
  have hcases : ∀ a, (a = host ∧ Function.update books host b' a = b' ∧ n'.ledgers a = v.1) ∨
      (a ≠ host ∧ Function.update books host b' a = books a ∧ n'.ledgers a = n.ledgers a) := by
    intro a
    rw [hledgers]
    by_cases ha : a = host
    · subst ha
      exact Or.inl ⟨rfl, Function.update_self .., Function.update_self ..⟩
    · exact Or.inr ⟨ha, Function.update_of_ne ha .., Function.update_of_ne ha ..⟩
  have hsum : ∀ a k, (Function.update books host b' a).balance k +
      underWay pb codec n'.channels a k =
        (books a).balance k + underWay pb codec n.channels a k + total k := by
    intro a k
    have hway := hunderWay a k
    rcases hcases a with ⟨ha, hbook, _⟩ | ⟨ha, hbook, _⟩
    · rw [if_pos ha] at hway
      rw [hbook, hbalance k, ha]
      rw [ha] at hway
      linarith
    · rw [if_neg ha, add_zero] at hway
      rw [hbook, hway]
      ring
  have haddress : ∀ a, (Function.update books host b' a).addresses = (books host).addresses := by
    intro a
    rcases hcases a with ⟨_, hbook, _⟩ | ⟨_, hbook, _⟩
    · rw [hbook, haddresses]
    · rw [hbook, h.addresses a host]
  refine ⟨Function.update books host b', ⟨fun a => ?_, fun a => ?_, fun a a' => ?_, htransfers,
    fun a a' k => ?_⟩⟩
  · rcases hcases a with ⟨_, hbook, hledger⟩ | ⟨_, hbook, hledger⟩
    · rw [hbook, hledger]
      exact ⟨accepted', ta', tt', hreflects'⟩
    · rw [hbook, hledger]
      exact h.reflects a
  · rcases hcases a with ⟨_, hbook, _⟩ | ⟨_, hbook, _⟩
    · rw [hbook]
      exact hsolvent
    · rw [hbook]
      exact h.solvent a
  · rw [haddress a, haddress a']
  · rw [hsum a k, hsum a' k, h.balances a a' k]

/-- The next string of a channel, if it is a transfer that its receiver answers, is answered there
as its client was. -/
def answersAlike (sha : Bytes → Uint256) (pb : Protobuf) (codec : MessageCodec) (n : Network ι)
    (sender receiver : ι) : Bool :=
  match n.channels sender receiver with
  | [] => true
  | sent :: _ =>
    match Transaction.unserializer pb (BNetMessage.unserializer codec sent.data).data with
    | .error _ => true
    | .ok tx =>
      match addTransactionEntry sha pb (n.ledgers receiver) tx with
      | .error _ => true
      | .ok v => decide (v.2.2 = 0 ↔ sent.answer.errCode = ascii ['1'])

/-- A request of method 1001 with an amount that is not negative. -/
def IsPayment (extract : Bytes → Option ℚ) (m : Surroundings) (request : Request) : Prop :=
  ∃ sendAddr fee recvAddr, request = .transfer sendAddr fee recvAddr ∧
    0 ≤ (extract fee).getD m.amount

theorem Level.request {books : ι → Books} (h : Level sha pb codec n books)
    (hout : ∀ i j, outbound i j = true ↔ i ≠ j) {host : ι} {m : Surroundings} {request : Request}
    (hrequest : IsPayment extract m request)
    (he : event sha pb codec extract outbound n (.request host m request) = .ok n') :
    ∃ books', Level sha pb codec n' books' := by
  obtain ⟨sendAddr, fee, recvAddr, rfl, hamount⟩ := hrequest
  obtain ⟨r, hr, he⟩ := bind_eq_ok.mp he
  cases he
  obtain ⟨tx, htx, hr⟩ := bind_eq_ok.mp hr
  obtain ⟨v, hv, hr⟩ := bind_eq_ok.mp hr
  cases hr
  obtain ⟨ser, _, htx⟩ := bind_eq_ok.mp htx
  obtain ⟨ds, _, htx⟩ := bind_eq_ok.mp htx
  have htx_amount : 0 ≤ tx.paymentAmount := by
    rw [← Except.ok.inj htx]
    exact hamount
  set sent : Sent := ⟨n.requests, answer (decide (v.2.2 = 0)) (some m.time),
    (messageOf (Command.transaction, tx.serializer pb)).serializer codec⟩
  have hsent : IsTransfer pb codec sent tx := ⟨rfl, htx_amount⟩
  refine h.post htx_amount hv rfl (fun i j m' hm' => ?_) (fun k => share pb codec k sent)
    fun a k => ?_
  · rcases mem_push hm' with hm' | rfl
    · exact h.transfers i j m' hm'
    · exact ⟨tx, hsent⟩
  · have hshare : share pb codec k sent = if v.2.2 = 0 then tx.effect k else 0 := by
      rw [hsent.share_eq]
      exact if_congr (errCode_answer_one.trans decide_eq_true_iff) rfl rfl
    rw [underWay_push hout, hshare]
    by_cases ha : a = host
    · rw [if_pos ha, if_pos ha, add_zero]
    · rw [if_neg ha, if_neg ha, add_zero]

theorem Level.process {books : ι → Books} (h : Level sha pb codec n books) {sender receiver : ι}
    (halike : answersAlike sha pb codec n sender receiver = true)
    (he : event sha pb codec extract outbound n (.process sender receiver) = .ok n') :
    ∃ books', Level sha pb codec n' books' := by
  cases hchannel : n.channels sender receiver with
  | nil =>
    rw [event, hchannel] at he
    exact ⟨books, Except.ok.inj he ▸ h⟩
  | cons sent rest =>
    obtain ⟨r, hr, rfl⟩ := process_ok hchannel he
    obtain ⟨tx, htx⟩ := h.transfers sender receiver sent (hchannel ▸ List.mem_cons_self)
    rw [htx.1, unserializer_messageOf, processMessage_transaction] at hr
    obtain ⟨v, hv, hr⟩ := bind_eq_ok.mp hr
    cases hr
    refine h.post htx.2 hv rfl (fun i j m hm => h.transfers i j m (mem_pop hchannel hm))
      (fun _ => 0) fun a k => ?_
    have hanswer : v.2.2 = 0 ↔ sent.answer.errCode = ascii ['1'] := by
      simp only [answersAlike, hchannel, htx.unserializer, hv] at halike
      exact of_decide_eq_true halike
    have hshare : share pb codec k sent = if v.2.2 = 0 then tx.effect k else 0 := by
      rw [htx.share_eq]
      exact if_congr hanswer.symm rfl rfl
    rw [← hshare, underWay_pop hchannel, add_zero]

omit [DecidableEq ι] in
/-- Where nothing is under way, the hosts find the same balances. -/
theorem Level.balanceOf_eq {books : ι → Books} (h : Level sha pb codec n books)
    (hdone : ∀ i j, n.channels i j = []) (a a' : ι) (k : Uint256) :
    balanceOf sha pb (n.ledgers a) k = balanceOf sha pb (n.ledgers a') k := by
  have hempty : ∀ host, underWay pb codec n.channels host k = 0 := by
    intro host
    unfold underWay
    simp [hdone]
  have hbalance : (books a).balance k = (books a').balance k := by
    have hsum := h.balances a a' k
    rwa [hempty, hempty, add_zero, add_zero] at hsum
  have hfound : ∀ host, balanceOf sha pb (n.ledgers host) k =
      if k ∈ (books host).addresses then some ((books host).balance k) else none := by
    intro host
    obtain ⟨accepted, ta, tt, hreflects⟩ := h.reflects host
    obtain ⟨r, hr⟩ := exists_getAccountEntry hreflects.trees hreflects.accounts k
    have hentry := (getAccountEntry_ok hreflects.trees hreflects.accounts hr).2
    rw [balanceOf, hr]
    dsimp only
    rw [hentry]
    cases hk : (books host).accounts k with
    | none => rw [if_neg (by simp [(books host).mem_addresses, hk]), Option.map_none]
    | some acc =>
      rw [if_pos (by simp [(books host).mem_addresses, hk]), Books.balance_eq hk, Option.map_some]
  rw [hfound a, hfound a', h.addresses a a', hbalance]

end Level

/-- Hosts that are all connected to each other and start with the same books: after any run of
requests of method 1001 with amounts that are not negative, in which every transfer is answered
where it arrives as it was where it was made, and in which every string has been handled, every
account has the same balance at all hosts. -/
theorem replicas_converge [Fintype ι] (sha : Bytes → Uint256) (pb : Protobuf)
    (codec : MessageCodec) (extract : Bytes → Option ℚ) (outbound : ι → ι → Bool)
    (hout : ∀ i j, outbound i j = true ↔ i ≠ j) (n₀ n : Network ι) (b : Books) (hb : b.Solvent)
    (hledgers : ∀ a, ∃ accepted ta tt, Reflects sha pb (n₀.ledgers a) b accepted ta tt)
    (hchannels : ∀ i j, n₀.channels i j = []) (events : List (NetworkEvent ι))
    (hrequests : ∀ host m request, .request host m request ∈ events → IsPayment extract m request)
    (halike : ∀ n₁ sender receiver n₂,
      StepOf sha pb codec extract outbound n₀ events n₁ (.process sender receiver) n₂ →
        answersAlike sha pb codec n₁ sender receiver = true)
    (hrun : events.foldlM (event sha pb codec extract outbound) n₀ = .ok n)
    (hdone : ∀ i j, n.channels i j = []) (a a' : ι) (k : Uint256) :
    balanceOf sha pb (n.ledgers a) k = balanceOf sha pb (n.ledgers a') k := by
  have hstart : Level sha pb codec n₀ fun _ => b := by
    refine ⟨hledgers, fun _ => hb, fun _ _ => rfl, fun i j m hm => ?_, fun a a' k => ?_⟩
    · rw [hchannels i j] at hm
      cases hm
    · simp only [underWay, hchannels]
  have hstep : ∀ pre e post n₁ n₂, events = pre ++ e :: post →
      pre.foldlM (event sha pb codec extract outbound) n₀ = .ok n₁ →
        (∃ books, Level sha pb codec n₁ books) →
          event sha pb codec extract outbound n₁ e = .ok n₂ →
            ∃ books, Level sha pb codec n₂ books := by
    intro pre e post n₁ n₂ hevents hpre hlevel he
    obtain ⟨books, hlevel⟩ := hlevel
    cases e with
    | request host m request =>
      refine hlevel.request hout (hrequests host m request ?_) he
      rw [hevents]
      exact List.mem_append_right _ List.mem_cons_self
    | process sender receiver =>
      exact hlevel.process (halike n₁ sender receiver n₂ ⟨pre, post, hevents, hpre, he⟩) he
  obtain ⟨books, hlevel⟩ := run_invariant_steps hstep ⟨_, hstart⟩ hrun
  exact hlevel.balanceOf_eq hdone a a' k

/-- A transfer at each of two hosts, and then its handling at the other one. -/
def crossing (first second : Request) : List (NetworkEvent Bool) :=
  [.request false sampleSurroundings first, .request true sampleSurroundings second,
    .process false true, .process true false]

/-- The steps of such a run that handle a string. -/
theorem stepOf_crossing {first second : Request} {n₀ n₁ n₂ : Network Bool} {sender receiver : Bool}
    (h : StepOf sha pb codec extract eachOther n₀ (crossing first second) n₁
      (.process sender receiver) n₂) :
    ((sender, receiver) = (false, true) ∧ ((crossing first second).take 2).foldlM
        (event sha pb codec extract eachOther) n₀ = .ok n₁) ∨
      ((sender, receiver) = (true, false) ∧ ((crossing first second).take 3).foldlM
        (event sha pb codec extract eachOther) n₀ = .ok n₁) := by
  obtain ⟨pre, post, hevents, hpre, _⟩ := h
  rcases pre with _ | ⟨e₀, _ | ⟨e₁, _ | ⟨e₂, _ | ⟨e₃, pre⟩⟩⟩⟩
  · cases hevents
  · cases hevents
  · cases hevents
    exact Or.inl ⟨rfl, hpre⟩
  · cases hevents
    exact Or.inr ⟨rfl, hpre⟩
  · have hlength := congrArg List.length hevents
    simp [crossing] at hlength

theorem replicas_converge_crossing :
    ∃ r n, run checksum plainProtobuf (fun _ => none) threeAccounts = .ok r ∧
      (crossing (sampleTransfer 1 2 ['1', '0', '0']) (sampleTransfer 2 3 ['5', '0'])).foldlM
        sampleEvent (twoHosts r.1) = .ok n ∧
      ∀ a a' k, balanceOf checksum plainProtobuf (n.ledgers a) k =
        balanceOf checksum plainProtobuf (n.ledgers a') k := by
  set events := crossing (sampleTransfer 1 2 ['1', '0', '0']) (sampleTransfer 2 3 ['5', '0'])
    with hevents
  have hok : (do
      let r ← run checksum plainProtobuf (fun _ => none) threeAccounts
      let n₂ ← (events.take 2).foldlM sampleEvent (twoHosts r.1)
      let n₃ ← (events.take 3).foldlM sampleEvent (twoHosts r.1)
      let n ← events.foldlM sampleEvent (twoHosts r.1)
      .ok (answersAlike checksum plainProtobuf plainMessages n₂ false true,
        answersAlike checksum plainProtobuf plainMessages n₃ true false,
        decide (∀ i j, (n.channels i j).isEmpty = true))) = .ok (true, true, true) :=
    eq_ok_of_toOption (by decide +kernel)
  obtain ⟨r, hr, hok⟩ := bind_eq_ok.mp hok
  obtain ⟨n₂, hn₂, hok⟩ := bind_eq_ok.mp hok
  obtain ⟨n₃, hn₃, hok⟩ := bind_eq_ok.mp hok
  obtain ⟨n, hn, hok⟩ := bind_eq_ok.mp hok
  simp only [Except.ok.injEq, Prod.mk.injEq, decide_eq_true_iff] at hok
  obtain ⟨halike₂, halike₃, hdone⟩ := hok
  obtain ⟨ta, tt, hreflects, _⟩ := (run_inStep hr).reflects
  refine ⟨r, n, hr, hn, fun a a' k => ?_⟩
  refine replicas_converge checksum plainProtobuf plainMessages decimal eachOther (fun i j => ?_)
    (twoHosts r.1) n _ (posted_solvent threeAccounts) (fun _ => ⟨_, ta, tt, hreflects⟩)
    (fun _ _ => rfl) events (fun host m request hmem => ?_) (fun n₁ sender receiver n₂' hstep => ?_)
    hn (fun i j => List.isEmpty_iff.mp (hdone i j)) a a' k
  · exact bne_iff_ne
  · have hpayments : ∀ fee, fee ∈ [['1', '0', '0'], ['5', '0']] →
        0 ≤ (decimal (ascii fee)).getD sampleSurroundings.amount := by
      decide +kernel
    simp only [hevents, crossing, List.mem_cons, NetworkEvent.request.injEq, reduceCtorEq,
      List.not_mem_nil, or_false] at hmem
    rcases hmem with ⟨_, rfl, rfl⟩ | ⟨_, rfl, rfl⟩
    · exact ⟨_, _, _, rfl, hpayments _ (by simp)⟩
    · exact ⟨_, _, _, rfl, hpayments _ (by simp)⟩
  · rcases stepOf_crossing hstep with ⟨hends, hpre⟩ | ⟨hends, hpre⟩
    · obtain ⟨rfl, rfl⟩ := Prod.mk.inj hends
      rwa [← Except.ok.inj (hn₂.symm.trans hpre)]
    · obtain ⟨rfl, rfl⟩ := Prod.mk.inj hends
      rwa [← Except.ok.inj (hn₃.symm.trans hpre)]

/-- Two hosts each accept a transfer of 800 out of one balance of 1000, and each then rejects the
other's. And two transfers of negative amounts that every host accepts: the destination refuses
whichever arrives second. -/
theorem replicas_diverge :
    (do
      let r ← run checksum plainProtobuf (fun _ => none) threeAccounts
      let n ← (crossing (sampleTransfer 1 2 ['8', '0', '0'])
        (sampleTransfer 1 3 ['8', '0', '0'])).foldlM sampleEvent (twoHosts r.1)
      .ok (decide (∀ i j, (n.channels i j).isEmpty = true),
        balanceOf checksum plainProtobuf (n.ledgers false) (checksum (sampleName 2)),
        balanceOf checksum plainProtobuf (n.ledgers true) (checksum (sampleName 2)))).toOption =
      some (true, some 1800, some 1000) ∧
    (do
      let r ← run checksum plainProtobuf (fun _ => none) threeAccounts
      let events := crossing (sampleTransfer 1 2 ['-', '6', '0', '0'])
        (sampleTransfer 3 2 ['-', '7', '0', '0'])
      let n₂ ← (events.take 2).foldlM sampleEvent (twoHosts r.1)
      let n₃ ← (events.take 3).foldlM sampleEvent (twoHosts r.1)
      let n ← events.foldlM sampleEvent (twoHosts r.1)
      .ok (answersAlike checksum plainProtobuf plainMessages n₂ false true &&
          answersAlike checksum plainProtobuf plainMessages n₃ true false,
        decide (∀ i j, (n.channels i j).isEmpty = true),
        balanceOf checksum plainProtobuf (n.ledgers false) (checksum (sampleName 2)),
        balanceOf checksum plainProtobuf (n.ledgers true) (checksum (sampleName 2)))).toOption =
      some (true, true, some 400, some 300) := by
  decide +kernel

end Network

end Bubi
