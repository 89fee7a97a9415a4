import Bubi.Ledger.Interleaving
import Bubi.Ledger.Solvency

/-!
# Two payments at once

When two calls of `add_transaction_entry` are interleaved, the one that records its
transaction first has copied accounts with the links of the start, and the other has copied
accounts with these links or linked to the first record. So the second index is taken only
where both make the same payment from the same copies, and otherwise no interleaving stops.
Together with the transfers of the balances this tells which pairs of calls lose no update.
-/

namespace Bubi

open Bubi.Core

/-- The transaction that an account links to. -/
def Account.previous (acc : Account) : BitVec 32 × Uint256 :=
  (acc.previousLedgerSeq, acc.previousTxHash)

@[simp] theorem Account.previous_setPrevious (acc : Account) (seq : BitVec 32) (hash : Uint256) :
    (acc.setPrevious seq hash).previous = (seq, hash) := rfl

@[simp] theorem Account.previous_addBalance (acc : Account) (amount : ℚ) :
    (acc.addBalance amount).1.previous = acc.previous := by
  rcases lt_or_ge (acc.accountBalance + amount) 0 with h | h
  · rw [addBalance_of_lt h]
  · rw [addBalance_of_le h]
    rfl

/-- Only the links of the accounts enter a transaction. -/
theorem Transaction.setPrevious_congr (tx : Transaction)
    {source source' destination destination' : Account} (hs : source.previous = source'.previous)
    (hd : destination.previous = destination'.previous) :
    tx.setPrevious source destination = tx.setPrevious source' destination' := by
  obtain ⟨hsseq, hshash⟩ := Prod.ext_iff.mp hs
  obtain ⟨hdseq, hdhash⟩ := Prod.ext_iff.mp hd
  dsimp only [Account.previous] at hsseq hshash hdseq hdhash
  unfold Transaction.setPrevious
  rw [hsseq, hshash, hdseq, hdhash]

namespace Ledger

/-- Two transactions that pay the same amount from the same account to the same account. -/
def SamePayment (tx : Bool → Transaction) : Prop :=
  (tx false).sourceAddress = (tx true).sourceAddress ∧
    (tx false).destinationAddress = (tx true).destinationAddress ∧
      (tx false).paymentAmount = (tx true).paymentAmount

section Records

variable (sha : Bytes → Uint256) (pb : Protobuf)

/-- The link to what a call records that has copied the accounts of the start. -/
def linkTo (tx : Bool → Transaction) (source destination : Bool → Account) (who : Bool) :
    BitVec 32 × Uint256 :=
  (1, txHash sha pb ((tx who).setPrevious (source who) (destination who)))

/-- The transactions that two calls can record. Each account is copied with the link of the start
or with the link to the other call's record. -/
def recordable (tx : Bool → Transaction) (source destination : Bool → Account) : List Transaction :=
  [false, true].flatMap fun who =>
    let link := linkTo sha pb tx source destination !who
    [source who, (source who).setPrevious link.1 link.2].flatMap fun sourceAccount =>
      [destination who, (destination who).setPrevious link.1 link.2].map fun destinationAccount =>
        (tx who).setPrevious sourceAccount destinationAccount

end Records

variable {sha : Bytes → Uint256} {pb : Protobuf} {tx : Bool → Transaction} {b : Books}
  {accepted : List Transaction} {source destination : Bool → Account}

theorem mem_recordable (who : Bool) {sourceAccount destinationAccount : Account}
    (hs : sourceAccount.previous = (source who).previous ∨
      sourceAccount.previous = linkTo sha pb tx source destination !who)
    (hd : destinationAccount.previous = (destination who).previous ∨
      destinationAccount.previous = linkTo sha pb tx source destination !who) :
    (tx who).setPrevious sourceAccount destinationAccount ∈
      recordable sha pb tx source destination := by
  refine List.mem_flatMap.mpr ⟨who, by cases who <;> decide, ?_⟩
  rcases hs with hs | hs <;> rcases hd with hd | hd
  · refine List.mem_flatMap.mpr ⟨source who, by simp, List.mem_map.mpr
      ⟨destination who, by simp, Transaction.setPrevious_congr _ hs.symm hd.symm⟩⟩
  · refine List.mem_flatMap.mpr ⟨source who, by simp, List.mem_map.mpr
      ⟨_, List.mem_cons_of_mem _ List.mem_cons_self,
        Transaction.setPrevious_congr _ hs.symm hd.symm⟩⟩
  · refine List.mem_flatMap.mpr ⟨_, List.mem_cons_of_mem _ List.mem_cons_self, List.mem_map.mpr
      ⟨destination who, by simp, Transaction.setPrevious_congr _ hs.symm hd.symm⟩⟩
  · refine List.mem_flatMap.mpr ⟨_, List.mem_cons_of_mem _ List.mem_cons_self, List.mem_map.mpr
      ⟨_, List.mem_cons_of_mem _ List.mem_cons_self,
        Transaction.setPrevious_congr _ hs.symm hd.symm⟩⟩

/-- Two payments between existing accounts, on linked books and without a collision of digests. -/
structure Payments (sha : Bytes → Uint256) (pb : Protobuf) (tx : Bool → Transaction) (b : Books)
    (accepted : List Transaction) (source destination : Bool → Account) : Prop where
  linked : Linked sha pb (b, accepted)
  nodup : (accepted.map (txHash sha pb)).Nodup
  sources : ∀ who, b.accounts (tx who).sourceAddress = some (source who)
  destinations : ∀ who, b.accounts (tx who).destinationAddress = some (destination who)
  distinct : ∀ R ∈ recordable sha pb tx source destination ++ accepted,
    ∀ R' ∈ recordable sha pb tx source destination ++ accepted,
      txHash sha pb R = txHash sha pb R' → R = R'

section Fresh

variable (h : Payments sha pb tx b accepted source destination)
include h

/-- What a call records first is new. -/
theorem Payments.first_notMem (who : Bool) :
    (tx who).setPrevious (source who) (destination who) ∉ accepted :=
  h.linked.setPrevious_notMem h.nodup (h.sources who) _

theorem Payments.hash_notMem {R : Transaction} (hR : R ∈ recordable sha pb tx source destination)
    {others : List Transaction} (hothers : ∀ R' ∈ others,
      R' ∈ recordable sha pb tx source destination ++ accepted) (hnew : R ∉ others) :
    txHash sha pb R ∉ others.map (txHash sha pb) := by
  intro hmem
  obtain ⟨R', hR', hhash⟩ := List.mem_map.mp hmem
  obtain rfl : R' = R :=
    h.distinct R' (hothers R' hR') R (List.mem_append_left _ hR) hhash
  exact hnew hR'

/-- No accepted transaction links to what a call records first. -/
theorem Payments.source_link_ne {R : Transaction} (hR : R ∈ accepted) (who : Bool) :
    (R.sourcePreviousLedgerSeq, R.sourcePreviousTxHash) ≠
      linkTo sha pb tx source destination who := by
  intro heq
  obtain ⟨newer, older, hsplit⟩ := List.append_of_mem hR
  have hchained := h.linked.chained
  dsimp only at hchained
  rw [hsplit] at hchained
  rcases link_cases sha pb R.sourceAddress older with hnone | ⟨R', hR', hlink⟩
  · rw [hchained.of_append.1, hnone] at heq
    have hseq : (0 : BitVec 32) = 1 := congrArg Prod.fst heq
    exact absurd hseq (by decide)
  · rw [hchained.of_append.1, hlink] at heq
    have hmem : R' ∈ accepted := by
      rw [hsplit]
      exact List.mem_append_right _ (List.mem_cons_of_mem _ hR')
    have hsame : R' = (tx who).setPrevious (source who) (destination who) :=
      h.distinct R' (List.mem_append_right _ hmem) _
        (List.mem_append_left _ (mem_recordable who (Or.inl rfl) (Or.inl rfl)))
        (congrArg Prod.snd heq)
    exact h.first_notMem who (hsame ▸ hmem)

/-- What the other call records behind the first is new, unless both make the same payment. -/
theorem Payments.second_notMem (hdifferent : ¬ SamePayment tx) {lead : Bool}
    {sourceAccount destinationAccount : Account}
    (hs : sourceAccount.previous = (source !lead).previous ∨
      sourceAccount.previous = linkTo sha pb tx source destination lead) :
    (tx !lead).setPrevious sourceAccount destinationAccount ∉
      (tx lead).setPrevious (source lead) (destination lead) :: accepted := by
  intro hmem
  rcases List.mem_cons.mp hmem with hsame | hmem
  · obtain ⟨hsource, hdestination, hamount, _⟩ := Transaction.mk.inj hsame
    cases lead with
    | false => exact hdifferent ⟨hsource.symm, hdestination.symm, hamount.symm⟩
    | true => exact hdifferent ⟨hsource, hdestination, hamount⟩
  · rcases hs with hs | hs
    · exact h.linked.source_link_ne h.nodup (h.sources !lead) hmem rfl hs
    · exact h.source_link_ne hmem lead hs

end Fresh

section Clerks

/-- The links that an address has had. -/
abbrev Links := Uint256 → BitVec 32 × Uint256 → Prop

/-- The clerk has recorded nothing, and its copies have such links. -/
def Clerk.Fresh (links : Links) (tx : Transaction) : Clerk → Prop
  | .start | .done _ => True
  | .copied source => links tx.sourceAddress source.previous
  | .ready source destination => links tx.sourceAddress source.previous ∧
      links tx.destinationAddress destination.previous
  | .recorded _ _ | .half _ => False

/-- The clerk has recorded its transaction, and its copies link to it. -/
def Clerk.Recorded (link : BitVec 32 × Uint256) : Clerk → Prop
  | .recorded source destination => source.previous = link ∧ destination.previous = link
  | .half destination => destination.previous = link
  | .done _ => True
  | .start | .copied _ | .ready _ _ => False

/-- The accounts of the books have such links. -/
def Linking (links : Links) (b : Books) : Prop :=
  ∀ k acc, b.accounts k = some acc → links k acc.previous

variable {clerk : Clerk} {links : Links} {link : BitVec 32 × Uint256}

theorem Clerk.Fresh.mono {links' : Links} {tx : Transaction} (h : clerk.Fresh links tx)
    (hlinks : ∀ k l, links k l → links' k l) : clerk.Fresh links' tx := by
  cases clerk with
  | start => trivial
  | done code => trivial
  | copied source => exact hlinks _ _ h
  | ready source destination => exact ⟨hlinks _ _ h.1, hlinks _ _ h.2⟩
  | recorded source destination => exact h
  | half destination => exact h

/-- A clerk that has recorded nothing is about to, or takes a step that changes no books. -/
theorem Clerk.Fresh.step (sha : Bytes → Uint256) (pb : Protobuf) {p : Books × List Transaction}
    {tx : Transaction} (h : clerk.Fresh links tx) (hs : p.1.accounts tx.sourceAddress ≠ none)
    (hd : p.1.accounts tx.destinationAddress ≠ none) (hlinking : Linking links p.1) :
    (∃ source destination, clerk = .ready source destination) ∨
      ∃ clerk', clerk.step sha pb tx p = .ok (p, clerk') ∧ clerk'.Fresh links tx := by
  cases clerk with
  | start =>
    obtain ⟨source, hsource⟩ := Option.ne_none_iff_exists'.mp hs
    refine Or.inr ⟨.copied source, ?_, hlinking _ _ hsource⟩
    rw [Clerk.step, hsource]
  | copied source =>
    obtain ⟨destination, hdestination⟩ := Option.ne_none_iff_exists'.mp hd
    rw [Clerk.step, hdestination]
    dsimp only
    split
    · exact Or.inr ⟨.done 1, rfl, trivial⟩
    · refine Or.inr ⟨_, rfl, ?_, ?_⟩
      · rw [Account.previous_addBalance]
        exact h
      · rw [Account.previous_addBalance]
        exact hlinking _ _ hdestination
  | ready source destination => exact Or.inl ⟨source, destination, rfl⟩
  | recorded source destination => exact h.elim
  | half destination => exact h.elim
  | done code => exact Or.inr ⟨.done code, rfl, trivial⟩

/-- A clerk that has recorded its transaction writes accounts that link to it. -/
theorem Clerk.Recorded.step (h : clerk.Recorded link) (tx : Transaction)
    (p : Books × List Transaction) :
    ∃ r, clerk.step sha pb tx p = .ok r ∧ r.2.Recorded link ∧ r.1.2 = p.2 ∧
      (r.1.1 = p.1 ∨ ∃ acc : Account, acc.previous = link ∧ r.1.1 = p.1.write acc) := by
  cases clerk with
  | start => exact h.elim
  | copied source => exact h.elim
  | ready source destination => exact h.elim
  | recorded source destination =>
    exact ⟨_, rfl, h.2, rfl, Or.inr ⟨source, h.1, rfl⟩⟩
  | half destination => exact ⟨_, rfl, trivial, rfl, Or.inr ⟨destination, h, rfl⟩⟩
  | done code => exact ⟨_, rfl, trivial, rfl, Or.inl rfl⟩

theorem Linking.write (h : Linking links b) {acc : Account}
    (hacc : ∀ k, links k acc.previous) : Linking links (b.write acc) := by
  intro k acc' hk
  rw [Books.accounts_write] at hk
  split at hk
  · obtain rfl := Option.some.inj hk
    exact hacc k
  · exact h k acc' hk

theorem Exist.write (h : Exist tx b) (acc : Account) : Exist tx (b.write acc) :=
  h.mono (Finset.subset_insert _ _)

/-- The links of the start. -/
def oldLinks (b : Books) : Links := fun k link => ∃ acc, b.accounts k = some acc ∧
  link = acc.previous

/-- What two clerks have done so far: neither has recorded its transaction, or the first has and
the other has not, or both have. -/
inductive Progress (sha : Bytes → Uint256) (pb : Protobuf) (tx : Bool → Transaction) (b : Books)
    (accepted : List Transaction) (source destination : Bool → Account)
    (v : (Books × List Transaction) × (Bool → Clerk)) : Prop where
  | none (hv : v.1 = (b, accepted)) (hfresh : ∀ who, (v.2 who).Fresh (oldLinks b) (tx who))
  | first (lead : Bool)
      (haccepted : v.1.2 = (tx lead).setPrevious (source lead) (destination lead) :: accepted)
      (hlinking : Linking (fun k link => oldLinks b k link ∨
        link = linkTo sha pb tx source destination lead) v.1.1)
      (hlead : (v.2 lead).Recorded (linkTo sha pb tx source destination lead))
      (hfresh : (v.2 !lead).Fresh (fun k link => oldLinks b k link ∨
        link = linkTo sha pb tx source destination lead) (tx !lead))
  | both (hboth : ∀ who, ∃ link, (v.2 who).Recorded link)

theorem Clerk.turn_eq {v : (Books × List Transaction) × (Bool → Clerk)} {who : Bool}
    {r : (Books × List Transaction) × Clerk} (hr : (v.2 who).step sha pb (tx who) v.1 = .ok r) :
    Clerk.turn sha pb tx v who = .ok (r.1, Function.update v.2 who r.2) := by
  rw [Clerk.turn, hr, ok_bind]

/-- A transaction with a free index is recorded. -/
theorem Clerk.turn_ready {v : (Books × List Transaction) × (Bool → Clerk)} {who : Bool}
    {source destination : Account} (hready : v.2 who = .ready source destination)
    (hfree : txHash sha pb ((tx who).setPrevious source destination) ∉
      v.1.2.map (txHash sha pb)) :
    Clerk.turn sha pb tx v who =
      .ok ((v.1.1, (tx who).setPrevious source destination :: v.1.2), Function.update v.2 who
        (.recorded
          (source.setPrevious 1 (txHash sha pb ((tx who).setPrevious source destination)))
          (destination.setPrevious 1
            (txHash sha pb ((tx who).setPrevious source destination))))) := by
  rw [Clerk.turn, hready, Clerk.step, if_neg hfree, ok_bind]

section Total

variable (h : Payments sha pb tx b accepted source destination)
  {v : (Books × List Transaction) × (Bool → Clerk)}
include h

theorem Payments.previous_source {who : Bool} {link : BitVec 32 × Uint256}
    (hlink : oldLinks b (tx who).sourceAddress link) : link = (source who).previous := by
  obtain ⟨acc, hacc, rfl⟩ := hlink
  rw [Option.some.inj (hacc.symm.trans (h.sources who))]

theorem Payments.previous_destination {who : Bool} {link : BitVec 32 × Uint256}
    (hlink : oldLinks b (tx who).destinationAddress link) : link = (destination who).previous := by
  obtain ⟨acc, hacc, rfl⟩ := hlink
  rw [Option.some.inj (hacc.symm.trans (h.destinations who))]

/-- Neither has recorded its transaction. -/
theorem Payments.exists_turn_none (hv : v.1 = (b, accepted))
    (hfresh : ∀ who, (v.2 who).Fresh (oldLinks b) (tx who)) (hexist : Exist tx b) (who : Bool) :
    ∃ v', Clerk.turn sha pb tx v who = .ok v' ∧
      Progress sha pb tx b accepted source destination v' ∧ Exist tx v'.1.1 := by
  have hlinking : Linking (oldLinks b) b := fun k acc hacc => ⟨acc, hacc, rfl⟩
  have hstep := @Clerk.Fresh.step _ _ sha pb (b, accepted) _ (hfresh who) (hexist who).1
    (hexist who).2 hlinking
  rw [← hv] at hstep
  rcases hstep with ⟨s, d, hready⟩ | ⟨clerk', hstep, hfresh'⟩
  · have hlinks := hfresh who
    rw [hready] at hlinks
    have hs := h.previous_source hlinks.1
    have hd := h.previous_destination hlinks.2
    have hrecord := Transaction.setPrevious_congr (tx who) hs hd
    have hfree : txHash sha pb ((tx who).setPrevious s d) ∉ v.1.2.map (txHash sha pb) := by
      rw [hv]
      refine h.hash_notMem (mem_recordable who (Or.inl hs) (Or.inl hd))
        (fun R' hR' => List.mem_append_right _ hR') ?_
      rw [hrecord]
      exact h.first_notMem who
    refine ⟨_, Clerk.turn_ready hready hfree, .first who ?_ ?_ ?_ ?_, ?_⟩
    · rw [hrecord, hv]
    · rw [hv]
      exact fun k acc hacc => Or.inl (hlinking k acc hacc)
    · dsimp only
      rw [Function.update_self, hrecord]
      exact ⟨rfl, rfl⟩
    · dsimp only
      rw [Function.update_of_ne (Bool.not_ne_self who)]
      exact (hfresh !who).mono fun k link hlink => Or.inl hlink
    · rw [hv]
      exact hexist
  · refine ⟨_, Clerk.turn_eq hstep, .none hv fun other => ?_, ?_⟩
    · dsimp only
      by_cases hother : other = who
      · rw [hother, Function.update_self]
        exact hfresh'
      · rw [Function.update_of_ne hother]
        exact hfresh other
    · rw [hv]
      exact hexist

/-- The first has recorded its transaction, and the other makes a different payment. -/
theorem Payments.exists_turn_second (hdifferent : ¬ SamePayment tx) {lead : Bool}
    (haccepted : v.1.2 = (tx lead).setPrevious (source lead) (destination lead) :: accepted)
    (hlinking : Linking (fun k link => oldLinks b k link ∨
      link = linkTo sha pb tx source destination lead) v.1.1)
    (hlead : (v.2 lead).Recorded (linkTo sha pb tx source destination lead))
    (hfresh : (v.2 !lead).Fresh (fun k link => oldLinks b k link ∨
      link = linkTo sha pb tx source destination lead) (tx !lead)) (hexist : Exist tx v.1.1) :
    ∃ v', Clerk.turn sha pb tx v (!lead) = .ok v' ∧
      Progress sha pb tx b accepted source destination v' ∧ Exist tx v'.1.1 := by
  have hkept : ∀ clerk, Function.update v.2 (!lead) clerk lead = v.2 lead := fun clerk =>
    Function.update_of_ne (Bool.not_ne_self lead).symm ..
  rcases hfresh.step sha pb (hexist _).1 (hexist _).2 hlinking with
    ⟨s, d, hready⟩ | ⟨clerk', hstep, hfresh'⟩
  · rw [hready] at hfresh
    have hs := hfresh.1.imp_left h.previous_source
    have hd := hfresh.2.imp_left h.previous_destination
    have hmem : (tx !lead).setPrevious s d ∈ recordable sha pb tx source destination := by
      refine mem_recordable (!lead) ?_ ?_
      · rwa [Bool.not_not]
      · rwa [Bool.not_not]
    have hfree : txHash sha pb ((tx !lead).setPrevious s d) ∉ v.1.2.map (txHash sha pb) := by
      rw [haccepted]
      refine h.hash_notMem hmem (fun R' hR' => ?_) (h.second_notMem hdifferent hs)
      rcases List.mem_cons.mp hR' with rfl | hR'
      · exact List.mem_append_left _ (mem_recordable lead (Or.inl rfl) (Or.inl rfl))
      · exact List.mem_append_right _ hR'
    refine ⟨_, Clerk.turn_ready hready hfree, .both fun other => ?_, hexist⟩
    dsimp only
    by_cases hother : other = lead
    · rw [hother, hkept]
      exact ⟨_, hlead⟩
    · rw [Bool.eq_not_of_ne hother, Function.update_self]
      exact ⟨_, rfl, rfl⟩
  · refine ⟨_, Clerk.turn_eq hstep, .first lead haccepted hlinking ?_ ?_, hexist⟩
    · dsimp only
      rw [hkept]
      exact hlead
    · dsimp only
      rw [Function.update_self]
      exact hfresh'

/-- A turn of one of two clerks with different payments succeeds. -/
theorem Payments.exists_turn (hdifferent : ¬ SamePayment tx)
    (hprogress : Progress sha pb tx b accepted source destination v) (hexist : Exist tx v.1.1)
    (who : Bool) :
    ∃ v', Clerk.turn sha pb tx v who = .ok v' ∧
      Progress sha pb tx b accepted source destination v' ∧ Exist tx v'.1.1 := by
  cases hprogress with
  | none hv hfresh =>
    rw [hv] at hexist
    exact h.exists_turn_none hv hfresh hexist who
  | first lead haccepted hlinking hlead hfresh =>
    by_cases hwho : who = lead
    · subst hwho
      obtain ⟨r, hr, hrecorded, hsame, hbooks⟩ := hlead.step (tx who) v.1
      refine ⟨_, Clerk.turn_eq hr, .first who (hsame.trans haccepted) ?_ ?_ ?_, ?_⟩
      · dsimp only
        rcases hbooks with hbooks | ⟨acc, hacc, hbooks⟩
        · rwa [hbooks]
        · rw [hbooks]
          exact hlinking.write fun k => Or.inr hacc
      · dsimp only
        rwa [Function.update_self]
      · dsimp only
        rwa [Function.update_of_ne (Bool.not_ne_self who)]
      · dsimp only
        rcases hbooks with hbooks | ⟨acc, _, hbooks⟩
        · rwa [hbooks]
        · rw [hbooks]
          exact hexist.write acc
    · obtain rfl : who = !lead := Bool.eq_not_of_ne hwho
      exact h.exists_turn_second hdifferent haccepted hlinking hlead hfresh hexist
  | both hboth =>
    obtain ⟨link, hrecorded⟩ := hboth who
    obtain ⟨r, hr, hrecorded', _, hbooks⟩ := hrecorded.step (tx who) v.1
    refine ⟨_, Clerk.turn_eq hr, .both fun other => ?_, ?_⟩
    · dsimp only
      by_cases hother : other = who
      · rw [hother, Function.update_self]
        exact ⟨link, hrecorded'⟩
      · rw [Function.update_of_ne hother]
        exact hboth other
    · dsimp only
      rcases hbooks with hbooks | ⟨acc, _, hbooks⟩
      · rwa [hbooks]
      · rw [hbooks]
        exact hexist.write acc

theorem Payments.exist : Exist tx b := by
  intro who
  rw [h.sources who, h.destinations who]
  exact ⟨Option.some_ne_none _, Option.some_ne_none _⟩

/-- Two clerks with different payments never stop. -/
theorem Payments.exists_interleave (hdifferent : ¬ SamePayment tx) (schedule : List Bool) :
    ∃ v, Clerk.interleave sha pb tx (b, accepted) schedule = .ok v := by
  have hrun : ∀ v, Progress sha pb tx b accepted source destination v → Exist tx v.1.1 →
      ∃ v', schedule.foldlM (Clerk.turn sha pb tx) v = .ok v' := by
    induction schedule with
    | nil => exact fun v _ _ => ⟨v, rfl⟩
    | cons who schedule ih =>
      intro v hprogress hexist
      obtain ⟨v', hv', hprogress', hexist'⟩ := h.exists_turn hdifferent hprogress hexist who
      obtain ⟨v'', hv''⟩ := ih v' hprogress' hexist'
      exact ⟨v'', foldlM_cons_ok.mpr ⟨v', hv', hv''⟩⟩
  exact hrun _ (.none rfl fun _ => trivial) h.exist

/-- Two clerks that are refused at the start never stop, also with the same payment. -/
theorem Payments.exists_interleave_refused
    (hrefused : ∀ who, (source who).accountBalance - (tx who).paymentAmount < 0)
    (schedule : List Bool) :
    ∃ v, Clerk.interleave sha pb tx (b, accepted) schedule = .ok v := by
  have hrun : ∀ clerks : Bool → Clerk,
      (∀ who, clerks who = .start ∨ clerks who = .copied (source who) ∨ clerks who = .done 1) →
      ∃ v', schedule.foldlM (Clerk.turn sha pb tx) ((b, accepted), clerks) = .ok v' := by
    induction schedule with
    | nil => exact fun clerks _ => ⟨_, rfl⟩
    | cons who schedule ih =>
      intro clerks hclerks
      have hnext : ∃ clerk, (clerks who).step sha pb (tx who) (b, accepted) =
            .ok ((b, accepted), clerk) ∧
          (clerk = .start ∨ clerk = .copied (source who) ∨ clerk = .done 1) := by
        rcases hclerks who with hclerk | hclerk | hclerk
        · refine ⟨.copied (source who), ?_, Or.inr (Or.inl rfl)⟩
          rw [hclerk, Clerk.step, h.sources who]
        · refine ⟨.done 1, ?_, Or.inr (Or.inr rfl)⟩
          rw [hclerk, Clerk.step, h.destinations who]
          exact if_pos (hrefused who)
        · exact ⟨.done 1, by rw [hclerk, Clerk.step], Or.inr (Or.inr rfl)⟩
      obtain ⟨clerk, hstep, hclerk⟩ := hnext
      obtain ⟨v', hv'⟩ := ih (Function.update clerks who clerk) fun other => by
        by_cases hother : other = who
        · rw [hother, Function.update_self]
          exact hclerk
        · rw [Function.update_of_ne hother]
          exact hclerks other
      exact ⟨v', foldlM_cons_ok.mpr
        ⟨_, @Clerk.turn_eq sha pb tx ((b, accepted), clerks) who _ hstep, hv'⟩⟩
  exact hrun _ fun _ => Or.inl rfl

/-- The two reads of a covered clerk at the start. -/
theorem Payments.reads {who : Bool}
    (hcovered : 0 ≤ (source who).accountBalance - (tx who).paymentAmount) {clerks : Bool → Clerk}
    (hstart : clerks who = .start) :
    [who, who].foldlM (Clerk.turn sha pb tx) ((b, accepted), clerks) =
      .ok ((b, accepted), Function.update clerks who
        (.ready ((source who).addBalance (-(tx who).paymentAmount)).1
          ((destination who).addBalance (tx who).paymentAmount).1)) := by
  simp only [List.foldlM_cons, List.foldlM_nil, Clerk.turn, hstart, Clerk.step, h.sources,
    h.destinations, ok_bind, Function.update_self, Function.update_idem,
    if_neg (not_lt.mpr hcovered)]
  rfl

/-- Two clerks that have both read the accounts before they record the same payment: the second
finds its index taken. -/
theorem Payments.interleave_samePayment (hsame : SamePayment tx)
    (hcovered : 0 ≤ (source false).accountBalance - (tx false).paymentAmount) :
    Clerk.interleave sha pb tx (b, accepted) ([false, false] ++ ([true, true] ++ [false, true])) =
      .error .assertion := by
  obtain ⟨hs, hd, hamount⟩ := hsame
  have hsource : source true = source false := by
    have hfalse := h.sources false
    rw [hs, h.sources true] at hfalse
    exact Option.some.inj hfalse
  have hdestination : destination true = destination false := by
    have hfalse := h.destinations false
    rw [hd, h.destinations true] at hfalse
    exact Option.some.inj hfalse
  have hcovered' : 0 ≤ (source true).accountBalance - (tx true).paymentAmount := by
    rwa [hsource, ← hamount]
  have hequal : (tx true).setPrevious (source true) (destination true) =
      (tx false).setPrevious (source false) (destination false) := by
    unfold Transaction.setPrevious
    rw [hsource, hdestination, hs, hd, hamount]
  have hfree : txHash sha pb ((tx false).setPrevious (source false) (destination false)) ∉
      accepted.map (txHash sha pb) :=
    h.hash_notMem (mem_recordable false (Or.inl rfl) (Or.inl rfl))
      (fun R' hR' => List.mem_append_right _ hR') (h.first_notMem false)
  rw [Clerk.interleave, List.foldlM_append, h.reads hcovered rfl, ok_bind, List.foldlM_append,
    h.reads hcovered' rfl, ok_bind]
  simp only [List.foldlM_cons, Clerk.turn, Clerk.step, Function.update_self,
    Function.update_of_ne Bool.false_ne_true, Function.update_of_ne Bool.false_ne_true.symm,
    Transaction.setPrevious_addBalance, if_neg hfree, ok_bind, hequal, List.map_cons,
    List.mem_cons_self, if_true, error_bind]

end Total

end Clerks

section LostUpdate

/-- The two transactions have no account in common. -/
def NoCommonAccount (tx : Bool → Transaction) : Prop :=
  ∀ k, ¬ ((k = (tx false).sourceAddress ∨ k = (tx false).destinationAddress) ∧
    (k = (tx true).sourceAddress ∨ k = (tx true).destinationAddress))

theorem payments_of_run {db : Database} {steps : List Step} {r : State × List Transaction}
    (hr : run sha pb db steps = .ok r)
    (hs : ∀ who, entry sha pb r.1 (tx who).sourceAddress = some (source who))
    (hd : ∀ who, entry sha pb r.1 (tx who).destinationAddress = some (destination who))
    (hinj : Set.InjOn sha
      {x | ∃ R ∈ recordable sha pb tx source destination ++ r.2, x = R.serializer pb}) :
    Payments sha pb tx (posted sha pb steps).1 r.2 source destination := by
  have hstep := run_inStep hr
  obtain ⟨ta, tt, hreflects, _⟩ := hstep.reflects
  rw [← hstep.accepted] at hreflects
  refine ⟨?_, hreflects.transactions.nodup, fun who => ?_, fun who => ?_, fun R hR R' hR' h => ?_⟩
  · rw [hstep.accepted]
    exact run_linked hr
  · rw [← hreflects.entry_eq, hs who]
  · rw [← hreflects.entry_eq, hd who]
  · exact Transaction.serializer_injective pb (hinj ⟨R, hR, rfl⟩ ⟨R', hR', rfl⟩ h)

section Returns

variable {s : State} {ta tt : MerkleTrie} (h : Payments sha pb tx b accepted source destination)
  (hreflects : Reflects sha pb s b accepted ta tt) (hseq : s.2.ledgerSequence = 1)
include h hreflects hseq

/-- Where the clerks do not stop, the threads do not either. -/
theorem Payments.exists_interleave_ledger
    (hsound : ∀ schedule f, interleave sha pb tx s schedule = .error f →
      f ≠ .unchanged ∧ f ≠ .outOfRange) {schedule : List Bool}
    (hclerks : ∃ v, Clerk.interleave sha pb tx (b, accepted) schedule = .ok v) :
    ∃ w, interleave sha pb tx s schedule = .ok w := by
  obtain ⟨v, hv⟩ := hclerks
  have hrefines := hreflects.interleave_refines hseq h.exist schedule
  rw [hv] at hrefines
  rcases hrefines with ⟨f, hf, hcoincides⟩ | hrel
  · obtain ⟨hunchanged, hrange⟩ := hsound schedule f hf
    exact absurd hcoincides (not_or.mpr ⟨hunchanged, hrange⟩)
  · obtain ⟨w, hw, _⟩ := hrel.exists_left
    exact ⟨w, hw⟩

/-- A payment that is made twice at once stops one of the calls, if it is covered. -/
theorem Payments.not_samePayment
    (hcovered : 0 ≤ (source false).accountBalance - (tx false).paymentAmount)
    (hreturns : ∀ schedule, ∃ w, interleave sha pb tx s schedule = .ok w) : ¬ SamePayment tx := by
  intro hsame
  obtain ⟨w, hw⟩ := hreturns ([false, false] ++ ([true, true] ++ [false, true]))
  have hrefines := hreflects.interleave_refines hseq h.exist
    ([false, false] ++ ([true, true] ++ [false, true]))
  rw [hw, h.interleave_samePayment hsame hcovered] at hrefines
  rcases hrefines with ⟨f, hf, _⟩ | hrel
  · cases hf
  · cases hrel

/-- All interleavings return, unless both calls make the same payment and it is covered. -/
theorem Payments.returns_iff
    (hsound : ∀ schedule f, interleave sha pb tx s schedule = .error f →
      f ≠ .unchanged ∧ f ≠ .outOfRange) :
    (∀ schedule, ∃ w, interleave sha pb tx s schedule = .ok w) ↔
      (SamePayment tx → b.balance (tx false).sourceAddress < (tx false).paymentAmount) := by
  have hsource : ∀ who, b.balance (tx who).sourceAddress = (source who).accountBalance :=
    fun who => Books.balance_eq (h.sources who)
  constructor
  · intro hreturns hsame
    by_contra hcovered
    rw [hsource, not_lt, ← sub_nonneg] at hcovered
    exact h.not_samePayment hreflects hseq hcovered hreturns hsame
  · intro hrefused schedule
    refine h.exists_interleave_ledger hreflects hseq hsound ?_
    by_cases hsame : SamePayment tx
    · refine h.exists_interleave_refused (fun who => ?_) schedule
      rw [← hsource, sub_neg]
      cases who with
      | false => exact hrefused hsame
      | true => exact hsame.1 ▸ hsame.2.2 ▸ hrefused hsame
    · exact h.exists_interleave hsame schedule

end Returns

end LostUpdate

section Explored

/-- No schedule stops at a coincidence of digests, within so many turns of calls that have not
returned. -/
def explored (sha : Bytes → Uint256) (pb : Protobuf) (tx : Bool → Transaction) :
    ℕ → State × (Bool → Thread) → Bool
  | 0, _ => false
  | n + 1, w => [false, true].all fun who => (w.2 who).isReturned ||
      match turn sha pb tx w who with
      | .ok w' => explored sha pb tx n w'
      | .error f => decide (f ≠ .unchanged ∧ f ≠ .outOfRange)

theorem turn_of_isReturned {w : State × (Bool → Thread)} {who : Bool}
    (h : (w.2 who).isReturned = true) : turn sha pb tx w who = .ok w := by
  cases hthread : w.2 who with
  | returned tx' code =>
    rw [turn, hthread, Thread.step, ok_bind, ← hthread, Function.update_eq_self]
  | _ =>
    rw [hthread] at h
    cases h

theorem ne_of_explored {n : ℕ} {w : State × (Bool → Thread)} (h : explored sha pb tx n w = true)
    {schedule : List Bool} {f : Fault}
    (hf : schedule.foldlM (turn sha pb tx) w = .error f) : f ≠ .unchanged ∧ f ≠ .outOfRange := by
  induction schedule generalizing n w with
  | nil => cases hf
  | cons who schedule ih =>
    cases n with
    | zero => cases h
    | succ n =>
      have hwho := List.all_eq_true.mp h who (by cases who <;> decide)
      rw [List.foldlM_cons] at hf
      rcases Bool.or_eq_true_iff.mp hwho with hreturned | hnext
      · rw [turn_of_isReturned hreturned, ok_bind] at hf
        exact ih h hf
      · cases hturn : turn sha pb tx w who with
        | error f' =>
          rw [hturn] at hf hnext
          cases hf
          exact of_decide_eq_true hnext
        | ok w' =>
          rw [hturn] at hf hnext
          exact ih hnext hf

end Explored

/-- The calls of the two threads where the model is evaluated. -/
def sampleCalls (first second : Transaction) (who : Bool) : Transaction :=
  if who then second else first

end Ledger

end Bubi
