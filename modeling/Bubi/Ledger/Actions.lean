import Bubi.Core.TrieOrder
import Bubi.Ledger.Conservation
import Bubi.Ledger.Refusal

/-!
# What the calls on a ledger answer

The calls that the threads of a server make on `last_ledger`, and the listing of all
accounts by its timer. The books serve the same calls without any tree: a ledger whose
trees are loaded answers every call as its books do, and leaves the store alone. Whether
a tree is loaded makes no difference to a call other than the listing.
-/

namespace Bubi.Ledger

open Bubi.Core MerkleTrie

/-- A call on `last_ledger`. -/
inductive Action where
  | createAccount (accPub : Bytes)
  | addTransactionEntry (tx : Transaction)
  | getBalance (accPub : Bytes)
  | getAccountEntry (hash : Uint256)
  | getTransactionEntry (hash : Uint256)
  | hasAccount (hash : Uint256)
  /-- `auto_print_account_balance`. -/
  | printAccounts

/-- What a call returns or prints. -/
inductive Reply where
  | done
  /-- The transaction as the caller finds it, and the returned code. -/
  | posted (tx : Transaction) (code : ℕ)
  | balance (value : ℚ)
  | account (value : Option Account)
  | transaction (value : Option Transaction)
  | present (value : Bool)
  | accounts (value : List Account)

section Calls

variable (sha : Bytes → Uint256) (pb : Protobuf)

/-- One call. -/
def act (s : State) : Action → Except Fault (State × Reply)
  | .createAccount accPub => do
    let s ← createAccount sha pb s accPub
    .ok (s, .done)
  | .addTransactionEntry tx => do
    let r ← addTransactionEntry sha pb s tx
    .ok (r.1, .posted r.2.1 r.2.2)
  | .getBalance accPub => do
    let r ← getBalance sha pb s accPub
    .ok (r.1, .balance r.2)
  | .getAccountEntry hash => do
    let r ← getAccountEntry sha pb s hash
    .ok (r.1, .account r.2)
  | .getTransactionEntry hash => do
    let r ← getTransactionEntry sha pb s hash
    .ok (r.1, .transaction r.2)
  | .hasAccount hash => do
    let r ← hasAccount sha s hash
    .ok (r.1, .present r.2)
  | .printAccounts => do
    let accs ← dfs pb s.2.accountTree
    .ok (s, .accounts accs)

/-- Calls one after the other. -/
def actions (s : State) : List Action → Except Fault (State × List Reply)
  | [] => .ok (s, [])
  | a :: as => do
    let r ← act sha pb s a
    let rest ← actions r.1 as
    .ok (rest.1, r.2 :: rest.2)

/-- All accounts, in the order of the digits of their addresses. -/
structure Lists (b : Books) (accs : List Account) : Prop where
  sorted : accs.Pairwise fun acc acc' => radix.Before acc.accountAddress acc'.accountAddress
  complete : ∀ acc, acc ∈ accs ↔ b.accounts acc.accountAddress = some acc

/-- How the books and the accepted transactions serve a call. -/
inductive Serves (p : Books × List Transaction) :
    Action → Reply → Books × List Transaction → Prop
  | createAccount {accPub : Bytes} (hfree : p.1.accounts (sha accPub) = none) :
    Serves p (.createAccount accPub) .done (p.1.write (newAccount (sha accPub)), p.2)
  | rejected {tx : Transaction} {source : Account}
      (hsource : p.1.accounts tx.sourceAddress = some source)
      (hlt : source.accountBalance < tx.paymentAmount) :
    Serves p (.addTransactionEntry tx) (.posted tx 1) p
  | accepted {tx : Transaction} {source destination : Account}
      (hsource : p.1.accounts tx.sourceAddress = some source)
      (hdestination : p.1.accounts tx.destinationAddress = some destination)
      (hle : tx.paymentAmount ≤ source.accountBalance) :
    Serves p (.addTransactionEntry tx) (.posted (tx.setPrevious source destination) 0)
      (p.1.pay tx source destination 1 (txHash sha pb (tx.setPrevious source destination)),
        tx.setPrevious source destination :: p.2)
  | getBalance {accPub : Bytes} {acc : Account}
      (hacc : p.1.accounts (sha accPub) = some acc) :
    Serves p (.getBalance accPub) (.balance acc.accountBalance) p
  | getAccountEntry (hash : Uint256) :
    Serves p (.getAccountEntry hash) (.account (p.1.accounts hash)) p
  | getTransactionEntry (hash : Uint256) :
    Serves p (.getTransactionEntry hash)
      (.transaction (p.2.find? fun tx => txHash sha pb tx = hash)) p
  | hasAccount (hash : Uint256) :
    Serves p (.hasAccount hash) (.present (p.1.accounts hash).isSome) p
  | printAccounts {accs : List Account} (haccs : Lists p.1 accs) :
    Serves p .printAccounts (.accounts accs) p

/-- How the books serve calls one after the other. -/
inductive ServesAll : Books × List Transaction → List Action → List Reply →
    Books × List Transaction → Prop
  | nil (p : Books × List Transaction) : ServesAll p [] [] p
  | cons {p p' p'' : Books × List Transaction} {a : Action} {as : List Action} {reply : Reply}
      {replies : List Reply} (h : Serves sha pb p a reply p')
      (hrest : ServesAll p' as replies p'') : ServesAll p (a :: as) (reply :: replies) p''

end Calls

variable {sha : Bytes → Uint256} {pb : Protobuf} {s s' : State} {b : Books}
  {accepted : List Transaction} {ta tt : MerkleTrie}

theorem ServesAll.append {p p' p'' : Books × List Transaction} {as as' : List Action}
    {replies replies' : List Reply} (h : ServesAll sha pb p as replies p')
    (h' : ServesAll sha pb p' as' replies' p'') :
    ServesAll sha pb p (as ++ as') (replies ++ replies') p'' := by
  induction h with
  | nil p => exact h'
  | cons hserves _ ih => exact .cons hserves (ih h')

section Listing

/-- The traversal of a fully loaded tree finds the leaves in order. -/
theorem dfs_embed_leaves {t : MerkleTrie} (ht : t.isEmpty = false) {decode : LeafNode → Account}
    (hdecode : ∀ l ∈ t, Account.unserializer pb l.item.data = .ok (decode l)) :
    dfs pb (embed sha t) = .ok ((t.leaves (List.finRange 16)).map decode) := by
  induction t with
  | empty => cases ht
  | leaf l =>
    rw [embed, dfs, isInner_leaf]
    simp [LeafNode.data, hdecode l, Trie.leaves]
  | inner a c ih =>
    have hloop : ∀ (is : List (Fin 16)) (res : List Account),
        is.foldlM
            (fun res i =>
              if (innerData sha a c).isEmptyBranch i then .ok res
              else do
                let accs ← dfs pb (embed sha (c i))
                .ok (res ++ accs)) res =
          .ok (res ++ (is.flatMap fun i => (c i).leaves (List.finRange 16)).map decode) := by
      intro is
      induction is with
      | nil => simp [pure, Except.pure]
      | cons i is ihis =>
        intro res
        rw [List.foldlM_cons, isEmptyBranch_innerData, List.flatMap_cons, List.map_append]
        cases hempty : (c i).isEmpty with
        | true =>
          rw [if_pos rfl, ok_bind, Trie.isEmpty_iff.mp hempty]
          exact ihis res
        | false =>
          rw [if_neg Bool.false_ne_true, ih i hempty fun l hl => hdecode l ⟨i, hl⟩, ok_bind,
            ok_bind, ← List.append_assoc]
          exact ihis _
    rw [embed, dfs, isInner_innerData, if_pos rfl]
    exact hloop (List.finRange 16) []

/-- Every leaf of the account tree is an account of the books. -/
theorem AccountRecords.exists_account (h : AccountRecords pb ta b) (hv : Valid sha ta)
    {l : LeafNode} (hl : l ∈ ta) :
    ∃ acc, b.accounts l.key = some acc ∧ l.item.data = acc.serializer pb := by
  have hdata := h.data l.key
  rw [hv.contents_key hl, Option.map_some, eq_comm, Option.map_eq_some_iff] at hdata
  obtain ⟨acc, hacc, hserial⟩ := hdata
  exact ⟨acc, hacc, hserial.symm⟩

/-- The listing of a loaded account tree. -/
theorem Reflects.dfs_ok (h : Reflects sha pb s b accepted ta tt)
    (hloaded : s.2.accountTree = embed sha ta) :
    ∃ accs, dfs pb s.2.accountTree = .ok accs ∧ Lists b accs := by
  let decode : LeafNode → Account := fun l => (b.accounts l.key).getD (newAccount l.key)
  have hvalid := h.trees.accountValid
  have hdecode : ∀ l ∈ ta, b.accounts l.key = some (decode l) ∧
      Account.unserializer pb l.item.data = .ok (decode l) := by
    intro l hl
    obtain ⟨acc, hacc, hserial⟩ := h.accounts.exists_account hvalid hl
    have hl' : decode l = acc := by simp [decode, hacc]
    rw [hl', hserial]
    exact ⟨hacc, Account.unserializer_serializer pb acc⟩
  have hmem : ∀ l, l ∈ ta.leaves (List.finRange 16) ↔ l ∈ ta := fun l =>
    Trie.mem_leaves List.mem_finRange
  refine ⟨(ta.leaves (List.finRange 16)).map decode, ?_, ?_, fun acc => ?_⟩
  · rw [hloaded]
    exact dfs_embed_leaves hvalid.isEmpty_eq fun l hl => (hdecode l hl).2
  · have hsorted := hvalid.sound.placed.pairwise_leaves (List.pairwise_lt_finRange 16)
      List.mem_finRange
    refine List.pairwise_map.mpr (hsorted.imp_of_mem fun {l l'} hl hl' hbefore => ?_)
    have haddress := b.address_eq _ _ (hdecode l ((hmem l).mp hl)).1
    have haddress' := b.address_eq _ _ (hdecode l' ((hmem l').mp hl')).1
    rwa [haddress, haddress']
  · rw [List.mem_map]
    constructor
    · rintro ⟨l, hl, rfl⟩
      have hacc := (hdecode l ((hmem l).mp hl)).1
      rwa [b.address_eq _ _ hacc]
    · intro hacc
      have hne : contents ta acc.accountAddress ≠ none := fun hnone =>
        Option.some_ne_none acc (hacc.symm.trans (h.accounts.contents_eq_none.mp hnone))
      obtain ⟨l, hl, hkey⟩ := hvalid.contents_ne_none.mp hne
      refine ⟨l, (hmem l).mpr hl, ?_⟩
      have hl' := (hdecode l hl).1
      rw [hkey, hacc] at hl'
      exact (Option.some.inj hl').symm

end Listing

section Refinement

/-- A ledger that is in use, with both trees loaded. -/
def InMemory (sha : Bytes → Uint256) (pb : Protobuf) (s : State) (p : Books × List Transaction) :
    Prop :=
  ∃ ta tt, InUse sha pb (s, p.2) p.1 ta tt ∧ pendingOf sha s.2 ta tt = []

/-- Trees without pending nodes stay so, and nothing is taken from the store. -/
theorem Advances.of_loaded {ta' tt' : MerkleTrie} (h : Advances sha s ta tt s' ta' tt')
    (hp : pendingOf sha s.2 ta tt = []) : pendingOf sha s'.2 ta' tt' = [] ∧ s'.1 = s.1 := by
  have hdrains := h.drains
  rw [hp] at hdrains
  refine ⟨List.subset_nil.mp hdrains.sub, funext fun k => hdrains.kept k ?_⟩
  intro x hx
  cases hx

/-- Trees without pending nodes are fully loaded. -/
theorem Trees.eq_embed (h : Trees sha s ta tt) (hp : pendingOf sha s.2 ta tt = []) :
    s.2.accountTree = embed sha ta ∧ s.2.transactionTree = embed sha tt := by
  obtain ⟨hpa, hpt⟩ := List.append_eq_nil_iff.mp hp
  exact ⟨h.account.eq_embed hpa, h.transaction.eq_embed hpt⟩

theorem hasAccount_ok (h : Trees sha s ta tt) (ha : AccountRecords pb ta b) {hash : Uint256}
    {r : State × Bool} (hr : hasAccount sha s hash = .ok r) :
    Advances sha s ta tt r.1 ta tt ∧ r.2 = (b.accounts hash).isSome := by
  obtain ⟨w, hw, hr⟩ := bind_eq_ok.mp hr
  obtain ⟨v, hv, hw⟩ := bind_eq_ok.mp hw
  obtain ⟨hfound, hload, hmoves⟩ := h.account.lookup_ok h.accountValid hv
  cases hw
  cases hr
  refine ⟨h.moveAccount hmoves hload h.accountValid, ?_⟩
  have hnone := ha.contents_eq_none (k := hash)
  revert hfound hnone
  cases contents ta hash with
  | none =>
    intro hfound hnone
    rw [hfound, hnone.mp rfl]
    rfl
  | some item =>
    rintro ⟨u, _, hu⟩ hnone
    rw [hu]
    cases hacc : b.accounts hash with
    | none => cases hnone.mpr hacc
    | some acc => rfl

theorem Current.hasAccount (h : Current s.2) {hash : Uint256} {r : State × Bool}
    (hr : hasAccount sha s hash = .ok r) : Current r.1.2 := by
  obtain ⟨w, hw, hr⟩ := bind_eq_ok.mp hr
  obtain ⟨v, hv, hw⟩ := bind_eq_ok.mp hw
  cases hw
  cases hr
  exact ⟨(getHash_lookup hv).trans h.account, h.transaction⟩

variable {p : Books × List Transaction} {reply : Reply}

/-- A call that posts to the books keeps what is loaded. -/
theorem InMemory.step (h : InMemory sha pb s p) {o : Step} {r : State × List Transaction}
    (hr : Ledger.step sha pb (s, p.2) o = .ok r) :
    InMemory sha pb r.1 (postStep sha pb 1 p o) ∧ r.1.1 = s.1 := by
  obtain ⟨ta, tt, huse, hp⟩ := h
  have hsequence := huse.sequence
  obtain ⟨haccepted, ta', tt', hadv, hreflects⟩ := huse.reflects.step hr
  have hlinked := huse.reflects.linked huse.linked hr
  have hcurrent : Current r.1.2 := huse.current.step hr
  obtain ⟨hp', hstore⟩ := hadv.of_loaded hp
  dsimp only at hsequence haccepted hreflects hlinked
  rw [hsequence] at haccepted hreflects
  rw [haccepted] at hreflects
  exact ⟨⟨ta', tt', ⟨hreflects, hlinked, hcurrent, hadv.sequence.trans hsequence⟩, hp'⟩, hstore⟩

/-- A lookup keeps what is loaded. -/
theorem InMemory.advance (h : InMemory sha pb s p)
    (hlookup : ∀ ta tt, Reflects sha pb s p.1 p.2 ta tt → Current s.2 →
      Advances sha s ta tt s' ta tt ∧ Current s'.2) :
    InMemory sha pb s' p ∧ s'.1 = s.1 := by
  obtain ⟨ta, tt, huse, hp⟩ := h
  obtain ⟨hadv, hcurrent⟩ := hlookup ta tt huse.reflects huse.current
  obtain ⟨hp', hstore⟩ := hadv.of_loaded hp
  exact ⟨⟨ta, tt, huse.advance hadv hcurrent, hp'⟩, hstore⟩

/-- A transaction is posted as its books do. -/
theorem InMemory.addTransactionEntry (h : InMemory sha pb s p) {tx : Transaction}
    {w : State × Transaction × ℕ} (hw : addTransactionEntry sha pb s tx = .ok w) :
    ∃ p', Serves sha pb p (.addTransactionEntry tx) (.posted w.2.1 w.2.2) p' ∧
      InMemory sha pb w.1 p' ∧ w.1.1 = s.1 := by
  have hstep := h.step (o := .addTransactionEntry tx) (bind_eq_ok.mpr ⟨w, hw, rfl⟩)
  obtain ⟨ta, tt, huse, _⟩ := h
  have hreflects : Reflects sha pb s p.1 p.2 ta tt := huse.reflects
  obtain ⟨source, hsource, hcases⟩ := hreflects.addTransactionEntry_ok hw
  rcases hcases with ⟨hlt, hw', _⟩ | ⟨hle, destination, hdestination, hw', _⟩
  · rw [postStep, post_rejected hsource hlt] at hstep
    rw [hw']
    exact ⟨p, .rejected hsource (by linarith), hstep⟩
  · rw [postStep, post_accepted hsource hdestination hle] at hstep
    rw [hw']
    exact ⟨_, .accepted hsource hdestination (by linarith), hstep⟩

/-- A balance is that of an account in the books. -/
theorem InMemory.getBalance (h : InMemory sha pb s p) {accPub : Bytes} {w : State × ℚ}
    (hw : getBalance sha pb s accPub = .ok w) :
    ∃ acc, p.1.accounts (sha accPub) = some acc ∧ w.2 = acc.accountBalance ∧
      InMemory sha pb w.1 p ∧ w.1.1 = s.1 := by
  obtain ⟨hash, hhash, hw⟩ := bind_eq_ok.mp hw
  obtain ⟨data, hdata, hhash⟩ := bind_eq_ok.mp hhash
  obtain ⟨v, hv, hw⟩ := bind_eq_ok.mp hw
  have hmemory : InMemory sha pb v.1 p ∧ v.1.1 = s.1 := h.advance fun ta tt hreflects hcurrent =>
    ⟨(getAccountEntry_ok hreflects.trees hreflects.accounts hv).1, hcurrent.getAccountEntry hv⟩
  obtain ⟨ta, tt, huse, _⟩ := h
  have hreflects : Reflects sha pb s p.1 p.2 ta tt := huse.reflects
  obtain ⟨_, hentry⟩ := getAccountEntry_ok hreflects.trees hreflects.accounts hv
  rw [← ofString_ok hdata, Except.ok.inj hhash]
  cases hacc : v.2 with
  | none =>
    rw [hacc] at hw
    cases hw
  | some acc =>
    rw [hacc] at hw hentry
    cases hw
    exact ⟨acc, hentry.symm, rfl, hmemory⟩

/-- A loaded ledger answers a call as its books do, and leaves the store alone. -/
theorem InMemory.act (h : InMemory sha pb s p) {a : Action}
    (hr : act sha pb s a = .ok (s', reply)) :
    ∃ p', Serves sha pb p a reply p' ∧ InMemory sha pb s' p' ∧ s'.1 = s.1 := by
  obtain ⟨ta, tt, huse, hp⟩ := id h
  have hreflects : Reflects sha pb s p.1 p.2 ta tt := huse.reflects
  cases a with
  | createAccount accPub =>
    obtain ⟨w, hw, hr⟩ := bind_eq_ok.mp hr
    cases hr
    obtain ⟨hfree, _⟩ := hreflects.createAccount_ok hw
    exact ⟨_, .createAccount hfree, h.step (o := .createAccount accPub)
      (bind_eq_ok.mpr ⟨s', hw, rfl⟩)⟩
  | addTransactionEntry tx =>
    obtain ⟨w, hw, hr⟩ := bind_eq_ok.mp hr
    cases hr
    exact h.addTransactionEntry hw
  | getBalance accPub =>
    obtain ⟨w, hw, hr⟩ := bind_eq_ok.mp hr
    cases hr
    obtain ⟨acc, hacc, hbalance, hmemory⟩ := h.getBalance hw
    rw [hbalance]
    exact ⟨p, .getBalance hacc, hmemory⟩
  | getAccountEntry hash =>
    obtain ⟨w, hw, hr⟩ := bind_eq_ok.mp hr
    cases hr
    obtain ⟨_, hentry⟩ := getAccountEntry_ok hreflects.trees hreflects.accounts hw
    rw [hentry]
    refine ⟨p, .getAccountEntry hash, h.advance fun ta tt hreflects hcurrent => ?_⟩
    exact ⟨(getAccountEntry_ok hreflects.trees hreflects.accounts hw).1,
      hcurrent.getAccountEntry hw⟩
  | getTransactionEntry hash =>
    obtain ⟨w, hw, hr⟩ := bind_eq_ok.mp hr
    cases hr
    obtain ⟨_, hentry⟩ := getTransactionEntry_ok hreflects.trees hreflects.transactions hw
    rw [hentry]
    refine ⟨p, .getTransactionEntry hash, h.advance fun ta tt hreflects hcurrent => ?_⟩
    exact ⟨(getTransactionEntry_ok hreflects.trees hreflects.transactions hw).1,
      hcurrent.getTransactionEntry hw⟩
  | hasAccount hash =>
    obtain ⟨w, hw, hr⟩ := bind_eq_ok.mp hr
    cases hr
    obtain ⟨_, hfound⟩ := hasAccount_ok hreflects.trees hreflects.accounts hw
    rw [hfound]
    refine ⟨p, .hasAccount hash, h.advance fun ta tt hreflects hcurrent => ?_⟩
    exact ⟨(hasAccount_ok hreflects.trees hreflects.accounts hw).1, hcurrent.hasAccount hw⟩
  | printAccounts =>
    obtain ⟨accs, haccs, hlists⟩ := hreflects.dfs_ok (hreflects.trees.eq_embed hp).1
    rw [Ledger.act, haccs, ok_bind] at hr
    cases hr
    exact ⟨p, .printAccounts hlists, h, rfl⟩

/-- Calls one after the other are served by the books. -/
theorem InMemory.actions (h : InMemory sha pb s p) {as : List Action} {replies : List Reply}
    (hr : actions sha pb s as = .ok (s', replies)) :
    ∃ p', ServesAll sha pb p as replies p' ∧ InMemory sha pb s' p' ∧ s'.1 = s.1 := by
  induction as generalizing s p replies with
  | nil =>
    cases hr
    exact ⟨p, .nil p, h, rfl⟩
  | cons a as ih =>
    obtain ⟨v, hv, hr⟩ := bind_eq_ok.mp hr
    obtain ⟨rest, hrest, hr⟩ := bind_eq_ok.mp hr
    cases hr
    obtain ⟨p₁, hserves, h₁, hstore₁⟩ := h.act hv
    obtain ⟨p₂, hall, h₂, hstore₂⟩ := ih h₁ hrest
    exact ⟨p₂, .cons hserves hall, h₂, hstore₂.trans hstore₁⟩

end Refinement

section Loading

/-- What is loaded makes no difference to a call other than the listing. -/
theorem Alike.act (h : Alike sha s s') {a : Action} (ha : a ≠ .printAccounts) :
    Rel (fun r r' => Alike sha r.1 r'.1 ∧ r.2 = r'.2) (act sha pb s a) (act sha pb s' a) := by
  cases a with
  | createAccount accPub => exact (h.createAccount accPub).bind fun r r' hr => .ok ⟨hr, rfl⟩
  | addTransactionEntry tx =>
    refine (h.addTransactionEntry tx).bind fun r r' hr => ?_
    exact .ok ⟨hr.1, by rw [hr.2]⟩
  | getBalance accPub =>
    have hbalance : Rel (fun r r' => Alike sha r.1 r'.1 ∧ r.2 = r'.2) (getBalance sha pb s accPub)
        (getBalance sha pb s' accPub) := by
      unfold getBalance
      cases stringAddressToUint256 sha accPub with
      | error f => exact .error f
      | ok hash =>
        refine (h.getAccountEntry hash).bind fun r r' hr => ?_
        rw [← hr.2]
        cases r.2 with
        | none => exact .error _
        | some acc => exact .ok ⟨hr.1, rfl⟩
    refine hbalance.bind fun r r' hr => ?_
    exact .ok ⟨hr.1, by rw [hr.2]⟩
  | getAccountEntry hash =>
    refine (h.getAccountEntry hash).bind fun r r' hr => ?_
    exact .ok ⟨hr.1, by rw [hr.2]⟩
  | getTransactionEntry hash =>
    refine (h.getTransactionEntry hash).bind fun r r' hr => ?_
    exact .ok ⟨hr.1, by rw [hr.2]⟩
  | hasAccount hash =>
    refine (h.hasAccount hash).bind fun r r' hr => ?_
    exact .ok ⟨hr.1, by rw [hr.2]⟩
  | printAccounts => exact absurd rfl ha

/-- Nor does it to calls one after the other. -/
theorem Alike.actions (h : Alike sha s s') {as : List Action} (has : .printAccounts ∉ as) :
    Rel (fun r r' => Alike sha r.1 r'.1 ∧ r.2 = r'.2) (actions sha pb s as)
      (actions sha pb s' as) := by
  induction as generalizing s s' with
  | nil => exact .ok ⟨h, rfl⟩
  | cons a as ih =>
    rw [List.mem_cons, not_or] at has
    refine (h.act (Ne.symm has.1)).bind fun r r' hr => ?_
    refine (ih hr.1 has.2).bind fun rest rest' hrest => ?_
    exact .ok ⟨hrest.1, by rw [hr.2, hrest.2]⟩

end Loading

end Bubi.Ledger
