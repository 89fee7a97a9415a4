import Bubi.Ledger.Conservation

/-!
# Creating accounts

Nothing between a request and `add_given_item` asks whether an address is free, and
`create_account` has no value but 0 to return. On a free address it adds a new account
and nothing else. On a taken one it stops at the assertion that the two indexes differ.
-/

namespace Bubi.Ledger

open Bubi.Core MerkleTrie

section Property

variable (sha : Bytes → Uint256) (pb : Protobuf)

/-- `create_account` with the value that it returns. -/
def createAccountValue (s : State) (accPub : Bytes) : Except Fault (State × ℕ) := do
  let s ← createAccount sha pb s accPub
  .ok (s, 0)

/-- `create_account` returns. It refuses a taken address and changes nothing, and on a free one
it adds an account with the balance 1000 and nothing else. -/
def CreatesOnce (s : State) (accPub : Bytes) : Prop :=
  ∃ s' value, createAccountValue sha pb s accPub = .ok (s', value) ∧
    if (entry sha pb s (sha accPub)).isSome then
      value ≠ 0 ∧ (∀ k, entry sha pb s' k = entry sha pb s k) ∧
        RadixMerkleTree.getHash s'.2.accountTree = RadixMerkleTree.getHash s.2.accountTree ∧
        RadixMerkleTree.getHash s'.2.transactionTree =
          RadixMerkleTree.getHash s.2.transactionTree ∧
        s'.2.hash = s.2.hash
    else
      value = 0 ∧ ∀ k, entry sha pb s' k =
        if k = sha accPub then some (newAccount (sha accPub)) else entry sha pb s k

/-- The item of a new account. -/
def newItem (hash : Uint256) (hdata : ((newAccount hash).serializer pb).length < 2 ^ 31) :
    RadixMerkleTreeLeaf :=
  ⟨hash, (newAccount hash).serializer pb, hdata⟩

end Property

variable {sha : Bytes → Uint256} {pb : Protobuf} {s s' : State} {b : Books}
  {accepted : List Transaction} {ta tt : MerkleTrie}

theorem createAccount_eq {accPub : Bytes} (hname : accPub.length < 2 ^ 31)
    (hdata : ((newAccount (sha accPub)).serializer pb).length < 2 ^ 31) :
    createAccount sha pb s accPub = (do
      let r ← RadixMerkleTree.change sha (s.1, s.2.accountTree)
        (.addItem (newItem pb (sha accPub) hdata) false)
      let l ← updateAccountTreeHash sha { s.2 with accountTree := r.2 }
      .ok (r.1, l)) := by
  rw [createAccount, stringAddressToUint256_eq hname, ok_bind, addAccountTreeEntry,
    Serializer.ofString, dif_pos hdata]
  rfl

/-- A taken address stops at the assertion of `add_given_item`. -/
theorem Reflects.createAccount_taken (h : Reflects sha pb s b accepted ta tt) {accPub : Bytes}
    (hname : accPub.length < 2 ^ 31)
    (hdata : ((newAccount (sha accPub)).serializer pb).length < 2 ^ 31)
    (htaken : b.accounts (sha accPub) ≠ none) :
    createAccount sha pb s accPub = .error .assertion := by
  have hrefused : ¬ (contents ta).Permits (.addItem (newItem pb (sha accPub) hdata) false) :=
    fun hfree => htaken (h.accounts.contents_eq_none.mp hfree)
  have herror := h.trees.account.change_refused h.trees.accountValid hrefused
  rw [createAccount_eq hname hdata, herror, error_bind]

/-- A free address gets its account, unless a hash stays as it was. -/
theorem Reflects.createAccount_free (h : Reflects sha pb s b accepted ta tt) {accPub : Bytes}
    (hname : accPub.length < 2 ^ 31)
    (hdata : ((newAccount (sha accPub)).serializer pb).length < 2 ^ 31)
    (hfree : b.accounts (sha accPub) = none)
    (hsha : CollisionFree sha
      {k | k ∈ displacedIndex sha (newItem pb (sha accPub) hdata) false 0 ta}
      {x | x ∈ addStrings sha (newItem pb (sha accPub) hdata) false 0 ta}) :
    ∃ s', createAccount sha pb s accPub = .ok s' := by
  have hvalid := h.trees.accountValid
  have hpermits : (contents ta).Permits (.addItem (newItem pb (sha accPub) hdata) false) :=
    h.accounts.contents_eq_none.mpr hfree
  have hadd := @add_computes sha (newItem pb (sha accPub) hdata) false [] ta hvalid.sound
    hvalid.cached (radix.under_nil _) (hvalid.contents_eq_none.mp hpermits)
  have hok := hadd.resolve_right fun herror => herror.2 hsha
  obtain ⟨w, hw, hload, hmoves⟩ :=
    h.trees.account.exists_change (o := .addItem (newItem pb (sha accPub) hdata) false) hok
  have hmoved := h.trees.moveAccount hmoves hload (hvalid.changed hpermits)
  obtain ⟨l, hl⟩ := hmoved.trees.exists_updateAccountTreeHash
  refine ⟨(w.1, l), ?_⟩
  rw [createAccount_eq hname hdata, hw, ok_bind]
  exact bind_eq_ok.mpr ⟨l, hl, rfl⟩

/-- On every ledger reached from an empty one, `create_account` does what it should exactly on
a free address: an address with an account stops it at an assertion. Assumed: the name and
the new account are short enough to be copied, and for a free address the digest is injective
and never zero on the strings of the account tree before and after the call, and does not
give a displaced leaf the hash of the node in its place. -/
theorem createAccount_once_iff (sha : Bytes → Uint256) (pb : Protobuf) (db : Database)
    (steps : List Step) (r : State × List Transaction) (hr : run sha pb db steps = .ok r)
    (accPub : Bytes) (hname : accPub.length < 2 ^ 31)
    (hdata : ((newAccount (sha accPub)).serializer pb).length < 2 ^ 31)
    (hsha : entry sha pb r.1 (sha accPub) = none → CollisionFree sha
      {k | k ∈ displacedIndex sha (newItem pb (sha accPub) hdata) false 0
        (ofNode r.1.2.accountTree)}
      {x | x ∈ addStrings sha (newItem pb (sha accPub) hdata) false 0
        (ofNode r.1.2.accountTree)}) :
    (CreatesOnce sha pb r.1 accPub ↔ entry sha pb r.1 (sha accPub) = none) ∧
      (entry sha pb r.1 (sha accPub) ≠ none →
        createAccount sha pb r.1 accPub = .error .assertion) := by
  obtain ⟨ta, tt, h, hloaded⟩ := (run_inStep hr).reflects
  have htrie : ofNode r.1.2.accountTree = ta := by
    have hembed := h.trees.account.eq_embed (List.append_eq_nil_iff.mp hloaded).1
    exact (congrArg ofNode hembed).trans (ofNode_embed ta)
  rw [htrie, h.entry_eq] at hsha
  rw [h.entry_eq]
  have htaken := fun hne => h.createAccount_taken hname hdata hne
  refine ⟨⟨fun honce => ?_, fun hfree => ?_⟩, htaken⟩
  · obtain ⟨s', value, hvalue, _⟩ := honce
    obtain ⟨s'', hs'', _⟩ := bind_eq_ok.mp hvalue
    by_contra hne
    rw [htaken hne] at hs''
    cases hs''
  · obtain ⟨s', hs'⟩ := h.createAccount_free hname hdata hfree (hsha hfree)
    obtain ⟨_, ta', hadv, ha⟩ := h.createAccount_ok hs'
    have hafter : Reflects sha pb s' _ _ ta' tt := ⟨hadv.trees, ha, h.transactions⟩
    refine ⟨s', 0, bind_eq_ok.mpr ⟨s', hs', rfl⟩, ?_⟩
    rw [h.entry_eq, hfree]
    refine ⟨rfl, fun k => ?_⟩
    rw [hafter.entry_eq, h.entry_eq, Books.accounts_write]
    rfl

theorem length_thirdAccount :
    ((newAccount (checksum (sampleName 3))).serializer plainProtobuf).length < 2 ^ 31 := by
  decide +kernel

/-- A new account next to two others. -/
theorem createAccount_once_thirdAccount :
    ∃ r, run checksum plainProtobuf (fun _ => none)
        [.createAccount (sampleName 1), .createAccount (sampleName 2)] = .ok r ∧
      CreatesOnce checksum plainProtobuf r.1 (sampleName 3) := by
  have hok : (do
      let r ← run checksum plainProtobuf (fun _ => none)
        [.createAccount (sampleName 1), .createAccount (sampleName 2)]
      let item := newItem plainProtobuf (checksum (sampleName 3)) length_thirdAccount
      let xs := addStrings checksum item false 0 (ofNode r.1.2.accountTree)
      .ok ((entry checksum plainProtobuf r.1 (checksum (sampleName 3))).isNone,
        decide ((∀ x ∈ xs, ∀ y ∈ xs, checksum x = checksum y → x = y) ∧
          ∀ x ∈ xs, checksum x ≠ Uint256.zero ∧
            checksum x ∉ displacedIndex checksum item false 0 (ofNode r.1.2.accountTree)))) =
      .ok (true, true) :=
    eq_ok_of_toOption (by decide +kernel)
  obtain ⟨r, hr, hok⟩ := bind_eq_ok.mp hok
  simp only [Except.ok.injEq, Prod.mk.injEq] at hok
  refine ⟨r, hr, ((createAccount_once_iff _ _ _ _ r hr _ (by decide)
    length_thirdAccount fun _ => ?_).1).mpr
    (Option.isNone_iff_eq_none.mp hok.1)⟩
  exact CollisionFree.of_list (of_decide_eq_true hok.2)

/-- A request for a new account that is made twice. -/
theorem createAccount_twice_asserts :
    ∃ r, run checksum plainProtobuf (fun _ => none) [.createAccount (sampleName 1)] = .ok r ∧
      createAccount checksum plainProtobuf r.1 (sampleName 1) = .error .assertion := by
  have hok : (do
      let r ← run checksum plainProtobuf (fun _ => none) [.createAccount (sampleName 1)]
      .ok (fault (createAccount checksum plainProtobuf r.1 (sampleName 1)))) =
      .ok (some .assertion) :=
    eq_ok_of_toOption (by decide +kernel)
  obtain ⟨r, hr, hok⟩ := bind_eq_ok.mp hok
  exact ⟨r, hr, eq_error_of_fault (Except.ok.inj hok)⟩

end Bubi.Ledger
