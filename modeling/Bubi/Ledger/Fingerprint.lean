import Bubi.Core.Chain
import Bubi.Ledger.Audit
import Bubi.Ledger.Header
import Bubi.Ledger.StoreKeys

/-!
# What the hash of a ledger determines

The hash of a ledger is the digest of its header, which has the root hashes of both trees.
The account tree does not determine the accounts: a leaf that is displaced gets its index
for its hash. But it determines the addresses, the transaction tree determines the
transactions, and the links between these determine every history, hence every balance.
-/

namespace Bubi.Ledger

open Bubi.Core MerkleTrie RadixMerkleTree

variable {sha : Bytes → Uint256} {pb : Protobuf}

section History

variable {k : Uint256} {accepted : List Transaction}

/-- The hash that the side of an account in a transaction links to. -/
def previous (k : Uint256) (tx : Transaction) : Option Uint256 :=
  let side :=
    if tx.sourceAddress = k then (tx.sourcePreviousLedgerSeq, tx.sourcePreviousTxHash)
    else (tx.destinationPreviousLedgerSeq, tx.destinationPreviousTxHash)
  if side.1 = 0 then none else some side.2

/-- An account links to the newest transaction of its history. -/
theorem link_eq (k : Uint256) (accepted : List Transaction) :
    link sha pb k accepted =
      match (accepted.filter (involves k)).head? with
      | none => (0, Uint256.zero)
      | some tx => (1, txHash sha pb tx) := by
  induction accepted with
  | nil => rfl
  | cons tx accepted ih =>
    rw [link]
    cases h : involves k tx with
    | true => rw [if_pos rfl, List.filter_cons_of_pos h, List.head?_cons]
    | false => rw [if_neg Bool.false_ne_true, List.filter_cons_of_neg (by simp [h]), ih]

/-- The side of an account links to the next older transaction of its history. -/
theorem previous_eq {tx : Transaction} (h : Chained sha pb (tx :: accepted))
    (hk : involves k tx = true) :
    previous k tx = ((accepted.filter (involves k)).head?.map (txHash sha pb)) := by
  have hside : (if tx.sourceAddress = k then (tx.sourcePreviousLedgerSeq, tx.sourcePreviousTxHash)
      else (tx.destinationPreviousLedgerSeq, tx.destinationPreviousTxHash)) =
        link sha pb k accepted := by
    by_cases hs : tx.sourceAddress = k
    · rw [if_pos hs, h.1, hs]
    · rw [if_neg hs, h.2.1, (involves_iff.mp hk).resolve_left hs]
  rw [previous, hside, link_eq]
  cases (accepted.filter (involves k)).head? with
  | none => rfl
  | some tx' => rfl

/-- The history of an account is a chain. -/
theorem Chained.chain (h : Chained sha pb accepted) (k : Uint256) :
    Chain (txHash sha pb) (previous k) (accepted.filter (involves k)) := by
  induction accepted with
  | nil => trivial
  | cons tx accepted ih =>
    cases hk : involves k tx with
    | true =>
      rw [List.filter_cons_of_pos hk]
      exact ⟨previous_eq h hk, ih h.2.2⟩
    | false =>
      rw [List.filter_cons_of_neg (by simp [hk])]
      exact ih h.2.2

/-- The transactions of two ledgers determine the histories. -/
theorem Chained.filter_eq {accepted' : List Transaction} (h : Chained sha pb accepted)
    (h' : Chained sha pb accepted') (hnodup : (accepted.map (txHash sha pb)).Nodup)
    (hnodup' : (accepted'.map (txHash sha pb)).Nodup) (hmem : ∀ tx, tx ∈ accepted ↔ tx ∈ accepted')
    (k : Uint256) : accepted.filter (involves k) = accepted'.filter (involves k) := by
  have hperm : accepted.Perm accepted' :=
    (List.perm_ext_iff_of_nodup (hnodup.of_map _) (hnodup'.of_map _)).mpr hmem
  refine (h.chain k).eq_of_perm (h'.chain k) (hperm.filter _) ?_
  exact hnodup.sublist (List.filter_sublist.map _)

/-- Ledgers with the same transactions have as many. -/
theorem TransactionRecords.length_eq {tt tt' : MerkleTrie} {accepted' : List Transaction}
    (h : TransactionRecords sha pb tt accepted) (h' : TransactionRecords sha pb tt' accepted')
    (hmem : ∀ tx, tx ∈ accepted ↔ tx ∈ accepted') : accepted.length = accepted'.length :=
  ((List.perm_ext_iff_of_nodup (h.nodup.of_map _) (h'.nodup.of_map _)).mpr hmem).length_eq

end History

section Addresses

variable {steps steps' : List Step} {r r' : State × List Transaction}
  {ta tt ta' tt' : MerkleTrie} {name name' : Uint256 → Bytes} {S : Set Bytes}

/-- The hash of an account is the digest of its name or that of its record. -/
theorem Naming.hash_cases (h : Naming sha pb steps r ta tt name) {l : LeafNode} (hl : l ∈ ta) :
    (l.hash = l.key ∧ l.key = sha (name l.key) ∧ Step.createAccount (name l.key) ∈ steps) ∨
      (l.hash = sha l.input ∧ l.input ∈ digested r.1.2.accountTree) := by
  obtain ⟨hcreated, hname⟩ := h.name l hl
  rcases h.grown.accountValid.cached l hl with hfresh | hwritten
  · exact .inl ⟨hfresh, hname.symm, hcreated⟩
  · refine .inr ⟨hwritten, l.data, ?_, hashInput_leaf l⟩
    rw [h.grown.account]
    exact leaf_mem_reached hl

theorem Naming.record_mem (h : Naming sha pb steps r ta tt name) {x : Bytes}
    (hx : x ∈ records sha ta) : x ∈ digested r.1.2.accountTree := by
  rw [h.grown.account]
  exact record_mem_digested hx

/-- No account of one ledger has the hash of an inner node of the other. -/
theorem Naming.hash_ne (h : Naming sha pb steps r ta tt name)
    (h' : Naming sha pb steps' r' ta' tt' name') (hinj : Set.InjOn sha S)
    (hcreated : ∀ accPub, Step.createAccount accPub ∈ steps → accPub ∈ S)
    (hdigested : digested r.1.2.accountTree ⊆ S) (hdigested' : digested r'.1.2.accountTree ⊆ S)
    (hnames : ∀ accPub, Step.createAccount accPub ∈ steps →
      accPub ∉ digested r'.1.2.accountTree) {l : LeafNode} (hl : l ∈ ta) {x : Bytes}
    (hx : x ∈ records sha ta') : l.hash ≠ sha x := by
  intro heq
  have hx' := h'.record_mem hx
  rcases h.hash_cases hl with ⟨hfresh, hname, hmem⟩ | ⟨hwritten, hmem⟩
  · rw [hfresh, hname] at heq
    have hsame := hinj (hcreated _ hmem) (hdigested' hx') heq
    exact hnames _ hmem (hsame ▸ hx')
  · rw [hwritten] at heq
    have hsame := hinj (hdigested hmem) (hdigested' hx') heq
    obtain ⟨a, c, hbytes⟩ := exists_of_mem_records hx
    exact input_ne_bytes l a c (hsame.trans hbytes)

/-- Equal hashes of accounts are hashes of one address. -/
theorem Naming.key_eq (h : Naming sha pb steps r ta tt name)
    (h' : Naming sha pb steps' r' ta' tt' name') (hinj : Set.InjOn sha S)
    (hcreated : ∀ accPub, Step.createAccount accPub ∈ steps ++ steps' → accPub ∈ S)
    (hdigested : digested r.1.2.accountTree ∪ digested r'.1.2.accountTree ⊆ S)
    (hnames : ∀ accPub, Step.createAccount accPub ∈ steps ++ steps' →
      accPub ∉ digested r.1.2.accountTree ∪ digested r'.1.2.accountTree)
    {l l' : LeafNode} (hl : l ∈ ta) (hl' : l' ∈ ta') (heq : l.hash = l'.hash) :
    l.key = l'.key := by
  rcases h.hash_cases hl with ⟨hfresh, hname, hmem⟩ | ⟨hwritten, hmem⟩ <;>
    rcases h'.hash_cases hl' with ⟨hfresh', hname', hmem'⟩ | ⟨hwritten', hmem'⟩
  · exact hfresh.symm.trans (heq.trans hfresh')
  · have hcreated' := List.mem_append_left steps' hmem
    rw [hfresh, hname, hwritten'] at heq
    have hsame := hinj (hcreated _ hcreated') (hdigested (.inr hmem')) heq
    exact absurd (.inr (hsame ▸ hmem')) (hnames _ hcreated')
  · have hcreated' := List.mem_append_right steps hmem'
    rw [hwritten, hfresh', hname'] at heq
    have hsame := hinj (hdigested (.inl hmem)) (hcreated _ hcreated') heq
    exact absurd (.inl (hsame ▸ hmem)) (hnames _ hcreated')
  · rw [hwritten, hwritten'] at heq
    have hsame := hinj (hdigested (.inl hmem)) (hdigested (.inr hmem')) heq
    exact congrArg RadixMerkleTreeLeaf.index (LeafNode.item_eq_of_input
      (h.grown.accountLeaf l hl) (h'.grown.accountLeaf l' hl') hsame)

/-- The account trees of two ledgers are separated up to the addresses. -/
theorem Naming.separated (h : Naming sha pb steps r ta tt name)
    (h' : Naming sha pb steps' r' ta' tt' name') (hinj : Set.InjOn sha S)
    (hcreated : ∀ accPub, Step.createAccount accPub ∈ steps ++ steps' → accPub ∈ S)
    (hdigested : digested r.1.2.accountTree ∪ digested r'.1.2.accountTree ⊆ S)
    (hnames : ∀ accPub, Step.createAccount accPub ∈ steps ++ steps' →
      accPub ∉ digested r.1.2.accountTree ∪ digested r'.1.2.accountTree) :
    Separated sha LeafNode.key ta ta' where
  leaf := fun _ hl _ hl' => h.key_eq h' hinj hcreated hdigested hnames hl hl'
  record := fun _ hx _ hx' =>
    hinj (hdigested (.inl (h.record_mem hx))) (hdigested (.inr (h'.record_mem hx')))
  left := fun _ hl _ hx => h.hash_ne h' hinj
    (fun _ hc => hcreated _ (List.mem_append_left _ hc)) (fun _ hd => hdigested (.inl hd))
    (fun _ hd => hdigested (.inr hd))
    (fun _ hc hd => hnames _ (List.mem_append_left _ hc) (.inr hd)) hl hx
  right := fun _ hl _ hx => h'.hash_ne h hinj
    (fun _ hc => hcreated _ (List.mem_append_right _ hc)) (fun _ hd => hdigested (.inr hd))
    (fun _ hd => hdigested (.inl hd))
    (fun _ hc hd => hnames _ (List.mem_append_right _ hc) (.inl hd)) hl hx

end Addresses

section Runs

variable {db db' : Database} {steps steps' : List Step} {r r' : State × List Transaction}
  {ta tt ta' tt' : MerkleTrie} {name name' : Uint256 → Bytes} {S : Set Bytes}

/-- The string that `update_ledger_hash` digests. -/
def header (l : Ledger) : Bytes :=
  l.parentHash.data ++ l.transactionTreeHash.data ++ l.accountTreeHash.data ++
    raw32 l.totalCoins ++ raw32 l.ledgerSequence ++ raw32 l.closeTime

/-- The header determines the root hashes. -/
theorem treeHashes_of_header {l l' : Ledger} (h : header l = header l') :
    l.transactionTreeHash = l'.transactionTreeHash ∧ l.accountTreeHash = l'.accountTreeHash := by
  obtain ⟨h, _⟩ := List.append_inj' h rfl
  obtain ⟨h, _⟩ := List.append_inj' h rfl
  obtain ⟨h, _⟩ := List.append_inj' h rfl
  obtain ⟨h, haccount⟩ := List.append_inj' h
    (l.accountTreeHash.length_data.trans l'.accountTreeHash.length_data.symm)
  obtain ⟨_, htransaction⟩ := List.append_inj' h
    (l.transactionTreeHash.length_data.trans l'.transactionTreeHash.length_data.symm)
  exact ⟨Uint256.ext htransaction, Uint256.ext haccount⟩

theorem run_consistent (hr : run sha pb db steps = .ok r) : Consistent sha True r.1 := by
  obtain ⟨l, hl, hr⟩ := bind_eq_ok.mp hr
  refine @run_invariant _ _ _ _ (fun r : State × List Transaction => Consistent sha True r.1)
    ?_ steps _ r (consistent_new (fun h => absurd trivial h) hl) hr
  intro m o m' h hm
  cases o with
  | createAccount accPub =>
    obtain ⟨s, hs, hm⟩ := bind_eq_ok.mp hm
    cases hm
    obtain ⟨hash, _, hs⟩ := bind_eq_ok.mp hs
    exact h.addAccountTreeEntry hs
  | addTransactionEntry tx =>
    obtain ⟨w, hw, hm⟩ := bind_eq_ok.mp hm
    cases hm
    exact h.addTransactionEntry hw

/-- The hash of a ledger is the digest of its header, which has the hashes of its trees. -/
theorem Naming.hash_eq (h : Naming sha pb steps r ta tt name)
    (hr : run sha pb db steps = .ok r) :
    r.1.2.hash = sha (header r.1.2) ∧ r.1.2.transactionTreeHash = digest sha tt ∧
      r.1.2.accountTreeHash = digest sha ta := by
  have hc := run_consistent hr
  refine ⟨(congrArg Ledger.hash hc.header).symm, ?_, ?_⟩
  · have htransaction := hc.current.transaction
    obtain ⟨c, rfl⟩ := h.grown.transactionRoot
    rw [h.grown.transaction] at htransaction
    exact (Except.ok.inj htransaction).symm
  · have haccount := hc.current.account
    obtain ⟨c, rfl⟩ := h.grown.accountRoot
    rw [h.grown.account] at haccount
    exact (Except.ok.inj haccount).symm

/-- The addresses of the account tree are those of the accounts. -/
theorem Naming.exists_key (h : Naming sha pb steps r ta tt name)
    (hr : run sha pb db steps = .ok r) {k : Uint256} :
    (∃ l ∈ ta, l.key = k) ↔ entry sha pb r.1 k ≠ none := by
  obtain ⟨ta₁, tt₁, hreflects, hgrown⟩ := run_grown hr
  have hsame : ∀ item, (∃ l ∈ ta, item = l.item) ↔ ∃ l ∈ ta₁, item = l.item := by
    intro item
    rw [← exists_item_embed, ← exists_item_embed, ← h.grown.account, ← hgrown.account]
  rw [hreflects.entry_eq, Ne, ← hreflects.accounts.contents_eq_none, ← Ne,
    hgrown.accountValid.contents_ne_none]
  constructor
  · rintro ⟨l, hl, rfl⟩
    obtain ⟨l', hl', hitem⟩ := (hsame _).mp ⟨l, hl, rfl⟩
    exact ⟨l', hl', congrArg RadixMerkleTreeLeaf.index hitem.symm⟩
  · rintro ⟨l, hl, rfl⟩
    obtain ⟨l', hl', hitem⟩ := (hsame _).mpr ⟨l, hl, rfl⟩
    exact ⟨l', hl', congrArg RadixMerkleTreeLeaf.index hitem.symm⟩

/-- Account trees with one root hash have the same addresses. -/
theorem Naming.entry_ne_none (h : Naming sha pb steps r ta tt name)
    (hr : run sha pb db steps = .ok r) (h' : Naming sha pb steps' r' ta' tt' name')
    (hr' : run sha pb db' steps' = .ok r') (hseparated : Separated sha LeafNode.key ta ta')
    (hdigest : digest sha ta = digest sha ta') {k : Uint256} (hk : entry sha pb r.1 k ≠ none) :
    entry sha pb r'.1 k ≠ none := by
  have hempty : ta.isEmpty = ta'.isEmpty :=
    h.grown.accountValid.isEmpty_eq.trans h'.grown.accountValid.isEmpty_eq.symm
  obtain ⟨l, hl, rfl⟩ := (h.exists_key hr).mpr hk
  obtain ⟨l', hl', heq⟩ := exists_of_digest hseparated hempty hdigest hl
  exact (h'.exists_key hr').mp ⟨l', hl', heq.symm⟩

/-- Transaction trees with one root hash have the same transactions. -/
theorem Naming.mem_of_digest (h : Naming sha pb steps r ta tt name)
    (h' : Naming sha pb steps' r' ta' tt' name') (htag : pb.Tagged) (hinj : Set.InjOn sha S)
    (hserial : ∀ tx ∈ r.2 ++ r'.2, tx.serializer pb ∈ S)
    (hdigested : digested r.1.2.transactionTree ∪ digested r'.1.2.transactionTree ⊆ S)
    (hdigest : digest sha tt = digest sha tt') {tx : Transaction} :
    tx ∈ r.2 ↔ tx ∈ r'.2 := by
  have hv := h.grown.transactionValid
  have hv' := h'.grown.transactionValid
  have hpre : Preimages sha (fun l => l.item.data) S tt := h.grown.preimages h.transactions
    (fun tx htx => hserial tx (List.mem_append_left _ htx)) fun _ hx => hdigested (.inl hx)
  have hpre' : Preimages sha (fun l => l.item.data) S tt' := h'.grown.preimages h'.transactions
    (fun tx htx => hserial tx (List.mem_append_right _ htx)) fun _ hx => hdigested (.inr hx)
  have hempty : tt.isEmpty = tt'.isEmpty := hv.isEmpty_eq.trans hv'.isEmpty_eq.symm
  have hseparated := hpre.separated hinj hpre' (h.transactions.apart hv htag tt')
    (h'.transactions.apart hv' htag tt)
  rw [h.transactions.mem_iff hv, h'.transactions.mem_iff hv']
  constructor
  · rintro ⟨l, hl, hdata⟩
    obtain ⟨l', hl', heq⟩ := exists_of_digest hseparated hempty hdigest hl
    exact ⟨l', hl', heq.symm.trans hdata⟩
  · rintro ⟨l, hl, hdata⟩
    obtain ⟨l', hl', heq⟩ := exists_of_digest hseparated.symm hempty.symm hdigest.symm hl
    exact ⟨l', hl', heq.symm.trans hdata⟩

/-- An account is determined by its address and its history. -/
theorem InUse.accounts_eq {b : Books} {acc : Account} {k : Uint256} (h : InUse sha pb r b ta tt)
    (haudited : Audited (b, r.2)) (hacc : b.accounts k = some acc) :
    acc = ⟨k, replay k (r.2.filter (involves k)), (link sha pb k r.2).1,
      (link sha pb k r.2).2⟩ := by
  have hbalance : acc.accountBalance = replay k r.2 :=
    (Books.balance_eq hacc).symm.trans (haudited.balance _ _ hacc)
  have hlink : (acc.previousLedgerSeq, acc.previousTxHash) = link sha pb k r.2 :=
    h.linked.account _ _ hacc
  rw [← hlink, replay_filter, ← hbalance, ← b.address_eq _ _ hacc]

/-- Ledgers with the same addresses and the same histories have the same accounts. -/
theorem InUse.accounts_agree {b b' : Books} (h : InUse sha pb r b ta tt)
    (h' : InUse sha pb r' b' ta' tt') (haudited : Audited (b, r.2)) (haudited' : Audited (b', r'.2))
    {k : Uint256} (hexists : b.accounts k ≠ none ↔ b'.accounts k ≠ none)
    (hhistory : r.2.filter (involves k) = r'.2.filter (involves k)) :
    b.accounts k = b'.accounts k := by
  cases hacc : b.accounts k with
  | none => exact (not_not.mp (mt hexists.mpr (not_not_intro hacc))).symm
  | some acc =>
    obtain ⟨acc', hacc'⟩ := Option.ne_none_iff_exists'.mp (hexists.mp (by simp [hacc]))
    rw [hacc', h.accounts_eq haudited hacc, h'.accounts_eq haudited' hacc', link_eq, link_eq,
      hhistory]

end Runs

/-- The strings digested for a ledger, its header among them. -/
def fingerprinted (pb : Protobuf) (steps : List Step) (r : State × List Transaction) : Set Bytes :=
  digestedStrings pb steps r ∪ {header r.1.2}

section Fingerprinted

variable {pb : Protobuf} {steps : List Step} {r : State × List Transaction}

theorem header_mem_fingerprinted : header r.1.2 ∈ fingerprinted pb steps r := .inr rfl

theorem name_mem_fingerprinted {accPub : Bytes} (h : Step.createAccount accPub ∈ steps) :
    accPub ∈ fingerprinted pb steps r :=
  .inl (.inl (.inl (.inl h)))

theorem serializer_mem_fingerprinted {tx : Transaction} (h : tx ∈ r.2) :
    tx.serializer pb ∈ fingerprinted pb steps r :=
  .inl (.inl (.inl (.inr ⟨tx, h, rfl⟩)))

theorem accountTree_subset_fingerprinted :
    digested r.1.2.accountTree ⊆ fingerprinted pb steps r := fun _ h => .inl (.inl (.inr h))

theorem transactionTree_subset_fingerprinted :
    digested r.1.2.transactionTree ⊆ fingerprinted pb steps r := fun _ h => .inl (.inr h)

end Fingerprinted

/-- Two ledgers that grew from empty ones and have one hash hold the same accounts, with the same
balances, and the same transactions, and give the same histories. The digest is injective on the
strings that it was given for the two, and no account is named by the record of a node. -/
theorem ledger_hash_commits (sha : Bytes → Uint256) (pb : Protobuf) (htag : pb.Tagged)
    (db db' : Database) (steps steps' : List Step) (r r' : State × List Transaction)
    (hr : run sha pb db steps = .ok r) (hr' : run sha pb db' steps' = .ok r')
    (hinj : Set.InjOn sha (fingerprinted pb steps r ∪ fingerprinted pb steps' r'))
    (hnames : ∀ accPub, Step.createAccount accPub ∈ steps ++ steps' →
      accPub ∉ digested r.1.2.accountTree ∪ digested r'.1.2.accountTree)
    (hhash : r.1.2.hash = r'.1.2.hash) :
    (∀ k, entry sha pb r.1 k = entry sha pb r'.1 k) ∧ (∀ tx, tx ∈ r.2 ↔ tx ∈ r'.2) ∧
      ∀ accPub, accPub.length < 2 ^ 31 → entry sha pb r.1 (sha accPub) ≠ none →
        ∀ fuel, r.2.length < fuel → ∃ s s' history,
          getTransactionHistory sha pb fuel r.1 accPub = .ok (some (s, history)) ∧
            getTransactionHistory sha pb fuel r'.1 accPub = .ok (some (s', history)) := by
  obtain ⟨ta, tt, name, h⟩ := exists_naming hr
  obtain ⟨ta', tt', name', h'⟩ := exists_naming hr'
  obtain ⟨hheader, htransaction, haccount⟩ := h.hash_eq hr
  obtain ⟨hheader', htransaction', haccount'⟩ := h'.hash_eq hr'
  -- The header gives the root hashes, and these the transactions and the addresses.
  rw [hheader, hheader'] at hhash
  obtain ⟨hroot, hroot'⟩ := treeHashes_of_header
    (hinj (.inl header_mem_fingerprinted) (.inr header_mem_fingerprinted) hhash)
  rw [htransaction, htransaction'] at hroot
  rw [haccount, haccount'] at hroot'
  have hmem : ∀ tx, tx ∈ r.2 ↔ tx ∈ r'.2 := by
    refine fun tx => h.mem_of_digest h' htag hinj (fun tx htx => ?_) ?_ hroot
    · exact (List.mem_append.mp htx).imp serializer_mem_fingerprinted serializer_mem_fingerprinted
    · exact Set.union_subset_union transactionTree_subset_fingerprinted
        transactionTree_subset_fingerprinted
  have hseparated : Separated sha LeafNode.key ta ta' := by
    refine h.separated h' hinj (fun accPub hcreated => ?_) ?_ hnames
    · exact (List.mem_append.mp hcreated).imp name_mem_fingerprinted name_mem_fingerprinted
    · exact Set.union_subset_union accountTree_subset_fingerprinted
        accountTree_subset_fingerprinted
  have hexists : ∀ k, entry sha pb r.1 k ≠ none ↔ entry sha pb r'.1 k ≠ none := fun k =>
    ⟨h.entry_ne_none hr h' hr' hseparated hroot',
      h'.entry_ne_none hr' h hr hseparated.symm hroot'.symm⟩
  -- One set of transactions has one history for each account, and this gives its balance.
  obtain ⟨b, _, _, huse, haudited⟩ := run_audited hr
  obtain ⟨b', _, _, huse', haudited'⟩ := run_audited hr'
  have hfilter : ∀ k, r.2.filter (involves k) = r'.2.filter (involves k) :=
    huse.linked.chained.filter_eq huse'.linked.chained huse.reflects.transactions.nodup
      huse'.reflects.transactions.nodup hmem
  simp only [huse.reflects.entry_eq, huse'.reflects.entry_eq] at hexists ⊢
  refine ⟨fun k => ?_, hmem, fun accPub hlength haccPub fuel hfuel => ?_⟩
  · exact huse.accounts_agree huse' haudited haudited' (hexists k) (hfilter k)
  · obtain ⟨acc, hacc⟩ := Option.ne_none_iff_exists'.mp haccPub
    obtain ⟨acc', hacc'⟩ := Option.ne_none_iff_exists'.mp ((hexists _).mp haccPub)
    have hlengths := huse.reflects.transactions.length_eq huse'.reflects.transactions hmem
    obtain ⟨s, hs⟩ := huse.getTransactionHistory_eq hlength hacc hfuel
    obtain ⟨s', hs'⟩ := huse'.getTransactionHistory_eq hlength hacc' (hlengths ▸ hfuel)
    exact ⟨s, s', _, hs, by rw [hs', hfilter]⟩

/-- The strings of a ledger and its header, listed. -/
def fingerprintedList (pb : Protobuf) (steps : List Step) (r : State × List Transaction) :
    List Bytes :=
  digestedStringsList pb steps r ++ [header r.1.2]

theorem mem_digestedStringsList {steps : List Step} {r : State × List Transaction} {x : Bytes}
    (hx : x ∈ digestedStrings pb steps r) : x ∈ digestedStringsList pb steps r := by
  simp only [digestedStringsList, List.mem_append]
  rcases hx with ((hx | ⟨tx, htx, rfl⟩) | hx) | hx
  · exact .inl (.inl (.inl (List.mem_filterMap.mpr ⟨_, hx, rfl⟩)))
  · exact .inl (.inl (.inr (List.mem_map_of_mem htx)))
  · exact .inl (.inr (mem_digestedList hx))
  · exact .inr (mem_digestedList hx)

theorem mem_fingerprintedList {steps : List Step} {r : State × List Transaction} {x : Bytes}
    (hx : x ∈ fingerprinted pb steps r) : x ∈ fingerprintedList pb steps r := by
  rcases hx with hx | rfl
  · exact List.mem_append_left _ (mem_digestedStringsList hx)
  · exact List.mem_append_right _ List.mem_cons_self

/-- The rejected transactions of two ledgers are different. -/
theorem ledger_hash_commits_rootRun :
    ∃ r r', run checksum taggedProtobuf (fun _ => none) (rootRun 5000) = .ok r ∧
      run checksum taggedProtobuf (fun _ => none) (rootRun 7000) = .ok r' ∧
      r.1.2.hash = r'.1.2.hash ∧
      ∀ k, entry checksum taggedProtobuf r.1 k = entry checksum taggedProtobuf r'.1 k := by
  have hok : (do
      let r ← run checksum taggedProtobuf (fun _ => none) (rootRun 5000)
      let r' ← run checksum taggedProtobuf (fun _ => none) (rootRun 7000)
      let xs := fingerprintedList taggedProtobuf (rootRun 5000) r ++
        fingerprintedList taggedProtobuf (rootRun 7000) r'
      let digests := digestedList r.1.2.accountTree ++ digestedList r'.1.2.accountTree
      .ok (decide (r.1.2.hash = r'.1.2.hash ∧
        (∀ x ∈ xs, ∀ y ∈ xs, checksum x = checksum y → x = y) ∧
        sampleName 1 ∉ digests ∧ sampleName 2 ∉ digests))) = .ok true :=
    eq_ok_of_toOption (by decide +kernel)
  obtain ⟨r, hr, hok⟩ := bind_eq_ok.mp hok
  obtain ⟨r', hr', hok⟩ := bind_eq_ok.mp hok
  obtain ⟨hhash, hinj, hone, htwo⟩ := of_decide_eq_true (Except.ok.inj hok)
  refine ⟨r, r', hr, hr', hhash, (ledger_hash_commits _ _ tagged_taggedProtobuf _ _ _ _ r r' hr hr'
    ?_ ?_ hhash).1⟩
  · have hlisted : ∀ x ∈ fingerprinted taggedProtobuf (rootRun 5000) r ∪
        fingerprinted taggedProtobuf (rootRun 7000) r',
        x ∈ fingerprintedList taggedProtobuf (rootRun 5000) r ++
          fingerprintedList taggedProtobuf (rootRun 7000) r' := by
      rintro x (hx | hx)
      · exact List.mem_append_left _ (mem_fingerprintedList hx)
      · exact List.mem_append_right _ (mem_fingerprintedList hx)
    exact fun x hx y hy => hinj x (hlisted x hx) y (hlisted y hy)
  · have hnot : ∀ x, x ∉ digestedList r.1.2.accountTree ++ digestedList r'.1.2.accountTree →
        x ∉ digested r.1.2.accountTree ∪ digested r'.1.2.accountTree := by
      rintro x hx (hmem | hmem)
      · exact hx (List.mem_append_left _ (mem_digestedList hmem))
      · exact hx (List.mem_append_right _ (mem_digestedList hmem))
    intro accPub hcreated
    simp only [rootRun, List.cons_append, List.nil_append, List.mem_cons, Step.createAccount.injEq,
      reduceCtorEq, List.not_mem_nil, false_or, or_false] at hcreated
    rcases hcreated with rfl | rfl | rfl | rfl
    · exact hnot _ hone
    · exact hnot _ htwo
    · exact hnot _ hone
    · exact hnot _ htwo

end Bubi.Ledger
