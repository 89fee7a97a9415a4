import Bubi.Ledger.Posting
import Bubi.Tree.Backup
import Bubi.Tree.Separation

/-!
# The trees of a growing ledger

The account tree of a ledger that grew from an empty one holds account leaves, added and
written back; its transaction tree holds transaction leaves, only ever added, so each of
them carries the digest of its transaction. The root hash of the transaction tree
therefore commits to the accepted transactions.
-/

namespace Bubi.Ledger

open Bubi.Core MerkleTrie RadixMerkleTree

/-- The fully loaded trees of a ledger that was never saved. -/
structure Grown (sha : Bytes → Uint256) (l : Ledger) (ta tt : MerkleTrie) : Prop where
  account : l.accountTree = embed sha ta
  transaction : l.transactionTree = embed sha tt
  accountValid : Valid sha ta
  transactionValid : Valid sha tt
  accountRoot : ∃ c, ta = .inner false c
  transactionRoot : ∃ c, tt = .inner true c
  accountLeaf : ∀ l ∈ ta, l.isTransaction = false
  /-- A transaction leaf is never written back. -/
  transactionLeaf : ∀ l ∈ tt, l.isTransaction = true ∧ l.hash = l.key

variable {sha : Bytes → Uint256} {pb : Protobuf}

section Leaves

variable {t : MerkleTrie}

/-- A permitted change makes leaves of its own kind only. -/
theorem isTransaction_changed (hv : Valid sha t) {o : Change} (ho : (contents t).Permits o)
    {b : Bool} (hb : o.isTransaction = b) (h : ∀ l ∈ t, l.isTransaction = b) :
    ∀ l ∈ MerkleTrie.changed sha t o, l.isTransaction = b := by
  intro l hl
  cases o with
  | addItem item isTransaction =>
    rcases (hv.sound.mem_inserted isTransaction (hv.contents_eq_none.mp ho)).mp hl with
      rfl | ⟨hl, _⟩ | ⟨l', _, rfl⟩
    · exact hb
    · exact h l hl
    · exact hb
  | updateGivenItem item isTransaction =>
    obtain ⟨l', hl'⟩ := exists_find_of_contents ho
    rcases (hv.sound.mem_replaced sha isTransaction hl').mp hl with rfl | ⟨hl, _⟩
    · exact hb
    · exact h l hl

/-- An addition leaves every leaf with its index for its hash. -/
theorem hash_eq_key_changed (hv : Valid sha t) {item : RadixMerkleTreeLeaf} {isTransaction : Bool}
    (ho : (contents t).Permits (.addItem item isTransaction)) (h : ∀ l ∈ t, l.hash = l.key) :
    ∀ l ∈ MerkleTrie.changed sha t (.addItem item isTransaction), l.hash = l.key := by
  intro l hl
  rcases (hv.sound.mem_inserted isTransaction (hv.contents_eq_none.mp ho)).mp hl with
    rfl | ⟨hl, _⟩ | ⟨l', _, rfl⟩
  · rfl
  · exact h l hl
  · rfl

theorem changed_inner (a : Bool) (c : Fin 16 → MerkleTrie) (o : Change) :
    ∃ c', MerkleTrie.changed sha (.inner a c) o = .inner a c' := by
  cases o <;> exact ⟨_, rfl⟩

/-- A change of a fully loaded tree that returns. -/
theorem change_embed_ok (hv : Valid sha t) {db : Database} {o : Change}
    {w : Database × RadixMerkleTreeNode}
    (hw : RadixMerkleTree.change sha (db, embed sha t) o = .ok w) :
    (contents t).Permits o ∧ w = (db, embed sha (MerkleTrie.changed sha t o)) := by
  rw [change_embed hv.isEmpty_eq] at hw
  obtain ⟨t', ht', hw⟩ := bind_eq_ok.mp hw
  obtain ⟨ho, rfl⟩ := hv.change_ok ht'
  exact ⟨ho, (Except.ok.inj hw).symm⟩

end Leaves

section Grown

variable {l l' : Ledger} {s s' : State} {ta tt : MerkleTrie} {db : Database}

/-- Only the trees matter. -/
theorem Grown.congr (h : Grown sha l ta tt) (ha : l'.accountTree = l.accountTree)
    (ht : l'.transactionTree = l.transactionTree) : Grown sha l' ta tt :=
  { h with account := ha.trans h.account, transaction := ht.trans h.transaction }

theorem Grown.changeAccount (h : Grown sha l ta tt) {o : Change} (ho : o.isTransaction = false)
    {w : Database × RadixMerkleTreeNode}
    (hw : RadixMerkleTree.change sha (db, l.accountTree) o = .ok w) :
    ∃ ta', Grown sha { l with accountTree := w.2 } ta' tt := by
  rw [h.account] at hw
  obtain ⟨hpermits, rfl⟩ := change_embed_ok h.accountValid hw
  refine ⟨_, { h with
    account := rfl
    accountValid := h.accountValid.changed hpermits
    accountRoot := ?_
    accountLeaf := isTransaction_changed h.accountValid hpermits ho h.accountLeaf }⟩
  obtain ⟨c, rfl⟩ := h.accountRoot
  exact changed_inner false c o

theorem Grown.addTransaction (h : Grown sha l ta tt) {item : RadixMerkleTreeLeaf}
    {w : Database × RadixMerkleTreeNode} (hw : addItem sha db l.transactionTree item true = .ok w) :
    ∃ tt', Grown sha { l with transactionTree := w.2 } ta tt' := by
  have hw : RadixMerkleTree.change sha (db, l.transactionTree) (.addItem item true) = .ok w := hw
  rw [h.transaction] at hw
  obtain ⟨hpermits, rfl⟩ := change_embed_ok h.transactionValid hw
  have htype := isTransaction_changed h.transactionValid hpermits rfl
    fun l hl => (h.transactionLeaf l hl).1
  have hhash := hash_eq_key_changed h.transactionValid hpermits
    fun l hl => (h.transactionLeaf l hl).2
  refine ⟨_, { h with
    transaction := rfl
    transactionValid := h.transactionValid.changed hpermits
    transactionRoot := ?_
    transactionLeaf := fun l hl => ⟨htype l hl, hhash l hl⟩ }⟩
  obtain ⟨c, rfl⟩ := h.transactionRoot
  exact changed_inner true c _

theorem Grown.updateAccountTreeHash (h : Grown sha l ta tt)
    (hl : updateAccountTreeHash sha l = .ok l') : Grown sha l' ta tt := by
  obtain ⟨hash, _, rfl⟩ := updateAccountTreeHash_ok hl
  exact h.congr rfl rfl

theorem Grown.updateTransactionTreeHash (h : Grown sha l ta tt)
    (hl : updateTransactionTreeHash sha l = .ok l') : Grown sha l' ta tt := by
  obtain ⟨hash, _, rfl⟩ := updateTransactionTreeHash_ok hl
  exact h.congr rfl rfl

theorem Grown.getAccountEntry (h : Grown sha s.2 ta tt) {hash : Uint256}
    {r : State × Option Account} (hr : getAccountEntry sha pb s hash = .ok r) :
    Grown sha r.1.2 ta tt := by
  obtain ⟨w, hw, hr⟩ := bind_eq_ok.mp hr
  cases hr
  rw [getEntry, h.account, lookup_embed h.accountValid.isEmpty_eq] at hw
  obtain ⟨v, _, hw⟩ := bind_eq_ok.mp hw
  cases hw
  exact h.congr h.account.symm rfl

theorem Grown.updateAccountTreeEntry (h : Grown sha s.2 ta tt) {item : RadixMerkleTreeLeaf}
    (hr : updateAccountTreeEntry sha s item = .ok s') : ∃ ta', Grown sha s'.2 ta' tt := by
  obtain ⟨w, hw, hr⟩ := bind_eq_ok.mp hr
  obtain ⟨l, hl, hr⟩ := bind_eq_ok.mp hr
  cases hr
  obtain ⟨ta', hgrown⟩ := h.changeAccount (o := .updateGivenItem item false) rfl hw
  exact ⟨ta', hgrown.updateAccountTreeHash hl⟩

theorem Grown.postTransaction (h : Grown sha s.2 ta tt) {tx : Transaction}
    {source destination : Account} {r : State × Transaction}
    (hr : postTransaction sha pb s tx source destination = .ok r) :
    ∃ ta' tt', Grown sha r.1.2 ta' tt' := by
  obtain ⟨_, w, l, _, _, s₁, s₂, l', hw, hl, hs₁, hs₂, hl', hr⟩ := postTransaction_path hr
  obtain ⟨tt', hgrown⟩ := h.addTransaction hw
  obtain ⟨ta₁, h₁⟩ :=
    Grown.updateAccountTreeEntry (s := (w.1, l)) (hgrown.updateTransactionTreeHash hl) hs₁
  obtain ⟨ta₂, h₂⟩ := h₁.updateAccountTreeEntry hs₂
  rw [hr]
  exact ⟨ta₂, tt', h₂.updateAccountTreeHash hl'⟩

/-- Every call keeps the two trees growing. -/
theorem Grown.step {r r' : State × List Transaction} (h : Grown sha r.1.2 ta tt) {o : Step}
    (hr : Ledger.step sha pb r o = .ok r') : ∃ ta' tt', Grown sha r'.1.2 ta' tt' := by
  cases o with
  | createAccount accPub =>
    obtain ⟨s', hs', hr⟩ := bind_eq_ok.mp hr
    cases hr
    obtain ⟨item, w, l, hw, hl, rfl⟩ := createAccount_path hs'
    obtain ⟨ta', hgrown⟩ := h.changeAccount (o := .addItem item false) rfl hw
    exact ⟨ta', tt, hgrown.updateAccountTreeHash hl⟩
  | addTransactionEntry tx =>
    obtain ⟨r'', hr'', hr⟩ := bind_eq_ok.mp hr
    cases hr
    obtain ⟨source, destination, hsource, hdestination, hrest⟩ := addTransactionEntry_path hr''
    have hread := (h.getAccountEntry hsource).getAccountEntry hdestination
    rcases hrest with hr | ⟨_, _, p, hp, hr⟩
    · rw [hr]
      exact ⟨ta, tt, hread⟩
    · rw [hr]
      exact hread.postTransaction hp

theorem grown_new (hl : new sha = .ok l) :
    Grown sha l (MerkleTrie.new false) (MerkleTrie.new true) := by
  obtain ⟨l', hl', ha, ht, _⟩ := new_ok sha
  obtain rfl : l' = l := Except.ok.inj (hl'.symm.trans hl)
  exact
    { account := ha
      transaction := ht
      accountValid := valid_new false
      transactionValid := valid_new true
      accountRoot := ⟨_, rfl⟩
      transactionRoot := ⟨_, rfl⟩
      accountLeaf := fun _ ⟨_, hl⟩ => hl.elim
      transactionLeaf := fun _ ⟨_, hl⟩ => hl.elim }

/-- A run on an empty ledger leaves grown trees that hold its books. -/
theorem run_grown {steps : List Step} {r : State × List Transaction}
    (hr : run sha pb db steps = .ok r) :
    ∃ ta tt, Reflects sha pb r.1 (posted sha pb steps).1 r.2 ta tt ∧ Grown sha r.1.2 ta tt := by
  have hstep := run_inStep hr
  obtain ⟨l, hl, hr⟩ := bind_eq_ok.mp hr
  obtain ⟨ta', tt', hgrown⟩ := @run_invariant _ _ _ _
    (fun r : State × List Transaction => ∃ ta tt, Grown sha r.1.2 ta tt)
    (fun _ _ _ ⟨_, _, h⟩ hstep => h.step hstep) steps _ r ⟨_, _, grown_new hl⟩ hr
  obtain ⟨ta, tt, hreflects, hloaded⟩ := hstep.reflects
  obtain ⟨hpa, hpt⟩ := List.append_eq_nil_iff.mp hloaded
  obtain rfl : ta = ta' :=
    embed_injective ((hreflects.trees.account.eq_embed hpa).symm.trans hgrown.account)
  obtain rfl : tt = tt' :=
    embed_injective ((hreflects.trees.transaction.eq_embed hpt).symm.trans hgrown.transaction)
  rw [← hstep.accepted] at hreflects
  exact ⟨ta, tt, hreflects, hgrown⟩

end Grown

section Transactions

variable {tt : MerkleTrie} {accepted : List Transaction}

/-- A transaction leaf holds an accepted transaction under its digest. -/
theorem TransactionRecords.exists_tx (h : TransactionRecords sha pb tt accepted)
    (hv : Valid sha tt) {l : LeafNode} (hl : l ∈ tt) :
    ∃ tx ∈ accepted, l.item.data = tx.serializer pb ∧ l.key = txHash sha pb tx := by
  have hdata := h.data l.key
  rw [hv.contents_key hl, Option.map_some, eq_comm, Option.map_eq_some_iff] at hdata
  obtain ⟨tx, hfind, hserial⟩ := hdata
  have hkey : txHash sha pb tx = l.key := by simpa using List.find?_some hfind
  exact ⟨tx, List.mem_of_find?_eq_some hfind, hserial.symm, hkey.symm⟩

/-- Every accepted transaction has its leaf. -/
theorem TransactionRecords.exists_leaf (h : TransactionRecords sha pb tt accepted)
    (hv : Valid sha tt) {tx : Transaction} (htx : tx ∈ accepted) :
    ∃ l ∈ tt, l.item.data = tx.serializer pb := by
  have hsome : contents tt (txHash sha pb tx) ≠ none := by
    intro hnone
    have hdata := h.data (txHash sha pb tx)
    rw [hnone, Option.map_none, eq_comm, Option.map_eq_none_iff, List.find?_eq_none] at hdata
    exact hdata tx htx (by simp)
  obtain ⟨l, hl, hkey⟩ := hv.contents_ne_none.mp hsome
  obtain ⟨tx', htx', hdata, hkey'⟩ := h.exists_tx hv hl
  rw [List.inj_on_of_nodup_map h.nodup htx' htx (hkey'.symm.trans hkey)] at hdata
  exact ⟨l, hl, hdata⟩

/-- The leaves of a grown transaction tree are named by the digests of their transactions. -/
theorem Grown.preimages {l : Ledger} {ta : MerkleTrie} (h : Grown sha l ta tt)
    (ht : TransactionRecords sha pb tt accepted) {S : Set Bytes}
    (hserial : ∀ tx ∈ accepted, tx.serializer pb ∈ S) (hdigested : digested l.transactionTree ⊆ S) :
    Preimages sha (fun l => l.item.data) S tt where
  hash := by
    intro l hl
    obtain ⟨tx, _, hdata, hkey⟩ := ht.exists_tx h.transactionValid hl
    rw [(h.transactionLeaf l hl).2, hkey, hdata]
    rfl
  leaf := by
    intro l hl
    obtain ⟨tx, htx, hdata, _⟩ := ht.exists_tx h.transactionValid hl
    rw [hdata]
    exact hserial tx htx
  record := by
    intro x hx
    apply hdigested
    rw [h.transaction]
    exact record_mem_digested hx

/-- A serialized transaction is no record of an inner node. -/
theorem TransactionRecords.apart (h : TransactionRecords sha pb tt accepted) (hv : Valid sha tt)
    (htag : pb.Tagged) (t : MerkleTrie) : Apart sha (fun l => l.item.data) tt t := by
  intro l hl
  obtain ⟨tx, _, hdata, _⟩ := h.exists_tx hv hl
  obtain ⟨rest, hrest⟩ : ∃ rest, tx.serializer pb = 0x0A :: rest := htag _
  change l.item.data ∉ records sha t
  rw [hdata, hrest]
  exact tagged_notMem_records

/-- The leaves are those of the accepted transactions. -/
theorem TransactionRecords.mem_iff (h : TransactionRecords sha pb tt accepted) (hv : Valid sha tt)
    {tx : Transaction} : tx ∈ accepted ↔ ∃ l ∈ tt, l.item.data = tx.serializer pb := by
  constructor
  · exact h.exists_leaf hv
  · rintro ⟨l, hl, hdata⟩
    obtain ⟨tx', htx', hserial, _⟩ := h.exists_tx hv hl
    rwa [Transaction.serializer_injective pb (hdata.symm.trans hserial)]

/-- Leaves with the same data have the same index. -/
theorem TransactionRecords.item_eq (h : TransactionRecords sha pb tt accepted) (hv : Valid sha tt)
    {tt' : MerkleTrie} {accepted' : List Transaction}
    (h' : TransactionRecords sha pb tt' accepted') (hv' : Valid sha tt') {l l' : LeafNode}
    (hl : l ∈ tt) (hl' : l' ∈ tt') (hdata : l.item.data = l'.item.data) : l.item = l'.item := by
  obtain ⟨tx, _, hserial, hkey⟩ := h.exists_tx hv hl
  obtain ⟨tx', _, hserial', hkey'⟩ := h'.exists_tx hv' hl'
  refine RadixMerkleTreeLeaf.ext ?_ hdata
  change l.key = l'.key
  rw [hkey, hkey', txHash, txHash, ← hserial, ← hserial', hdata]

end Transactions

/-- Two ledgers that grew from empty ones and whose transaction trees have the same root hash
hold the same transactions: the trees have the same leaves and the accepted transactions are
the same. The digest is injective on the strings that it was given for the two trees, and
protobuf's first byte sets serialized transactions apart from the records of nodes. -/
theorem transaction_root_commits (sha : Bytes → Uint256) (pb : Protobuf) (htag : pb.Tagged)
    (db db' : Database) (steps steps' : List Step) (r r' : State × List Transaction)
    (hr : run sha pb db steps = .ok r) (hr' : run sha pb db' steps' = .ok r')
    (hinj : Set.InjOn sha ({x | ∃ tx ∈ r.2 ++ r'.2, tx.serializer pb = x} ∪
      digested r.1.2.transactionTree ∪ digested r'.1.2.transactionTree))
    (hroot : getHash r.1.2.transactionTree = getHash r'.1.2.transactionTree) :
    (∀ item, (∃ d ∈ reached r.1.2.transactionTree, d.item = some item) ↔
      ∃ d ∈ reached r'.1.2.transactionTree, d.item = some item) ∧
    ∀ tx, tx ∈ r.2 ↔ tx ∈ r'.2 := by
  obtain ⟨ta, tt, hreflects, hgrown⟩ := run_grown hr
  obtain ⟨ta', tt', hreflects', hgrown'⟩ := run_grown hr'
  have hv := hgrown.transactionValid
  have hv' := hgrown'.transactionValid
  have hdigest : digest sha tt = digest sha tt' := by
    rw [hgrown.transaction, hgrown'.transaction] at hroot
    obtain ⟨c, rfl⟩ := hgrown.transactionRoot
    obtain ⟨c', rfl⟩ := hgrown'.transactionRoot
    exact Except.ok.inj hroot
  set S := {x | ∃ tx ∈ r.2 ++ r'.2, tx.serializer pb = x} ∪ digested r.1.2.transactionTree ∪
    digested r'.1.2.transactionTree
  have hserial : ∀ tx ∈ r.2 ++ r'.2, tx.serializer pb ∈ S :=
    fun tx htx => Or.inl (Or.inl ⟨tx, htx, rfl⟩)
  have hpre : Preimages sha (fun l => l.item.data) S tt :=
    hgrown.preimages hreflects.transactions
      (fun tx htx => hserial tx (List.mem_append_left _ htx)) fun x hx => Or.inl (Or.inr hx)
  have hpre' : Preimages sha (fun l => l.item.data) S tt' :=
    hgrown'.preimages hreflects'.transactions
      (fun tx htx => hserial tx (List.mem_append_right _ htx)) fun x hx => Or.inr hx
  have hempty : tt.isEmpty = tt'.isEmpty := hv.isEmpty_eq.trans hv'.isEmpty_eq.symm
  have hseparated := hpre.separated hinj hpre' (hreflects.transactions.apart hv htag tt')
    (hreflects'.transactions.apart hv' htag tt)
  have hsub : ∀ l ∈ tt, ∃ l' ∈ tt', l.item = l'.item := by
    intro l hl
    obtain ⟨l', hl', hdata⟩ := exists_of_digest hseparated hempty hdigest hl
    exact ⟨l', hl', hreflects.transactions.item_eq hv hreflects'.transactions hv' hl hl' hdata⟩
  have hsub' : ∀ l ∈ tt', ∃ l' ∈ tt, l.item = l'.item := by
    intro l hl
    obtain ⟨l', hl', hdata⟩ := exists_of_digest hseparated.symm hempty.symm hdigest.symm hl
    exact ⟨l', hl', hreflects'.transactions.item_eq hv' hreflects.transactions hv hl hl' hdata⟩
  refine ⟨fun item => ?_, fun tx => ?_⟩
  · rw [hgrown.transaction, hgrown'.transaction, exists_item_embed, exists_item_embed]
    exact ⟨fun ⟨l, hl, he⟩ => he ▸ hsub l hl, fun ⟨l, hl, he⟩ => he ▸ hsub' l hl⟩
  · rw [hreflects.transactions.mem_iff hv, hreflects'.transactions.mem_iff hv']
    constructor
    · rintro ⟨l, hl, hdata⟩
      obtain ⟨l', hl', hitem⟩ := hsub l hl
      exact ⟨l', hl', hitem ▸ hdata⟩
    · rintro ⟨l, hl, hdata⟩
      obtain ⟨l', hl', hitem⟩ := hsub' l hl
      exact ⟨l', hl', hitem ▸ hdata⟩

/-- Two payments, the rejected ones different. -/
def rootRun (amount : ℚ) : List Step :=
  [.createAccount (sampleName 1), .createAccount (sampleName 2),
    .addTransactionEntry (samplePayment 1 2 100), .addTransactionEntry (samplePayment 1 2 amount),
    .addTransactionEntry (samplePayment 2 1 30)]

theorem transaction_root_commits_rootRun :
    ∃ r r', run checksum taggedProtobuf (fun _ => none) (rootRun 5000) = .ok r ∧
      run checksum taggedProtobuf (fun _ => none) (rootRun 7000) = .ok r' ∧
      getHash r.1.2.transactionTree = getHash r'.1.2.transactionTree ∧
      ∀ tx, tx ∈ r.2 ↔ tx ∈ r'.2 := by
  have hok : (do
      let r ← run checksum taggedProtobuf (fun _ => none) (rootRun 5000)
      let r' ← run checksum taggedProtobuf (fun _ => none) (rootRun 7000)
      let h ← getHash r.1.2.transactionTree
      let h' ← getHash r'.1.2.transactionTree
      let xs := (r.2 ++ r'.2).map (Transaction.serializer taggedProtobuf) ++
        digestedList r.1.2.transactionTree ++ digestedList r'.1.2.transactionTree
      .ok (decide (h = h' ∧ ∀ x ∈ xs, ∀ y ∈ xs, checksum x = checksum y → x = y))) = .ok true :=
    eq_ok_of_toOption (by decide +kernel)
  obtain ⟨r, hr, hok⟩ := bind_eq_ok.mp hok
  obtain ⟨r', hr', hok⟩ := bind_eq_ok.mp hok
  obtain ⟨h, hh, hok⟩ := bind_eq_ok.mp hok
  obtain ⟨h', hh', hok⟩ := bind_eq_ok.mp hok
  obtain ⟨rfl, hinj⟩ := of_decide_eq_true (Except.ok.inj hok)
  have hroot := hh.trans hh'.symm
  refine ⟨r, r', hr, hr', hroot, (transaction_root_commits _ _ tagged_taggedProtobuf _ _ _ _ r r'
    hr hr' ?_ hroot).2⟩
  have hlisted : ∀ x ∈ {x | ∃ tx ∈ r.2 ++ r'.2, tx.serializer taggedProtobuf = x} ∪
      digested r.1.2.transactionTree ∪ digested r'.1.2.transactionTree,
      x ∈ (r.2 ++ r'.2).map (Transaction.serializer taggedProtobuf) ++
        digestedList r.1.2.transactionTree ++ digestedList r'.1.2.transactionTree := by
    rintro x ((⟨tx, htx, rfl⟩ | hx) | hx)
    · exact List.mem_append_left _ (List.mem_append_left _ (List.mem_map_of_mem htx))
    · exact List.mem_append_left _ (List.mem_append_right _ (mem_digestedList hx))
    · exact List.mem_append_right _ (mem_digestedList hx)
  exact fun x hx y hy => hinj x (hlisted x hx) y (hlisted y hy)

end Bubi.Ledger
