import Bubi.Ledger.Growth

/-!
# The keys of the two trees in the store

Both trees of a ledger write their nodes into one store, each under its hash. An inner
node, an account that was written back and a transaction are named by the digests of
strings that cannot be equal. A new account is named by the digest of its bare address
string, which the client chooses: it collides exactly with a node for which the same
string was digested.
-/

namespace Bubi

open Bubi.Core

namespace RadixMerkleTree

/-- The records that `backup_to_database` passes to `store_batch`. -/
def batch : RadixMerkleTreeNode → List NodeData
  | .null => []
  | .node d children => backupLoop (size (.node d children)) [.node d children] [d]

theorem backupToDatabase_eq (db : Database) {root : RadixMerkleTreeNode}
    (h : isLoaded root = true) : backupToDatabase db root = db.storeBatch (batch root) := by
  cases root with
  | null => cases h
  | node d children => rfl

theorem batch_perm (root : RadixMerkleTreeNode) : (batch root).Perm (reached root) := by
  cases root with
  | null => exact List.Perm.refl _
  | node d children => exact backupLoop_root_perm d children

end RadixMerkleTree

namespace Ledger

open MerkleTrie RadixMerkleTree

/-- The keys under which the two trees are stored. -/
def storeKeys (l : Ledger) : List Bytes :=
  (batch l.accountTree ++ batch l.transactionTree).map fun d => d.hash.toString

/-- An account that still is as its leaf's constructor made it has an address string that was
digested for another node: for an inner node of one of the trees, for an account that was
written back, or for an accepted transaction. -/
def Collides (sha : Bytes → Uint256) (pb : Protobuf) (steps : List Step)
    (r : State × List Transaction) : Prop :=
  ∃ accPub, Step.createAccount accPub ∈ steps ∧
    (∃ d ∈ reached r.1.2.accountTree, ∃ item, d.item = some item ∧ item.index = sha accPub ∧
      d.hash = item.index) ∧
    ((∃ e ∈ reached r.1.2.accountTree ++ reached r.1.2.transactionTree, e.isInner = true ∧
        e.hashInput = .ok accPub) ∨
      (∃ e ∈ reached r.1.2.accountTree, ∃ item, e.item = some item ∧ e.hash ≠ item.index ∧
        e.hashInput = .ok accPub) ∨
      ∃ tx ∈ r.2, tx.serializer pb = accPub)

variable {sha : Bytes → Uint256} {pb : Protobuf}

/-- Every account was created. -/
theorem exists_created {steps : List Step} {k : Uint256}
    (h : (posted sha pb steps).1.accounts k ≠ none) :
    ∃ accPub, Step.createAccount accPub ∈ steps ∧ sha accPub = k := by
  induction steps using List.reverseRecOn with
  | nil => exact absurd rfl h
  | append_singleton pre o ih =>
    have hpre : (posted sha pb pre).1.accounts k ≠ none →
        ∃ accPub, Step.createAccount accPub ∈ pre ++ [o] ∧ sha accPub = k := by
      intro hk
      obtain ⟨accPub, hmem, hsha⟩ := ih hk
      exact ⟨accPub, List.mem_append_left _ hmem, hsha⟩
    rw [posted_snoc] at h
    cases o with
    | createAccount accPub =>
      rw [postStep, Books.accounts_write] at h
      split at h
      · next hk =>
        exact ⟨accPub, List.mem_append_right _ (List.mem_singleton.mpr rfl), hk.symm⟩
      · exact hpre h
    | addTransactionEntry tx =>
      apply hpre
      rw [postStep, post] at h
      split at h
      · next source destination hs hd =>
        split at h
        · exact h
        · intro hnone
          rw [Books.accounts_pay hs hd] at h
          split at h
          · next hk =>
            rw [hk, hd] at hnone
            cases hnone
          · split at h
            · next hk =>
              rw [hk, hs] at hnone
              cases hnone
            · exact h hnone
      · exact h

/-- The keys are distinct exactly when the hashes of the two tries are. -/
theorem Grown.storeKeys_nodup {l : Ledger} {ta tt : MerkleTrie} (h : Grown sha l ta tt) :
    (storeKeys l).Nodup ↔ (hashes sha ta ++ hashes sha tt).Nodup := by
  have hperm : ((batch l.accountTree ++ batch l.transactionTree).map NodeData.hash).Perm
      (hashes sha ta ++ hashes sha tt) := by
    rw [List.map_append, h.account, h.transaction]
    exact ((batch_perm _).map _ |>.trans (reached_embed_perm sha ta)).append
      ((batch_perm _).map _ |>.trans (reached_embed_perm sha tt))
  rw [← hperm.nodup_iff, storeKeys,
    show (fun d : NodeData => d.hash.toString) = Uint256.toString ∘ NodeData.hash from rfl,
    ← List.map_map]
  exact List.nodup_map_iff Uint256.toString_injective

/-- The string that names a leaf: the transaction, the address string of a new account, or
the record of an account that was written back. -/
def leafString (name : Uint256 → Bytes) (l : LeafNode) : Bytes :=
  if l.isTransaction then l.item.data else if l.hash = l.key then name l.key else l.input

/-- The tries of a grown ledger, with an address string for every account. -/
structure Naming (sha : Bytes → Uint256) (pb : Protobuf) (steps : List Step)
    (r : State × List Transaction) (ta tt : MerkleTrie) (name : Uint256 → Bytes) : Prop where
  grown : Grown sha r.1.2 ta tt
  transactions : TransactionRecords sha pb tt r.2
  name : ∀ l ∈ ta, Step.createAccount (name l.key) ∈ steps ∧ sha (name l.key) = l.key

theorem exists_naming {db : Database} {steps : List Step} {r : State × List Transaction}
    (hr : run sha pb db steps = .ok r) : ∃ ta tt name, Naming sha pb steps r ta tt name := by
  obtain ⟨ta, tt, hreflects, hgrown⟩ := run_grown hr
  have hname : ∀ k, ∃ accPub, (∃ l ∈ ta, l.key = k) →
      Step.createAccount accPub ∈ steps ∧ sha accPub = k := by
    intro k
    by_cases hk : ∃ l ∈ ta, l.key = k
    · rw [← hgrown.accountValid.contents_ne_none] at hk
      obtain ⟨accPub, hcreated⟩ := exists_created (mt hreflects.accounts.contents_eq_none.mpr hk)
      exact ⟨accPub, fun _ => hcreated⟩
    · exact ⟨[], fun h => absurd h hk⟩
  choose name hname using hname
  exact ⟨ta, tt, name, hgrown, hreflects.transactions, fun l hl => hname l.key ⟨l, hl, rfl⟩⟩

namespace Naming

variable {steps : List Step} {r : State × List Transaction} {ta tt : MerkleTrie}
  {name : Uint256 → Bytes} {l l' : LeafNode}

theorem leafString_transaction (h : Naming sha pb steps r ta tt name) (hl : l ∈ tt) :
    leafString name l = l.item.data :=
  if_pos (h.grown.transactionLeaf l hl).1

theorem leafString_fresh (h : Naming sha pb steps r ta tt name) (hl : l ∈ ta)
    (hfresh : l.hash = l.key) : leafString name l = name l.key := by
  rw [leafString, h.grown.accountLeaf l hl, if_neg Bool.false_ne_true, if_pos hfresh]

theorem leafString_written (h : Naming sha pb steps r ta tt name) (hl : l ∈ ta)
    (hwritten : l.hash ≠ l.key) : leafString name l = l.input := by
  rw [leafString, h.grown.accountLeaf l hl, if_neg Bool.false_ne_true, if_neg hwritten]

/-- A serialized transaction starts with protobuf's first byte. -/
theorem exists_tag (h : Naming sha pb steps r ta tt name) (htag : pb.Tagged) (hl : l ∈ tt) :
    ∃ rest, l.item.data = 0x0A :: rest := by
  obtain ⟨tx, _, hdata, _⟩ := h.transactions.exists_tx h.grown.transactionValid hl
  rw [hdata]
  exact htag _

/-- A new account collides when its address string was digested for another node. -/
theorem collides (h : Naming sha pb steps r ta tt name) (hl : l ∈ ta) (hfresh : l.hash = l.key)
    (hother : (∃ e ∈ reached r.1.2.accountTree ++ reached r.1.2.transactionTree,
        e.isInner = true ∧ e.hashInput = .ok (name l.key)) ∨
      (∃ e ∈ reached r.1.2.accountTree, ∃ item, e.item = some item ∧ e.hash ≠ item.index ∧
        e.hashInput = .ok (name l.key)) ∨
      ∃ tx ∈ r.2, tx.serializer pb = name l.key) : Collides sha pb steps r := by
  obtain ⟨hcreated, hsha⟩ := h.name l hl
  refine ⟨name l.key, hcreated, ⟨l.data, ?_, l.item, rfl, hsha.symm, hfresh⟩, hother⟩
  rw [h.grown.account]
  exact leaf_mem_reached hl

theorem preimages_account (h : Naming sha pb steps r ta tt name) {S : Set Bytes}
    (hcreated : ∀ accPub, Step.createAccount accPub ∈ steps → accPub ∈ S)
    (hdigested : digested r.1.2.accountTree ⊆ S) :
    Preimages sha (leafString name) S ta where
  hash := by
    intro l hl
    by_cases hfresh : l.hash = l.key
    · rw [h.leafString_fresh hl hfresh, (h.name l hl).2, hfresh]
    · rw [h.leafString_written hl hfresh]
      exact (h.grown.accountValid.cached l hl).resolve_left hfresh
  leaf := by
    intro l hl
    by_cases hfresh : l.hash = l.key
    · rw [h.leafString_fresh hl hfresh]
      exact hcreated _ (h.name l hl).1
    · rw [h.leafString_written hl hfresh]
      refine hdigested ⟨l.data, ?_, hashInput_leaf l⟩
      rw [h.grown.account]
      exact leaf_mem_reached hl
  record := by
    intro x hx
    apply hdigested
    rw [h.grown.account]
    exact record_mem_digested hx

theorem preimages_transaction (h : Naming sha pb steps r ta tt name) {S : Set Bytes}
    (hserial : ∀ tx ∈ r.2, tx.serializer pb ∈ S) (hdigested : digested r.1.2.transactionTree ⊆ S) :
    Preimages sha (leafString name) S tt := by
  have hpre := h.grown.preimages h.transactions hserial hdigested
  refine ⟨fun l hl => ?_, fun l hl => ?_, hpre.record⟩
  · rw [h.leafString_transaction hl]
    exact hpre.hash l hl
  · rw [h.leafString_transaction hl]
    exact hpre.leaf l hl

theorem apart_transaction (h : Naming sha pb steps r ta tt name) (htag : pb.Tagged)
    (t : MerkleTrie) : Apart sha (leafString name) tt t := by
  intro l hl
  rw [h.leafString_transaction hl]
  exact h.transactions.apart h.grown.transactionValid htag t l hl

section Separated

variable (hno : ¬ Collides sha pb steps r)
include hno

/-- The strings of the accounts are no records of inner nodes. -/
theorem apart_account (h : Naming sha pb steps r ta tt name) {t : MerkleTrie}
    (ht : ∀ d ∈ reached (embed sha t),
      d ∈ reached r.1.2.accountTree ++ reached r.1.2.transactionTree) :
    Apart sha (leafString name) ta t := by
  intro l hl hx
  by_cases hfresh : l.hash = l.key
  · rw [h.leafString_fresh hl hfresh] at hx
    obtain ⟨e, he, hinner, hinput, _⟩ := exists_inner_of_records hx
    exact hno (h.collides hl hfresh (Or.inl ⟨e, ht e he, hinner, hinput⟩))
  · rw [h.leafString_written hl hfresh] at hx
    obtain ⟨a, c, hbytes⟩ := exists_of_mem_records hx
    exact input_ne_bytes l a c hbytes

/-- No new account has the string of one that was written back. -/
theorem fresh_ne_written (h : Naming sha pb steps r ta tt name) (hl : l ∈ ta) (hl' : l' ∈ ta)
    (hfresh : l.hash = l.key) (hwritten : l'.hash ≠ l'.key) :
    leafString name l ≠ leafString name l' := by
  intro heq
  rw [h.leafString_fresh hl hfresh, h.leafString_written hl' hwritten] at heq
  refine hno (h.collides hl hfresh (Or.inr (Or.inl ⟨l'.data, ?_, l'.item, rfl, hwritten, ?_⟩)))
  · rw [h.grown.account]
    exact leaf_mem_reached hl'
  · rw [heq]
    exact hashInput_leaf l'

/-- Different accounts have different strings. -/
theorem account_eq (h : Naming sha pb steps r ta tt name) (hl : l ∈ ta) (hl' : l' ∈ ta)
    (heq : leafString name l = leafString name l') : l = l' := by
  apply h.grown.accountValid.eq_of_key hl hl'
  by_cases hfresh : l.hash = l.key
  · by_cases hfresh' : l'.hash = l'.key
    · rw [h.leafString_fresh hl hfresh, h.leafString_fresh hl' hfresh'] at heq
      rw [← (h.name l hl).2, heq, (h.name l' hl').2]
    · exact absurd heq (h.fresh_ne_written hno hl hl' hfresh hfresh')
  · by_cases hfresh' : l'.hash = l'.key
    · exact absurd heq.symm (h.fresh_ne_written hno hl' hl hfresh' hfresh)
    · rw [h.leafString_written hl hfresh, h.leafString_written hl' hfresh'] at heq
      exact congrArg RadixMerkleTreeLeaf.index (LeafNode.item_eq_of_input
        (h.grown.accountLeaf l hl) (h.grown.accountLeaf l' hl') heq)

/-- An account and a transaction have different strings. -/
theorem account_ne_transaction (h : Naming sha pb steps r ta tt name) (htag : pb.Tagged)
    (hl : l ∈ ta) (hl' : l' ∈ tt) : leafString name l ≠ leafString name l' := by
  intro heq
  rw [h.leafString_transaction hl'] at heq
  by_cases hfresh : l.hash = l.key
  · rw [h.leafString_fresh hl hfresh] at heq
    obtain ⟨tx, htx, hdata, _⟩ := h.transactions.exists_tx h.grown.transactionValid hl'
    exact hno (h.collides hl hfresh (Or.inr (Or.inr ⟨tx, htx, by rw [heq, hdata]⟩)))
  · rw [h.leafString_written hl hfresh] at heq
    obtain ⟨rest, hrest⟩ := h.exists_tag htag hl'
    exact tagged_ne_header l.data _ (hrest.symm.trans heq.symm)

/-- Without a collision all nodes have different hashes. -/
theorem nodup (h : Naming sha pb steps r ta tt name) (htag : pb.Tagged) {S : Set Bytes}
    (hinj : Set.InjOn sha S) (hpre : Preimages sha (leafString name) S ta)
    (hpre' : Preimages sha (leafString name) S tt) :
    (hashes sha ta ++ hashes sha tt).Nodup := by
  have haa : Apart sha (leafString name) ta ta := by
    refine h.apart_account hno fun d hd => List.mem_append_left _ ?_
    rwa [h.grown.account]
  have hat : Apart sha (leafString name) ta tt := by
    refine h.apart_account hno fun d hd => List.mem_append_right _ ?_
    rwa [h.grown.transaction]
  have htt := h.apart_transaction htag tt
  have hboth := hpre.separated hinj hpre' hat (h.apart_transaction htag ta)
  have hcross : ∀ l ∈ ta, ∀ l' ∈ tt, leafString name l ≠ leafString name l' :=
    fun _ hl _ hl' => h.account_ne_transaction hno htag hl hl'
  refine List.nodup_append'.mpr ⟨?_, ?_, ?_⟩
  · exact nodup_hashes h.grown.accountValid.sound (hpre.separated hinj hpre haa haa)
      fun l hl l' hl' => h.account_eq hno hl hl'
  · refine nodup_hashes h.grown.transactionValid.sound (hpre'.separated hinj hpre' htt htt)
      fun l hl l' hl' heq => ?_
    rw [h.leafString_transaction hl, h.leafString_transaction hl'] at heq
    exact h.grown.transactionValid.eq_of_key hl hl' (congrArg RadixMerkleTreeLeaf.index
      (h.transactions.item_eq h.grown.transactionValid h.transactions h.grown.transactionValid
        hl hl' heq))
  · -- The roots differ in their flag, and every other node has a leaf below it.
    have hsound := h.grown.accountValid.sound
    have hsound' := h.grown.transactionValid.sound
    obtain ⟨c, rfl⟩ := h.grown.accountRoot
    obtain ⟨c', rfl⟩ := h.grown.transactionRoot
    intro x hx hx'
    rw [hashes, List.mem_cons, List.mem_flatMap] at hx
    rcases hx with hroot | ⟨i, _, hx⟩
    · have hmem : x ∈ hashes sha (.inner false c) := hroot ▸ List.mem_cons_self
      rw [hashes, List.mem_cons, List.mem_flatMap] at hx'
      rcases hx' with hroot' | ⟨j, _, hx'⟩
      · have hbytes := hboth.record _ (mem_records_inner.mpr (Or.inl rfl)) _
          (mem_records_inner.mpr (Or.inl rfl)) (hroot.symm.trans hroot')
        exact Bool.false_ne_true (bytes_inj hbytes).1
      · exact disjoint_hashes (hboth.symm.child j) (hsound'.forked rfl j)
          (fun l hl l' hl' => (hcross l' hl' l ⟨j, hl⟩).symm) hx' hmem
    · exact disjoint_hashes (hboth.child i) (hsound.forked rfl i)
        (fun l hl l' hl' => hcross l ⟨i, hl⟩ l' hl') hx hx'

end Separated

/-- A collision gives two nodes one hash. -/
theorem not_collides (h : Naming sha pb steps r ta tt name)
    (hn : ((reached r.1.2.accountTree ++ reached r.1.2.transactionTree).map NodeData.hash).Nodup) :
    ¬ Collides sha pb steps r := by
  rintro ⟨accPub, _, ⟨d, hd, item, hitem, hindex, hhash⟩, hother⟩
  have hsame : ∀ e ∈ reached r.1.2.accountTree ++ reached r.1.2.transactionTree,
      e.hash = sha accPub → d = e := by
    intro e he heq
    exact List.inj_on_of_nodup_map hn (List.mem_append_left _ hd) he
      (by rw [hhash, hindex, heq])
  have hresolves : Resolves sha (fun _ => none) r.1.2.accountTree ta := by
    rw [h.grown.account]
    exact resolves_embed _ ta
  have hresolves' : Resolves sha (fun _ => none) r.1.2.transactionTree tt := by
    rw [h.grown.transaction]
    exact resolves_embed _ tt
  obtain ⟨l, hl, hleaf, _⟩ := hresolves.exists_leaf hd hitem
  rcases hother with ⟨e, he, hinner, hinput⟩ | ⟨e, he, item', hitem', hne, hinput⟩ |
    ⟨tx, htx, hserial⟩
  · have heq : e.hash = sha accPub := by
      rcases List.mem_append.mp he with he | he
      · exact hresolves.hash_inner he hinner hinput
      · exact hresolves'.hash_inner he hinner hinput
    rw [← hsame e he heq, hleaf, isInner_leaf] at hinner
    cases hinner
  · obtain ⟨l', hl', hleaf', rfl⟩ := hresolves.exists_leaf he hitem'
    have hcached : l'.hash = sha l'.input :=
      (h.grown.accountValid.cached l' hl').resolve_left (by rwa [hleaf'] at hne)
    rw [hleaf', hashInput_leaf] at hinput
    have heq := hsame e (List.mem_append_left _ he) (by
      rw [hleaf', ← Except.ok.inj hinput]
      exact hcached)
    rw [heq, hitem'] at hitem
    rw [heq, ← Option.some.inj hitem] at hhash
    exact hne hhash
  · obtain ⟨l', hl', hdata⟩ := h.transactions.exists_leaf h.grown.transactionValid htx
    obtain ⟨tx', _, hdata', hkey⟩ := h.transactions.exists_tx h.grown.transactionValid hl'
    obtain ⟨htype, hfresh⟩ := h.grown.transactionLeaf l' hl'
    have hmem : l'.data ∈ reached r.1.2.transactionTree := by
      rw [h.grown.transaction]
      exact leaf_mem_reached hl'
    have heq := hsame l'.data (List.mem_append_right _ hmem) (by
      change l'.hash = sha accPub
      rw [hfresh, hkey, txHash, ← hdata', hdata, hserial])
    rw [← LeafNode.data_injective (hleaf.symm.trans heq), h.grown.accountLeaf l hl] at htype
    cases htype

end Naming

/-- The strings digested for the nodes of a ledger and for the accounts and transactions that
it was given. -/
def digestedStrings (pb : Protobuf) (steps : List Step) (r : State × List Transaction) :
    Set Bytes :=
  {x | Step.createAccount x ∈ steps} ∪ {x | ∃ tx ∈ r.2, tx.serializer pb = x} ∪
    digested r.1.2.accountTree ∪ digested r.1.2.transactionTree

/-- The two trees of a ledger that grew from an empty one are stored under pairwise different
keys exactly when no new account collides. The digest is injective on the strings that it
was given, and protobuf writes its first byte. -/
theorem store_keys_distinct_iff (sha : Bytes → Uint256) (pb : Protobuf) (htag : pb.Tagged)
    (db : Database) (steps : List Step) (r : State × List Transaction)
    (hr : run sha pb db steps = .ok r) (hinj : Set.InjOn sha (digestedStrings pb steps r)) :
    (storeKeys r.1.2).Nodup ↔ ¬ Collides sha pb steps r := by
  obtain ⟨ta, tt, name, h⟩ := exists_naming hr
  rw [h.grown.storeKeys_nodup]
  constructor
  · intro hn
    apply h.not_collides
    rw [List.map_append, h.grown.account, h.grown.transaction]
    exact ((reached_embed_perm sha ta).append (reached_embed_perm sha tt)).nodup_iff.mpr hn
  · intro hno
    refine h.nodup hno htag hinj (h.preimages_account ?_ ?_) (h.preimages_transaction ?_ ?_)
    · exact fun accPub hmem => Or.inl (Or.inl (Or.inl hmem))
    · exact fun x hx => Or.inl (Or.inr hx)
    · exact fun tx htx => Or.inl (Or.inl (Or.inr ⟨tx, htx, rfl⟩))
    · exact fun x hx => Or.inr hx

/-- The strings of a ledger, listed. -/
def digestedStringsList (pb : Protobuf) (steps : List Step) (r : State × List Transaction) :
    List Bytes :=
  steps.filterMap (fun o => match o with
    | .createAccount accPub => some accPub
    | .addTransactionEntry _ => none) ++
  r.2.map (Transaction.serializer pb) ++ digestedList r.1.2.accountTree ++
  digestedList r.1.2.transactionTree

theorem injOn_digestedStrings {steps : List Step} {r : State × List Transaction}
    (h : ∀ x ∈ digestedStringsList pb steps r, ∀ y ∈ digestedStringsList pb steps r,
      sha x = sha y → x = y) : Set.InjOn sha (digestedStrings pb steps r) := by
  have hlisted : ∀ x ∈ digestedStrings pb steps r, x ∈ digestedStringsList pb steps r := by
    intro x hx
    simp only [digestedStringsList, List.mem_append]
    rcases hx with ((hx | ⟨tx, htx, rfl⟩) | hx) | hx
    · exact Or.inl (Or.inl (Or.inl (List.mem_filterMap.mpr ⟨_, hx, rfl⟩)))
    · exact Or.inl (Or.inl (Or.inr (List.mem_map_of_mem htx)))
    · exact Or.inl (Or.inr (mem_digestedList hx))
    · exact Or.inr (mem_digestedList hx)
  exact fun x hx y hy => h x (hlisted x hx) y (hlisted y hy)

/-- Two accounts and a payment between them. -/
theorem store_keys_distinct_transferRun :
    ∃ r, run checksum taggedProtobuf (fun _ => none)
        [.createAccount (sampleName 1), .createAccount (sampleName 2),
          .addTransactionEntry (samplePayment 1 2 100)] = .ok r ∧
      ((storeKeys r.1.2).Nodup ↔ ¬ Collides checksum taggedProtobuf
        [.createAccount (sampleName 1), .createAccount (sampleName 2),
          .addTransactionEntry (samplePayment 1 2 100)] r) := by
  have hok : (do
      let r ← run checksum taggedProtobuf (fun _ => none)
        [.createAccount (sampleName 1), .createAccount (sampleName 2),
          .addTransactionEntry (samplePayment 1 2 100)]
      let xs := digestedStringsList taggedProtobuf
        [.createAccount (sampleName 1), .createAccount (sampleName 2),
          .addTransactionEntry (samplePayment 1 2 100)] r
      .ok (decide (∀ x ∈ xs, ∀ y ∈ xs, checksum x = checksum y → x = y))) = .ok true :=
    eq_ok_of_toOption (by decide +kernel)
  obtain ⟨r, hr, hinj⟩ := bind_eq_ok.mp hok
  exact ⟨r, hr, store_keys_distinct_iff _ _ tagged_taggedProtobuf _ _ r hr
    (injOn_digestedStrings (of_decide_eq_true (Except.ok.inj hinj)))⟩

/-- The record of the root of an empty transaction tree, as an address string. -/
def rootName : Bytes :=
  rawBool true ++ raw32 TreeNodeType.innerNode.code ++ raw32 0 ++
    ascii ['_', 'n', 'o', 'd', 'e', '_'] ++ List.replicate 512 0

/-- An account of that name and the empty transaction tree are stored under one key. -/
theorem rootName_collides :
    ∃ r, run checksum taggedProtobuf (fun _ => none) [.createAccount rootName] = .ok r ∧
      Set.InjOn checksum (digestedStrings taggedProtobuf [.createAccount rootName] r) ∧
      ¬ (storeKeys r.1.2).Nodup := by
  have hok : (do
      let r ← run checksum taggedProtobuf (fun _ => none) [.createAccount rootName]
      let xs := digestedStringsList taggedProtobuf [.createAccount rootName] r
      .ok (decide ((∀ x ∈ xs, ∀ y ∈ xs, checksum x = checksum y → x = y) ∧
        ¬ (storeKeys r.1.2).Nodup))) = .ok true :=
    eq_ok_of_toOption (by decide +kernel)
  obtain ⟨r, hr, hrest⟩ := bind_eq_ok.mp hok
  obtain ⟨hinj, hnodup⟩ := of_decide_eq_true (Except.ok.inj hrest)
  exact ⟨r, hr, injOn_digestedStrings hinj, hnodup⟩

end Ledger

end Bubi
