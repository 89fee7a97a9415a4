import Bubi.Tree.Commitment

/-!
# The root hash of a transaction tree and the order of insertion

The inner nodes of a transaction tree do not all carry the same flag. The root and a
leaf turned into an inner node carry `true`; the nodes that a split chains below such a
leaf are default-constructed and carry `false`. Which nodes are links of a chain depends
on the order in which the leaves arrive, and the flag is part of the digested string.
-/

namespace Bubi

open Bubi.Core

/-- The node at a prefix is a link of a chain: the first two indexes added below the node
above it share its digit too. -/
def chained (ks : List Uint256) (p : List (Fin 16)) : Bool :=
  2 ≤ p.length && match ks.filter fun k => radix.Under p.dropLast k with
    | x :: y :: _ => radix.Under p x && radix.Under p y
    | _ => false

/-- A later index does not change how a node with two indexes above it came about. -/
theorem chained_append {ks : List Uint256} {p : List (Fin 16)} (k : Uint256) {x y : Uint256}
    (hx : x ∈ ks) (hy : y ∈ ks) (hne : x ≠ y) (hxp : radix.Under p.dropLast x)
    (hyp : radix.Under p.dropLast y) : chained (ks ++ [k]) p = chained ks p := by
  have hx' : x ∈ ks.filter fun k => radix.Under p.dropLast k := by simp [hx, hxp]
  have hy' : y ∈ ks.filter fun k => radix.Under p.dropLast k := by simp [hy, hyp]
  rw [chained, chained, List.filter_append]
  match hf : ks.filter fun k => radix.Under p.dropLast k with
  | [] =>
    rw [hf] at hx'
    cases hx'
  | [z] =>
    rw [hf] at hx' hy'
    exact absurd ((List.mem_singleton.mp hx').trans (List.mem_singleton.mp hy').symm) hne
  | _ :: _ :: _ => rfl

/-- A node with one index below it is no link of a chain. -/
theorem chained_eq_false {ks : List Uint256} (hks : ks.Nodup) {p : List (Fin 16)} {k : Uint256}
    (h : ∀ x ∈ ks, radix.Under p x → x = k) : chained ks p = false := by
  by_contra hch
  rw [Bool.not_eq_false, chained, Bool.and_eq_true] at hch
  have hsub := List.filter_sublist (l := ks) (p := fun k => radix.Under p.dropLast k)
  match hf : ks.filter fun k => radix.Under p.dropLast k with
  | [] => simp [hf] at hch
  | [_] => simp [hf] at hch
  | x :: y :: rest =>
    rw [hf] at hch hsub
    have hxy : radix.Under p x ∧ radix.Under p y := by simpa using hch.2
    have hx := h x (hsub.subset (by simp)) hxy.1
    have hy := h y (hsub.subset (by simp)) hxy.2
    have hnodup := hsub.nodup hks
    simp [hx, hy] at hnodup

/-- A new index below a prefix that holds one index makes a link of a chain there. -/
theorem chained_eq_true {ks : List Uint256} (hks : ks.Nodup) {p : List (Fin 16)} {k x : Uint256}
    (hp : 2 ≤ p.length) (hx : x ∈ ks) (huniq : ∀ y ∈ ks, radix.Under p.dropLast y → y = x)
    (hxp : radix.Under p x) (hkp : radix.Under p k) : chained (ks ++ [k]) p = true := by
  have hdrop : p.dropLast <+: p := List.dropLast_prefix p
  have hfilter : ks.filter (fun k => radix.Under p.dropLast k) = [x] := by
    have hnodup := hks.filter fun k => radix.Under p.dropLast k
    have hmem : ∀ y, y ∈ ks.filter (fun k => radix.Under p.dropLast k) ↔ y = x := by
      intro y
      rw [List.mem_filter, decide_eq_true_iff]
      constructor
      · exact fun hy => huniq y hy.1 hy.2
      · rintro rfl
        exact ⟨hx, Trie.under_of_le hxp hdrop⟩
    match hf : ks.filter fun k => radix.Under p.dropLast k with
    | [] => simp [hf] at hmem
    | [z] => rw [(hmem z).mp (by simp [hf])]
    | z :: w :: rest =>
      rw [hf, (hmem z).mp (by simp [hf]), (hmem w).mp (by simp [hf])] at hnodup
      simp at hnodup
  rw [chained, List.filter_append, hfilter]
  simp [hp, hxp, hkp, Trie.under_of_le hkp hdrop]

namespace MerkleTrie

variable {sha : Bytes → Uint256} {t : MerkleTrie} {items : List RadixMerkleTreeLeaf}

/-- What every insertion into a transaction tree keeps. -/
structure Transactions (sha : Bytes → Uint256) (t : MerkleTrie) (items : List RadixMerkleTreeLeaf) :
    Prop where
  valid : Valid sha t
  /-- The indexes are distinct. -/
  nodup : (items.map RadixMerkleTreeLeaf.index).Nodup
  /-- The leaves are those that the constructor makes of the items. -/
  mem_iff : ∀ l, l ∈ t ↔ ∃ item ∈ items, l = LeafNode.fresh true item
  /-- The links of chains carry `false`, all other inner nodes `true`. -/
  labels : t.Labelled (fun p => !chained (items.map RadixMerkleTreeLeaf.index) p) []

theorem transactions_new : Transactions sha (new true) [] where
  valid := valid_new true
  nodup := List.nodup_nil
  mem_iff := by
    intro l
    constructor
    · rintro ⟨_, hl⟩
      exact hl.elim
    · rintro ⟨_, hitem, _⟩
      cases hitem
  labels := ⟨rfl, fun _ => trivial⟩

/-- The indexes of the leaves are those of the items. -/
theorem Transactions.key_mem (h : Transactions sha t items) {l : LeafNode} (hl : l ∈ t) :
    l.key ∈ items.map RadixMerkleTreeLeaf.index := by
  obtain ⟨item, hitem, rfl⟩ := (h.mem_iff l).mp hl
  exact List.mem_map_of_mem hitem

theorem Transactions.exists_leaf (h : Transactions sha t items) {k : Uint256}
    (hk : k ∈ items.map RadixMerkleTreeLeaf.index) : ∃ l ∈ t, l.key = k := by
  obtain ⟨item, hitem, rfl⟩ := List.mem_map.mp hk
  exact ⟨_, (h.mem_iff _).mpr ⟨item, hitem, rfl⟩, rfl⟩

/-- An inner node other than the root has two indexes below it. -/
theorem Valid.exists_of_hasInner (h : Valid sha t) {q : List (Fin 16)} (hq : t.HasInner q []) :
    q = [] ∨ ∃ x ∈ t, ∃ y ∈ t, x.key ≠ y.key ∧ radix.Under q x.key ∧ radix.Under q y.key := by
  obtain ⟨a, c, rfl⟩ := h.rooted
  rcases hq with rfl | ⟨i, hq⟩
  · exact Or.inl rfl
  · obtain ⟨x, hx, y, hy, hxy⟩ :=
      (h.sound.forked rfl i).exists_of_hasInner (h.sound.placed i) hq
    exact Or.inr ⟨x, ⟨i, hx⟩, y, ⟨i, hy⟩, hxy⟩

/-- The labels after an insertion. -/
theorem Transactions.labels_insert (h : Transactions sha t items) {item : RadixMerkleTreeLeaf} :
    (inserted item true 0 t).Labelled
      (fun p => !chained (items.map RadixMerkleTreeLeaf.index ++ [item.index]) p) [] := by
  obtain ⟨a, c, rfl⟩ := h.valid.rooted
  have hplaced := h.valid.sound.placed
  have hforked := h.valid.sound.forked rfl
  refine h.labels.insert hplaced (radix.under_nil _) (fun q hq => ?_) (fun l q hl hnew => ?_)
    fun l q r hl hqr hne hnew hlr => ?_
  · rcases h.valid.exists_of_hasInner hq with rfl | ⟨x, hx, y, hy, hxy, hxq, hyq⟩
    · rfl
    · have hdrop := List.dropLast_prefix q
      rw [chained_append item.index (h.key_mem hx) (h.key_mem hy) hxy
        (Trie.under_of_le hxq hdrop) (Trie.under_of_le hyq hdrop)]
  · -- A leaf turned into an inner node is the only one at its prefix, but not above it.
    obtain ⟨hunder, huniq⟩ := hl.unique hplaced
    have hflag : l.isTransactionTree = true := by
      obtain ⟨item', _, rfl⟩ := (h.mem_iff l).mp hl.mem
      rfl
    have hsingle : ∀ y ∈ items.map RadixMerkleTreeLeaf.index, radix.Under q y → y = l.key := by
      intro y hy hyq
      obtain ⟨l', hl', rfl⟩ := h.exists_leaf hy
      rw [huniq l' hl' hyq]
    change (!_) = l.isTransactionTree
    rw [hflag, Bool.not_eq_true']
    obtain ⟨i, hli⟩ := id hl
    by_cases hq : q = [i]
    · rw [hq]
      rfl
    · obtain ⟨x, hx, hxl, hxq⟩ := (hforked i).exists_of_stands (hplaced i) hli hq
      rw [chained_append item.index (h.key_mem ⟨i, hx⟩) (h.key_mem hl.mem) hxl hxq
        (Trie.under_of_le hunder (List.dropLast_prefix q))]
      exact chained_eq_false h.nodup hsingle
  · -- A chain starts where the leaf stood, and holds only it and the new one.
    obtain ⟨_, huniq⟩ := hl.unique hplaced
    have hlt : q.length < r.length := by
      refine lt_of_le_of_ne hqr.length_le fun hlen => hne ?_
      exact (hqr.eq_of_length hlen).symm
    have hpos : 1 ≤ q.length := by
      obtain ⟨i, hli⟩ := id hl
      exact hli.le.length_le
    have hqdrop : q <+: r.dropLast := by
      refine List.prefix_of_prefix_length_le hqr (List.dropLast_prefix r) ?_
      rw [List.length_dropLast]
      omega
    change (!_) = false
    rw [Bool.not_eq_false']
    refine chained_eq_true h.nodup (by omega) (h.key_mem hl.mem) (fun y hy hyr => ?_) hlr hnew
    obtain ⟨l', hl', rfl⟩ := h.exists_leaf hy
    rw [huniq l' hl' (Trie.under_of_le hyr hqdrop)]

theorem Transactions.addItem (h : Transactions sha t items) {item : RadixMerkleTreeLeaf}
    (hnew : item.index ∉ items.map RadixMerkleTreeLeaf.index) :
    (contents t).Permits (.addItem item true) ∧
      Transactions sha (inserted item true 0 t) (items ++ [item]) := by
  have hno : ∀ l ∈ t, l.key ≠ item.index := fun l hl he => hnew (he ▸ h.key_mem hl)
  have hpermits : (contents t).Permits (.addItem item true) := h.valid.contents_eq_none.mpr hno
  refine ⟨hpermits, h.valid.changed hpermits, ?_, fun l => ?_, ?_⟩
  · rw [List.map_append, List.nodup_append]
    refine ⟨h.nodup, List.nodup_singleton _, ?_⟩
    rintro x hx y hy rfl
    rw [List.map_singleton, List.mem_singleton] at hy
    exact hnew (hy ▸ hx)
  · rw [h.valid.sound.mem_inserted true hno]
    constructor
    · rintro (rfl | ⟨hl, _⟩ | ⟨l', hl', rfl⟩)
      · exact ⟨item, by simp, rfl⟩
      · obtain ⟨item', hitem', rfl⟩ := (h.mem_iff l).mp hl
        exact ⟨item', by simp [hitem'], rfl⟩
      · obtain ⟨item', hitem', rfl⟩ := (h.mem_iff l').mp (Trie.mem_of_reach hl')
        exact ⟨item', by simp [hitem'], rfl⟩
    · rintro ⟨item', hitem', rfl⟩
      rcases List.mem_append.mp hitem' with hitem' | hitem'
      · have hmem := (h.mem_iff _).mpr ⟨item', hitem', rfl⟩
        by_cases hreach : t.reach radix item.index 0 = some (LeafNode.fresh true item')
        · exact Or.inr (Or.inr ⟨_, hreach, rfl⟩)
        · exact Or.inr (Or.inl ⟨hmem, hreach⟩)
      · rw [List.mem_singleton.mp hitem']
        exact Or.inl rfl
  · rw [List.map_append]
    exact h.labels_insert

end MerkleTrie

/-- The insertions of a list of transactions. -/
def insertions (items : List RadixMerkleTreeLeaf) : List Change :=
  items.map fun item => .addItem item true

namespace MerkleTrie

variable {sha : Bytes → Uint256} {t : MerkleTrie} {items : List RadixMerkleTreeLeaf}

/-- A run of insertions of distinct indexes is permitted and keeps a transaction tree. -/
theorem Transactions.run (h : Transactions sha t items) {more : List RadixMerkleTreeLeaf}
    (hnodup : ((items ++ more).map RadixMerkleTreeLeaf.index).Nodup) :
    (contents t).PermitsAll (insertions more) ∧
      Transactions sha ((insertions more).foldl (MerkleTrie.changed sha) t) (items ++ more) := by
  induction more generalizing t items with
  | nil =>
    rw [List.append_nil]
    exact ⟨trivial, h⟩
  | cons item more ih =>
    rw [List.append_cons] at hnodup ⊢
    have hnew : item.index ∉ items.map RadixMerkleTreeLeaf.index := by
      intro hmem
      rw [List.map_append, List.map_append] at hnodup
      have hfront := (List.nodup_append.mp hnodup).1
      exact (List.nodup_append.mp hfront).2.2 _ hmem _ (by simp) rfl
    obtain ⟨hpermits, hnext⟩ := h.addItem hnew
    obtain ⟨hrest, hlast⟩ := ih hnext hnodup
    refine ⟨⟨hpermits, ?_⟩, hlast⟩
    rw [← h.valid.contents_changed hpermits]
    exact hrest

section Pair

variable {t' : MerkleTrie} {items' : List RadixMerkleTreeLeaf} {K : Set Uint256} {S : Set Bytes}

/-- Transaction trees of the same items have the same digest exactly when the same nodes are
links of chains. -/
theorem Transactions.digest_eq_iff (h : Transactions sha t items)
    (h' : Transactions sha t' items') (hperm : items.Perm items') (hcf : CollisionFree sha K S)
    (hK : indexes t ⊆ K) (hK' : indexes t' ⊆ K) (hS : ∀ x ∈ strings sha t, x ∈ S)
    (hS' : ∀ x ∈ strings sha t', x ∈ S) :
    digest sha t = digest sha t' ↔
      ∀ p, (∃ x ∈ items, ∃ y ∈ items, x.index ≠ y.index ∧ radix.Under p x.index ∧
          radix.Under p y.index) →
        chained (items.map RadixMerkleTreeLeaf.index) p =
          chained (items'.map RadixMerkleTreeLeaf.index) p := by
  constructor
  · rintro hd p ⟨x, hx, y, hy, hne, hxp, hyp⟩
    have hkey : ∀ l ∈ t, ∀ l' ∈ t', l.hash = l'.hash → l.key = l'.key := by
      intro l hl l' hl' hh
      obtain ⟨item, _, rfl⟩ := (h.mem_iff l).mp hl
      obtain ⟨item', _, rfl⟩ := (h'.mem_iff l').mp hl'
      exact hh
    have houtline := outline_eq_of_digest hcf h.valid.cached h'.valid.cached hK hK' hS hS' hkey
      (h.valid.isEmpty_eq.trans h'.valid.isEmpty_eq.symm) hd
    have hinner : t.HasInner p [] := h.valid.sound.placed.hasInner List.nil_prefix
      ((h.mem_iff _).mpr ⟨x, hx, rfl⟩) ((h.mem_iff _).mpr ⟨y, hy, rfl⟩) hne hxp hyp
    have hlabels' := h'.labels.map (g := LeafNode.outline)
    rw [← houtline] at hlabels'
    exact Bool.not_inj (h.labels.map.eq hlabels' hinner.map)
  · intro hsame
    have hlabels : t.Labelled
        (fun p => !chained (items'.map RadixMerkleTreeLeaf.index) p) [] := by
      refine h.labels.congr fun q hq => ?_
      rcases h.valid.exists_of_hasInner hq with rfl | ⟨x, hx, y, hy, hxy⟩
      · rfl
      · obtain ⟨item, hitem, rfl⟩ := (h.mem_iff x).mp hx
        obtain ⟨item', hitem', rfl⟩ := (h.mem_iff y).mp hy
        rw [hsame q ⟨item, hitem, item', hitem', hxy⟩]
    refine h.valid.digest_eq_of_outline h'.valid hlabels h'.labels fun x => ?_
    have hmem : ∀ l, l ∈ t ↔ l ∈ t' := by
      intro l
      rw [h.mem_iff, h'.mem_iff]
      simp only [hperm.mem_iff]
    rw [Trie.mem_map, Trie.mem_map]
    simp only [hmem]

end Pair

end MerkleTrie

/-- When the root hash of a transaction tree depends on the order of insertion. Two orders of
the same transactions give the same root hash exactly when at every node that separates two
of them either both or neither make it a link of a chain. -/
theorem transaction_hash_order_iff {sha : Bytes → Uint256} {db : Database}
    {items items' : List RadixMerkleTreeLeaf}
    (hnodup : (items.map RadixMerkleTreeLeaf.index).Nodup) (hperm : items.Perm items')
    (hcf : CollisionFree sha {k | k ∈ items.map RadixMerkleTreeLeaf.index}
      {x | x ∈ MerkleTrie.runStrings sha (MerkleTrie.new true) (insertions items) ++
        MerkleTrie.runStrings sha (MerkleTrie.new true) (insertions items')}) :
    ∃ h h', RadixMerkleTree.hashAfter sha db true (insertions items) = .ok h ∧
      RadixMerkleTree.hashAfter sha db true (insertions items') = .ok h' ∧
      (h = h' ↔ ∀ p, (∃ x ∈ items, ∃ y ∈ items, x.index ≠ y.index ∧ radix.Under p x.index ∧
          radix.Under p y.index) →
        chained (items.map RadixMerkleTreeLeaf.index) p =
          chained (items'.map RadixMerkleTreeLeaf.index) p) := by
  have hindex : ∀ l : List RadixMerkleTreeLeaf,
      (insertions l).map Change.index = l.map RadixMerkleTreeLeaf.index := by
    intro l
    rw [insertions, List.map_map]
    rfl
  have hnodup' : (items'.map RadixMerkleTreeLeaf.index).Nodup :=
    (hperm.map _).nodup_iff.mp hnodup
  obtain ⟨hos, htree⟩ := (@MerkleTrie.transactions_new sha).run hnodup
  obtain ⟨hos', htree'⟩ := (@MerkleTrie.transactions_new sha).run hnodup'
  have hK : ∀ k ∈ (insertions items).map Change.index,
      k ∈ items.map RadixMerkleTreeLeaf.index := fun k hk => hindex items ▸ hk
  have hK' : ∀ k ∈ (insertions items').map Change.index,
      k ∈ items.map RadixMerkleTreeLeaf.index := fun k hk =>
    (hperm.map _).mem_iff.mpr (hindex items' ▸ hk)
  refine ⟨_, _, MerkleTrie.hashAfter_eq hos hcf hK fun x hx => List.mem_append_left _ hx,
    MerkleTrie.hashAfter_eq hos' hcf hK' fun x hx => List.mem_append_right _ hx, ?_⟩
  exact htree.digest_eq_iff htree' hperm hcf
    (fun k hk => hK k ((MerkleTrie.valid_foldl_new sha true hos).2.2 hk))
    (fun k hk => hK' k ((MerkleTrie.valid_foldl_new sha true hos').2.2 hk))
    (fun x hx => List.mem_append_left _ (MerkleTrie.strings_subset_runStrings _ _ hx))
    fun x hx => List.mem_append_right _ (MerkleTrie.strings_subset_runStrings _ _ hx)

/-- Three transactions, two of which share their first two digits, in two orders. -/
def nestedItems : List RadixMerkleTreeLeaf × List RadixMerkleTreeLeaf :=
  ([.ofByte (Uint256.ofNat (0x111 * 2 ^ 244)) 1, .ofByte (Uint256.ofNat (0x112 * 2 ^ 244)) 2,
      .ofByte (Uint256.ofNat (0x120 * 2 ^ 244)) 3],
    [.ofByte (Uint256.ofNat (0x111 * 2 ^ 244)) 1, .ofByte (Uint256.ofNat (0x120 * 2 ^ 244)) 3,
      .ofByte (Uint256.ofNat (0x112 * 2 ^ 244)) 2])

theorem transaction_hash_order_nestedItems :
    ∃ h h', RadixMerkleTree.hashAfter checksum (fun _ => none) true (insertions nestedItems.1) =
        .ok h ∧
      RadixMerkleTree.hashAfter checksum (fun _ => none) true (insertions nestedItems.2) = .ok h' ∧
      (h = h' ↔ ∀ p, (∃ x ∈ nestedItems.1, ∃ y ∈ nestedItems.1, x.index ≠ y.index ∧
          radix.Under p x.index ∧ radix.Under p y.index) →
        chained (nestedItems.1.map RadixMerkleTreeLeaf.index) p =
          chained (nestedItems.2.map RadixMerkleTreeLeaf.index) p) :=
  transaction_hash_order_iff (by decide) (by decide) (CollisionFree.of_list (by decide +kernel))

/-- The two orders give different root hashes. -/
theorem transaction_hash_depends_on_order :
    (RadixMerkleTree.hashAfter checksum (fun _ => none) true (insertions nestedItems.1)).isOk =
        true ∧
      (RadixMerkleTree.hashAfter checksum (fun _ => none) true (insertions nestedItems.2)).isOk =
        true ∧
      nestedItems.1.Perm nestedItems.2 ∧
      (nestedItems.1.map RadixMerkleTreeLeaf.index).Nodup ∧
      RadixMerkleTree.hashAfter checksum (fun _ => none) true (insertions nestedItems.1) ≠
        RadixMerkleTree.hashAfter checksum (fun _ => none) true (insertions nestedItems.2) :=
  ⟨by decide +kernel, by decide +kernel, by decide, by decide, by decide +kernel⟩

end Bubi
