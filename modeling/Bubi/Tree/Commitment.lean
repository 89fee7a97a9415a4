import Bubi.Tree.FiniteMap
import Bubi.Tree.Separation
import Bubi.Core.TrieLabels

/-!
# What the root hash of an account tree commits to

A leaf made by its constructor carries its index as its hash, also when a split makes it
again; only `set_item` puts the digest of its data there. The root hash therefore shows
the indexes, which leaves are fresh in this sense, and the data of the others. Equal root
hashes need not mean equal accounts, and equal accounts need not mean equal root hashes.
-/

namespace Bubi

open Bubi.Core

namespace LeafNode

/-- A leaf reduced to what its parent sees of it: its place and its hash. -/
def outline (l : LeafNode) : LeafNode where
  hash := l.hash
  isTransactionTree := false
  isTransaction := false
  item := ⟨l.key, [], by decide⟩

@[simp] theorem outline_key (l : LeafNode) : l.outline.key = l.key := rfl

/-- Equal places and hashes are equal outlines. -/
theorem outline_eq {l l' : LeafNode} (hk : l.key = l'.key) (hh : l.hash = l'.hash) :
    l.outline = l'.outline := by
  have hitem : l.outline.item = l'.outline.item := RadixMerkleTreeLeaf.ext hk rfl
  rw [outline, outline, hh]
  congr 1

/-- The record of a leaf is given by its flags and its item. -/
theorem input_congr {l l' : LeafNode} (hflag : l.isTransactionTree = l'.isTransactionTree)
    (htype : l.isTransaction = l'.isTransaction) (hitem : l.item = l'.item) :
    l.input = l'.input := by
  obtain ⟨_, _, _, _⟩ := l
  obtain ⟨_, _, _, _⟩ := l'
  cases hflag
  cases htype
  cases hitem
  rfl

end LeafNode

namespace MerkleTrie

variable {sha : Bytes → Uint256}

/-- The mask shows only which branches are empty. -/
theorem mask_congr {c c' : Fin 16 → MerkleTrie} (h : ∀ i, (c i).isEmpty = (c' i).isEmpty) :
    mask c = mask c' := by
  rw [mask, mask]
  simp only [h]

/-- Equal marks and equal hashes give equal strings. -/
theorem bytes_congr {a : Bool} {c c' : Fin 16 → MerkleTrie}
    (he : ∀ i, (c i).isEmpty = (c' i).isEmpty) (hd : ∀ i, digest sha (c i) = digest sha (c' i)) :
    bytes sha a c = bytes sha a c' := by
  have hfields : innerFields Uint256.zero a c (fun i => digest sha (c i)) =
      innerFields Uint256.zero a c' fun i => digest sha (c' i) := by
    rw [innerFields, innerFields, mask_congr he, funext hd]
  rw [bytes, bytes, innerInput, innerInput, hfields]

/-- The digest sees only the outlines of the leaves. -/
theorem digest_outline (t : MerkleTrie) : digest sha (t.map LeafNode.outline) = digest sha t := by
  induction t with
  | empty => rfl
  | leaf l => rfl
  | inner a c ih =>
    change sha (bytes sha a fun i => (c i).map LeafNode.outline) = sha (bytes sha a c)
    rw [bytes_congr (fun i => Trie.isEmpty_map) ih]

theorem exists_of_outline {t t' : MerkleTrie}
    (h : t.map LeafNode.outline = t'.map LeafNode.outline) {l : LeafNode} (hl : l ∈ t) :
    ∃ l' ∈ t', l.key = l'.key ∧ l.hash = l'.hash := by
  have hmem : l.outline ∈ t'.map LeafNode.outline := h ▸ Trie.mem_map.mpr ⟨l, hl, rfl⟩
  obtain ⟨l', hl', heq⟩ := Trie.mem_map.mp hmem
  have hkey : l.outline.key = l'.outline.key := by rw [heq]
  have hhash : l.outline.hash = l'.outline.hash := by rw [heq]
  exact ⟨l', hl', hkey, hhash⟩

/-- Equal digests show equal outlines, where a leaf hash shows its index. -/
theorem outline_eq_of_digest {K : Set Uint256} {S : Set Bytes} (hcf : CollisionFree sha K S)
    {t t' : MerkleTrie} (hc : Cached sha t) (hc' : Cached sha t') (hK : indexes t ⊆ K)
    (hK' : indexes t' ⊆ K) (hS : ∀ x ∈ strings sha t, x ∈ S) (hS' : ∀ x ∈ strings sha t', x ∈ S)
    (hleaf : ∀ l ∈ t, ∀ l' ∈ t', l.hash = l'.hash → l.key = l'.key)
    (he : t.isEmpty = t'.isEmpty) (hd : digest sha t = digest sha t') :
    t.map LeafNode.outline = t'.map LeafNode.outline :=
  map_eq_of_digest (Separated.of_collisionFree hcf hc hc' hK hK' hS hS' fun l hl l' hl' hh =>
    LeafNode.outline_eq (hleaf l hl l' hl' hh) hh) he hd

end MerkleTrie

namespace Contents

/-- Adding the first index makes the leaf of the second again: the second is the only index
that shares some leading digits with the first. -/
def Displaces (m : Contents) (k k' : Uint256) : Prop :=
  m k' ≠ Option.none ∧ ∃ n, 1 ≤ n ∧ radix.Agree n k k' ∧
    ∀ x, m x ≠ Option.none → radix.Agree n k x → x = k'

/-- The items and the indexes of the fresh leaves after a change. -/
def track (s : Contents × Set Uint256) (o : Change) : Contents × Set Uint256 :=
  (s.1.write o, match o with
    | .addItem item _ => {k | k = item.index ∨ s.1.Displaces item.index k ∨ k ∈ s.2}
    | .updateGivenItem item _ => {k | k ≠ item.index ∧ k ∈ s.2})

/-- The indexes whose leaf was last written by its constructor. -/
def fresh (os : List Change) : Set Uint256 := (os.foldl track (none, ∅)).2

open Classical in
/-- The items, those of fresh leaves hidden. -/
noncomputable def shown (m : Contents) (fresh : Set Uint256) :
    Uint256 → Option (Option RadixMerkleTreeLeaf) :=
  fun k => (m k).map fun item => if k ∈ fresh then Option.none else some item

/-- What a root hash commits to: the indexes, and the items of the leaves that are not fresh. -/
noncomputable def committed (os : List Change) : Uint256 → Option (Option RadixMerkleTreeLeaf) :=
  shown (written os) (fresh os)

/-- Runs that commit to the same agree on the items of the leaves that are not fresh. -/
theorem eq_of_committed {os os' : List Change} (h : committed os = committed os') {k : Uint256}
    (hk : k ∉ fresh os) : written os k = written os' k := by
  have hat := congrFun h k
  rw [committed, committed, shown, shown] at hat
  cases hw : written os k with
  | none =>
    rw [hw, Option.map_none] at hat
    exact (Option.map_eq_none_iff.mp hat.symm).symm
  | some item =>
    rw [hw, Option.map_some, if_neg hk] at hat
    obtain ⟨item', hw', hif⟩ := Option.map_eq_some_iff.mp hat.symm
    split at hif
    · cases hif
    · rw [hw', Option.some.inj hif]

/-- Runs that commit to the same and end alike agree on the fresh leaves. -/
theorem fresh_iff_of_committed {os os' : List Change} (h : committed os = committed os')
    (hw : written os = written os') {k : Uint256} (hk : written os k ≠ Option.none) :
    k ∈ fresh os ↔ k ∈ fresh os' := by
  obtain ⟨item, hitem⟩ := Option.ne_none_iff_exists'.mp hk
  have hat := congrFun h k
  rw [committed, committed, shown, shown, ← hw, hitem, Option.map_some, Option.map_some,
    Option.some.injEq] at hat
  by_cases hf : k ∈ fresh os <;> by_cases hf' : k ∈ fresh os' <;> simp [hf, hf'] at hat ⊢

/-- Runs that end alike with the same fresh leaves commit to the same. -/
theorem committed_congr {os os' : List Change} (hw : written os = written os')
    (hf : ∀ k, written os k ≠ Option.none → (k ∈ fresh os ↔ k ∈ fresh os')) :
    committed os = committed os' := by
  funext k
  rw [committed, committed, shown, shown, ← hw]
  cases hitem : written os k with
  | none => rfl
  | some item =>
    have hiff := hf k (by rw [hitem]; exact Option.some_ne_none item)
    rw [Option.map_some, Option.map_some]
    by_cases hk : k ∈ fresh os
    · rw [if_pos hk, if_pos (hiff.mp hk)]
    · rw [if_neg hk, if_neg (mt hiff.mpr hk)]

end Contents

namespace MerkleTrie

variable {sha : Bytes → Uint256}

/-- What every change of an account tree keeps. -/
structure Accounts (sha : Bytes → Uint256) (t : MerkleTrie) (fresh : Set Uint256) : Prop where
  valid : Valid sha t
  /-- The leaves are account leaves made in an account tree. -/
  flags : ∀ l ∈ t, l.isTransactionTree = false ∧ l.isTransaction = false
  /-- So are the inner nodes. -/
  labels : t.Labelled (fun _ => false) []
  /-- A fresh leaf carries its index. -/
  hash_fresh : ∀ l ∈ t, l.key ∈ fresh → l.hash = l.key
  /-- Any other leaf carries the digest of its record. -/
  hash_digest : ∀ l ∈ t, l.key ∉ fresh → l.hash = sha l.input

/-- The leaf at the end of the walk of a new index is the one that it displaces. -/
theorem Valid.reach_eq_some_iff {t : MerkleTrie} (h : Valid sha t) {k : Uint256} {l : LeafNode}
    (hl : l ∈ t) : t.reach radix k 0 = some l ↔ (contents t).Displaces k l.key := by
  have hkey : contents t l.key ≠ none := h.contents_ne_none.mpr ⟨l, hl, rfl⟩
  obtain ⟨a, c, rfl⟩ := h.rooted
  set b := radix.digit k 0 with hb
  have hmem : ∀ x ∈ (.inner a c : MerkleTrie), ∀ n, 1 ≤ n → radix.Agree n k x.key → x ∈ c b :=
    fun x hx n hn hagree => h.sound.placed.mem_child_iff.mpr ⟨hx, (hagree 0 (by omega)).symm⟩
  have hreach : (c b).reach radix k 1 = some l ↔ (c b).Alone radix LeafNode.key k 1 l :=
    (h.sound.forked rfl b).reach_eq_some_iff (h.sound.placed b)
      (radix.under_snoc.mpr ⟨radix.under_nil k, rfl⟩)
  refine hreach.trans ⟨?_, ?_⟩
  · rintro ⟨_, n, hn, hagree, huniq⟩
    refine ⟨hkey, n, hn, hagree, fun x hx hxk => ?_⟩
    obtain ⟨l', hl', rfl⟩ := h.contents_ne_none.mp hx
    rw [huniq l' (hmem l' hl' n hn hxk) hxk]
  · rintro ⟨_, n, hn, hagree, huniq⟩
    refine ⟨hmem l hl n hn hagree, n, hn, hagree, fun x hx hxk => ?_⟩
    exact h.eq_of_key ⟨b, hx⟩ hl
      (huniq x.key (h.contents_ne_none.mpr ⟨x, ⟨b, hx⟩, rfl⟩) hxk)

theorem accounts_new : Accounts sha (new false) ∅ where
  valid := valid_new false
  flags := by
    rintro l ⟨_, hl⟩
    exact hl.elim
  labels := ⟨rfl, fun _ => trivial⟩
  hash_fresh := by
    rintro l ⟨_, hl⟩
    exact hl.elim
  hash_digest := by
    rintro l ⟨_, hl⟩
    exact hl.elim

variable {t : MerkleTrie} {fresh : Set Uint256}

theorem Accounts.addItem (h : Accounts sha t fresh) {item : RadixMerkleTreeLeaf}
    (hnew : ∀ l ∈ t, l.key ≠ item.index) (hvalid : Valid sha (inserted item false 0 t)) :
    Accounts sha (inserted item false 0 t)
      {k | k = item.index ∨ (contents t).Displaces item.index k ∨ k ∈ fresh} := by
  have hmem := fun x => h.valid.sound.mem_inserted (x := x) false hnew
  refine ⟨hvalid, fun x hx => ?_, ?_, fun x hx hfresh => ?_, fun x hx hfresh => ?_⟩
  · rcases (hmem x).mp hx with rfl | ⟨hx, _⟩ | ⟨l, _, rfl⟩
    · exact ⟨rfl, rfl⟩
    · exact h.flags x hx
    · exact ⟨rfl, rfl⟩
  · refine h.labels.insert h.valid.sound.placed (radix.under_nil _) (fun _ _ => rfl) ?_
      fun _ _ _ _ _ _ _ _ => rfl
    intro l q hl _
    exact (h.flags l hl.mem).1.symm
  · rcases (hmem x).mp hx with rfl | ⟨hx, hreach⟩ | ⟨l, _, rfl⟩
    · rfl
    · rcases hfresh with hkey | hdisp | hfresh
      · exact absurd hkey (hnew x hx)
      · exact absurd ((h.valid.reach_eq_some_iff hx).mpr hdisp) hreach
      · exact h.hash_fresh x hx hfresh
    · rfl
  · rcases (hmem x).mp hx with rfl | ⟨hx, _⟩ | ⟨l, hl, rfl⟩
    · exact absurd (Or.inl rfl) hfresh
    · exact h.hash_digest x hx fun hx' => hfresh (Or.inr (Or.inr hx'))
    · have hdisp := (h.valid.reach_eq_some_iff (Trie.mem_of_reach hl)).mp hl
      exact absurd (Or.inr (Or.inl hdisp)) hfresh

theorem Accounts.updateGivenItem (h : Accounts sha t fresh) {item : RadixMerkleTreeLeaf}
    {l : LeafNode} (hl : t.find radix LeafNode.key item.index 0 = some l)
    (hvalid : Valid sha (replaced sha item false 0 t)) :
    Accounts sha (replaced sha item false 0 t) {k | k ≠ item.index ∧ k ∈ fresh} := by
  have hmem := fun x => h.valid.sound.mem_replaced (x := x) sha false hl
  refine ⟨hvalid, fun x hx => ?_, h.labels.modify, fun x hx hfresh => ?_, fun x hx hfresh => ?_⟩
  · rcases (hmem x).mp hx with rfl | ⟨hx, _⟩
    · exact ⟨(h.flags l (Trie.mem_of_reach (Trie.find_eq_some.mp hl).1)).1, rfl⟩
    · exact h.flags x hx
  · rcases (hmem x).mp hx with rfl | ⟨hx, _⟩
    · exact absurd rfl hfresh.1
    · exact h.hash_fresh x hx hfresh.2
  · rcases (hmem x).mp hx with rfl | ⟨hx, hne⟩
    · rfl
    · exact h.hash_digest x hx fun hx' => hfresh ⟨hne, hx'⟩

/-- A permitted account change keeps the account tree and tracks its fresh leaves. -/
theorem Accounts.changed (h : Accounts sha t fresh) {o : Change} (ho : (contents t).Permits o)
    (hacc : o.isTransaction = false) :
    Accounts sha (MerkleTrie.changed sha t o) (Contents.track (contents t, fresh) o).2 := by
  have hvalid := h.valid.changed ho
  cases o with
  | addItem item isTransaction =>
    cases hacc
    exact h.addItem (h.valid.contents_eq_none.mp ho) hvalid
  | updateGivenItem item isTransaction =>
    cases hacc
    obtain ⟨l, hl⟩ := exists_find_of_contents ho
    exact h.updateGivenItem hl hvalid

/-- A run of account changes keeps the account tree and tracks its fresh leaves. -/
theorem Accounts.run (h : Accounts sha t fresh) {os : List Change}
    (hos : (contents t).PermitsAll os) (hacc : ∀ o ∈ os, o.isTransaction = false) :
    Accounts sha (os.foldl (MerkleTrie.changed sha) t)
      (os.foldl Contents.track (contents t, fresh)).2 := by
  induction os generalizing t fresh with
  | nil => exact h
  | cons o os ih =>
    obtain ⟨ho, hrest⟩ := hos
    rw [← h.valid.contents_changed ho] at hrest
    have hrec := ih (h.changed ho (hacc o List.mem_cons_self)) hrest
      fun x hx => hacc x (List.mem_cons_of_mem o hx)
    rw [h.valid.contents_changed ho] at hrec
    exact hrec

/-- Valid tries with the same labels and the same leaf outlines have the same digest. -/
theorem Valid.digest_eq_of_outline {t' : MerkleTrie} {g : List (Fin 16) → Bool} (h : Valid sha t)
    (h' : Valid sha t') (hg : t.Labelled g []) (hg' : t'.Labelled g [])
    (hmem : ∀ x, x ∈ t.map LeafNode.outline ↔ x ∈ t'.map LeafNode.outline) :
    digest sha t = digest sha t' := by
  obtain ⟨a, c, rfl⟩ := h.rooted
  obtain ⟨a', c', rfl⟩ := h'.rooted
  have hplaced : (Trie.map LeafNode.outline (.inner a c)).Placed radix LeafNode.key [] :=
    h.sound.placed.map LeafNode.outline_key
  have hplaced' : (Trie.map LeafNode.outline (.inner a' c')).Placed radix LeafNode.key [] :=
    h'.sound.placed.map LeafNode.outline_key
  have hchild : ∀ i, (c i).map LeafNode.outline = (c' i).map LeafNode.outline := by
    intro i
    refine ((h.sound.forked rfl i).map LeafNode.outline_key).eq_of_mem_iff
      ((h'.sound.forked rfl i).map LeafNode.outline_key) (hplaced i) (hplaced' i)
      (hg.2 i).map (hg'.2 i).map fun x => ?_
    have hx := hplaced.mem_child_iff (l := x) (i := i)
    have hx' := hplaced'.mem_child_iff (l := x) (i := i)
    exact hx.trans ((and_congr_left' (hmem x)).trans hx'.symm)
  rw [← digest_outline, ← digest_outline (.inner a' c'), Trie.map, Trie.map, funext hchild, hg.1,
    hg'.1]

section Pair

variable {t' : MerkleTrie} {fresh' : Set Uint256} {K : Set Uint256} {S : Set Bytes}

/-- A leaf hash of an account tree shows the index, whether the leaf is fresh, and its item
when it is not. -/
theorem Accounts.leaf_of_hash (h : Accounts sha t fresh) (h' : Accounts sha t' fresh')
    (hcf : CollisionFree sha K S) (hK : indexes t ⊆ K) (hK' : indexes t' ⊆ K)
    (hS : ∀ x ∈ strings sha t, x ∈ S) (hS' : ∀ x ∈ strings sha t', x ∈ S) {l l' : LeafNode}
    (hl : l ∈ t) (hl' : l' ∈ t') (hh : l.hash = l'.hash) :
    l.key = l'.key ∧ (l.key ∈ fresh ↔ l'.key ∈ fresh') ∧ (l.key ∉ fresh → l.item = l'.item) := by
  have hinput : l.input ∈ S := hS _ (input_mem_strings hl)
  have hinput' : l'.input ∈ S := hS' _ (input_mem_strings hl')
  by_cases hf : l.key ∈ fresh
  · have hkey := h.hash_fresh l hl hf
    by_cases hf' : l'.key ∈ fresh'
    · have hkey' := h'.hash_fresh l' hl' hf'
      exact ⟨hkey.symm.trans (hh.trans hkey'), iff_of_true hf hf', absurd hf⟩
    · have hsha := h'.hash_digest l' hl' hf'
      refine absurd (hK ⟨l, hl, rfl⟩) ?_
      rw [← hkey, hh, hsha]
      exact hcf.index _ hinput'
  · have hsha := h.hash_digest l hl hf
    by_cases hf' : l'.key ∈ fresh'
    · have hkey' := h'.hash_fresh l' hl' hf'
      refine absurd (hK' ⟨l', hl', rfl⟩) ?_
      rw [← hkey', ← hh, hsha]
      exact hcf.index _ hinput
    · have hsha' := h'.hash_digest l' hl' hf'
      have hitem := LeafNode.item_eq_of_input (h.flags l hl).2 (h'.flags l' hl').2
        (hcf.inj hinput hinput' (hsha.symm.trans (hh.trans hsha')))
      exact ⟨congrArg RadixMerkleTreeLeaf.index hitem, iff_of_false hf hf', fun _ => hitem⟩

/-- Account trees that show the same have leaves with the same outlines. -/
theorem Accounts.exists_of_shown (h : Accounts sha t fresh) (h' : Accounts sha t' fresh')
    (hshown : (contents t).shown fresh = (contents t').shown fresh') {l : LeafNode} (hl : l ∈ t) :
    ∃ l' ∈ t', l.outline = l'.outline := by
  have hk := congrFun hshown l.key
  rw [Contents.shown, Contents.shown, h.valid.contents_key hl] at hk
  have hsome : contents t' l.key ≠ none := by
    intro hnone
    rw [hnone] at hk
    cases hk
  obtain ⟨l', hl', hkey⟩ := h'.valid.contents_ne_none.mp hsome
  rw [← hkey, h'.valid.contents_key hl', Option.map_some, Option.map_some, Option.some.injEq] at hk
  refine ⟨l', hl', LeafNode.outline_eq hkey.symm ?_⟩
  by_cases hf : l.key ∈ fresh
  · have hf' : l'.key ∈ fresh' := by
      by_contra hf'
      rw [if_pos (hkey ▸ hf), if_neg hf'] at hk
      cases hk
    rw [h.hash_fresh l hl hf, h'.hash_fresh l' hl' hf', hkey]
  · have hf' : l'.key ∉ fresh' := by
      intro hf'
      rw [if_neg (hkey ▸ hf), if_pos hf'] at hk
      cases hk
    rw [if_neg (hkey ▸ hf), if_neg hf', Option.some.injEq] at hk
    have hflags := h.flags l hl
    have hflags' := h'.flags l' hl'
    rw [h.hash_digest l hl hf, h'.hash_digest l' hl' hf',
      LeafNode.input_congr (hflags.1.trans hflags'.1.symm) (hflags.2.trans hflags'.2.symm) hk]

/-- The digest of an account tree shows exactly its indexes and its committed items. -/
theorem Accounts.digest_eq_iff (h : Accounts sha t fresh) (h' : Accounts sha t' fresh')
    (hcf : CollisionFree sha K S) (hK : indexes t ⊆ K) (hK' : indexes t' ⊆ K)
    (hS : ∀ x ∈ strings sha t, x ∈ S) (hS' : ∀ x ∈ strings sha t', x ∈ S) :
    digest sha t = digest sha t' ↔ (contents t).shown fresh = (contents t').shown fresh' := by
  constructor
  · intro hd
    have hleaf : ∀ l ∈ t, ∀ l' ∈ t', l.hash = l'.hash → _ := fun l hl l' hl' hh =>
      h.leaf_of_hash h' hcf hK hK' hS hS' hl hl' hh
    have houtline := outline_eq_of_digest hcf h.valid.cached h'.valid.cached hK hK' hS hS'
      (fun l hl l' hl' hh => (hleaf l hl l' hl' hh).1)
      (h.valid.isEmpty_eq.trans h'.valid.isEmpty_eq.symm) hd
    funext k
    by_cases hk : contents t k = none
    · have hk' : contents t' k = none := by
        by_contra hsome
        obtain ⟨l', hl', rfl⟩ := h'.valid.contents_ne_none.mp hsome
        obtain ⟨l, hl, hkey, _⟩ := exists_of_outline houtline.symm hl'
        exact h.valid.contents_ne_none.mpr ⟨l, hl, hkey.symm⟩ hk
      rw [Contents.shown, Contents.shown, hk, hk', Option.map_none, Option.map_none]
    · obtain ⟨l, hl, rfl⟩ := h.valid.contents_ne_none.mp hk
      obtain ⟨l', hl', hkey, hhash⟩ := exists_of_outline houtline hl
      obtain ⟨_, hfresh, hitem⟩ := hleaf l hl l' hl' hhash
      have hcontents' : contents t' l.key = some l'.item := hkey ▸ h'.valid.contents_key hl'
      rw [Contents.shown, Contents.shown, h.valid.contents_key hl, hcontents', Option.map_some,
        Option.map_some]
      rw [← hkey] at hfresh
      by_cases hf : l.key ∈ fresh
      · rw [if_pos hf, if_pos (hfresh.mp hf)]
      · rw [if_neg hf, if_neg (mt hfresh.mpr hf), hitem hf]
  · intro hshown
    refine h.valid.digest_eq_of_outline h'.valid h.labels h'.labels fun x => ?_
    rw [Trie.mem_map, Trie.mem_map]
    constructor
    · rintro ⟨l, hl, rfl⟩
      exact h.exists_of_shown h' hshown hl
    · rintro ⟨l', hl', rfl⟩
      exact h'.exists_of_shown h hshown.symm hl'

end Pair

theorem strings_subset_runStrings (t : MerkleTrie) (os : List Change) :
    strings sha (os.foldl (MerkleTrie.changed sha) t) ⊆ runStrings sha t os := by
  induction os generalizing t with
  | nil => exact List.Subset.refl _
  | cons o os ih => exact List.Subset.trans (ih _) (List.subset_append_right _ _)

/-- A permitted run on a new tree returns, unless digests coincide. -/
theorem hashAfter_eq {db : Database} {isTransactionTree : Bool} {os : List Change}
    (hos : Contents.none.PermitsAll os) {K : Set Uint256} {S : Set Bytes}
    (hcf : CollisionFree sha K S) (hK : ∀ k ∈ os.map Change.index, k ∈ K)
    (hS : ∀ x ∈ runStrings sha (new isTransactionTree) os, x ∈ S) :
    RadixMerkleTree.hashAfter sha db isTransactionTree os =
      .ok (digest sha (os.foldl (MerkleTrie.changed sha) (new isTransactionTree))) := by
  have hempty : indexes (new isTransactionTree) ⊆ {k | k ∈ os.map Change.index} := by
    rw [indexes_new]
    exact Set.empty_subset _
  have hrun := (@valid_new sha isTransactionTree).run_computes hos hempty
    fun o ho => List.mem_map_of_mem ho
  rcases hrun with hok | ⟨_, hno⟩
  · have hvalid := (valid_foldl_new sha isTransactionTree hos).1
    rw [RadixMerkleTree.hashAfter, new_eq, run_embed (t := new isTransactionTree) rfl, hok]
    exact getHash_of_resolves (loaded_embed hvalid.isEmpty_eq) (resolves_embed db _)
  · exact absurd (hcf.mono hK hS) hno

end MerkleTrie

section Pairs

variable {sha : Bytes → Uint256} {db : Database} {os os' : List Change}

/-- The root hashes after two runs on a new account tree. -/
theorem hashAfter_accounts (db : Database) (hos : Contents.none.PermitsAll os)
    (hos' : Contents.none.PermitsAll os')
    (hacc : ∀ o ∈ os ++ os', o.isTransaction = false)
    (hcf : CollisionFree sha {k | k ∈ (os ++ os').map Change.index}
      {x | x ∈ MerkleTrie.runStrings sha (MerkleTrie.new false) os ++
        MerkleTrie.runStrings sha (MerkleTrie.new false) os'}) :
    ∃ h h', RadixMerkleTree.hashAfter sha db false os = .ok h ∧
      RadixMerkleTree.hashAfter sha db false os' = .ok h' ∧
      (h = h' ↔ Contents.committed os = Contents.committed os') := by
  obtain ⟨_, hcontents, hK⟩ := MerkleTrie.valid_foldl_new sha false hos
  obtain ⟨_, hcontents', hK'⟩ := MerkleTrie.valid_foldl_new sha false hos'
  have haccounts := (@MerkleTrie.accounts_new sha).run hos fun o ho =>
    hacc o (List.mem_append_left _ ho)
  have haccounts' := (@MerkleTrie.accounts_new sha).run hos' fun o ho =>
    hacc o (List.mem_append_right _ ho)
  have hindex : ∀ k ∈ os.map Change.index, k ∈ (os ++ os').map Change.index := fun k hk => by
    rw [List.map_append]
    exact List.mem_append_left _ hk
  have hindex' : ∀ k ∈ os'.map Change.index, k ∈ (os ++ os').map Change.index := fun k hk => by
    rw [List.map_append]
    exact List.mem_append_right _ hk
  refine ⟨_, _, MerkleTrie.hashAfter_eq hos hcf hindex fun x hx => List.mem_append_left _ hx,
    MerkleTrie.hashAfter_eq hos' hcf hindex' fun x hx => List.mem_append_right _ hx, ?_⟩
  have hiff := haccounts.digest_eq_iff haccounts' hcf (fun k hk => hindex k (hK hk))
    (fun k hk => hindex' k (hK' hk))
    (fun x hx => List.mem_append_left _ (MerkleTrie.strings_subset_runStrings _ _ hx))
    fun x hx => List.mem_append_right _ (MerkleTrie.strings_subset_runStrings _ _ hx)
  rw [hcontents, hcontents'] at hiff
  exact hiff

/-- What the root hash of an account tree commits to. Equal root hashes mean equal accounts,
except when two runs agree on the indexes and on the items of all leaves last written by
`update_given_item`, but not on the item of a leaf last written by its constructor. -/
theorem account_hash_commits_iff (hos : Contents.none.PermitsAll os)
    (hos' : Contents.none.PermitsAll os') (hacc : ∀ o ∈ os ++ os', o.isTransaction = false)
    (hcf : CollisionFree sha {k | k ∈ (os ++ os').map Change.index}
      {x | x ∈ MerkleTrie.runStrings sha (MerkleTrie.new false) os ++
        MerkleTrie.runStrings sha (MerkleTrie.new false) os'}) :
    ∃ h h', RadixMerkleTree.hashAfter sha db false os = .ok h ∧
      RadixMerkleTree.hashAfter sha db false os' = .ok h' ∧
      ((h = h' → Contents.written os = Contents.written os') ↔
        ¬ (Contents.committed os = Contents.committed os' ∧
          ∃ k ∈ Contents.fresh os, Contents.written os k ≠ Contents.written os' k)) := by
  obtain ⟨h, h', hrun, hrun', hiff⟩ := hashAfter_accounts db hos hos' hacc hcf
  refine ⟨h, h', hrun, hrun', ?_⟩
  rw [hiff]
  constructor
  · rintro hsame ⟨hcommit, k, _, hne⟩
    exact hne (congrFun (hsame hcommit) k)
  · intro hno hcommit
    funext k
    by_contra hne
    refine hno ⟨hcommit, k, ?_, hne⟩
    by_contra hfresh
    exact hne (Contents.eq_of_committed hcommit hfresh)

/-- A run that creates one account. -/
def oneAccount (byte : UInt8) : List Change :=
  [.addItem (.ofByte (Uint256.ofNat 7) byte) false]

theorem oneAccount_collisionFree :
    CollisionFree checksum {k | k ∈ (oneAccount 1 ++ oneAccount 2).map Change.index}
      {x | x ∈ MerkleTrie.runStrings checksum (MerkleTrie.new false) (oneAccount 1) ++
        MerkleTrie.runStrings checksum (MerkleTrie.new false) (oneAccount 2)} :=
  CollisionFree.of_list (by decide +kernel)

theorem account_hash_commits_oneAccount :
    ∃ h h', RadixMerkleTree.hashAfter checksum (fun _ => none) false (oneAccount 1) = .ok h ∧
      RadixMerkleTree.hashAfter checksum (fun _ => none) false (oneAccount 2) = .ok h' ∧
      ((h = h' → Contents.written (oneAccount 1) = Contents.written (oneAccount 2)) ↔
        ¬ (Contents.committed (oneAccount 1) = Contents.committed (oneAccount 2) ∧
          ∃ k ∈ Contents.fresh (oneAccount 1),
            Contents.written (oneAccount 1) k ≠ Contents.written (oneAccount 2) k)) :=
  account_hash_commits_iff (by decide) (by decide) (by decide) oneAccount_collisionFree

/-- Two trees with one account each, of the same index and different data, have the same
root hash. -/
theorem account_hash_hides_data :
    CollisionFree checksum {k | k ∈ (oneAccount 1 ++ oneAccount 2).map Change.index}
      {x | x ∈ MerkleTrie.runStrings checksum (MerkleTrie.new false) (oneAccount 1) ++
        MerkleTrie.runStrings checksum (MerkleTrie.new false) (oneAccount 2)} ∧
      (RadixMerkleTree.hashAfter checksum (fun _ => none) false (oneAccount 1)).isOk = true ∧
      RadixMerkleTree.hashAfter checksum (fun _ => none) false (oneAccount 1) =
        RadixMerkleTree.hashAfter checksum (fun _ => none) false (oneAccount 2) ∧
      Contents.written (oneAccount 1) ≠ Contents.written (oneAccount 2) := by
  refine ⟨oneAccount_collisionFree, by decide +kernel, by decide +kernel, fun h => ?_⟩
  have hne : Contents.written (oneAccount 1) (Uint256.ofNat 7) ≠
      Contents.written (oneAccount 2) (Uint256.ofNat 7) := by decide
  exact hne (congrFun h _)

/-- When the root hash of an account tree depends on its history. Runs that end with the same
accounts end with the same root hash, except when some account's leaf was last written by
its constructor in one of them and by `update_given_item` in the other. -/
theorem account_hash_history_iff (hos : Contents.none.PermitsAll os)
    (hos' : Contents.none.PermitsAll os') (hacc : ∀ o ∈ os ++ os', o.isTransaction = false)
    (hcf : CollisionFree sha {k | k ∈ (os ++ os').map Change.index}
      {x | x ∈ MerkleTrie.runStrings sha (MerkleTrie.new false) os ++
        MerkleTrie.runStrings sha (MerkleTrie.new false) os'}) :
    ∃ h h', RadixMerkleTree.hashAfter sha db false os = .ok h ∧
      RadixMerkleTree.hashAfter sha db false os' = .ok h' ∧
      ((Contents.written os = Contents.written os' → h = h') ↔
        ¬ (Contents.written os = Contents.written os' ∧ ∃ k, Contents.written os k ≠ none ∧
          ¬ (k ∈ Contents.fresh os ↔ k ∈ Contents.fresh os'))) := by
  obtain ⟨h, h', hrun, hrun', hiff⟩ := hashAfter_accounts db hos hos' hacc hcf
  refine ⟨h, h', hrun, hrun', ?_⟩
  rw [hiff]
  constructor
  · rintro hsame ⟨hwritten, k, hk, hne⟩
    exact hne (Contents.fresh_iff_of_committed (hsame hwritten) hwritten hk)
  · intro hno hwritten
    refine Contents.committed_congr hwritten fun k hk => ?_
    by_contra hne
    exact hno ⟨hwritten, k, hk, hne⟩

/-- Two accounts, a transfer between them, and the creation of a third account that shares
its first digit with the first: the transfer comes first. -/
def transferThenCreate : List Change :=
  [.addItem (.ofByte (Uint256.ofNat (0x11 * 2 ^ 248)) 1) false,
    .addItem (.ofByte (Uint256.ofNat (0x22 * 2 ^ 248)) 2) false,
    .updateGivenItem (.ofByte (Uint256.ofNat (0x11 * 2 ^ 248)) 3) false,
    .updateGivenItem (.ofByte (Uint256.ofNat (0x22 * 2 ^ 248)) 4) false,
    .addItem (.ofByte (Uint256.ofNat (0x12 * 2 ^ 248)) 5) false]

/-- The same, the creation first. -/
def createThenTransfer : List Change :=
  [.addItem (.ofByte (Uint256.ofNat (0x11 * 2 ^ 248)) 1) false,
    .addItem (.ofByte (Uint256.ofNat (0x22 * 2 ^ 248)) 2) false,
    .addItem (.ofByte (Uint256.ofNat (0x12 * 2 ^ 248)) 5) false,
    .updateGivenItem (.ofByte (Uint256.ofNat (0x11 * 2 ^ 248)) 3) false,
    .updateGivenItem (.ofByte (Uint256.ofNat (0x22 * 2 ^ 248)) 4) false]

theorem account_hash_history_transfer :
    ∃ h h', RadixMerkleTree.hashAfter checksum (fun _ => none) false transferThenCreate = .ok h ∧
      RadixMerkleTree.hashAfter checksum (fun _ => none) false createThenTransfer = .ok h' ∧
      ((Contents.written transferThenCreate = Contents.written createThenTransfer → h = h') ↔
        ¬ (Contents.written transferThenCreate = Contents.written createThenTransfer ∧
          ∃ k, Contents.written transferThenCreate k ≠ none ∧
            ¬ (k ∈ Contents.fresh transferThenCreate ↔ k ∈ Contents.fresh createThenTransfer))) :=
  account_hash_history_iff (by decide) (by decide) (by decide)
    (CollisionFree.of_list (by decide +kernel))

/-- The two orders end with the same accounts and different root hashes. -/
theorem account_hash_depends_on_order :
    (RadixMerkleTree.hashAfter checksum (fun _ => none) false transferThenCreate).isOk = true ∧
      (RadixMerkleTree.hashAfter checksum (fun _ => none) false createThenTransfer).isOk = true ∧
      Contents.written transferThenCreate = Contents.written createThenTransfer ∧
      RadixMerkleTree.hashAfter checksum (fun _ => none) false transferThenCreate ≠
        RadixMerkleTree.hashAfter checksum (fun _ => none) false createThenTransfer := by
  exact ⟨by decide +kernel, by decide +kernel, Contents.written_ext (by decide +kernel),
    by decide +kernel⟩

end Pairs

end Bubi
