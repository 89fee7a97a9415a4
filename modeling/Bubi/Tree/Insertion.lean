import Bubi.Tree.Refinement

/-!
# What the trie operations compute

On a trie whose leaves lie under their own indexes, `add` and `update` are the insertion
and the modification of the generic trie, unless the source's assertions stop them. An
assertion on the index fails exactly when the index is present, or absent. An assertion
on a hash fails only when two different strings of the tree share a digest, or a digest
is zero or an index.
-/

namespace Bubi

open Bubi.Core

/-- The digest separates the given strings from each other, from zero and from the given
indexes. -/
structure CollisionFree (sha : Bytes → Uint256) (indexes : Set Uint256) (strings : Set Bytes) :
    Prop where
  /-- Different strings have different digests. -/
  inj : Set.InjOn sha strings
  /-- No digest is zero. -/
  zero : ∀ x ∈ strings, sha x ≠ Uint256.zero
  /-- No digest is an index. -/
  index : ∀ x ∈ strings, sha x ∉ indexes

theorem CollisionFree.mono {sha : Bytes → Uint256} {indexes indexes' : Set Uint256}
    {strings strings' : Set Bytes} (h : CollisionFree sha indexes' strings')
    (hi : indexes ⊆ indexes') (hs : strings ⊆ strings') : CollisionFree sha indexes strings where
  inj := h.inj.mono hs
  zero := fun x hx => h.zero x (hs hx)
  index := fun x hx hxi => h.index x (hs hx) (hi hxi)

/-- Separation of listed strings, by comparing them. -/
theorem CollisionFree.of_list {sha : Bytes → Uint256} {ks : List Uint256} {xs : List Bytes}
    (h : (∀ x ∈ xs, ∀ y ∈ xs, sha x = sha y → x = y) ∧
      ∀ x ∈ xs, sha x ≠ Uint256.zero ∧ sha x ∉ ks) :
    CollisionFree sha {k | k ∈ ks} {x | x ∈ xs} where
  inj := fun x hx y hy hxy => h.1 x hx y hy hxy
  zero := fun x hx => (h.2 x hx).1
  index := fun x hx => (h.2 x hx).2

namespace MerkleTrie

variable (sha : Bytes → Uint256)

/-- The bytes digested for an inner node with its current branches. -/
def bytes (a : Bool) (c : Fin 16 → MerkleTrie) : Bytes := innerInput a c fun i => digest sha (c i)

/-- The strings of all nodes. -/
def strings : MerkleTrie → List Bytes
  | .empty => []
  | .leaf l => [l.input]
  | .inner a c => bytes sha a c :: (List.finRange 16).flatMap fun i => strings (c i)

/-- The indexes of all leaves. -/
def indexes (t : MerkleTrie) : Set Uint256 := {k | ∃ l ∈ t, l.key = k}

/-- How `add_given_item` rebuilds a displaced leaf, and the flags of its inner nodes. -/
def policy (isTransaction : Bool) : Rebuild LeafNode.key Bool where
  relabel := fun l => LeafNode.fresh isTransaction l.item
  turn := LeafNode.isTransactionTree
  chain := false
  key_relabel := fun _ => rfl

/-- Insertion without the assertions. -/
def inserted (item : RadixMerkleTreeLeaf) (isTransaction : Bool) (n : ℕ) (t : MerkleTrie) :
    MerkleTrie :=
  t.insert radix (policy isTransaction) (LeafNode.fresh isTransaction item) n

/-- Replacement without the assertions. -/
def replaced (item : RadixMerkleTreeLeaf) (isTransaction : Bool) (n : ℕ) (t : MerkleTrie) :
    MerkleTrie :=
  t.modify radix item.index (fun l => l.setItem sha isTransaction item) n

/-- The string digested when a split has attached its first leaf only. -/
def halfwaySplit (new other : LeafNode) : ℕ → Bool → ℕ → List Bytes
  | 0, _, _ => []
  | m + 1, a, n =>
    if radix.digit new.key n = radix.digit other.key n then halfwaySplit new other m false (n + 1)
    else [bytes sha a (Function.update Trie.bare (radix.digit new.key n) (.leaf new))]

/-- The string that an insertion digests for no node of the old or the new trie. -/
def halfway (item : RadixMerkleTreeLeaf) (isTransaction : Bool) : ℕ → MerkleTrie → List Bytes
  | _, .empty => []
  | n, .leaf l =>
    halfwaySplit sha (LeafNode.fresh isTransaction item) (LeafNode.fresh isTransaction l.item)
      (64 - n) l.isTransactionTree n
  | n, .inner _ c => halfway item isTransaction (n + 1) (c (radix.digit item.index n))

/-- A subtree below a prefix: its leaves belong there, and the inner nodes below its root
branch, so that none lies deeper than an index has digits. -/
structure Sound (p : List (Fin 16)) (t : MerkleTrie) : Prop where
  /-- Every leaf lies under its own index. -/
  placed : t.Placed radix LeafNode.key p
  /-- An inner node still has a digit to branch on. -/
  shallow : ∀ {a c}, t = .inner a c → p.length < 64
  /-- The inner nodes below the root branch. -/
  forked : ∀ {a c}, t = .inner a c → ∀ i, (c i).Branching LeafNode.key

/-- Every cached leaf hash is the leaf's index or the digest of its record. -/
def Cached (t : MerkleTrie) : Prop := ∀ l ∈ t, l.hash = l.key ∨ l.hash = sha l.input

variable {sha}

section Sound

variable {p : List (Fin 16)} {t : MerkleTrie}

/-- A branching subtree at its prefix is sound. -/
theorem sound_of_branching (hp : t.Placed radix LeafNode.key p) (hb : t.Branching LeafNode.key) :
    Sound p t where
  placed := hp
  shallow := by
    rintro a c rfl
    exact hb.length_lt hp
  forked := by
    rintro a c rfl
    exact hb.2

theorem Sound.child {a : Bool} {c : Fin 16 → MerkleTrie} (h : Sound p (.inner a c)) (i : Fin 16) :
    Sound (p ++ [i]) (c i) :=
  sound_of_branching (h.placed i) (h.forked rfl i)

theorem sound_new (isTransactionTree : Bool) : Sound [] (new isTransactionTree) where
  placed := Trie.placed_bare radix [] isTransactionTree
  shallow := fun _ => by decide
  forked := by
    intro a c h i
    cases h
    trivial

/-- A walk of a sound trie stays inside the index. -/
theorem Sound.walk_eq (h : Sound p t) (hash : Uint256) :
    walk hash p.length t = .ok (t.reach radix hash p.length) := by
  induction t generalizing p with
  | empty => rfl
  | leaf l => rfl
  | inner a c ih =>
    rw [walk, selectBranch_of_lt hash (h.shallow rfl), ok_bind]
    have hchild := ih (radix.digit hash p.length) (h.child _)
    rw [List.length_append, List.length_singleton] at hchild
    exact hchild

/-- A lookup of a sound trie finds its leaf. -/
theorem Sound.lookup_eq (h : Sound [] t) {α : Type} (found : RadixMerkleTreeLeaf → Except Fault α)
    (hash : Uint256) :
    lookup found hash t = match t.find radix LeafNode.key hash 0 with
      | none => .ok none
      | some l => some <$> found l.item := by
  have hwalk := h.walk_eq hash
  rw [lookup, show (0 : ℕ) = ([] : List (Fin 16)).length from rfl, hwalk, ok_bind, Trie.find]
  cases t.reach radix hash ([] : List (Fin 16)).length with
  | none => rfl
  | some l =>
    by_cases hl : l.key = hash
    · simp [hl, Option.filter]
    · simp [hl, Option.filter]

/-- A sound node with one branch exchanged for a branching subtree. -/
theorem Sound.update {a : Bool} {c : Fin 16 → MerkleTrie} (h : Sound p (.inner a c)) {b : Fin 16}
    {s : MerkleTrie} (hp : s.Placed radix LeafNode.key (p ++ [b]))
    (hb : s.Branching LeafNode.key) : Sound p (.inner a (Function.update c b s)) where
  placed := Trie.placed_update h.placed hp
  shallow := fun _ => h.shallow rfl
  forked := by
    intro a' c' heq i
    cases heq
    by_cases hi : i = b
    · rw [hi, Function.update_self]
      exact hb
    · rw [Function.update_of_ne hi]
      exact h.forked rfl i

theorem Sound.insert (h : Sound p t) {item : RadixMerkleTreeLeaf} {isTransaction : Bool}
    (hk : radix.Under p item.index) (hnew : ∀ l ∈ t, l.key ≠ item.index) :
    Sound p (inserted item isTransaction p.length t) := by
  cases t with
  | empty => exact sound_of_branching hk trivial
  | leaf l =>
    exact sound_of_branching (h.placed.insert hk) (Trie.Branching.insert trivial h.placed hk hnew)
  | inner a c =>
    set b := radix.digit item.index p.length with hb
    have hkb : radix.Under (p ++ [b]) item.index := radix.under_snoc.mpr ⟨hk, hb.symm⟩
    have hnewb : ∀ l ∈ c b, l.key ≠ item.index := fun l hl => hnew l ⟨b, hl⟩
    have hplaced : (inserted item isTransaction (p ++ [b]).length (c b)).Placed radix
        LeafNode.key (p ++ [b]) := (h.placed b).insert hkb
    have hbranch : (inserted item isTransaction (p ++ [b]).length (c b)).Branching LeafNode.key :=
      (h.forked rfl b).insert (h.placed b) hkb hnewb
    rw [List.length_append, List.length_singleton] at hplaced hbranch
    exact h.update hplaced hbranch

theorem Sound.modify (h : Sound p t) {item : RadixMerkleTreeLeaf} {isTransaction : Bool}
    {l : LeafNode} (hl : t.find radix LeafNode.key item.index p.length = some l) :
    Sound p (replaced sha item isTransaction p.length t) := by
  cases t with
  | empty => cases hl
  | leaf l' => exact sound_of_branching (h.placed.modify hl rfl) trivial
  | inner a c =>
    set b := radix.digit item.index p.length with hb
    have hlb : (c b).find radix LeafNode.key item.index (p ++ [b]).length = some l := by
      rw [List.length_append, List.length_singleton]
      exact hl
    have hplaced := (h.placed b).modify (f := fun l => l.setItem sha isTransaction item) hlb rfl
    have hbranch := (h.forked rfl b).modify (f := fun l => l.setItem sha isTransaction item)
      (h.placed b) hlb rfl
    rw [List.length_append, List.length_singleton] at hplaced hbranch
    exact h.update hplaced hbranch

section Root

variable {item : RadixMerkleTreeLeaf} (isTransaction : Bool)

/-- The leaves after an insertion. -/
theorem Sound.mem_inserted (h : Sound [] t) (hnew : ∀ l ∈ t, l.key ≠ item.index) {x : LeafNode} :
    x ∈ inserted item isTransaction 0 t ↔ x = LeafNode.fresh isTransaction item ∨
      (x ∈ t ∧ t.reach radix item.index 0 ≠ some x) ∨
        ∃ l, t.reach radix item.index 0 = some l ∧ x = LeafNode.fresh isTransaction l.item :=
  h.placed.mem_insert (radix.under_nil (LeafNode.fresh isTransaction item).key) hnew

/-- Lookup after an insertion: the leaf at the end of the walk is built again. -/
theorem Sound.find_inserted (h : Sound [] t) (hnew : ∀ l ∈ t, l.key ≠ item.index) (k : Uint256) :
    (inserted item isTransaction 0 t).find radix LeafNode.key k 0 =
      if k = item.index then some (LeafNode.fresh isTransaction item)
      else if (t.reach radix item.index 0).map LeafNode.key = some k then
        (t.find radix LeafNode.key k 0).map fun l => LeafNode.fresh isTransaction l.item
      else t.find radix LeafNode.key k 0 :=
  h.placed.find_insert (radix.under_nil (LeafNode.fresh isTransaction item).key) hnew k

variable (sha) {l : LeafNode}

/-- The leaves after a replacement. -/
theorem Sound.mem_replaced (h : Sound [] t)
    (hl : t.find radix LeafNode.key item.index 0 = some l) {x : LeafNode} :
    x ∈ replaced sha item isTransaction 0 t ↔
      x = l.setItem sha isTransaction item ∨ (x ∈ t ∧ x.key ≠ item.index) :=
  h.placed.mem_modify hl

/-- Lookup after a replacement. -/
theorem Sound.find_replaced (h : Sound [] t)
    (hl : t.find radix LeafNode.key item.index 0 = some l) (k : Uint256) :
    (replaced sha item isTransaction 0 t).find radix LeafNode.key k 0 =
      if k = item.index then some (l.setItem sha isTransaction item)
      else t.find radix LeafNode.key k 0 :=
  h.placed.find_modify hl rfl k

end Root

end Sound

/-- Equal masks mark the same branches. -/
theorem isEmpty_eq_of_mask {c c' : Fin 16 → MerkleTrie} (h : mask c = mask c') (i : Fin 16) :
    (c i).isEmpty = (c' i).isEmpty := by
  have hbit : ∀ d : Fin 16 → MerkleTrie,
      (mask d).getLsbD i.val = decide ((d i).isEmpty = false) := by
    intro d
    rw [getLsbD_mask d (by omega), decide_eq_decide]
    constructor
    · rintro ⟨j, hj, hd⟩
      rwa [← Fin.ext hj]
    · exact fun hd => ⟨i, rfl, hd⟩
  have heq : decide ((c i).isEmpty = false) = decide ((c' i).isEmpty = false) := by
    rw [← hbit c, ← hbit c', h]
  cases hc : (c i).isEmpty <;> cases hc' : (c' i).isEmpty <;> simp [hc, hc'] at heq ⊢

/-- The string of an inner node determines its flag, its marked branches and their hashes. -/
theorem bytes_inj {a a' : Bool} {c c' : Fin 16 → MerkleTrie} (h : bytes sha a c = bytes sha a' c') :
    a = a' ∧ (∀ i, (c i).isEmpty = (c' i).isEmpty) ∧ ∀ i, digest sha (c i) = digest sha (c' i) := by
  obtain ⟨hfront, hchildren⟩ :=
    List.append_inj' h (by rw [childrenBytes_length, childrenBytes_length])
  obtain ⟨hheader, _⟩ := List.append_inj' hfront rfl
  obtain ⟨hflag, _, hmask⟩ := header_inj hheader
  exact ⟨hflag, isEmpty_eq_of_mask hmask, congrFun (childrenBytes_inj hchildren)⟩

/-- The string of a leaf is not the string of an inner node. -/
theorem input_ne_bytes (l : LeafNode) (a : Bool) (c : Fin 16 → MerkleTrie) :
    l.input ≠ bytes sha a c := by
  intro h
  have hbytes : bytes sha a c = (innerFields Uint256.zero a c fun i => digest sha (c i)).header ++
      (ascii ['_', 'n', 'o', 'd', 'e', '_'] ++
        (innerFields Uint256.zero a c fun i => digest sha (c i)).childrenBytes) :=
    List.append_assoc _ _ _
  rw [hbytes] at h
  obtain ⟨hheader, _⟩ := List.append_inj h rfl
  exact leafType_ne_inner l.isTransaction (header_inj hheader).2.1

/-- A node is rebuilt unless its new string has the old hash as its digest. -/
theorem rebuild_cases (old : Uint256) (a : Bool) (c : Fin 16 → MerkleTrie) (b : Fin 16)
    (t : MerkleTrie) :
    (rebuild sha old a c b t = .ok (.inner a (Function.update c b t)) ∧
        old ≠ digest sha (.inner a (Function.update c b t))) ∨
      (rebuild sha old a c b t = .error .unchanged ∧
        old = sha (bytes sha a (Function.update c b t))) := by
  by_cases h : old = digest sha (.inner a (Function.update c b t))
  · exact Or.inr ⟨if_pos h, h⟩
  · exact Or.inl ⟨if_neg h, h⟩

theorem mem_strings_inner {a : Bool} {c : Fin 16 → MerkleTrie} {x : Bytes} :
    x ∈ strings sha (.inner a c) ↔ x = bytes sha a c ∨ ∃ i, x ∈ strings sha (c i) := by
  rw [strings, List.mem_cons, List.mem_flatMap]
  simp

/-- The strings of a branch after its exchange. -/
theorem mem_strings_update {a : Bool} {c : Fin 16 → MerkleTrie} {b : Fin 16} {t : MerkleTrie}
    {x : Bytes} (hx : x ∈ strings sha t) : x ∈ strings sha (.inner a (Function.update c b t)) :=
  mem_strings_inner.mpr (Or.inr ⟨b, by rwa [Function.update_self]⟩)

/-- An operation computes the given result, or stops at an unchanged hash, which then is a
coincidence of digests among the given strings. -/
def Computes {α : Type} (sha : Bytes → Uint256) (indexes : Set Uint256) (strings : List Bytes)
    (x : Except Fault α) (v : α) : Prop :=
  x = .ok v ∨ (x = .error .unchanged ∧ ¬ CollisionFree sha indexes {s | s ∈ strings})

theorem Computes.mono {α : Type} {K K' : Set Uint256} {S S' : List Bytes} {x : Except Fault α}
    {v : α} (h : Computes sha K S x v) (hK : K ⊆ K') (hS : S ⊆ S') : Computes sha K' S' x v := by
  rcases h with hok | ⟨herr, hcf⟩
  · exact Or.inl hok
  · exact Or.inr ⟨herr, fun hfree => hcf (hfree.mono hK fun _ hs => hS hs)⟩

/-- One operation after the other, among the strings of both. -/
theorem Computes.bind {α β : Type} {K K' : Set Uint256} {S S' : List Bytes} {x : Except Fault α}
    {v : α} {f : α → Except Fault β} {w : β} (h : Computes sha K S x v) (hK : K ⊆ K')
    (hS : S ⊆ S') (hf : x = .ok v → Computes sha K' S' (f v) w) :
    Computes sha K' S' (x >>= f) w := by
  rcases h.mono hK hS with hok | ⟨herr, hcf⟩
  · rw [hok, ok_bind]
    exact hf hok
  · rw [herr, error_bind]
    exact Or.inr ⟨rfl, hcf⟩

/-- A node is rebuilt unless its old hash is the digest of its new string. -/
theorem computes_rebuild {K : Set Uint256} {S : List Bytes} {old : Uint256} {a : Bool}
    {c : Fin 16 → MerkleTrie} {b : Fin 16} {t : MerkleTrie}
    (h : CollisionFree sha K {s | s ∈ S} → old ≠ sha (bytes sha a (Function.update c b t))) :
    Computes sha K S (rebuild sha old a c b t) (.inner a (Function.update c b t)) := by
  rcases rebuild_cases old a c b t with ⟨hok, _⟩ | ⟨herr, hz⟩
  · exact Or.inl hok
  · exact Or.inr ⟨herr, fun hfree => h hfree hz⟩

theorem eq_of_agree {x y : Uint256} {n : ℕ} (hn : 64 ≤ n) (h : radix.Agree n x y) : x = y :=
  radix.ext x y fun i hi => h i (lt_of_lt_of_le hi hn)

/-- Splitting a leaf forks the two indexes. -/
theorem split_computes {new other : LeafNode} (hne : new.key ≠ other.key) {m n : ℕ}
    (hagree : radix.Agree n new.key other.key) (hm : 64 ≤ n + m) (a : Bool) :
    Computes sha ∅ (strings sha (Trie.fork radix LeafNode.key new other false m a n) ++
        halfwaySplit sha new other m a n) (split sha new other m a n)
      (Trie.fork radix LeafNode.key new other false m a n) := by
  induction m generalizing n a with
  | zero => exact absurd (eq_of_agree hm hagree) hne
  | succ m ih =>
    have hn : n < 64 := by
      by_contra hge
      exact hne (eq_of_agree (by omega) hagree)
    rw [split, selectBranch_of_lt _ hn, selectBranch_of_lt _ hn, ok_bind, ok_bind, Trie.fork,
      halfwaySplit]
    by_cases hd : radix.digit new.key n = radix.digit other.key n
    · rw [if_pos hd, if_pos hd, if_pos hd]
      refine (ih (Trie.agree_succ.mpr ⟨hagree, hd⟩) (by omega) false).bind subset_rfl ?_ fun _ => ?_
      · intro x hx
        rcases List.mem_append.mp hx with hx | hx
        · exact List.mem_append_left _ (mem_strings_update hx)
        · exact List.mem_append_right _ hx
      · refine computes_rebuild fun hcf hz => hcf.zero _ ?_ hz.symm
        exact List.mem_append_left _ (mem_strings_inner.mpr (Or.inl rfl))
    · rw [if_neg hd, if_neg hd, if_neg hd]
      refine Computes.bind (computes_rebuild fun hcf hz => ?_) subset_rfl (List.Subset.refl _)
        fun _ => computes_rebuild fun hcf hz => ?_
      · exact hcf.zero _ (List.mem_append_right _ (List.mem_singleton.mpr rfl)) hz.symm
      · -- The two strings differ in the mark of the second branch.
        have hbytes := hcf.inj (List.mem_append_right _ (List.mem_singleton.mpr rfl))
          (List.mem_append_left _ (mem_strings_inner.mpr (Or.inl rfl))) hz
        have hempty := (bytes_inj hbytes).2.1 (radix.digit other.key n)
        rw [Function.update_of_ne (Ne.symm hd), Function.update_self] at hempty
        cases hempty

/-- An insertion below an inner node changes its digest. -/
theorem digest_ne_of_add {item : RadixMerkleTreeLeaf} {isTransaction : Bool} {n : ℕ} {a : Bool}
    {c : Fin 16 → MerkleTrie} {t : MerkleTrie}
    (h : add sha item isTransaction n (.inner a c) = .ok t) :
    digest sha (.inner a c) ≠ digest sha t := by
  rw [add] at h
  obtain ⟨b, _, h⟩ := bind_eq_ok.mp h
  obtain ⟨s, _, h⟩ := bind_eq_ok.mp h
  rcases rebuild_cases (digest sha (.inner a c)) a c b s with ⟨hok, hne⟩ | ⟨herr, _⟩
  · rw [hok] at h
    cases h
    exact hne
  · rw [herr] at h
    cases h

/-- An insertion at a leaf puts an inner node in its place. -/
theorem exists_inner_of_add_leaf {item : RadixMerkleTreeLeaf} {isTransaction : Bool} {n : ℕ}
    {l : LeafNode} {t : MerkleTrie} (h : add sha item isTransaction n (.leaf l) = .ok t) :
    ∃ c, t = .inner l.isTransactionTree c := by
  rw [add] at h
  split at h
  · cases h
  · exact exists_inner_of_split h

/-- A cached leaf hash is no digest of an inner node. -/
theorem hash_ne_digest {K : Set Uint256} {S : Set Bytes} (h : CollisionFree sha K S)
    {l : LeafNode} (hl : l.hash = l.key ∨ l.hash = sha l.input) {a : Bool}
    {c : Fin 16 → MerkleTrie} (hkey : l.key = digest sha (.inner a c) → l.key ∈ K)
    (hinput : l.input ∈ S) (hx : bytes sha a c ∈ S) : l.hash ≠ digest sha (.inner a c) := by
  intro heq
  rcases hl with hl | hl
  · have hmem := hkey (hl.symm.trans heq)
    refine h.index _ hx ?_
    change digest sha (.inner a c) ∈ K
    rwa [← heq, hl]
  · exact input_ne_bytes l a c (h.inj hinput hx (hl ▸ heq))

/-- A node whose hash is unchanged although a branch was exchanged: the branch kept its
hash and its mark. -/
theorem branch_eq_of_unchanged {K : Set Uint256} {S : Set Bytes} (h : CollisionFree sha K S)
    {a : Bool} {c : Fin 16 → MerkleTrie} {b : Fin 16} {t : MerkleTrie} (hold : bytes sha a c ∈ S)
    (hnew : bytes sha a (Function.update c b t) ∈ S)
    (hz : digest sha (.inner a c) = sha (bytes sha a (Function.update c b t))) :
    (c b).isEmpty = t.isEmpty ∧ digest sha (c b) = digest sha t := by
  obtain ⟨_, hempty, hdigest⟩ := bytes_inj (h.inj hold hnew hz)
  have hself : Function.update c b t b = t := Function.update_self b t c
  exact ⟨hself ▸ hempty b, hself ▸ hdigest b⟩

/-- An insertion changes the mark or the hash of its branch. -/
theorem branch_ne_of_add {K : Set Uint256} {S : Set Bytes} (hfree : CollisionFree sha K S)
    {item : RadixMerkleTreeLeaf} {isTransaction : Bool} {n : ℕ} {t t' : MerkleTrie}
    (hadd : add sha item isTransaction n t = .ok t') (hc : Cached sha t)
    (hindex : ∀ l, t = .leaf l → l.key = digest sha t' → l.key ∈ K)
    (hold : ∀ x ∈ strings sha t, x ∈ S) (hnew : ∀ x ∈ strings sha t', x ∈ S)
    (hempty : t.isEmpty = t'.isEmpty) :
    digest sha t ≠ digest sha t' := by
  cases t with
  | empty =>
    cases hadd
    cases hempty
  | leaf l =>
    -- The leaf has become an inner node, whose digest is no cached hash.
    obtain ⟨c', rfl⟩ := exists_inner_of_add_leaf hadd
    exact hash_ne_digest hfree (hc l rfl) (hindex l rfl) (hold _ (List.mem_singleton.mpr rfl))
      (hnew _ (mem_strings_inner.mpr (Or.inl rfl)))
  | inner a c => exact digest_ne_of_add hadd

theorem indexes_child {a : Bool} {c : Fin 16 → MerkleTrie} (b : Fin 16) :
    indexes (c b) ⊆ indexes (.inner a c) := by
  rintro k ⟨l, hl, rfl⟩
  exact ⟨l, ⟨b, hl⟩, rfl⟩

theorem strings_child {a : Bool} {c : Fin 16 → MerkleTrie} (b : Fin 16) :
    strings sha (c b) ⊆ strings sha (.inner a c) :=
  fun _ hx => mem_strings_inner.mpr (Or.inr ⟨b, hx⟩)

/-- The strings digested by an insertion. -/
def addStrings (sha : Bytes → Uint256) (item : RadixMerkleTreeLeaf) (isTransaction : Bool) (n : ℕ)
    (t : MerkleTrie) : List Bytes :=
  strings sha t ++ strings sha (inserted item isTransaction n t) ++
    halfway sha item isTransaction n t

/-- The index of the leaf that an insertion displaces, if it is the digest of the node that takes
the leaf's place. -/
def displacedIndex (sha : Bytes → Uint256) (item : RadixMerkleTreeLeaf) (isTransaction : Bool) :
    ℕ → MerkleTrie → List Uint256
  | _, .empty => []
  | n, .leaf l =>
    if l.key = digest sha (inserted item isTransaction n (.leaf l)) then [l.key] else []
  | n, .inner _ c => displacedIndex sha item isTransaction (n + 1) (c (radix.digit item.index n))

theorem displacedIndex_subset {item : RadixMerkleTreeLeaf} {isTransaction : Bool} {n : ℕ}
    {t : MerkleTrie} : {k | k ∈ displacedIndex sha item isTransaction n t} ⊆ indexes t := by
  induction t generalizing n with
  | empty => exact fun k hk => absurd hk List.not_mem_nil
  | leaf l =>
    intro k hk
    rw [Set.mem_ofPred_eq, displacedIndex] at hk
    split at hk
    · exact ⟨l, rfl, (List.mem_singleton.mp hk).symm⟩
    · cases hk
  | inner a c ih => exact (ih _).trans (indexes_child _)

theorem addStrings_child {item : RadixMerkleTreeLeaf} {isTransaction : Bool} {n : ℕ} {a : Bool}
    {c : Fin 16 → MerkleTrie} :
    addStrings sha item isTransaction (n + 1) (c (radix.digit item.index n)) ⊆
      addStrings sha item isTransaction n (.inner a c) := by
  intro x hx
  rcases List.mem_append.mp hx with hx | hx
  · rcases List.mem_append.mp hx with hx | hx
    · exact List.mem_append_left _ (List.mem_append_left _ (strings_child _ hx))
    · exact List.mem_append_left _ (List.mem_append_right _ (mem_strings_update hx))
  · exact List.mem_append_right _ hx

/-- Inserting a new index inserts a fresh leaf. -/
theorem add_computes {item : RadixMerkleTreeLeaf} {isTransaction : Bool} {p : List (Fin 16)}
    {t : MerkleTrie} (h : Sound p t) (hc : Cached sha t) (hk : radix.Under p item.index)
    (hnew : ∀ l ∈ t, l.key ≠ item.index) :
    Computes sha {k | k ∈ displacedIndex sha item isTransaction p.length t}
      (addStrings sha item isTransaction p.length t)
      (add sha item isTransaction p.length t) (inserted item isTransaction p.length t) := by
  induction t generalizing p with
  | empty => exact Or.inl rfl
  | leaf l =>
    have hne : item.index ≠ l.key := fun he => hnew l rfl he.symm
    rw [add, if_neg hne]
    have hsplit := @split_computes sha (LeafNode.fresh isTransaction item)
      (LeafNode.fresh isTransaction l.item) hne (64 - p.length) p.length
      (hk.agree radix h.placed) (by omega) l.isTransactionTree
    refine hsplit.mono (Set.empty_subset _) fun x hx => ?_
    rcases List.mem_append.mp hx with hx | hx
    · exact List.mem_append_left _ (List.mem_append_right _ hx)
    · exact List.mem_append_right _ hx
  | inner a c ih =>
    set b := radix.digit item.index p.length with hb
    have hkb : radix.Under (p ++ [b]) item.index := radix.under_snoc.mpr ⟨hk, hb.symm⟩
    have hrec := ih b (h.child b) (fun l hl => hc l ⟨b, hl⟩) hkb fun l hl => hnew l ⟨b, hl⟩
    rw [List.length_append, List.length_singleton] at hrec
    rw [add, selectBranch_of_lt _ (h.shallow rfl), ok_bind]
    refine hrec.bind subset_rfl addStrings_child fun hok => ?_
    refine computes_rebuild fun hfree hz => ?_
    have hold : ∀ x ∈ strings sha (.inner a c),
        x ∈ addStrings sha item isTransaction p.length (.inner a c) := fun x hx =>
      List.mem_append_left _ (List.mem_append_left _ hx)
    have hnew' : ∀ x ∈ strings sha (inserted item isTransaction p.length (.inner a c)),
        x ∈ addStrings sha item isTransaction p.length (.inner a c) := fun x hx =>
      List.mem_append_left _ (List.mem_append_right _ hx)
    obtain ⟨hempty, hdigest⟩ :
        (c b).isEmpty = (inserted item isTransaction (p.length + 1) (c b)).isEmpty ∧
          digest sha (c b) = digest sha (inserted item isTransaction (p.length + 1) (c b)) :=
      branch_eq_of_unchanged hfree (hold _ (mem_strings_inner.mpr (Or.inl rfl)))
        (hnew' _ (mem_strings_inner.mpr (Or.inl rfl))) hz
    refine branch_ne_of_add hfree hok (fun l hl => hc l ⟨b, hl⟩) (fun l hl hkey => ?_)
      (fun x hx => hold x (strings_child b hx)) (fun x hx => hnew' x ?_) hempty hdigest
    · rw [Set.mem_ofPred_eq, displacedIndex, ← hb, hl, displacedIndex]
      rw [hl] at hkey
      rw [if_pos hkey]
      exact List.mem_singleton_self _
    · exact mem_strings_update hx

/-- Inserting an index that is present stops at the assertion. -/
theorem add_present {item : RadixMerkleTreeLeaf} {isTransaction : Bool} {p : List (Fin 16)}
    {t : MerkleTrie} (h : Sound p t) {l : LeafNode}
    (hl : t.find radix LeafNode.key item.index p.length = some l) :
    add sha item isTransaction p.length t = .error .assertion := by
  induction t generalizing p with
  | empty => cases hl
  | leaf l' =>
    obtain ⟨hreach, hkey⟩ := Trie.find_eq_some.mp hl
    cases hreach
    rw [add, if_pos hkey.symm]
  | inner a c ih =>
    have hrec := ih (radix.digit item.index p.length) (h.child _)
    rw [List.length_append, List.length_singleton] at hrec
    rw [add, selectBranch_of_lt _ (h.shallow rfl), ok_bind, hrec hl, error_bind]

/-- Replacing an index that is absent stops at the assertion. -/
theorem update_absent {item : RadixMerkleTreeLeaf} {isTransaction : Bool} {p : List (Fin 16)}
    {t : MerkleTrie} (h : Sound p t) (hl : t.find radix LeafNode.key item.index p.length = none) :
    update sha item isTransaction p.length t = .error .assertion := by
  induction t generalizing p with
  | empty => rfl
  | leaf l =>
    rw [update, if_neg]
    intro hkey
    rw [Trie.find_leaf, if_pos hkey] at hl
    cases hl
  | inner a c ih =>
    have hrec := ih (radix.digit item.index p.length) (h.child _)
    rw [List.length_append, List.length_singleton] at hrec
    rw [update, selectBranch_of_lt _ (h.shallow rfl), ok_bind, hrec hl, error_bind]

/-- An update that reports a change changes the digest. -/
theorem digest_ne_of_changed {item : RadixMerkleTreeLeaf} {isTransaction : Bool} {n : ℕ}
    {t t' : MerkleTrie} (h : update sha item isTransaction n t = .ok (t', true)) :
    digest sha t ≠ digest sha t' := by
  cases t with
  | empty => cases h
  | leaf l =>
    rw [update] at h
    split at h
    · simp only [Except.ok.injEq, Prod.mk.injEq, decide_eq_true_iff] at h
      obtain ⟨rfl, hne⟩ := h
      exact hne
    · cases h
  | inner a c =>
    rw [update] at h
    obtain ⟨b, _, h⟩ := bind_eq_ok.mp h
    obtain ⟨⟨s, changed⟩, _, h⟩ := bind_eq_ok.mp h
    cases changed with
    | false => cases h
    | true =>
      rcases rebuild_cases (digest sha (.inner a c)) a c b s with ⟨hok, hne⟩ | ⟨herr, _⟩
      · rw [if_pos rfl, hok] at h
        cases h
        exact hne
      · rw [if_pos rfl, herr] at h
        cases h

/-- The strings digested by a replacement. -/
def updateStrings (sha : Bytes → Uint256) (item : RadixMerkleTreeLeaf) (isTransaction : Bool)
    (n : ℕ) (t : MerkleTrie) : List Bytes :=
  strings sha t ++ strings sha (replaced sha item isTransaction n t)

theorem updateStrings_child {item : RadixMerkleTreeLeaf} {isTransaction : Bool} {n : ℕ} {a : Bool}
    {c : Fin 16 → MerkleTrie} :
    updateStrings sha item isTransaction (n + 1) (c (radix.digit item.index n)) ⊆
      updateStrings sha item isTransaction n (.inner a c) := by
  intro x hx
  rcases List.mem_append.mp hx with hx | hx
  · exact List.mem_append_left _ (strings_child _ hx)
  · exact List.mem_append_right _ (mem_strings_update hx)

/-- Replacing a present index sets its leaf's item. -/
theorem update_computes {item : RadixMerkleTreeLeaf} {isTransaction : Bool} {p : List (Fin 16)}
    {t : MerkleTrie} (h : Sound p t) {l : LeafNode}
    (hl : t.find radix LeafNode.key item.index p.length = some l) :
    Computes sha (indexes t) (updateStrings sha item isTransaction p.length t)
      (update sha item isTransaction p.length t)
      (replaced sha item isTransaction p.length t,
        decide (l.hash ≠ (l.setItem sha isTransaction item).hash)) := by
  induction t generalizing p with
  | empty => cases hl
  | leaf l' =>
    obtain ⟨hreach, hkey⟩ := Trie.find_eq_some.mp hl
    cases hreach
    refine Or.inl ?_
    rw [update, if_pos hkey]
    rfl
  | inner a c ih =>
    set b := radix.digit item.index p.length with hb
    have hrec := ih b (h.child b)
    rw [List.length_append, List.length_singleton] at hrec
    rw [update, selectBranch_of_lt _ (h.shallow rfl), ok_bind]
    refine (hrec hl).bind (indexes_child b) updateStrings_child fun hok => ?_
    cases hch : decide (l.hash ≠ (l.setItem sha isTransaction item).hash) with
    | false => exact Or.inl rfl
    | true =>
      rw [hch] at hok
      refine Computes.bind (computes_rebuild fun hfree hz => digest_ne_of_changed hok ?_) subset_rfl
        (List.Subset.refl _) fun _ => Or.inl rfl
      refine (branch_eq_of_unchanged hfree ?_ ?_ hz).2
      · exact List.mem_append_left _ (mem_strings_inner.mpr (Or.inl rfl))
      · exact List.mem_append_right _ (mem_strings_inner.mpr (Or.inl rfl))

end MerkleTrie

end Bubi
