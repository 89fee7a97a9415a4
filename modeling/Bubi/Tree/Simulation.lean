import Bubi.Tree.FiniteMap

/-!
# Lazily loaded trees

A tree over its store stands for a trie when its pointer resolves to it. Its changes and
lookups are those of the trie whatever part of it is loaded. Two trees may share a store
as long as their pending nodes differ: what one of them loads is nothing that the other
still needs.
-/

namespace Bubi

open Bubi.Core

namespace MerkleTrie

variable {sha : Bytes → Uint256}

/-- A tree over its store stands for a trie. -/
structure Simulates (sha : Bytes → Uint256) (s : Database × RadixMerkleTreeNode) (t : MerkleTrie) :
    Prop where
  loaded : Loaded s.2
  resolves : Resolves sha s.1 s.2 t
  nodup : (pending sha s.2 t).Nodup

theorem Moves.simulates {db : Database} {n : RadixMerkleTreeNode} {t t' : MerkleTrie}
    {s : Database × RadixMerkleTreeNode} (h : Moves sha db n t s.1 s.2 t') (hl : Loaded s.2) :
    Simulates sha s t' where
  loaded := hl
  resolves := h.resolves
  nodup := h.nodup

theorem simulates_embed (db : Database) {t : MerkleTrie} (ht : t.isEmpty = false) :
    Simulates sha (db, embed sha t) t where
  loaded := loaded_embed ht
  resolves := resolves_embed db t
  nodup := nodup_embed

namespace Simulates

variable {s s' : Database × RadixMerkleTreeNode} {t t' : MerkleTrie}

/-- A tree without pending nodes is fully loaded. -/
theorem eq_embed (h : Simulates sha s t) (hp : pending sha s.2 t = []) : s.2 = embed sha t :=
  h.resolves.eq_embed hp

/-- A fully loaded tree stands for one trie. -/
theorem trie_eq (h : Simulates sha s t) (hp : pending sha s.2 t = []) (h' : Simulates sha s t')
    (hempty : t.isEmpty = t'.isEmpty) : t = t' := by
  have hresolves := h'.resolves
  rw [h.eq_embed hp] at hresolves
  exact hresolves.eq_of_embed hempty

/-- A tree keeps its trie while another one loads nodes from the same store. -/
theorem frame (h : Simulates sha s t) {db' : Database} {xs xs' : List Uint256}
    (hdrains : s.1.Drains xs db' xs') (hd : xs.Disjoint (pending sha s.2 t)) :
    Simulates sha (db', s.2) t where
  loaded := h.loaded
  resolves := h.resolves.congr fun _ hx => hdrains.eq_of_notMem fun hxs => hd hxs hx
  nodup := h.nodup

/-- A change that returns was permitted, and the tree then stands for the changed trie. -/
theorem change_ok (h : Simulates sha s t) (hvalid : Valid sha t) {o : Change}
    (hch : RadixMerkleTree.change sha s o = .ok s') :
    (contents t).Permits o ∧ Loaded s'.2 ∧
      Moves sha s.1 s.2 t s'.1 s'.2 (changed sha t o) := by
  obtain ⟨t', ht', hload, hmoves⟩ :=
    (change_refines h.resolves h.loaded h.nodup o).exists_ok hch
  obtain ⟨ho, rfl⟩ := hvalid.change_ok ht'
  exact ⟨ho, hload, hmoves⟩

/-- A change that the trie admits returns. -/
theorem exists_change (h : Simulates sha s t) {o : Change} (ht : change sha t o = .ok t') :
    ∃ s', RadixMerkleTree.change sha s o = .ok s' ∧ Loaded s'.2 ∧
      Moves sha s.1 s.2 t s'.1 s'.2 t' := by
  have hrel := change_refines h.resolves h.loaded h.nodup o
  rw [ht] at hrel
  exact hrel.exists_left

/-- A change that is not permitted stops at the assertion on its index. -/
theorem change_refused (h : Simulates sha s t) (hvalid : Valid sha t) {o : Change}
    (ho : ¬ (contents t).Permits o) : RadixMerkleTree.change sha s o = .error .assertion := by
  have hrel := change_refines h.resolves h.loaded h.nodup o
  rw [hvalid.change_refused ho] at hrel
  exact hrel.error_right

/-- A change fails at the assertion on its index, or where it finds the hashes unchanged. -/
theorem change_error (h : Simulates sha s t) (hvalid : Valid sha t) {o : Change} {f : Fault}
    (hch : RadixMerkleTree.change sha s o = .error f) :
    f = .unchanged ∨ f = .assertion ∧ ¬ (contents t).Permits o := by
  have hrel := change_refines h.resolves h.loaded h.nodup o
  obtain ⟨db, n⟩ := s
  rw [hch] at hrel
  have htrie : change sha t o = .error f := hrel.error_left
  by_cases ho : (contents t).Permits o
  · rcases hvalid.change_computes ho with hok | ⟨hunchanged, _⟩
    · rw [hok] at htrie
      cases htrie
    · rw [hunchanged] at htrie
      exact Or.inl (Except.error.inj htrie).symm
  · rw [hvalid.change_refused ho] at htrie
    exact Or.inr ⟨(Except.error.inj htrie).symm, ho⟩

/-- A lookup that returns read the contents of the trie. -/
theorem lookup_ok (h : Simulates sha s t) (hvalid : Valid sha t) {α : Type}
    {found : RadixMerkleTreeLeaf → Except Fault α} {hash : Uint256}
    {r : Database × RadixMerkleTreeNode × Option α}
    (hr : RadixMerkleTree.lookup sha found s.1 s.2 hash = .ok r) :
    (match contents t hash with
      | none => r.2.2 = none
      | some item => ∃ v, found item = .ok v ∧ r.2.2 = some v) ∧
      Loaded r.2.1 ∧ Moves sha s.1 s.2 t r.1 r.2.1 t := by
  obtain ⟨v, hv, hrv, hload, hmoves⟩ :=
    (lookup_rel h.resolves h.loaded h.nodup found hash).exists_ok hr
  refine ⟨?_, hload, hmoves⟩
  rw [hvalid.sound.lookup_eq] at hv
  rw [contents, hrv]
  revert hv
  cases t.find radix LeafNode.key hash 0 with
  | none =>
    intro hv
    exact (Except.ok.inj hv).symm
  | some l =>
    intro hv
    change some <$> found l.item = .ok v at hv
    change ∃ w, found l.item = .ok w ∧ v = some w
    cases hfound : found l.item with
    | error f =>
      rw [hfound] at hv
      cases hv
    | ok w =>
      rw [hfound] at hv
      exact ⟨w, rfl, (Except.ok.inj hv).symm⟩

/-- A lookup returns when it can decode the item that it finds. -/
theorem exists_lookup (h : Simulates sha s t) (hvalid : Valid sha t) {α : Type}
    {found : RadixMerkleTreeLeaf → Except Fault α} {hash : Uint256}
    (hfound : ∀ item, contents t hash = some item → ∃ v, found item = .ok v) :
    ∃ r, RadixMerkleTree.lookup sha found s.1 s.2 hash = .ok r := by
  have hrel := lookup_rel h.resolves h.loaded h.nodup found hash
  rw [hvalid.sound.lookup_eq] at hrel
  rw [contents] at hfound
  revert hrel hfound
  cases t.find radix LeafNode.key hash 0 with
  | none =>
    intro hfound hrel
    obtain ⟨r, hr, _⟩ := hrel.exists_left
    exact ⟨r, hr⟩
  | some l =>
    intro hfound hrel
    obtain ⟨v, hv⟩ := hfound l.item rfl
    change Rel _ _ (some <$> found l.item) at hrel
    rw [hv] at hrel
    obtain ⟨r, hr, _⟩ := hrel.exists_left
    exact ⟨r, hr⟩

end Simulates

/-- A permitted change exchanges the weight of the items at its index. -/
theorem Valid.sum_changed {t : MerkleTrie} (h : Valid sha t) {o : Change}
    (ho : (contents t).Permits o) (w : RadixMerkleTreeLeaf → ℚ) :
    (MerkleTrie.changed sha t o).sum (fun l => w l.item) =
      t.sum (fun l => w l.item) - ((contents t o.index).map w).getD 0 + w o.item := by
  cases o with
  | addItem item isTransaction =>
    have hnone : contents t item.index = none := ho
    have hsum := @Trie.Placed.sum_insert _ _ _ _ _ _ _ _ _ _ (fun l : LeafNode => w l.item)
      (policy isTransaction) (LeafNode.fresh isTransaction item) [] t h.sound.placed
      (radix.under_nil _) (h.contents_eq_none.mp hnone) fun _ => rfl
    simp only [Change.index, Change.item, hnone, Option.map_none, Option.getD_none, sub_zero]
    exact hsum
  | updateGivenItem item isTransaction =>
    obtain ⟨l, hl⟩ := exists_find_of_contents ho
    have hold : contents t item.index = some l.item := congrArg (Option.map LeafNode.item) hl
    have hsum := @Trie.sum_modify _ _ _ _ _ _ _ _ _ _ _ (fun l : LeafNode => w l.item) item.index
      (fun l => l.setItem sha isTransaction item) 0 t l hl
    simp only [Change.index, Change.item, hold, Option.map_some, Option.getD_some]
    exact hsum

end MerkleTrie

end Bubi
