import Bubi.Tree.Reload

/-!
# Every call on a tree returns

As long as the digest does not confuse the strings that it is given, no assertion of
`radix_merkle_tree.cpp` fails and no loop leaves the 64 half-bytes of an index: additions
of new indexes, updates of present ones, lookups and backups all return, from every tree
that such calls lead to. A reload, which reads the nodes back under their hashes, also
needs these hashes to be distinct.
-/

namespace Bubi

open Bubi.Core

/-- The changes among the calls. -/
def Call.changes : List Call → List Change
  | [] => []
  | .change o :: cs => o :: changes cs
  | _ :: cs => changes cs

/-- A run of calls on a tree over its store. -/
def RadixMerkleTree.runCalls (sha : Bytes → Uint256) {α : Type} (unserializer : Bytes → α)
    (s : Database × RadixMerkleTreeNode) (cs : List Call) :
    Except Fault (Database × RadixMerkleTreeNode) :=
  cs.foldlM (fun s c => do
    let r ← call sha unserializer s c
    .ok r.1) s

namespace MerkleTrie

/-- The trie after a call. -/
def after (sha : Bytes → Uint256) (t : MerkleTrie) : Call → MerkleTrie
  | .change o => changed sha t o
  | _ => t

variable {sha : Bytes → Uint256} {α : Type} {unserializer : Bytes → α}
  {s : Database × RadixMerkleTreeNode} {t : MerkleTrie} {c : Call} {cs : List Call}

/-- A call on a valid trie returns, a change where it is permitted. -/
theorem Valid.call_ok (h : Valid sha t)
    (hc : ∀ o, c = .change o → (contents t).Permits o ∧
      CollisionFree sha (indexes t) {x | x ∈ changeStrings sha t o}) :
    ∃ answer, MerkleTrie.call sha unserializer t c = .ok (after sha t c, answer) := by
  cases c with
  | change o =>
    obtain ⟨ho, hcf⟩ := hc o rfl
    rcases h.change_computes ho with hok | ⟨_, hno⟩
    · exact ⟨_, bind_eq_ok.mpr ⟨_, hok, rfl⟩⟩
    · exact absurd hcf hno
  | hasItem hash =>
    obtain ⟨r, hr⟩ := h.exists_lookup (fun _ => ()) hash
    exact ⟨_, bind_eq_ok.mpr ⟨r, hr, rfl⟩⟩
  | peekItem hash =>
    obtain ⟨r, hr⟩ := h.exists_lookup id hash
    exact ⟨_, bind_eq_ok.mpr ⟨r, hr, rfl⟩⟩
  | getEntry hash =>
    obtain ⟨r, hr⟩ := h.exists_lookup (fun item => unserializer item.data) hash
    exact ⟨_, bind_eq_ok.mpr ⟨r, hr, rfl⟩⟩
  | getHash => exact ⟨_, rfl⟩
  | backup => exact ⟨_, rfl⟩
  | reload => exact ⟨_, rfl⟩

/-- A tree that stands for a valid trie: its nodes can be reloaded, or are never unloaded. -/
structure Serves (sha : Bytes → Uint256) (unserializer : Bytes → α)
    (s : Database × RadixMerkleTreeNode) (t : MerkleTrie) (cs : List Call) : Prop where
  valid : Valid sha t
  tree : (Simulates sha s t ∧ DistinctHashes sha unserializer t cs) ∨
    (s.2 = embed sha t ∧ Call.reload ∉ cs)

/-- The backup of a tree in memory returns. -/
theorem exists_backup (db : Database) (ht : t.isEmpty = false) :
    ∃ db', RadixMerkleTree.backupToDatabase db (embed sha t) = .ok db' := by
  have hload := @loaded_embed sha t ht
  have hshaped := (@resolves_embed sha db t).reached_shaped
  revert hload hshaped
  cases embed sha t with
  | null => exact fun hload _ => hload.elim
  | node d children =>
    intro _ hshaped
    obtain ⟨db', hdb', _⟩ := Database.storeBatch_shaped
      (fun e he => hshaped e ((RadixMerkleTree.backupLoop_root_perm d children).mem_iff.mp he)) db
    exact ⟨db', hdb'⟩

/-- A call returns and leaves a tree that serves the rest of the calls. -/
theorem Serves.call (h : Serves sha unserializer s t (c :: cs))
    (hc : ∀ o, c = .change o → (contents t).Permits o ∧
      CollisionFree sha (indexes t) {x | x ∈ changeStrings sha t o}) :
    ∃ r, RadixMerkleTree.call sha unserializer s c = .ok r ∧
      Serves sha unserializer r.1 (after sha t c) cs := by
  obtain ⟨answer, hcall⟩ := @Valid.call_ok sha α unserializer t c h.valid hc
  have hvalid : Valid sha (after sha t c) := by
    cases c with
    | change o => exact h.valid.changed (hc o rfl).1
    | _ => exact h.valid
  rcases h.tree with ⟨hsim, hn, hrest⟩ | ⟨hembed, hstay⟩
  · have hrel := @Simulates.call sha α unserializer s t hsim hn c
    rw [hcall] at hrel
    obtain ⟨r, hr, hsim', _⟩ := hrel.exists_left
    exact ⟨r, hr, hvalid, Or.inl ⟨hsim', hrest _ hcall⟩⟩
  · obtain ⟨db, n⟩ := s
    obtain rfl : n = embed sha t := hembed
    have htail : Call.reload ∉ cs := fun hmem => hstay (List.mem_cons_of_mem _ hmem)
    have hrel := @call_embed sha α unserializer db t h.valid.isEmpty_eq c
    rw [hcall] at hrel
    obtain ⟨r, hr, hstate, _⟩ := hrel.exists_left
    have hkept : Serves sha unserializer r.1 (after sha t c) cs :=
      ⟨hvalid, Or.inr ⟨congrArg Prod.snd hstate, htail⟩⟩
    cases c with
    | backup =>
      obtain ⟨db', hdb'⟩ := @exists_backup sha t db h.valid.isEmpty_eq
      exact ⟨((db', embed sha t), .done), bind_eq_ok.mpr ⟨db', hdb', rfl⟩, h.valid,
        Or.inr ⟨rfl, htail⟩⟩
    | reload => exact absurd List.mem_cons_self hstay
    | change o => exact ⟨r, hr, hkept⟩
    | hasItem hash => exact ⟨r, hr, hkept⟩
    | peekItem hash => exact ⟨r, hr, hkept⟩
    | getEntry hash => exact ⟨r, hr, hkept⟩
    | getHash => exact ⟨r, hr, hkept⟩

/-- A run returns when its changes are permitted and meet no coincidence of digests. -/
theorem Serves.run (h : Serves sha unserializer s t cs)
    (hpermits : (contents t).PermitsAll (Call.changes cs)) {K : Set Uint256} {S : Set Bytes}
    (hcf : CollisionFree sha K S) (hK : indexes t ⊆ K)
    (hindex : ∀ k ∈ (Call.changes cs).map Change.index, k ∈ K)
    (hS : ∀ x ∈ runStrings sha t (Call.changes cs), x ∈ S) :
    ∃ s', RadixMerkleTree.runCalls sha unserializer s cs = .ok s' := by
  induction cs generalizing s t with
  | nil => exact ⟨s, rfl⟩
  | cons c cs ih =>
    have hchange : ∀ o, c = .change o → (contents t).Permits o ∧
        CollisionFree sha (indexes t) {x | x ∈ changeStrings sha t o} := by
      rintro o rfl
      exact ⟨hpermits.1, hcf.mono hK fun x hx => hS x (List.mem_append_left _ hx)⟩
    obtain ⟨r, hr, hserves⟩ := h.call hchange
    have hrest : ∃ s', RadixMerkleTree.runCalls sha unserializer r.1 cs = .ok s' := by
      cases c with
      | change o =>
        refine ih hserves ?_ ?_ ?_ fun x hx => hS x (List.mem_append_right _ hx)
        · rw [after, h.valid.contents_changed hpermits.1]
          exact hpermits.2
        · exact h.valid.indexes_changed hpermits.1 hK (hindex _ List.mem_cons_self)
        · exact fun k hk => hindex k (List.mem_cons_of_mem _ hk)
      | _ => exact ih hserves hpermits hK hindex hS
    obtain ⟨s', hs'⟩ := hrest
    exact ⟨s', foldlM_cons_ok.mpr ⟨r.1, bind_eq_ok.mpr ⟨r, hr, rfl⟩, hs'⟩⟩

end MerkleTrie

/-- From a new tree any calls return: additions of new indexes, updates of present ones,
lookups, backups, and reloads while no two nodes carry the same hash. None of them stops at an
assertion, and none reads a half-byte behind the index, since `select_branch` does so at every
depth above 63. Assumed: the digest is injective on the strings that it is given and never
zero or an index. -/
theorem tree_calls_return (sha : Bytes → Uint256) (db : Database) (isTransactionTree : Bool)
    {α : Type} (unserializer : Bytes → α) (cs : List Call)
    (hpermits : Contents.none.PermitsAll (Call.changes cs))
    (hreload : Call.reload ∈ cs → RadixMerkleTree.DistinctHashes sha unserializer
      (db, RadixMerkleTree.new sha isTransactionTree) (cs.map Call.stay))
    (hcf : CollisionFree sha {k | k ∈ (Call.changes cs).map Change.index}
      {x | x ∈ MerkleTrie.runStrings sha (MerkleTrie.new isTransactionTree) (Call.changes cs)}) :
    (∃ s, RadixMerkleTree.runCalls sha unserializer
        (db, RadixMerkleTree.new sha isTransactionTree) cs = .ok s) ∧
      ∀ hash depth, (∃ branch, selectBranch hash depth = .ok branch) ↔ depth ≤ 63 := by
  have hvalid := @MerkleTrie.valid_new sha isTransactionTree
  have hserves : MerkleTrie.Serves sha unserializer
      (db, RadixMerkleTree.new sha isTransactionTree) (MerkleTrie.new isTransactionTree) cs := by
    refine ⟨hvalid, ?_⟩
    rw [MerkleTrie.new_eq] at hreload ⊢
    by_cases hmem : Call.reload ∈ cs
    · exact Or.inl ⟨MerkleTrie.simulates_embed db hvalid.isEmpty_eq,
        MerkleTrie.distinctHashes_of_embed hvalid.isEmpty_eq (hreload hmem)⟩
    · exact Or.inr ⟨rfl, hmem⟩
  refine ⟨hserves.run hpermits hcf ?_ (fun _ hk => hk) fun _ hx => hx, fun hash depth => ?_⟩
  · rw [MerkleTrie.indexes_new]
    exact Set.empty_subset _
  · constructor
    · rintro ⟨branch, hbranch⟩
      by_contra hdepth
      rw [selectBranch_of_ge hash (by omega)] at hbranch
      cases hbranch
    · exact fun hdepth => ⟨_, selectBranch_of_lt hash (by omega)⟩

theorem sampleCalls_return :
    ∃ s, RadixMerkleTree.runCalls checksum id (fun _ => none, RadixMerkleTree.new checksum false)
      sampleCalls = .ok s :=
  (tree_calls_return checksum (fun _ => none) false id sampleCalls (by decide)
    (fun _ => by decide +kernel) (CollisionFree.of_list (by decide +kernel))).1

end Bubi
