import Bubi.Tree.Backup
import Bubi.Tree.Simulation

/-!
# Unloading and reloading

Runs of changes, lookups, backups and reloads of one tree over its own store. A reload
backs the tree up, as its destructor does, and builds a tree from the root hash whose
nodes are fetched when a walk needs them. Every such run simulates the run on the trie,
and the trie does not see backups and reloads.
-/

namespace Bubi

open Bubi.Core

/-- A call on a tree. -/
inductive Call where
  | change (o : Change)
  | hasItem (hash : Uint256)
  | peekItem (hash : Uint256)
  | getEntry (hash : Uint256)
  | getHash
  /-- `backup_to_database`; the tree stays in memory. -/
  | backup
  /-- The destructor, then the constructor from the root hash. -/
  | reload
  deriving DecidableEq

/-- The call that a tree which stays in memory makes instead. -/
def Call.stay : Call → Call
  | backup => getHash
  | reload => getHash
  | c => c

/-- What a call returns. -/
inductive Answer (α : Type) where
  | done
  | present (found : Bool)
  | item (item : Option RadixMerkleTreeLeaf)
  | entry (entry : Option α)

namespace RadixMerkleTree

section Calls

variable (sha : Bytes → Uint256) {α : Type} (unserializer : Bytes → α)

/-- One call on a tree over its store. -/
def call (s : Database × RadixMerkleTreeNode) :
    Call → Except Fault ((Database × RadixMerkleTreeNode) × Answer α)
  | .change o => do
    let s ← change sha s o
    .ok (s, .done)
  | .hasItem hash => do
    let r ← hasItem sha s.1 s.2 hash
    .ok ((r.1, r.2.1), .present r.2.2)
  | .peekItem hash => do
    let r ← peekItem sha s.1 s.2 hash
    .ok ((r.1, r.2.1), .item r.2.2)
  | .getEntry hash => do
    let r ← getEntry sha (fun data => .ok (unserializer data)) s.1 s.2 hash
    .ok ((r.1, r.2.1), .entry r.2.2)
  | .getHash => do
    let _ ← getHash s.2
    .ok (s, .done)
  | .backup => do
    let db ← backupToDatabase s.1 s.2
    .ok ((db, s.2), .done)
  | .reload => do
    let hash ← getHash s.2
    let db ← backupToDatabase s.1 s.2
    let s ← load sha db hash
    .ok (s, .done)

/-- The answers of a run, each with the root hash after its call. -/
def observe (s : Database × RadixMerkleTreeNode) :
    List Call → Except Fault (List (Answer α × Uint256))
  | [] => .ok []
  | c :: cs => do
    let r ← call sha unserializer s c
    let hash ← getHash r.1.2
    let rest ← observe r.1 cs
    .ok ((r.2, hash) :: rest)

/-- No two nodes in memory carry the same hash, before the run and after each of its calls. -/
def DistinctHashes (s : Database × RadixMerkleTreeNode) : List Call → Prop
  | [] => ((reached s.2).map NodeData.hash).Nodup
  | c :: cs =>
    ((reached s.2).map NodeData.hash).Nodup ∧
      match call sha unserializer s c with
      | .ok r => DistinctHashes r.1 cs
      | .error _ => True

instance decidableDistinctHashes (s : Database × RadixMerkleTreeNode) :
    (cs : List Call) → Decidable (DistinctHashes sha unserializer s cs)
  | [] => inferInstanceAs (Decidable (List.Nodup _))
  | c :: cs =>
    have : Decidable (match call sha unserializer s c with
        | .ok r => DistinctHashes sha unserializer r.1 cs
        | .error _ => True) :=
      match call sha unserializer s c with
      | .ok r => decidableDistinctHashes r.1 cs
      | .error _ => isTrue trivial
    inferInstanceAs (Decidable (List.Nodup _ ∧ _))

end Calls

end RadixMerkleTree

namespace MerkleTrie

section Calls

variable (sha : Bytes → Uint256) {α : Type} (unserializer : Bytes → α)

/-- One call on a trie: only a change changes it. -/
def call (t : MerkleTrie) : Call → Except Fault (MerkleTrie × Answer α)
  | .change o => do
    let t ← change sha t o
    .ok (t, .done)
  | .hasItem hash => do
    let r ← lookup (fun _ => .ok ()) hash t
    .ok (t, .present r.isSome)
  | .peekItem hash => do
    let r ← lookup .ok hash t
    .ok (t, .item r)
  | .getEntry hash => do
    let r ← lookup (fun item => .ok (unserializer item.data)) hash t
    .ok (t, .entry r)
  | .getHash => .ok (t, .done)
  | .backup => .ok (t, .done)
  | .reload => .ok (t, .done)

/-- The answers of a run, each with the root hash after its call. -/
def observe (t : MerkleTrie) : List Call → Except Fault (List (Answer α × Uint256))
  | [] => .ok []
  | c :: cs => do
    let r ← call sha unserializer t c
    let rest ← observe r.1 cs
    .ok ((r.2, digest sha r.1) :: rest)

/-- No two nodes carry the same hash, before the run and after each of its calls. -/
def DistinctHashes (t : MerkleTrie) : List Call → Prop
  | [] => (hashes sha t).Nodup
  | c :: cs =>
    (hashes sha t).Nodup ∧ ∀ r, call sha unserializer t c = .ok r → DistinctHashes r.1 cs

end Calls

variable {sha : Bytes → Uint256} {α : Type} {unserializer : Bytes → α}

/-- The trie does not see backups and reloads. -/
theorem call_stay (t : MerkleTrie) (c : Call) :
    call sha unserializer t c.stay = call sha unserializer t c := by
  cases c <;> rfl

theorem observe_stay (t : MerkleTrie) (cs : List Call) :
    observe sha unserializer t (cs.map Call.stay) = observe sha unserializer t cs := by
  induction cs generalizing t with
  | nil => rfl
  | cons c cs ih => simp only [List.map_cons, observe, call_stay, ih]

theorem distinctHashes_stay (t : MerkleTrie) (cs : List Call) :
    DistinctHashes sha unserializer t (cs.map Call.stay) ↔
      DistinctHashes sha unserializer t cs := by
  induction cs generalizing t with
  | nil => rfl
  | cons c cs ih => simp only [List.map_cons, DistinctHashes, call_stay, ih]

section Step

variable {s : Database × RadixMerkleTreeNode} {t : MerkleTrie}

/-- A call that leaves the tree in memory answers as the trie does. -/
theorem Simulates.call_stay (h : Simulates sha s t) (c : Call) :
    Rel (fun r r' => (Loaded r.1.2 ∧ Moves sha s.1 s.2 t r.1.1 r.1.2 r'.1) ∧ r.2 = r'.2)
      (RadixMerkleTree.call sha unserializer s c.stay) (call sha unserializer t c) := by
  -- The three lookups differ in what they make of the found leaf.
  have hlookup : ∀ {β : Type} (found : RadixMerkleTreeLeaf → Except Fault β) (hash : Uint256)
      (answer : Option β → Answer α),
      Rel (fun r r' => (Loaded r.1.2 ∧ Moves sha s.1 s.2 t r.1.1 r.1.2 r'.1) ∧ r.2 = r'.2)
        (RadixMerkleTree.lookup sha found s.1 s.2 hash >>= fun r =>
          .ok ((r.1, r.2.1), answer r.2.2))
        (lookup found hash t >>= fun r => .ok (t, answer r)) := by
    intro β found hash answer
    refine (lookup_rel h.resolves h.loaded h.nodup found hash).bind fun w r hw => ?_
    obtain ⟨hr, hload, hmoves⟩ := hw
    exact .ok ⟨⟨hload, hmoves⟩, congrArg answer hr⟩
  have hhash : Rel (fun r r' => (Loaded r.1.2 ∧ Moves sha s.1 s.2 t r.1.1 r.1.2 r'.1) ∧ r.2 = r'.2)
      (RadixMerkleTree.getHash s.2 >>= fun _ => .ok (s, .done)) (.ok (t, (.done : Answer α))) := by
    rw [getHash_of_resolves h.loaded h.resolves]
    exact .ok ⟨⟨h.loaded, Moves.refl h.resolves h.nodup⟩, rfl⟩
  cases c with
  | change o =>
    refine (change_refines h.resolves h.loaded h.nodup o).bind fun s' t' hs => ?_
    exact .ok ⟨hs, rfl⟩
  | hasItem hash =>
    have hitem := hlookup (fun _ => .ok ()) hash fun r => .present r.isSome
    have hstay : Call.stay (.hasItem hash) = .hasItem hash := rfl
    rw [hstay, RadixMerkleTree.call, RadixMerkleTree.hasItem, bind_assoc]
    exact hitem
  | peekItem hash => exact hlookup .ok hash .item
  | getEntry hash => exact hlookup (fun item => .ok (unserializer item.data)) hash .entry
  | getHash => exact hhash
  | backup => exact hhash
  | reload => exact hhash

/-- Every call on a tree with distinct hashes answers as the trie does. -/
theorem Simulates.call (h : Simulates sha s t) (hn : (hashes sha t).Nodup) (c : Call) :
    Rel (fun r r' => Simulates sha r.1 r'.1 ∧ r.2 = r'.2)
      (RadixMerkleTree.call sha unserializer s c) (MerkleTrie.call sha unserializer t c) := by
  have hstay := (@Simulates.call_stay sha α unserializer s t h c).mono
    fun r r' hr => And.intro (hr.1.2.simulates hr.1.1) hr.2
  obtain ⟨db', hbackup, hres, hstored, _⟩ := h.resolves.backup_stored h.loaded hn
  cases c with
  | change o => exact hstay
  | hasItem hash => exact hstay
  | peekItem hash => exact hstay
  | getEntry hash => exact hstay
  | getHash => exact hstay
  | backup =>
    rw [RadixMerkleTree.call, hbackup]
    exact .ok ⟨⟨h.loaded, hres, h.nodup⟩, rfl⟩
  | reload =>
    have hnonempty := h.resolves.isEmpty_eq h.loaded
    obtain ⟨d, children, hfetch, hmoves⟩ := Moves.of_stored hnonempty hstored hn
    rw [RadixMerkleTree.call, getHash_of_resolves h.loaded h.resolves, ok_bind, hbackup, ok_bind,
      RadixMerkleTree.load, hfetch]
    exact .ok ⟨⟨trivial, hmoves.resolves, hmoves.nodup⟩, rfl⟩

/-- Every run on a tree with distinct hashes answers as the trie does. -/
theorem Simulates.observe_eq (h : Simulates sha s t) {cs : List Call}
    (hd : DistinctHashes sha unserializer t cs) :
    RadixMerkleTree.observe sha unserializer s cs = observe sha unserializer t cs := by
  induction cs generalizing s t with
  | nil => rfl
  | cons c cs ih =>
    obtain ⟨hn, hrest⟩ := hd
    have hcall := @Simulates.call sha α unserializer s t h hn c
    rw [RadixMerkleTree.observe, observe]
    revert hcall hrest
    generalize RadixMerkleTree.call sha unserializer s c = x
    generalize MerkleTrie.call sha unserializer t c = y
    intro hrest hcall
    cases hcall with
    | error f => rfl
    | @ok r r' hr =>
      obtain ⟨hsim, hanswer⟩ := hr
      rw [ok_bind, ok_bind, getHash_of_resolves hsim.loaded hsim.resolves, ok_bind,
        ih hsim (hrest r' rfl), hanswer]

end Step

/-- A tree in memory and its trie have the same nodes. -/
theorem nodup_reached_embed (t : MerkleTrie) :
    ((RadixMerkleTree.reached (embed sha t)).map NodeData.hash).Nodup ↔ (hashes sha t).Nodup := by
  have hperm := (@resolves_embed sha (fun _ => none) t).hashes_perm
  rw [pending_embed, List.append_nil] at hperm
  exact hperm.nodup_iff

/-- A call that leaves a fully loaded tree in memory is the call on its trie. -/
theorem call_embed {db : Database} {t : MerkleTrie} (ht : t.isEmpty = false) (c : Call) :
    Rel (fun r r' => r.1 = (db, embed sha r'.1) ∧ r'.1.isEmpty = false)
      (RadixMerkleTree.call sha unserializer (db, embed sha t) c.stay)
      (call sha unserializer t c) := by
  refine ((simulates_embed db ht).call_stay c).mono fun r r' hr => ?_
  obtain ⟨⟨hload, hmoves⟩, _⟩ := hr
  obtain ⟨hdb, hn⟩ := hmoves.of_embed
  exact ⟨Prod.ext hdb hn, hmoves.resolves.isEmpty_eq hload⟩

/-- Distinct hashes in a tree that stays in memory are distinct hashes of its trie. -/
theorem distinctHashes_of_embed {db : Database} {t : MerkleTrie} (ht : t.isEmpty = false)
    {cs : List Call}
    (h : RadixMerkleTree.DistinctHashes sha unserializer (db, embed sha t) (cs.map Call.stay)) :
    DistinctHashes sha unserializer t cs := by
  induction cs generalizing t with
  | nil => exact (nodup_reached_embed t).mp h
  | cons c cs ih =>
    obtain ⟨hn, hrest⟩ := h
    refine ⟨(nodup_reached_embed t).mp hn, fun r' hr' => ?_⟩
    have hcall := @call_embed sha α unserializer db t ht c
    rw [hr'] at hcall
    obtain ⟨r, hr, hstate, hempty⟩ := hcall.exists_left
    rw [hr] at hrest
    refine ih hempty ?_
    rw [← hstate]
    exact hrest

/-- A lookup in a valid trie returns. -/
theorem Valid.exists_lookup {t : MerkleTrie} (h : Valid sha t) {β : Type}
    (found : RadixMerkleTreeLeaf → β) (hash : Uint256) :
    ∃ r, lookup (fun item => .ok (found item)) hash t = .ok r := by
  rw [h.sound.lookup_eq]
  cases t.find radix LeafNode.key hash 0 with
  | none => exact ⟨_, rfl⟩
  | some l => exact ⟨_, rfl⟩

/-- A call on a valid trie keeps it valid and never misses a key. -/
theorem Valid.call {t : MerkleTrie} (h : Valid sha t) (c : Call) :
    (∃ r, call sha unserializer t c = .ok r ∧ Valid sha r.1) ∨
      call sha unserializer t c = .error .unchanged ∨
      call sha unserializer t c = .error .assertion := by
  cases c with
  | change o =>
    by_cases ho : (contents t).Permits o
    · rcases h.change_computes ho with hok | ⟨herr, _⟩
      · exact Or.inl ⟨_, by rw [MerkleTrie.call, hok, ok_bind], h.changed ho⟩
      · exact Or.inr (Or.inl (by rw [MerkleTrie.call, herr, error_bind]))
    · exact Or.inr (Or.inr (by rw [MerkleTrie.call, h.change_refused ho, error_bind]))
  | hasItem hash =>
    obtain ⟨r, hr⟩ := h.exists_lookup (fun _ => ()) hash
    exact Or.inl ⟨_, by rw [MerkleTrie.call, hr, ok_bind], h⟩
  | peekItem hash =>
    obtain ⟨r, hr⟩ := h.exists_lookup id hash
    exact Or.inl ⟨_, by rw [MerkleTrie.call]; exact congrArg (· >>= _) hr, h⟩
  | getEntry hash =>
    obtain ⟨r, hr⟩ := h.exists_lookup (fun item => unserializer item.data) hash
    exact Or.inl ⟨_, by rw [MerkleTrie.call, hr, ok_bind], h⟩
  | getHash => exact Or.inl ⟨_, rfl, h⟩
  | backup => exact Or.inl ⟨_, rfl, h⟩
  | reload => exact Or.inl ⟨_, rfl, h⟩

theorem Valid.observe_ne {t : MerkleTrie} (h : Valid sha t) (cs : List Call) :
    observe sha unserializer t cs ≠ .error .missingKey := by
  induction cs generalizing t with
  | nil => simp [observe]
  | cons c cs ih =>
    rw [observe]
    rcases @Valid.call sha α unserializer t h c with ⟨r, hr, hvalid⟩ | herr | herr
    · have hrest := ih hvalid
      rw [hr, ok_bind]
      cases hobs : observe sha unserializer r.1 cs with
      | ok rest => simp
      | error f =>
        rw [hobs] at hrest
        simpa using hrest
    · simp [herr]
    · simp [herr]

end MerkleTrie

/-- Unloading and reloading a tree is invisible. A run of changes, lookups, backups and reloads
on a new tree answers as the same run without its backups and reloads, call by call and
with the same root hash after each call, and no call fetches a missing key. Assumed: at no
point of the run do two nodes of the tree in memory carry the same hash. -/
theorem reload_invisible (sha : Bytes → Uint256) (db : Database) (isTransactionTree : Bool)
    {α : Type} (unserializer : Bytes → α) (calls : List Call)
    (hdistinct : RadixMerkleTree.DistinctHashes sha unserializer
      (db, RadixMerkleTree.new sha isTransactionTree) (calls.map Call.stay)) :
    RadixMerkleTree.observe sha unserializer (db, RadixMerkleTree.new sha isTransactionTree) calls =
      RadixMerkleTree.observe sha unserializer (db, RadixMerkleTree.new sha isTransactionTree)
        (calls.map Call.stay) ∧
    RadixMerkleTree.observe sha unserializer (db, RadixMerkleTree.new sha isTransactionTree) calls ≠
      .error .missingKey := by
  rw [MerkleTrie.new_eq] at hdistinct ⊢
  have hvalid := @MerkleTrie.valid_new sha isTransactionTree
  have hsim := @MerkleTrie.simulates_embed sha db _ hvalid.isEmpty_eq
  have hd := MerkleTrie.distinctHashes_of_embed hvalid.isEmpty_eq hdistinct
  rw [hsim.observe_eq hd, hsim.observe_eq ((MerkleTrie.distinctHashes_stay _ _).mpr hd),
    MerkleTrie.observe_stay]
  exact ⟨rfl, hvalid.observe_ne calls⟩

/-- Two accounts under the same first digits, both unloaded, one of them loaded and updated
before a second reload. -/
def sampleCalls : List Call :=
  [.change (.addItem (.ofByte (Uint256.ofNat (0x1234 * 2 ^ 240)) 1) false),
    .change (.addItem (.ofByte (Uint256.ofNat (0x1256 * 2 ^ 240)) 2) false),
    .reload,
    .change (.updateGivenItem (.ofByte (Uint256.ofNat (0x1234 * 2 ^ 240)) 3) false),
    .reload,
    .getEntry (Uint256.ofNat (0x1234 * 2 ^ 240)),
    .peekItem (Uint256.ofNat (0x1256 * 2 ^ 240))]

theorem sampleCalls_reload_invisible :
    (RadixMerkleTree.observe checksum id (fun _ => none, RadixMerkleTree.new checksum false)
      sampleCalls).isOk = true ∧
    RadixMerkleTree.observe checksum id (fun _ => none, RadixMerkleTree.new checksum false)
        sampleCalls =
      RadixMerkleTree.observe checksum id (fun _ => none, RadixMerkleTree.new checksum false)
        (sampleCalls.map Call.stay) :=
  ⟨by decide +kernel,
    (reload_invisible checksum (fun _ => none) false id sampleCalls (by decide +kernel)).1⟩

end Bubi
