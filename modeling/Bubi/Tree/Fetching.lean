import Bubi.Core.TriePath
import Bubi.Tree.Simulation

/-!
# Loading a whole tree

The server loads both trees of its ledger before it serves anybody: a queue of nodes, and
`descend` into every branch that is not empty. A node of the queue is the end of a path
from the root, since `canonicalize` changes it in place. When the queue is empty no node
is left in the store.
-/

namespace Bubi

open Bubi.Core

namespace RadixMerkleTreeNode

/-- The tree after the node at the end of a path has been changed in place. -/
def replace : RadixMerkleTreeNode → List (Fin 16) → RadixMerkleTreeNode → RadixMerkleTreeNode
  | _, [], m => m
  | .node d children, i :: q, m => .node d (Function.update children i ((children i).replace q m))
  | .null, _ :: _, _ => .null

@[simp] theorem replace_nil (n m : RadixMerkleTreeNode) : n.replace [] m = m := by
  cases n <;> rfl

@[simp] theorem follow_nil (n : RadixMerkleTreeNode) : n.follow [] = n := rfl

@[simp] theorem follow_cons_node (i : Fin 16) (q : List (Fin 16)) (d : NodeData)
    (children : Fin 16 → RadixMerkleTreeNode) :
    (node d children).follow (i :: q) = (children i).follow q := rfl

@[simp] theorem follow_null (q : List (Fin 16)) : null.follow q = null := by
  cases q <;> rfl

theorem follow_append (q r : List (Fin 16)) (n : RadixMerkleTreeNode) :
    n.follow (q ++ r) = (n.follow q).follow r := by
  induction q generalizing n with
  | nil => rfl
  | cons i q ih =>
    cases n with
    | null => simp
    | node d children => exact ih (children i)

end RadixMerkleTreeNode

namespace RadixMerkleTree

variable (sha : Bytes → Uint256)

/-- The inner loop of `fetch_from_db` at one branch of the node at the end of a path: the tree,
and the queue with the node that was found. `get_child` asserts that its node is an inner one. -/
def fetchBranch (q : List (Fin 16))
    (p : (Database × RadixMerkleTreeNode) × List (List (Fin 16))) (i : Fin 16) :
    Except Fault ((Database × RadixMerkleTreeNode) × List (List (Fin 16))) :=
  match p.1.2.follow q with
  | .null => .error .nullDeref
  | .node d children =>
    if d.isEmptyBranch i then .ok p
    else if d.isInner then do
      let tmp ← descend sha p.1.1 d children i
      .ok ((tmp.1, p.1.2.replace q (.node d (Function.update children i tmp.2))),
        p.2 ++ [q ++ [i]])
    else .error .assertion

/-- The loop of `fetch_from_db` over its queue, at most the given number of rounds. -/
def fetchLoop : ℕ → Database × RadixMerkleTreeNode → List (List (Fin 16)) →
    Except Fault (Option (Database × RadixMerkleTreeNode))
  | 0, s, que => .ok (if que.isEmpty then some s else none)
  | _ + 1, s, [] => .ok (some s)
  | fuel + 1, s, now :: que => do
    let p ← (List.finRange 16).foldlM (fetchBranch sha now) (s, que)
    fetchLoop fuel p.1 p.2

/-- What `fetch_from_db` does with each of the two trees. -/
def fetchTree (fuel : ℕ) (s : Database × RadixMerkleTreeNode) :
    Except Fault (Option (Database × RadixMerkleTreeNode)) :=
  fetchLoop sha fuel s [[]]

variable {sha}

/-- More rounds make no difference to a loop that has ended. -/
theorem fetchLoop_mono {fuel fuel' : ℕ} {s s' : Database × RadixMerkleTreeNode}
    {que : List (List (Fin 16))} (h : fetchLoop sha fuel s que = .ok (some s'))
    (hle : fuel ≤ fuel') : fetchLoop sha fuel' s que = .ok (some s') := by
  induction fuel generalizing fuel' s que with
  | zero =>
    cases que with
    | nil =>
      cases h
      cases fuel' <;> rfl
    | cons now que => cases h
  | succ fuel ih =>
    cases fuel' with
    | zero => cases hle
    | succ fuel' =>
      cases que with
      | nil => exact h
      | cons now que =>
        obtain ⟨p, hp, h⟩ := bind_eq_ok.mp h
        exact bind_eq_ok.mpr ⟨p, hp, ih h (Nat.le_of_succ_le_succ hle)⟩

end RadixMerkleTree

namespace MerkleTrie

open RadixMerkleTree

variable {sha : Bytes → Uint256} {db db' : Database} {n m : RadixMerkleTreeNode} {t : MerkleTrie}
  {q : List (Fin 16)}

section Paths

theorem not_loaded_null : ¬ Loaded .null := id

/-- The end of a path that is loaded resolves to the subtree there. -/
theorem Resolves.follow (h : Resolves sha db n t) (hq : Loaded (n.follow q)) :
    Resolves sha db (n.follow q) (t.follow q) := by
  induction q generalizing n t with
  | nil => rwa [Trie.follow_nil]
  | cons i q ih =>
    cases t with
    | empty =>
      obtain rfl : n = .null := h
      exact absurd hq (by simp [not_loaded_null])
    | leaf l =>
      rcases h with rfl | ⟨rfl, _⟩
      · exact absurd hq (by simp [RadixMerkleTreeNode.noChildren, not_loaded_null])
      · exact absurd hq (by simp [not_loaded_null])
    | inner a c =>
      rcases h with ⟨children, rfl, hc⟩ | ⟨rfl, _⟩
      · exact ih (hc i) hq
      · exact absurd hq (by simp [not_loaded_null])

/-- What is pending below the end of a path is pending. -/
theorem pending_follow_nodup (hn : (pending sha n t).Nodup) (hq : Loaded (n.follow q)) :
    (pending sha (n.follow q) (t.follow q)).Nodup := by
  induction q generalizing n t with
  | nil => rwa [Trie.follow_nil]
  | cons i q ih =>
    cases n with
    | null => exact absurd hq (by simp [not_loaded_null])
    | node d children =>
      cases t with
      | empty => simp [Trie.follow, pending]
      | leaf l => simp [Trie.follow, pending]
      | inner a c => exact ih ((List.nodup_flatMap.mp hn).1 i (List.mem_finRange i)) hq

/-- A step of the node at the end of a path is a step of the tree. -/
theorem Moves.replace (h : Resolves sha db n t) (hn : (pending sha n t).Nodup)
    (hq : Loaded (n.follow q))
    (hmoves : Moves sha db (n.follow q) (t.follow q) db' m (t.follow q)) :
    Moves sha db n t db' (n.replace q m) t := by
  induction q generalizing n t with
  | nil =>
    rw [Trie.follow_nil] at hmoves
    rwa [RadixMerkleTreeNode.replace_nil]
  | cons i q ih =>
    cases t with
    | empty =>
      obtain rfl : n = .null := h
      exact absurd hq (by simp [not_loaded_null])
    | leaf l =>
      rcases h with rfl | ⟨rfl, _⟩
      · exact absurd hq (by simp [RadixMerkleTreeNode.noChildren, not_loaded_null])
      · exact absurd hq (by simp [not_loaded_null])
    | inner a c =>
      rcases h with ⟨children, rfl, hc⟩ | ⟨rfl, _⟩
      · have hnodup := (List.nodup_flatMap.mp hn).1 i (List.mem_finRange i)
        have hbelow := ih (hc i) hnodup hq hmoves
        have hlift := Moves.lift hc hn hbelow
        rwa [Function.update_eq_self] at hlift
      · exact absurd hq (by simp [not_loaded_null])

/-- The changed node is found where it was changed. -/
theorem follow_replace (hq : Loaded (n.follow q)) : (n.replace q m).follow q = m := by
  induction q generalizing n with
  | nil => simp
  | cons i q ih =>
    cases n with
    | null => exact absurd hq (by simp [not_loaded_null])
    | node d children =>
      rw [RadixMerkleTreeNode.replace, RadixMerkleTreeNode.follow_cons_node, Function.update_self]
      exact ih hq

/-- What is loaded in one tree is loaded in another. -/
def LoadedIn (n n' : RadixMerkleTreeNode) : Prop := ∀ q, Loaded (n.follow q) → Loaded (n'.follow q)

/-- A changed node with all that was loaded below it leaves all of the tree loaded. -/
theorem LoadedIn.replace (h : LoadedIn (n.follow q) m) : LoadedIn n (n.replace q m) := by
  induction q generalizing n with
  | nil => rwa [RadixMerkleTreeNode.replace_nil]
  | cons i q ih =>
    intro r hr
    cases n with
    | null => exact absurd hr (by simp [not_loaded_null])
    | node d children =>
      cases r with
      | nil => trivial
      | cons j r =>
        rw [RadixMerkleTreeNode.replace, RadixMerkleTreeNode.follow_cons_node]
        by_cases hj : j = i
        · subst hj
          rw [Function.update_self]
          exact ih h r hr
        · rwa [Function.update_of_ne hj]

/-- A child that is attached takes nothing out of memory. -/
theorem loadedIn_attach {d : NodeData} {children : Fin 16 → RadixMerkleTreeNode} {i : Fin 16}
    (h : Loaded (children i) → m = children i) :
    LoadedIn (.node d children) (.node d (Function.update children i m)) := by
  rintro (_ | ⟨j, r⟩) hr
  · trivial
  · rw [RadixMerkleTreeNode.follow_cons_node] at hr ⊢
    by_cases hj : j = i
    · subst hj
      cases hchild : children j with
      | null => exact absurd hr (by simp [hchild, not_loaded_null])
      | node e cs =>
        rw [Function.update_self, h (by rw [hchild]; trivial)]
        exact hr
    · rwa [Function.update_of_ne hj]

/-- A tree of which every path is loaded has no pending node. -/
theorem Resolves.pending_eq_nil (h : Resolves sha db n t)
    (hloaded : ∀ q, (t.follow q).isEmpty = false → Loaded (n.follow q)) :
    pending sha n t = [] := by
  induction t generalizing n with
  | empty => cases n <;> rfl
  | leaf l =>
    rcases h with rfl | ⟨rfl, _⟩
    · rfl
    · exact absurd (hloaded [] rfl) not_loaded_null
  | inner a c ih =>
    rcases h with ⟨children, rfl, hc⟩ | ⟨rfl, _⟩
    · refine List.flatMap_eq_nil_iff.mpr fun i _ => ih i (hc i) fun q hq => ?_
      exact hloaded (i :: q) hq
    · exact absurd (hloaded [] rfl) not_loaded_null

end Paths

section Loop

/-- The state of the loop: every node of the trie is loaded, or stands below one of the queue. -/
structure Fetching (sha : Bytes → Uint256) (t : MerkleTrie) (s : Database × RadixMerkleTreeNode)
    (que : List (List (Fin 16))) : Prop where
  simulates : Simulates sha s t
  queued : ∀ q ∈ que, (t.follow q).isEmpty = false ∧ Loaded (s.2.follow q)
  covered : ∀ q, (t.follow q).isEmpty = false → Loaded (s.2.follow q) ∨ ∃ q' ∈ que, q' <+: q

/-- The nodes below the queue. -/
def remaining (sha : Bytes → Uint256) (t : MerkleTrie) (que : List (List (Fin 16))) : ℕ :=
  (que.map fun q => (hashes sha (t.follow q)).length).sum

/-- A leaf has no branches. -/
theorem isEmptyBranch_leaf (l : LeafNode) (i : Fin 16) : l.data.isEmptyBranch i = true := by
  change decide ((0 : BitVec 32) &&& (1#32 <<< i.val) = 0#32) = true
  simp

/-- The nodes that are put into the queue for some branches of a node. -/
def childPaths (t : MerkleTrie) (q : List (Fin 16)) (bs : List (Fin 16)) : List (List (Fin 16)) :=
  (bs.filter fun i => !(t.follow (q ++ [i])).isEmpty).map fun i => q ++ [i]

/-- A node that is loaded already is not fetched again. -/
theorem eq_of_descend {d : NodeData} {children : Fin 16 → RadixMerkleTreeNode} {i : Fin 16}
    (h : descend sha db d children i = .ok (db', m)) (hloaded : Loaded (children i)) :
    m = children i := by
  rw [RadixMerkleTree.descend] at h
  cases hchild : children i with
  | null => exact absurd hloaded (by simp [hchild, not_loaded_null])
  | node e cs =>
    rw [hchild] at h
    cases h
    rfl

/-- A branch of a loaded node is empty exactly if there is nothing below it. -/
theorem Resolves.isEmptyBranch {d : NodeData} {children : Fin 16 → RadixMerkleTreeNode}
    (h : Resolves sha db (.node d children) t) (i : Fin 16) :
    d.isEmptyBranch i = (t.follow [i]).isEmpty := by
  cases t with
  | empty => cases h
  | leaf l =>
    rcases h with hd | ⟨hd, _⟩
    · cases hd
      exact isEmptyBranch_leaf l i
    · cases hd
  | inner a c =>
    rcases h with ⟨_, hd, _⟩ | ⟨hd, _⟩
    · cases hd
      exact (isEmptyBranch_innerData sha a c i).trans (by simp)
    · cases hd

/-- Descending into a branch with something below it attaches its node. -/
theorem Moves.attach {d : NodeData} {children : Fin 16 → RadixMerkleTreeNode} {i : Fin 16}
    (h : Resolves sha db (.node d children) t) (hn : (pending sha (.node d children) t).Nodup)
    (hi : (t.follow [i]).isEmpty = false) :
    d.isInner = true ∧ ∃ db' e cs, descend sha db d children i = .ok (db', .node e cs) ∧
      Moves sha db (.node d children) t db'
        (.node d (Function.update children i (.node e cs))) t := by
  cases t with
  | empty => cases hi
  | leaf l => cases hi
  | inner a c =>
    rcases h with ⟨_, hd, hc⟩ | ⟨hd, _⟩
    · cases hd
      obtain ⟨db', e, cs, hdescend, hmoves⟩ := Moves.of_descend (a := a) (hc i)
        (nodup_branch hn i) (by simpa using hi)
      refine ⟨isInner_innerData a c, db', e, cs, hdescend, ?_⟩
      have hlift := Moves.lift hc hn hmoves
      rwa [Function.update_eq_self] at hlift
    · cases hd

/-- One branch: its node is loaded and put into the queue, unless there is none. -/
theorem Simulates.fetchBranch {s : Database × RadixMerkleTreeNode} (h : Simulates sha s t)
    (hq : Loaded (s.2.follow q)) (que : List (List (Fin 16))) (i : Fin 16) :
    ∃ s', fetchBranch sha q (s, que) i = .ok (s', que ++ childPaths t q [i]) ∧
      Moves sha s.1 s.2 t s'.1 s'.2 t ∧ LoadedIn s.2 s'.2 ∧
      ((t.follow (q ++ [i])).isEmpty = false → Loaded (s'.2.follow (q ++ [i]))) := by
  have hnode := h.resolves.follow hq
  have hnodup := pending_follow_nodup h.nodup hq
  cases hfollow : s.2.follow q with
  | null => exact absurd hq (by simp [hfollow, not_loaded_null])
  | node d children =>
    rw [hfollow] at hnode hnodup
    have hbranch := hnode.isEmptyBranch i
    rw [← Trie.follow_append] at hbranch
    by_cases hempty : (t.follow (q ++ [i])).isEmpty = true
    · refine ⟨s, ?_, .refl h.resolves h.nodup, fun _ hr => hr, fun hne => ?_⟩
      · simp [RadixMerkleTree.fetchBranch, hfollow, hbranch, childPaths, hempty]
      · rw [hempty] at hne
        cases hne
    · rw [Bool.not_eq_true] at hempty
      obtain ⟨hinner, db', e, cs, hdescend, hmoves⟩ := Moves.attach hnode hnodup
        (by rwa [← Trie.follow_append])
      rw [← hfollow] at hmoves
      refine ⟨(db', s.2.replace q (.node d (Function.update children i (.node e cs)))), ?_,
        Moves.replace h.resolves h.nodup hq hmoves, LoadedIn.replace ?_, fun _ => ?_⟩
      · simp [RadixMerkleTree.fetchBranch, hfollow, hbranch, hempty, hinner, hdescend, childPaths,
          ok_bind]
      · rw [hfollow]
        exact loadedIn_attach (eq_of_descend hdescend)
      · rw [RadixMerkleTreeNode.follow_append, follow_replace hq]
        simp [Loaded]

theorem childPaths_cons (q : List (Fin 16)) (i : Fin 16) (bs : List (Fin 16)) :
    childPaths t q (i :: bs) = childPaths t q [i] ++ childPaths t q bs := by
  rw [childPaths, childPaths, childPaths, ← List.map_append, ← List.filter_append,
    List.singleton_append]

theorem mem_childPaths {r : List (Fin 16)} {bs : List (Fin 16)} :
    r ∈ childPaths t q bs ↔ ∃ i ∈ bs, (t.follow (q ++ [i])).isEmpty = false ∧ r = q ++ [i] := by
  simp only [childPaths, List.mem_map, List.mem_filter, Bool.not_eq_true', and_assoc,
    @eq_comm _ r]

/-- All branches of a node: their nodes are loaded and put into the queue. -/
theorem Simulates.fetchBranches (bs : List (Fin 16)) {s : Database × RadixMerkleTreeNode}
    (h : Simulates sha s t) (hq : Loaded (s.2.follow q)) (que : List (List (Fin 16))) :
    ∃ s', bs.foldlM (RadixMerkleTree.fetchBranch sha q) (s, que) =
        .ok (s', que ++ childPaths t q bs) ∧
      Moves sha s.1 s.2 t s'.1 s'.2 t ∧ LoadedIn s.2 s'.2 ∧
      ∀ r ∈ childPaths t q bs, Loaded (s'.2.follow r) := by
  induction bs generalizing s que with
  | nil =>
    refine ⟨s, ?_, .refl h.resolves h.nodup, fun _ hr => hr, ?_⟩
    · simp [childPaths, pure, Except.pure]
    · simp [childPaths]
  | cons i bs ih =>
    obtain ⟨s₁, hbranch, hmoves₁, hloaded₁, hchild⟩ := h.fetchBranch hq que i
    have h₁ := hmoves₁.simulates (hloaded₁ [] h.loaded)
    obtain ⟨s₂, hrest, hmoves₂, hloaded₂, hchildren⟩ :=
      ih h₁ (hloaded₁ q hq) (que ++ childPaths t q [i])
    refine ⟨s₂, ?_, hmoves₁.trans hmoves₂, fun r hr => hloaded₂ r (hloaded₁ r hr), ?_⟩
    · rw [List.foldlM_cons, hbranch, ok_bind, hrest, List.append_assoc, ← childPaths_cons]
    · intro r hr
      rw [childPaths_cons, List.mem_append] at hr
      rcases hr with hr | hr
      · obtain ⟨j, hj, hne, rfl⟩ := mem_childPaths.mp hr
        rw [List.mem_singleton.mp hj] at hne ⊢
        exact hloaded₂ _ (hchild hne)
      · exact hchildren r hr

theorem remaining_cons (q : List (Fin 16)) (que : List (List (Fin 16))) :
    remaining sha t (q :: que) = (hashes sha (t.follow q)).length + remaining sha t que := rfl

theorem remaining_append (que que' : List (List (Fin 16))) :
    remaining sha t (que ++ que') = remaining sha t que + remaining sha t que' := by
  simp [remaining]

/-- An empty branch has no nodes, so it does not matter that it is not put into the queue. -/
theorem remaining_childPaths (q : List (Fin 16)) (bs : List (Fin 16)) :
    remaining sha t (childPaths t q bs) =
      (bs.map fun i => (hashes sha (t.follow (q ++ [i]))).length).sum := by
  induction bs with
  | nil => rfl
  | cons i bs ih =>
    rw [childPaths_cons, remaining_append, ih, List.map_cons, List.sum_cons]
    congr 1
    cases hchild : t.follow (q ++ [i]) <;> simp [remaining, childPaths, hchild, hashes]

/-- The nodes of a subtree are its root and those below its branches. -/
theorem length_hashes_follow (sha : Bytes → Uint256) (h : (t.follow q).isEmpty = false) :
    (hashes sha (t.follow q)).length =
      remaining sha t (childPaths t q (List.finRange 16)) + 1 := by
  rw [remaining_childPaths]
  simp only [Trie.follow_append]
  cases ht : t.follow q with
  | empty =>
    rw [ht] at h
    cases h
  | leaf l => simp [hashes, Trie.follow]
  | inner a c => simp [hashes, List.length_flatMap]

/-- A round of the loop. -/
theorem Fetching.round {s : Database × RadixMerkleTreeNode} {que : List (List (Fin 16))}
    (h : Fetching sha t s (q :: que)) :
    ∃ s', (List.finRange 16).foldlM (RadixMerkleTree.fetchBranch sha q) (s, que) =
        .ok (s', que ++ childPaths t q (List.finRange 16)) ∧
      Moves sha s.1 s.2 t s'.1 s'.2 t ∧
      Fetching sha t s' (que ++ childPaths t q (List.finRange 16)) := by
  obtain ⟨hne, hq⟩ := h.queued q List.mem_cons_self
  obtain ⟨s', hfold, hmoves, hloaded, hchildren⟩ :=
    h.simulates.fetchBranches (List.finRange 16) hq que
  refine ⟨s', hfold, hmoves, hmoves.simulates (hloaded [] h.simulates.loaded), ?_, ?_⟩
  · intro r hr
    rcases List.mem_append.mp hr with hr | hr
    · obtain ⟨hr', hl⟩ := h.queued r (List.mem_cons_of_mem q hr)
      exact ⟨hr', hloaded r hl⟩
    · obtain ⟨i, _, hr', rfl⟩ := mem_childPaths.mp hr
      exact ⟨hr', hchildren _ hr⟩
  · intro r hr
    rcases h.covered r hr with hl | ⟨q', hq', hpre⟩
    · exact .inl (hloaded r hl)
    rcases List.mem_cons.mp hq' with rfl | hq'
    · obtain ⟨u, rfl⟩ := hpre
      cases u with
      | nil =>
        rw [List.append_nil]
        exact .inl (hloaded _ hq)
      | cons i u =>
        refine .inr ⟨q' ++ [i], List.mem_append.mpr (.inr (mem_childPaths.mpr ?_)), u, ?_⟩
        · refine ⟨i, List.mem_finRange i, ?_, rfl⟩
          by_contra hcon
          rw [Bool.not_eq_false] at hcon
          rw [List.append_cons, Trie.follow_append, Trie.isEmpty_iff.mp hcon] at hr
          simp at hr
        · rw [List.append_assoc, List.singleton_append]
    · exact .inr ⟨q', List.mem_append.mpr (.inl hq'), hpre⟩

/-- With an empty queue everything is loaded. -/
theorem Fetching.eq_embed {s : Database × RadixMerkleTreeNode} (h : Fetching sha t s []) :
    s.2 = embed sha t := by
  refine h.simulates.eq_embed (h.simulates.resolves.pending_eq_nil fun q hq => ?_)
  rcases h.covered q hq with hl | ⟨q', hq', _⟩
  · exact hl
  · cases hq'

/-- The loop ends when every node was taken out of the queue once, with a tree that is fully
loaded. -/
theorem Fetching.loop {fuel : ℕ} {s : Database × RadixMerkleTreeNode}
    {que : List (List (Fin 16))} (h : Fetching sha t s que)
    (hfuel : remaining sha t que ≤ fuel) :
    ∃ s', fetchLoop sha fuel s que = .ok (some s') ∧ Moves sha s.1 s.2 t s'.1 s'.2 t ∧
      s'.2 = embed sha t := by
  induction fuel generalizing s que with
  | zero =>
    cases que with
    | nil => exact ⟨s, rfl, .refl h.simulates.resolves h.simulates.nodup, h.eq_embed⟩
    | cons q que =>
      have hroot := length_hashes_follow sha (h.queued q List.mem_cons_self).1
      rw [remaining_cons] at hfuel
      omega
  | succ fuel ih =>
    cases que with
    | nil => exact ⟨s, rfl, .refl h.simulates.resolves h.simulates.nodup, h.eq_embed⟩
    | cons q que =>
      obtain ⟨s₁, hround, hmoves₁, h₁⟩ := h.round
      have hroot := length_hashes_follow sha (h.queued q List.mem_cons_self).1
      rw [remaining_cons] at hfuel
      obtain ⟨s₂, hloop, hmoves₂, hloaded⟩ := ih h₁ (by rw [remaining_append]; omega)
      refine ⟨s₂, ?_, hmoves₁.trans hmoves₂, hloaded⟩
      rw [fetchLoop, hround, ok_bind, hloop]

/-- `fetch_from_db` ends on every tree, and loads all of it. -/
theorem Simulates.fetchTree {fuel : ℕ} {s : Database × RadixMerkleTreeNode}
    (h : Simulates sha s t) (hempty : t.isEmpty = false) (hfuel : (hashes sha t).length ≤ fuel) :
    ∃ s', fetchTree sha fuel s = .ok (some s') ∧ Moves sha s.1 s.2 t s'.1 s'.2 t ∧
      s'.2 = embed sha t := by
  refine Fetching.loop ⟨h, ?_, ?_⟩ ?_
  · intro q hq
    rw [List.mem_singleton.mp hq, Trie.follow_nil]
    exact ⟨hempty, h.loaded⟩
  · exact fun q _ => .inr ⟨[], List.mem_singleton_self [], List.nil_prefix⟩
  · simpa [remaining, Trie.follow_nil] using hfuel

end Loop

end MerkleTrie

end Bubi
