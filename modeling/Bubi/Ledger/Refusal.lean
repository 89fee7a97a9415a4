import Bubi.Ledger.Alike
import Bubi.Ledger.Usage
import Bubi.Tree.Separation

/-!
# Refused transfers

A refused transfer has looked up its two accounts. A lookup moves nodes from the store
into the tree, so the ledger after it differs from the one before, but only in where its
nodes are: no later lookup can tell, as long as no two nodes carry the same hash. Where
two of them do, the store has one record for both, and the lookup that takes it away
for the one leaves the other without.
-/

namespace Bubi

open Bubi.Core

namespace Database

/-- The nodes of a store: each is what `fetch` returns under its hash. -/
def nodes (sha : Bytes → Uint256) (db : Database) : Set NodeData :=
  {d | ∃ db', db.fetch sha d.hash = .ok (db', .node d RadixMerkleTreeNode.noChildren)}

theorem decodeBody_hash {d e : NodeData} {rest : Bytes} (h : d.decodeBody rest = .ok e) :
    e.hash = d.hash := by
  unfold NodeData.decodeBody at h
  split at h
  · split at h <;> cases h
    rfl
  · cases h
  · obtain ⟨index, _, h⟩ := bind_eq_ok.mp h
    split at h <;> cases h
    rfl

/-- A decoded node keeps the hash that it was given. -/
theorem decode_hash {d e : NodeData} {value : Bytes} (h : d.decode value = .ok e) :
    e.hash = d.hash := by
  unfold NodeData.decode at h
  split at h
  · have hhash := decodeBody_hash h
    exact hhash
  · cases h

variable {sha : Bytes → Uint256} {db db' : Database}

/-- A fetched node carries the hash that it was fetched by, and its key alone is deleted. -/
theorem fetch_eq {hash : Uint256} {n : RadixMerkleTreeNode} (h : db.fetch sha hash = .ok (db', n)) :
    ∃ d, n = .node d RadixMerkleTreeNode.noChildren ∧ d.hash = hash ∧
      db' = Function.update db hash.toString none := by
  unfold fetch at h
  split at h
  · cases h
  · obtain ⟨d, hd, h⟩ := bind_eq_ok.mp h
    cases h
    exact ⟨d, rfl, decode_hash hd, rfl⟩

/-- `fetch` takes one node out of the store. -/
theorem mem_nodes_fetch {d e : NodeData}
    (h : db.fetch sha d.hash = .ok (db', .node d RadixMerkleTreeNode.noChildren)) :
    e ∈ db.nodes sha ↔ e = d ∨ e ∈ db'.nodes sha := by
  obtain ⟨_, _, _, rfl⟩ := fetch_eq h
  by_cases hhash : e.hash = d.hash
  · have hgone : ¬ e ∈ nodes sha (Function.update db d.hash.toString none) := by
      rintro ⟨db'', hfetch⟩
      rw [fetch, hhash, Function.update_self] at hfetch
      cases hfetch
    rw [or_iff_left hgone]
    constructor
    · rintro ⟨db'', hfetch⟩
      rw [hhash, h] at hfetch
      cases hfetch
      rfl
    · rintro rfl
      exact ⟨_, h⟩
  · have hne : e ≠ d := fun heq => hhash (congrArg NodeData.hash heq)
    have hkey : e.hash.toString ≠ d.hash.toString := fun heq =>
      hhash (Uint256.toString_injective heq)
    rw [or_iff_right hne]
    unfold nodes
    simp only [Set.mem_ofPred_eq, fetch, Function.update_of_ne hkey]
    cases db e.hash.toString with
    | none => simp
    | some value =>
      cases hd : NodeData.decode { NodeData.ofFlag sha false with hash := e.hash } value with
      | error f => simp [hd]
      | ok d' => simp [hd]

end Database

namespace RadixMerkleTree

variable {sha : Bytes → Uint256} {db : Database}

theorem mem_reached_inner {d e : NodeData} {children : Fin 16 → RadixMerkleTreeNode}
    (hd : d.isInner = true) :
    e ∈ reached (.node d children) ↔ e = d ∨ ∃ i, e ∈ reached (children i) := by
  rw [reached, hd, if_pos rfl, List.mem_cons, List.mem_flatMap]
  simp

theorem mem_reached_update {d e : NodeData} {children : Fin 16 → RadixMerkleTreeNode}
    (hd : d.isInner = true) (branch : Fin 16) (n : RadixMerkleTreeNode) :
    e ∈ reached (.node d (Function.update children branch n)) ↔
      e = d ∨ e ∈ reached n ∨ ∃ i, i ≠ branch ∧ e ∈ reached (children i) := by
  rw [mem_reached_inner hd]
  constructor
  · rintro (hed | ⟨i, hi⟩)
    · exact Or.inl hed
    · by_cases hb : i = branch
      · rw [hb, Function.update_self] at hi
        exact Or.inr (Or.inl hi)
      · rw [Function.update_of_ne hb] at hi
        exact Or.inr (Or.inr ⟨i, hb, hi⟩)
  · rintro (hed | hn | ⟨i, hb, hi⟩)
    · exact Or.inl hed
    · exact Or.inr ⟨branch, by rwa [Function.update_self]⟩
    · exact Or.inr ⟨i, by rwa [Function.update_of_ne hb]⟩

/-- A node that `descend` loads is taken from the store. -/
theorem mem_descend {d e : NodeData} {children : Fin 16 → RadixMerkleTreeNode} {branch : Fin 16}
    {r : Database × RadixMerkleTreeNode} (hr : descend sha db d children branch = .ok r) :
    e ∈ reached r.2 ∨ e ∈ r.1.nodes sha ↔ e ∈ reached (children branch) ∨ e ∈ db.nodes sha := by
  unfold descend at hr
  split at hr
  · next hnull =>
    obtain ⟨db', n⟩ := r
    obtain ⟨d', rfl, hhash, _⟩ := Database.fetch_eq hr
    rw [← hhash] at hr
    have hreached : e ∈ reached (.node d' RadixMerkleTreeNode.noChildren) ↔ e = d' := by
      unfold reached
      split <;> simp [RadixMerkleTreeNode.noChildren, reached]
    rw [hnull, Database.mem_nodes_fetch hr, hreached]
    simp [reached]
  · next hnode =>
    cases hr
    rw [hnode]

/-- A walk keeps the nodes of the tree and the store together. -/
theorem mem_walk {e : NodeData} {hash : Uint256} {fuel : ℕ} {n : RadixMerkleTreeNode} {depth : ℕ}
    {w : Database × RadixMerkleTreeNode × Option NodeData}
    (hw : walk sha hash fuel db n depth = .ok w) :
    e ∈ reached w.2.1 ∨ e ∈ w.1.nodes sha ↔ e ∈ reached n ∨ e ∈ db.nodes sha := by
  induction fuel generalizing db n depth w with
  | zero => cases hw
  | succ fuel ih =>
    cases n with
    | null => cases hw
    | node d children =>
      rw [walk] at hw
      split at hw
      · next hd =>
        obtain ⟨branch, _, hw⟩ := bind_eq_ok.mp hw
        split at hw
        · cases hw
          rfl
        · obtain ⟨r, hr, hw⟩ := bind_eq_ok.mp hw
          obtain ⟨v, hv, hw⟩ := bind_eq_ok.mp hw
          cases hw
          have hbelow := (ih hv).trans (mem_descend hr)
          have hself : Function.update children branch (children branch) = children :=
            Function.update_eq_self branch children
          dsimp only
          rw [← hself, mem_reached_update hd, mem_reached_update hd, hself]
          grind
      · cases hw
        rfl

theorem mem_lookup {α : Type} {found : RadixMerkleTreeLeaf → Except Fault α} {e : NodeData}
    {n : RadixMerkleTreeNode} {hash : Uint256} {r : Database × RadixMerkleTreeNode × Option α}
    (hr : lookup sha found db n hash = .ok r) :
    e ∈ reached r.2.1 ∨ e ∈ r.1.nodes sha ↔ e ∈ reached n ∨ e ∈ db.nodes sha := by
  obtain ⟨w, hw, hr⟩ := bind_eq_ok.mp hr
  obtain ⟨v, _, hr⟩ := bind_eq_ok.mp hr
  cases hr
  exact mem_walk hw

end RadixMerkleTree

namespace Ledger

open MerkleTrie

section Lookups

variable (sha : Bytes → Uint256) (pb : Protobuf)

/-- A lookup in one of the trees of a ledger. -/
inductive Query where
  | hasAccount (hash : Uint256)
  | getAccountEntry (hash : Uint256)
  | getTransactionEntry (hash : Uint256)
  | peekAccount (hash : Uint256)
  | peekTransaction (hash : Uint256)

/-- What a lookup returns. -/
inductive Found where
  | present (value : Bool)
  | account (value : Option Account)
  | transaction (value : Option Transaction)
  | item (value : Option RadixMerkleTreeLeaf)
  deriving DecidableEq

/-- One lookup. -/
def query (s : State) : Query → Except Fault (State × Found)
  | .hasAccount hash => do
    let r ← hasAccount sha s hash
    .ok (r.1, .present r.2)
  | .getAccountEntry hash => do
    let r ← getAccountEntry sha pb s hash
    .ok (r.1, .account r.2)
  | .getTransactionEntry hash => do
    let r ← getTransactionEntry sha pb s hash
    .ok (r.1, .transaction r.2)
  | .peekAccount hash => do
    let r ← RadixMerkleTree.peekItem sha s.1 s.2.accountTree hash
    .ok ((r.1, { s.2 with accountTree := r.2.1 }), .item r.2.2)
  | .peekTransaction hash => do
    let r ← RadixMerkleTree.peekItem sha s.1 s.2.transactionTree hash
    .ok ((r.1, { s.2 with transactionTree := r.2.1 }), .item r.2.2)

/-- Lookups one after the other. -/
def queries (s : State) : List Query → Except Fault (List Found)
  | [] => .ok []
  | q :: qs => do
    let r ← query sha pb s q
    let rest ← queries r.1 qs
    .ok (r.2 :: rest)

/-- The nodes of a ledger, in memory or in the store. -/
def nodes (s : State) : Set NodeData :=
  {d | d ∈ RadixMerkleTree.reached s.2.accountTree ∨
    d ∈ RadixMerkleTree.reached s.2.transactionTree ∨ d ∈ s.1.nodes sha}

/-- Two states of a ledger that no lookup can tell apart, with the same hashes and nodes. -/
structure Unaffected (s s' : State) : Prop where
  lookups : ∀ qs, queries sha pb s' qs = queries sha pb s qs
  accountHash : RadixMerkleTree.getHash s'.2.accountTree = RadixMerkleTree.getHash s.2.accountTree
  transactionHash :
    RadixMerkleTree.getHash s'.2.transactionTree = RadixMerkleTree.getHash s.2.transactionTree
  hash : s'.2.hash = s.2.hash
  nodes : nodes sha s' = nodes sha s

end Lookups

variable {sha : Bytes → Uint256} {pb : Protobuf} {s s' : State}

theorem Alike.hasAccount (h : Alike sha s s') (hash : Uint256) :
    Rel (fun r r' => Alike sha r.1 r'.1 ∧ r.2 = r'.2) (hasAccount sha s hash)
      (hasAccount sha s' hash) := by
  unfold Ledger.hasAccount RadixMerkleTree.hasItem
  simp only [bind_assoc, ok_bind]
  refine (h.lookupAccount _ hash).bind fun r r' hr => ?_
  exact .ok ⟨hr.1, by rw [hr.2]⟩

/-- A lookup finds the same in ledgers that are alike, and leaves them alike. -/
theorem Alike.query (h : Alike sha s s') (q : Query) :
    Rel (fun r r' => Alike sha r.1 r'.1 ∧ r.2 = r'.2) (query sha pb s q) (query sha pb s' q) := by
  cases q with
  | hasAccount hash =>
    refine (h.hasAccount hash).bind fun r r' hr => ?_
    exact .ok ⟨hr.1, by rw [hr.2]⟩
  | getAccountEntry hash =>
    refine (h.getAccountEntry hash).bind fun r r' hr => ?_
    exact .ok ⟨hr.1, by rw [hr.2]⟩
  | getTransactionEntry hash =>
    refine (h.getTransactionEntry hash).bind fun r r' hr => ?_
    exact .ok ⟨hr.1, by rw [hr.2]⟩
  | peekAccount hash =>
    refine (h.lookupAccount _ hash).bind fun r r' hr => ?_
    exact .ok ⟨hr.1, by rw [hr.2]⟩
  | peekTransaction hash =>
    refine (h.lookupTransaction _ hash).bind fun r r' hr => ?_
    exact .ok ⟨hr.1, by rw [hr.2]⟩

/-- No sequence of lookups tells two ledgers apart that are alike. -/
theorem Alike.queries (h : Alike sha s s') (qs : List Query) :
    queries sha pb s qs = queries sha pb s' qs := by
  induction qs generalizing s s' with
  | nil => rfl
  | cons q qs ih =>
    have hrel : Rel (fun r r' => Alike sha r.1 r'.1 ∧ r.2 = r'.2) (Ledger.query sha pb s q)
        (Ledger.query sha pb s' q) := h.query q
    rw [Ledger.queries, Ledger.queries]
    generalize Ledger.query sha pb s q = x at hrel ⊢
    generalize Ledger.query sha pb s' q = y at hrel ⊢
    cases hrel with
    | error e => rfl
    | ok hr => rw [ok_bind, ok_bind, ih hr.1, hr.2]

theorem Alike.getHash (h : Alike sha s s') :
    RadixMerkleTree.getHash s.2.accountTree = RadixMerkleTree.getHash s'.2.accountTree ∧
      RadixMerkleTree.getHash s.2.transactionTree =
        RadixMerkleTree.getHash s'.2.transactionTree := by
  obtain ⟨⟨ta, tt, ht, ht'⟩, _⟩ := h
  exact ⟨(getHash_of_resolves ht.account.loaded ht.account.resolves).trans
      (getHash_of_resolves ht'.account.loaded ht'.account.resolves).symm,
    (getHash_of_resolves ht.transaction.loaded ht.transaction.resolves).trans
      (getHash_of_resolves ht'.transaction.loaded ht'.transaction.resolves).symm⟩

/-- A lookup of an account moves nodes. -/
theorem nodes_getAccountEntry {hash : Uint256} {r : State × Option Account}
    (hr : getAccountEntry sha pb s hash = .ok r) : nodes sha r.1 = nodes sha s := by
  obtain ⟨w, hw, hr⟩ := bind_eq_ok.mp hr
  cases hr
  ext e
  have hmoved := @RadixMerkleTree.mem_lookup sha s.1 Account _ e _ _ _ hw
  change (e ∈ RadixMerkleTree.reached w.2.1 ∨ e ∈ RadixMerkleTree.reached s.2.transactionTree ∨
    e ∈ w.1.nodes sha) ↔ e ∈ RadixMerkleTree.reached s.2.accountTree ∨
    e ∈ RadixMerkleTree.reached s.2.transactionTree ∨ e ∈ s.1.nodes sha
  rw [or_left_comm, hmoved, or_left_comm]

/-- A refused transfer is two lookups. -/
theorem nodes_addTransactionEntry {tx : Transaction} {r : State × Transaction × ℕ}
    (hr : addTransactionEntry sha pb s tx = .ok r) (hcode : r.2.2 ≠ 0) :
    nodes sha r.1 = nodes sha s := by
  obtain ⟨source, destination, hsource, hdestination, ⟨_, hr⟩ | ⟨haccepted, _⟩⟩ :=
    addTransactionEntry_cases hr
  · rw [hr]
    exact (nodes_getAccountEntry hdestination).trans (nodes_getAccountEntry hsource)
  · exact absurd haccepted hcode

/-- In every run in which no two nodes carry the same hash where the process stops, a transfer
for which `add_transaction_entry` returns 1 is atomic in every state reached, whatever part of
the trees is loaded: no later lookups can tell that it was made, and the hashes of both trees
and of the ledger and the nodes in memory and store together are as before. -/
theorem refused_transfer_atomic (sha : Bytes → Uint256) (pb : Protobuf) (db : Database)
    (us : List Usage) (r : State × List Transaction) (hr : runUsages sha pb db us = .ok r)
    (hintact : Intact sha pb db us) (tx : Transaction) (v : State × Transaction × ℕ)
    (hv : addTransactionEntry sha pb r.1 tx = .ok v) (hcode : v.2.2 = 1) :
    Unaffected sha pb r.1 v.1 := by
  obtain ⟨b, ta, tt, h⟩ := runUsages_inUse hr hintact
  have hrefused : v.2.2 ≠ 0 := by omega
  have halike : Alike sha r.1 v.1 := (h.reflects.addTransactionEntry_alike_iff hv).1.mpr hrefused
  exact ⟨fun qs => (halike.queries qs).symm, halike.getHash.1.symm, halike.getHash.2.symm,
    halike.hash.symm, nodes_addTransactionEntry hv hrefused⟩

/-- A payment that its source cannot make, in a reloaded ledger. -/
theorem refused_transfer_savedLedger :
    ∃ r v, runUsages checksum plainProtobuf (fun _ => none) savedLedger = .ok r ∧
      addTransactionEntry checksum plainProtobuf r.1 (samplePayment 1 2 5000) = .ok v ∧
      Unaffected checksum plainProtobuf r.1 v.1 := by
  have hok : (do
      let r ← runUsages checksum plainProtobuf (fun _ => none) savedLedger
      let v ← addTransactionEntry checksum plainProtobuf r.1 (samplePayment 1 2 5000)
      .ok v.2.2) = .ok 1 :=
    eq_ok_of_toOption (by decide +kernel)
  obtain ⟨r, hr, hok⟩ := bind_eq_ok.mp hok
  obtain ⟨v, hv, hok⟩ := bind_eq_ok.mp hok
  exact ⟨r, v, hr, hv, refused_transfer_atomic _ _ _ _ r hr intact_savedLedger _ v hv
    (Except.ok.inj hok)⟩

/-- Two accounts below one inner node. -/
def pairedAccounts : List Step := [.createAccount (sampleName 4), .createAccount (sampleName 11)]

/-- The string that the inner node above the two accounts digests. -/
def nodeName : Bytes :=
  match run checksum plainProtobuf (fun _ => none) pairedAccounts with
  | .ok r => (RadixMerkleTree.digestedList r.1.2.accountTree).getD 1 []
  | .error _ => []

/-- The two accounts, and one with this string as its name. -/
def namedAccounts : List Step := pairedAccounts ++ [Step.createAccount nodeName]

/-- The same, saved and loaded again. -/
def namedLedger : List Usage := namedAccounts.map .step ++ [.restart]

/-- An account whose index is the hash of an inner node: the store keeps the record of the node
for both. After a refused payment between the two accounts below the node the record is gone,
and a lookup of the third account, which returned before, stops at a missing key. The digest
is injective on all that it was given. -/
theorem refused_transfer_takes_record :
    ∃ r₀ r v, run checksum plainProtobuf (fun _ => none) namedAccounts = .ok r₀ ∧
      runUsages checksum plainProtobuf (fun _ => none) namedLedger = .ok r ∧
      addTransactionEntry checksum plainProtobuf r.1 (samplePayment 4 11 5000) = .ok v ∧
      v.2.2 = 1 ∧
      queries checksum plainProtobuf r.1 [.hasAccount (checksum nodeName)] =
        .ok [.present false] ∧
      queries checksum plainProtobuf v.1 [.hasAccount (checksum nodeName)] =
        .error .missingKey ∧
      ∀ x ∈ [sampleName 4, sampleName 11, nodeName] ++
          RadixMerkleTree.digestedList r₀.1.2.accountTree ++
          RadixMerkleTree.digestedList r₀.1.2.transactionTree,
        ∀ y ∈ [sampleName 4, sampleName 11, nodeName] ++
          RadixMerkleTree.digestedList r₀.1.2.accountTree ++
          RadixMerkleTree.digestedList r₀.1.2.transactionTree,
          checksum x = checksum y → x = y := by
  have hok : (do
      let r₀ ← run checksum plainProtobuf (fun _ => none) namedAccounts
      let r ← runUsages checksum plainProtobuf (fun _ => none) namedLedger
      let v ← addTransactionEntry checksum plainProtobuf r.1 (samplePayment 4 11 5000)
      let xs := [sampleName 4, sampleName 11, nodeName] ++
        RadixMerkleTree.digestedList r₀.1.2.accountTree ++
        RadixMerkleTree.digestedList r₀.1.2.transactionTree
      .ok (v.2.2,
        (queries checksum plainProtobuf r.1 [.hasAccount (checksum nodeName)]).toOption,
        fault (queries checksum plainProtobuf v.1 [.hasAccount (checksum nodeName)]),
        decide (∀ x ∈ xs, ∀ y ∈ xs, checksum x = checksum y → x = y))) =
      .ok (1, some [.present false], some .missingKey, true) :=
    eq_ok_of_toOption (by decide +kernel)
  obtain ⟨r₀, hr₀, hok⟩ := bind_eq_ok.mp hok
  obtain ⟨r, hr, hok⟩ := bind_eq_ok.mp hok
  obtain ⟨v, hv, hok⟩ := bind_eq_ok.mp hok
  simp only [Except.ok.injEq, Prod.mk.injEq] at hok
  obtain ⟨hcode, hbefore, hafter, hinj⟩ := hok
  exact ⟨r₀, r, v, hr₀, hr, hv, hcode, eq_ok_of_toOption hbefore, eq_error_of_fault hafter,
    of_decide_eq_true hinj⟩

end Ledger

end Bubi
