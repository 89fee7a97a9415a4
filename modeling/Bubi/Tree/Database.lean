import Bubi.Tree.Node

/-!
# Stored nodes

`encode` writes a node without lengths or hashes: the key of the store is the printed
`hash_`, and `decode` recovers a leaf's data from what is left of the value. `fetch`
moves a node from the store into memory, so a fetched key is gone from the store: while
trees load their nodes, the store drains.
-/

namespace Bubi

namespace NodeData

/-- `RadixMerkleTreeNode::encode`. -/
def encode (d : NodeData) : Except Fault Bytes :=
  match d.type, d.item with
  | .innerNode, _ => .ok (d.header ++ d.childrenBytes)
  | .transactionLeaf, some item => .ok (d.header ++ item.index.data ++ item.data)
  | .accountLeaf, some item => .ok (d.header ++ item.index.data ++ item.data)
  | .transactionLeaf, none => .error .nullDeref
  | .accountLeaf, none => .error .nullDeref
  | .error, _ => .error .assertion

/-- The enumerator with a given value; other values are as good as `TREE_NODE_TYPE_ERROR`. -/
def typeOfCode (v : BitVec 32) : TreeNodeType :=
  if v = 1 then .innerNode else if v = 2 then .transactionLeaf
  else if v = 3 then .accountLeaf else .error

/-- The sixteen hashes at the fixed offsets `32 * i` of a long enough value. -/
def hashesAt (rest : Bytes) (h : 512 ≤ rest.length) (i : Fin 16) : Uint256 :=
  ⟨(rest.drop (32 * i.val)).take 32, by
    rw [List.length_take, List.length_drop]
    have := i.isLt
    omega⟩

/-- The part of `decode` behind the three leading fields. -/
def decodeBody (d : NodeData) (rest : Bytes) : Except Fault NodeData :=
  match d.type with
  | .innerNode =>
    if h : 512 ≤ rest.length then .ok { d with childrenHash := hashesAt rest h }
    else .error .outOfRange
  | .error => .error .assertion
  | _ => do
    let index ← Uint256.init rest
    if h : (rest.drop 32).length < 2 ^ 31 then
      .ok { d with item := some ⟨index, rest.drop 32, h⟩ }
    else .error .outOfRange

/-- `RadixMerkleTreeNode::decode` into an existing node. -/
def decode (d : NodeData) (value : Bytes) : Except Fault NodeData :=
  match value with
  | flag :: t0 :: t1 :: t2 :: t3 :: m0 :: m1 :: m2 :: m3 :: rest =>
    decodeBody
      { d with
        isTransactionTree := flag ≠ 0
        type := typeOfCode (value32 t0 t1 t2 t3)
        branchMask := value32 m0 m1 m2 m3 } rest
  | _ => .error .outOfRange

/-- The records that the tree stores: no item in an inner node, no child hashes in a leaf. -/
def Shaped (d : NodeData) : Prop :=
  match d.type with
  | .innerNode => d.item = none
  | .error => False
  | _ => d.item.isSome ∧ d.childrenHash = fun _ => Uint256.zero

theorem typeOfCode_code (t : TreeNodeType) : typeOfCode t.code = t := by
  cases t <;> rfl

/-- A row of blocks read at its fixed offsets. -/
theorem hashesAt_childrenBytes (d : NodeData) (h : 512 ≤ d.childrenBytes.length) :
    hashesAt d.childrenBytes h = d.childrenHash := by
  funext i
  apply Uint256.ext
  change (d.childrenBytes.drop (32 * i.val)).take 32 = _
  have hblocks : ∀ (l : List (Fin 16)) (n : ℕ) (hn : n < l.length),
      ((l.flatMap fun j => (d.childrenHash j).data).drop (32 * n)).take 32 =
        (d.childrenHash l[n]).data := by
    intro l
    induction l with
    | nil => intro n hn; simp at hn
    | cons x l ih =>
      intro n hn
      have hx := (d.childrenHash x).length_data
      cases n with
      | zero =>
        rw [List.flatMap_cons, Nat.mul_zero, List.drop_zero, List.take_left' hx]
        rfl
      | succ n =>
        have hsplit : 32 * (n + 1) = (d.childrenHash x).data.length + 32 * n := by omega
        rw [List.flatMap_cons, hsplit, List.drop_length_add_append]
        exact ih n (by simpa using hn)
  have hi := hblocks (List.finRange 16) i.val (by simp)
  rw [childrenBytes, hi, List.getElem_finRange]
  rfl

/-- The leading fields of an encoded node are read back at their offsets. -/
theorem decode_header (d e : NodeData) (rest : Bytes) :
    decode d (e.header ++ rest) =
      decodeBody { d with
        isTransactionTree := e.isTransactionTree, type := e.type,
        branchMask := e.branchMask } rest := by
  have hflag : (decide ((if e.isTransactionTree then (1 : UInt8) else 0) ≠ 0)) =
      e.isTransactionTree := by
    cases e.isTransactionTree <;> rfl
  simp only [header, rawBool, raw32, List.cons_append, List.nil_append, decode, value32_raw32,
    typeOfCode_code, hflag]

/-- A leaf's record is its header, the index and the data, whichever the leaf type. -/
theorem decode_leaf (sha : Bytes → Uint256) (hash : Uint256) (leaf : RadixMerkleTreeLeaf)
    (flag : Bool) {type : TreeNodeType} (htype : type = .transactionLeaf ∨ type = .accountLeaf)
    (mask : BitVec 32) {d : NodeData}
    (hd : d = ⟨hash, fun _ => Uint256.zero, some leaf, flag, type, mask⟩) :
    decode { ofFlag sha false with hash := hash }
      (d.header ++ (leaf.index.data ++ leaf.data)) = .ok d := by
  have hinit : Uint256.init (leaf.index.data ++ leaf.data) = .ok leaf.index :=
    Uint256.init_append _ _
  have hdrop : (leaf.index.data ++ leaf.data).drop 32 = leaf.data :=
    List.drop_left' leaf.index.length_data
  subst hd
  rw [decode_header, decodeBody]
  rcases htype with rfl | rfl
  · simp only [hinit, hdrop, Core.ok_bind, dif_pos leaf.length_lt]
    rfl
  · simp only [hinit, hdrop, Core.ok_bind, dif_pos leaf.length_lt]
    rfl

/-- Decoding an encoded record restores it, in a fresh node that carries its hash. -/
theorem decode_encode (sha : Bytes → Uint256) {d : NodeData} (hd : d.Shaped) {value : Bytes}
    (h : d.encode = .ok value) : decode { ofFlag sha false with hash := d.hash } value = .ok d := by
  obtain ⟨hash, childrenHash, item, flag, type, mask⟩ := d
  cases type with
  | error => exact hd.elim
  | innerNode =>
    obtain rfl : item = none := hd
    obtain rfl := Except.ok.inj h
    rw [decode_header, decodeBody]
    have hlen :
        512 ≤ (NodeData.mk hash childrenHash none flag .innerNode mask).childrenBytes.length :=
      (childrenBytes_length _).ge
    simp only [dif_pos hlen, hashesAt_childrenBytes]
    rfl
  | transactionLeaf =>
    obtain ⟨hsome, rfl⟩ := hd
    obtain ⟨leaf, rfl⟩ := Option.isSome_iff_exists.mp hsome
    obtain rfl := Except.ok.inj h
    rw [List.append_assoc]
    exact decode_leaf sha hash leaf flag (Or.inl rfl) mask rfl
  | accountLeaf =>
    obtain ⟨hsome, rfl⟩ := hd
    obtain ⟨leaf, rfl⟩ := Option.isSome_iff_exists.mp hsome
    obtain rfl := Except.ok.inj h
    rw [List.append_assoc]
    exact decode_leaf sha hash leaf flag (Or.inr rfl) mask rfl

/-- A shaped record can be encoded. -/
theorem Shaped.exists_encode {d : NodeData} (hd : d.Shaped) : ∃ value, d.encode = .ok value := by
  obtain ⟨hash, childrenHash, item, flag, type, mask⟩ := d
  cases type with
  | error => exact hd.elim
  | innerNode => exact ⟨_, rfl⟩
  | transactionLeaf =>
    obtain ⟨leaf, rfl⟩ := Option.isSome_iff_exists.mp hd.1
    exact ⟨_, rfl⟩
  | accountLeaf =>
    obtain ⟨leaf, rfl⟩ := Option.isSome_iff_exists.mp hd.1
    exact ⟨_, rfl⟩

end NodeData

/-- The store: an exact map from keys to values. -/
abbrev Database := Bytes → Option Bytes

namespace Database

/-- `RocksdbImp::fetch`: a found key is deleted and its value becomes a node in memory. -/
def fetch (sha : Bytes → Uint256) (db : Database) (hash : Uint256) :
    Except Fault (Database × RadixMerkleTreeNode) :=
  match db hash.toString with
  | none => .error .missingKey
  | some value => do
    let d ← NodeData.decode { NodeData.ofFlag sha false with hash } value
    .ok (Function.update db hash.toString none, .node d RadixMerkleTreeNode.noChildren)

/-- One `Put` of a batch, under the key that `EncodeNode::do_encode` prints. The `int` with which
it counts the bytes of the value is left out here. -/
def put (db : Database) (d : NodeData) : Except Fault Database := do
  let value ← d.encode
  .ok (Function.update db d.hash.toString (some value))

/-- `RocksdbImp::store_batch`. -/
def storeBatch (db : Database) (batch : List NodeData) : Except Fault Database :=
  batch.foldlM put db

/-- Fetching a stored record returns it and deletes exactly its key. -/
theorem fetch_stored {sha : Bytes → Uint256} {db : Database} {d : NodeData} (hd : d.Shaped)
    {value : Bytes} (hv : d.encode = .ok value) (hdb : db d.hash.toString = some value) :
    fetch sha db d.hash =
      .ok (Function.update db d.hash.toString none, .node d RadixMerkleTreeNode.noChildren) := by
  rw [fetch, hdb]
  simp only [NodeData.decode_encode sha hd hv, Core.ok_bind]

/-- A batch of shaped records is written; other keys keep their values. -/
theorem storeBatch_shaped {batch : List NodeData} (hb : ∀ d ∈ batch, d.Shaped) (db : Database) :
    ∃ db', storeBatch db batch = .ok db' ∧
      ∀ k, (∀ d ∈ batch, d.hash.toString ≠ k) → db' k = db k := by
  induction batch generalizing db with
  | nil => exact ⟨db, rfl, fun _ _ => rfl⟩
  | cons d batch ih =>
    obtain ⟨value, hv⟩ := (hb d (by simp)).exists_encode
    obtain ⟨db', hdb', hkeep⟩ := ih (fun e he => hb e (by simp [he]))
      (Function.update db d.hash.toString (some value))
    refine ⟨db', ?_, fun k hk => ?_⟩
    · rw [storeBatch, List.foldlM_cons, put, hv]
      exact hdb'
    · rw [hkeep k fun e he => hk e (by simp [he]),
        Function.update_of_ne (Ne.symm (hk d (by simp)))]

/-- A batch without repeated hashes stores each of its records. -/
theorem storeBatch_mem {batch : List NodeData} (hb : ∀ d ∈ batch, d.Shaped)
    (hn : (batch.map NodeData.hash).Nodup) {db db' : Database}
    (h : storeBatch db batch = .ok db') {d : NodeData} (hd : d ∈ batch) {value : Bytes}
    (hv : d.encode = .ok value) : db' d.hash.toString = some value := by
  induction batch generalizing db with
  | nil => simp at hd
  | cons e batch ih =>
    obtain ⟨hnot, hn⟩ := List.nodup_cons.mp hn
    obtain ⟨mid, hmid, hrest⟩ := Core.foldlM_cons_ok.mp h
    rcases List.mem_cons.mp hd with rfl | hd
    · rw [put, hv] at hmid
      obtain rfl := Except.ok.inj hmid
      obtain ⟨db'', hdb'', hkeep⟩ := @storeBatch_shaped batch
        (fun x hx => hb x (by simp [hx])) (Function.update db d.hash.toString (some value))
      obtain rfl : db'' = db' := Except.ok.inj (hdb''.symm.trans hrest)
      rw [hkeep _ fun x hx he => hnot (List.mem_map.mpr ⟨x, hx, Uint256.toString_injective he⟩),
        Function.update_self]
    · exact ih (fun x hx => hb x (by simp [hx])) hn hrest hd

/-- A store after some of the given keys, no others, were taken out of it. -/
structure Drains (db : Database) (xs : List Uint256) (db' : Database) (xs' : List Uint256) :
    Prop where
  /-- No key comes back. -/
  sub : xs' ⊆ xs
  /-- A key that was not taken keeps its value. -/
  kept : ∀ k, (∀ x ∈ xs, x.toString = k → x ∈ xs') → db' k = db k
  /-- A taken key is gone. -/
  gone : ∀ x ∈ xs, x ∉ xs' → db' x.toString = none

namespace Drains

variable {db db' db'' : Database} {xs xs' xs'' ys : List Uint256}

theorem refl (db : Database) (xs : List Uint256) : Drains db xs db xs where
  sub := List.Subset.refl _
  kept := fun _ _ => rfl
  gone := fun _ hx hx' => absurd hx hx'

theorem trans (h : Drains db xs db' xs') (h' : Drains db' xs' db'' xs'') :
    Drains db xs db'' xs'' where
  sub := List.Subset.trans h'.sub h.sub
  kept := by
    intro k hk
    have hlast : db'' k = db' k := h'.kept k fun x hx hxk => hk x (h.sub hx) hxk
    have hfirst : db' k = db k := h.kept k fun x hx hxk => h'.sub (hk x hx hxk)
    exact hlast.trans hfirst
  gone := by
    intro x hx hx''
    by_cases hx' : x ∈ xs'
    · exact h'.gone x hx' hx''
    · have hlast : db'' x.toString = db' x.toString := by
        refine h'.kept _ fun y hy hyx => ?_
        rw [Uint256.toString_injective hyx] at hy
        exact absurd hy hx'
      rw [hlast, h.gone x hx hx']

/-- A key outside the given ones keeps its value. -/
theorem eq_of_notMem (h : Drains db xs db' xs') {x : Uint256} (hx : x ∉ xs) :
    db' x.toString = db x.toString := by
  refine h.kept _ fun y hy hyx => ?_
  rw [Uint256.toString_injective hyx] at hy
  exact absurd hy hx

/-- Keys that are disjoint from the given ones stay along. -/
theorem append (h : Drains db xs db' xs') (hd : xs.Disjoint ys) :
    Drains db (xs ++ ys) db' (xs' ++ ys) where
  sub := by
    intro x hx
    rcases List.mem_append.mp hx with hx | hx
    · exact List.mem_append_left _ (h.sub hx)
    · exact List.mem_append_right _ hx
  kept := by
    intro k hk
    refine h.kept k fun x hx hxk => ?_
    rcases List.mem_append.mp (hk x (List.mem_append_left _ hx) hxk) with hx' | hy
    · exact hx'
    · exact absurd hy (hd hx)
  gone := by
    intro x hx hx'
    rw [List.mem_append, not_or] at hx'
    rcases List.mem_append.mp hx with hx | hx
    · exact h.gone x hx hx'.1
    · exact absurd hx hx'.2

/-- The order of the keys does not matter. -/
theorem comm (h : Drains db (xs ++ ys) db' (xs' ++ ys)) : Drains db (ys ++ xs) db' (ys ++ xs') where
  sub := by
    intro x hx
    have := @h.sub x
    simp only [List.mem_append] at this hx ⊢
    tauto
  kept := by
    intro k hk
    refine h.kept k fun x hx hxk => ?_
    have := hk x (by simp only [List.mem_append] at hx ⊢; tauto) hxk
    simp only [List.mem_append] at this ⊢
    tauto
  gone := by
    intro x hx hx'
    refine h.gone x ?_ ?_
    · simp only [List.mem_append] at hx ⊢
      tauto
    · simp only [List.mem_append] at hx' ⊢
      tauto

end Drains

end Database

end Bubi
