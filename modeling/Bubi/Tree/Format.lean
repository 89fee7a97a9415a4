import Bubi.Tree.Database

/-!
# The stored form of a node

`encode` appends the fields of a node to a `Serializer`, `do_encode` copies the result and
`decode` reads it back at fixed offsets. Nothing limits the data of a leaf, but `add_raw`
takes its length as an `int` and `do_encode` counts with one. What `decode` reads is the
node with its data cut as `add_raw` cuts it; below 2 GiB nothing is cut. The store of the other
modules takes every node of a tree, also the few whose bytes `do_encode` could not count.
-/

namespace Bubi

open Bubi.Core

namespace Serializer

/-- `Serializer::add_raw`, with the length as the `int` that it receives. -/
def addRaw (s ch : Bytes) (len : BitVec 32) : Bytes := s ++ ch.take len.toInt.toNat

/-- `Serializer::add256`. -/
def add256 (s : Bytes) (hash : Uint256) : Bytes := s ++ hash.data

/-- `Serializer::add_serializer`, which passes the size of the other vector. -/
def addSerializer (s vt : Bytes) : Bytes := addRaw s vt (BitVec.ofNat 32 vt.length)

/-- How many of so many bytes `add_raw` copies. -/
def kept (n : ℕ) : ℕ := (BitVec.ofNat 32 n).toInt.toNat

theorem kept_lt (n : ℕ) : kept n < 2 ^ 31 := by
  have h := @BitVec.toInt_lt 32 (BitVec.ofNat 32 n)
  unfold kept
  omega

theorem kept_of_lt {n : ℕ} (h : n < 2 ^ 31) : kept n = n := by
  unfold kept
  rw [BitVec.toInt_eq_toNat_of_lt, BitVec.toNat_ofNat]
  · omega
  · rw [BitVec.toNat_ofNat]
    omega

theorem kept_le (n : ℕ) : kept n ≤ n := by
  by_cases h : n < 2 ^ 31
  · exact (kept_of_lt h).le
  · exact (kept_lt n).le.trans (not_lt.mp h)

theorem kept_eq_iff {n : ℕ} : kept n = n ↔ n < 2 ^ 31 := by
  refine ⟨fun h => ?_, kept_of_lt⟩
  rw [← h]
  exact kept_lt n

end Serializer

/-- What a node holds behind its leading fields: child hashes, or an item of any length. -/
inductive NodeBody where
  | inner (childrenHash : Fin 16 → Uint256)
  | leaf (isTransaction : Bool) (index : Uint256) (data : Bytes)

/-- The fields of a `RadixMerkleTreeNode` that are stored. -/
structure StoredNode where
  /-- `is_transaction_tree_`. -/
  isTransactionTree : Bool
  /-- `branch_mask_`. -/
  branchMask : BitVec 32
  body : NodeBody

namespace StoredNode

open Serializer

/-- `type_`. -/
def type (n : StoredNode) : TreeNodeType :=
  match n.body with
  | .inner _ => .innerNode
  | .leaf isTransaction _ _ => leafType isTransaction

/-- `RadixMerkleTreeNode::encode` into an empty `Serializer`. -/
def encode (n : StoredNode) : Bytes :=
  let s := addRaw [] (rawBool n.isTransactionTree) 1
  let s := addRaw s (raw32 n.type.code) 4
  let s := addRaw s (raw32 n.branchMask) 4
  match n.body with
  | .inner childrenHash => (List.finRange 16).foldl (fun s i => add256 s (childrenHash i)) s
  | .leaf _ index data => addSerializer (add256 s index) data

/-- The value of `EncodeNode::do_encode`, whose loop counts the bytes with an `int`. -/
def doEncode (n : StoredNode) : Except Fault Bytes :=
  if n.encode.length < 2 ^ 31 then .ok n.encode else .error .outOfRange

/-- The part of `decode` that makes the item of a leaf, from what is behind the leading fields
and its computed length. -/
def decodeItem (isTransaction : Bool) (rest : Bytes) (len : ℕ) : Except Fault NodeBody := do
  let index ← Uint256.init rest
  .ok (.leaf isTransaction index (addRaw [] (rest.drop 32) (BitVec.ofNat 32 (len - 32))))

/-- `RadixMerkleTreeNode::decode` into a node with the given child pointers. -/
def decode (children : Fin 16 → RadixMerkleTreeNode) (value : Bytes) :
    Except Fault (StoredNode × (Fin 16 → RadixMerkleTreeNode)) :=
  match value with
  | flag :: t0 :: t1 :: t2 :: t3 :: m0 :: m1 :: m2 :: m3 :: rest =>
    let node (body : NodeBody) : StoredNode := ⟨flag ≠ 0, value32 m0 m1 m2 m3, body⟩
    let len := value.length - 1 - 4 - 4
    match NodeData.typeOfCode (value32 t0 t1 t2 t3) with
    | .innerNode =>
      if h : 512 ≤ rest.length then
        .ok (node (.inner (NodeData.hashesAt rest h)), RadixMerkleTreeNode.noChildren)
      else .error .outOfRange
    | .transactionLeaf => do
      let body ← decodeItem true rest len
      .ok (node body, children)
    | .accountLeaf => do
      let body ← decodeItem false rest len
      .ok (node body, children)
    | .error => .error .assertion
  | _ => .error .outOfRange

/-- The node with its data cut as `add_raw` cuts it. -/
def cut (n : StoredNode) : StoredNode :=
  match n.body with
  | .inner _ => n
  | .leaf isTransaction index data =>
    { n with body := .leaf isTransaction index (data.take (kept data.length)) }

/-- The encoded node is shorter than 2 GiB. -/
def fits (n : StoredNode) : Bool :=
  match n.body with
  | .inner _ => true
  | .leaf _ _ data => data.length + 41 < 2 ^ 31

section Layout

/-- The three leading fields. -/
def header (n : StoredNode) : Bytes :=
  rawBool n.isTransactionTree ++ raw32 n.type.code ++ raw32 n.branchMask

theorem header_length (n : StoredNode) : n.header.length = 9 := rfl

theorem addRaw_header (n : StoredNode) :
    addRaw (addRaw (addRaw [] (rawBool n.isTransactionTree) 1) (raw32 n.type.code) 4)
      (raw32 n.branchMask) 4 = n.header :=
  rfl

theorem foldl_add256 (childrenHash : Fin 16 → Uint256) (l : List (Fin 16)) (s : Bytes) :
    l.foldl (fun s i => add256 s (childrenHash i)) s =
      s ++ l.flatMap fun i => (childrenHash i).data := by
  induction l generalizing s with
  | nil => simp
  | cons i l ih => rw [List.foldl_cons, ih, List.flatMap_cons, add256, List.append_assoc]

theorem encode_inner {n : StoredNode} {childrenHash : Fin 16 → Uint256}
    (h : n.body = .inner childrenHash) :
    n.encode = n.header ++ (List.finRange 16).flatMap fun i => (childrenHash i).data := by
  unfold encode
  rw [h]
  dsimp only
  rw [addRaw_header, foldl_add256]

theorem encode_leaf {n : StoredNode} {isTransaction : Bool} {index : Uint256} {data : Bytes}
    (h : n.body = .leaf isTransaction index data) :
    n.encode = n.header ++ (index.data ++ data.take (kept data.length)) := by
  unfold encode
  rw [h]
  dsimp only
  rw [addRaw_header, addSerializer, addRaw, add256, List.append_assoc]
  rfl

/-- The fields in memory of an encoded node. -/
theorem header_eq (n : StoredNode) : ∃ flag t0 t1 t2 t3 m0 m1 m2 m3,
    n.header = [flag, t0, t1, t2, t3, m0, m1, m2, m3] ∧
      decide (flag ≠ 0) = n.isTransactionTree ∧ value32 t0 t1 t2 t3 = n.type.code ∧
      value32 m0 m1 m2 m3 = n.branchMask := by
  refine ⟨_, _, _, _, _, _, _, _, _, rfl, ?_, value32_raw32 _, value32_raw32 _⟩
  cases n.isTransactionTree <;> rfl

end Layout

section RoundTrip

variable (children : Fin 16 → RadixMerkleTreeNode)

theorem decode_inner {n : StoredNode} {childrenHash : Fin 16 → Uint256}
    (h : n.body = .inner childrenHash) :
    decode children n.encode = .ok (n, RadixMerkleTreeNode.noChildren) := by
  obtain ⟨isTransactionTree, branchMask, body⟩ := n
  cases h
  obtain ⟨flag, t0, t1, t2, t3, m0, m1, m2, m3, hheader, hflag, htype, hmask⟩ :=
    header_eq ⟨isTransactionTree, branchMask, .inner childrenHash⟩
  -- The hashes are read at the offsets of a node that holds nothing else.
  let d : NodeData := ⟨Uint256.zero, childrenHash, none, false, .innerNode, 0⟩
  have hlength : 512 ≤ d.childrenBytes.length := (childrenBytes_length d).ge
  have hhashes := NodeData.hashesAt_childrenBytes d hlength
  rw [encode_inner rfl, hheader]
  change decode children ([flag, t0, t1, t2, t3, m0, m1, m2, m3] ++ d.childrenBytes) = _
  simp only [List.cons_append, List.nil_append, decode, htype, NodeData.typeOfCode_code, type,
    dif_pos hlength, hhashes, hflag, hmask]
  rfl

theorem decodeItem_append (isTransaction : Bool) (index : Uint256) {data : Bytes}
    (h : data.length < 2 ^ 31) :
    decodeItem isTransaction (index.data ++ data) (32 + data.length) =
      .ok (.leaf isTransaction index data) := by
  have hall : (BitVec.ofNat 32 data.length).toInt.toNat = data.length := kept_of_lt h
  rw [decodeItem, Uint256.init_append, ok_bind, List.drop_left' index.length_data,
    Nat.add_sub_cancel_left, addRaw, hall, List.take_length, List.nil_append]

theorem decode_leaf {n : StoredNode} {isTransaction : Bool} {index : Uint256} {data : Bytes}
    (h : n.body = .leaf isTransaction index data) :
    decode children n.encode = .ok (n.cut, children) := by
  obtain ⟨isTransactionTree, branchMask, body⟩ := n
  cases h
  obtain ⟨flag, t0, t1, t2, t3, m0, m1, m2, m3, hheader, hflag, htype, hmask⟩ :=
    header_eq ⟨isTransactionTree, branchMask, .leaf isTransaction index data⟩
  have hkept : (data.take (kept data.length)).length = kept data.length :=
    List.length_take_of_le (kept_le _)
  have hitem := decodeItem_append isTransaction index (hkept.trans_lt (kept_lt _))
  rw [encode_leaf rfl, hheader]
  unfold cut
  dsimp only
  generalize data.take (kept data.length) = copied at hitem ⊢
  have hlen : ([flag, t0, t1, t2, t3, m0, m1, m2, m3] ++ (index.data ++ copied)).length -
      1 - 4 - 4 = 32 + copied.length := by
    rw [List.length_append, List.length_append, index.length_data]
    simp only [List.length_cons, List.length_nil]
    omega
  simp only [List.cons_append, List.nil_append] at hlen ⊢
  unfold decode
  dsimp only
  rw [htype, NodeData.typeOfCode_code, hlen, hflag, hmask]
  cases isTransaction <;>
  · simp only [type, leafType, if_true, Bool.false_eq_true, if_false]
    rw [hitem, ok_bind]

/-- Decoding restores the node as it was cut, and without child pointers where it has hashes. -/
theorem exists_decode (n : StoredNode) : ∃ children',
    decode children n.encode = .ok (n.cut, children') ∧
      (n.type = .innerNode → children' = RadixMerkleTreeNode.noChildren) := by
  cases hbody : n.body with
  | inner childrenHash =>
    refine ⟨_, (decode_inner children hbody).trans ?_, fun _ => rfl⟩
    rw [cut, hbody]
  | leaf isTransaction index data =>
    refine ⟨_, decode_leaf children hbody, fun htype => ?_⟩
    rw [type, hbody] at htype
    cases isTransaction <;> cases htype

/-- What is cut is cut once. -/
theorem encode_cut (n : StoredNode) : n.cut.encode = n.encode := by
  cases hbody : n.body with
  | inner childrenHash => rw [cut, hbody]
  | leaf isTransaction index data =>
    have hcut : n.cut.body = .leaf isTransaction index (data.take (kept data.length)) := by
      rw [cut, hbody]
    have hheader : n.cut.header = n.header := by
      simp only [header, type, cut, hbody]
    have hkept : (data.take (kept data.length)).length = kept data.length :=
      List.length_take_of_le (kept_le _)
    rw [encode_leaf hcut, encode_leaf hbody, hheader, hkept, kept_of_lt (kept_lt _),
      List.take_take, min_self]

/-- A node fits when nothing of it is cut and `do_encode` can count its bytes. -/
theorem fits_iff (n : StoredNode) : n.fits = true ↔ n.cut = n ∧ n.encode.length < 2 ^ 31 := by
  obtain ⟨isTransactionTree, branchMask, body⟩ := n
  cases body with
  | inner childrenHash =>
    refine iff_of_true rfl ⟨rfl, ?_⟩
    rw [encode_inner rfl, List.length_append, header_length, List.length_flatMap]
    simp only [Uint256.length_data]
    decide
  | leaf isTransaction index data =>
    have hcut : cut ⟨isTransactionTree, branchMask, .leaf isTransaction index data⟩ =
        ⟨isTransactionTree, branchMask, .leaf isTransaction index data⟩ ↔
        data.take (kept data.length) = data := by
      simp only [cut, mk.injEq, NodeBody.leaf.injEq, true_and]
    have hwhole : data.take (kept data.length) = data ↔ data.length < 2 ^ 31 := by
      rw [List.take_eq_self_iff, ← kept_eq_iff]
      exact ⟨(kept_le _).antisymm, Eq.ge⟩
    have hlength := congrArg List.length (@encode_leaf
      ⟨isTransactionTree, branchMask, .leaf isTransaction index data⟩ isTransaction index data rfl)
    rw [List.length_append, List.length_append, header_length, index.length_data,
      List.length_take_of_le (kept_le _)] at hlength
    rw [hcut, hwhole, hlength]
    simp only [fits, decide_eq_true_eq]
    constructor
    · intro hfits
      rw [kept_of_lt (by omega)]
      omega
    · rintro ⟨hdata, hencode⟩
      rw [kept_of_lt hdata] at hencode
      omega

/-- `do_encode` and `decode` restore a node exactly when its encoding is shorter than 2 GiB. -/
theorem restored_iff (n : StoredNode) :
    (∃ value children', n.doEncode = .ok value ∧ decode children value = .ok (n, children') ∧
      (n.type = .innerNode → children' = RadixMerkleTreeNode.noChildren)) ↔ n.fits = true := by
  obtain ⟨children', hdecode, hnull⟩ := exists_decode children n
  rw [fits_iff]
  constructor
  · rintro ⟨value, children'', hvalue, hback, -⟩
    unfold doEncode at hvalue
    split at hvalue
    · rename_i hlength
      obtain rfl := Except.ok.inj hvalue
      exact ⟨congrArg Prod.fst (Except.ok.inj (hdecode.symm.trans hback)), hlength⟩
    · cases hvalue
  · rintro ⟨hcut, hlength⟩
    rw [hcut] at hdecode
    exact ⟨n.encode, children', if_pos hlength, hdecode, hnull⟩

end RoundTrip

/-- A node is restored from its stored form exactly when it is inner, or its data and the 41
bytes before them are shorter than 2 GiB; and whatever `encode` produces is decoded to a node that
is encoded in the same way. -/
theorem node_restored_iff (n : StoredNode) (children : Fin 16 → RadixMerkleTreeNode) :
    ((∃ value children', n.doEncode = .ok value ∧ decode children value = .ok (n, children') ∧
        (n.type = .innerNode → children' = RadixMerkleTreeNode.noChildren)) ∧
      ∃ n' children', decode children n.encode = .ok (n', children') ∧ n'.encode = n.encode) ↔
    n.fits = true := by
  rw [restored_iff]
  refine and_iff_left ?_
  obtain ⟨children', hdecode, _⟩ := exists_decode children n
  exact ⟨n.cut, children', hdecode, encode_cut n⟩

/-- An account leaf with 2 GiB of data. -/
def longLeaf : StoredNode := ⟨false, 0, .leaf false Uint256.zero (List.replicate (2 ^ 31) 0x61)⟩

/-- Nothing of the data is stored. -/
theorem longLeaf_lost :
    (∃ value children', longLeaf.doEncode = .ok value ∧
      decode RadixMerkleTreeNode.noChildren value =
        .ok (⟨false, 0, .leaf false Uint256.zero []⟩, children')) ∧
    ¬ ∃ value children', longLeaf.doEncode = .ok value ∧
      decode RadixMerkleTreeNode.noChildren value = .ok (longLeaf, children') := by
  have hkept : kept (2 ^ 31) = 0 := by decide
  have hencode : longLeaf.encode = longLeaf.header ++ (Uint256.zero.data ++ []) := by
    rw [@encode_leaf longLeaf false Uint256.zero (List.replicate (2 ^ 31) 0x61) rfl,
      List.length_replicate, hkept, List.take_zero]
  have hlength : longLeaf.encode.length < 2 ^ 31 := by
    rw [hencode, List.length_append, header_length, List.length_append, Uint256.length_data]
    decide
  have hcut : longLeaf.cut = ⟨false, 0, .leaf false Uint256.zero []⟩ := by
    unfold cut longLeaf
    dsimp only
    rw [List.length_replicate, hkept, List.take_zero]
  obtain ⟨children', hdecode, _⟩ := exists_decode RadixMerkleTreeNode.noChildren longLeaf
  rw [hcut] at hdecode
  refine ⟨⟨_, children', if_pos hlength, hdecode⟩, ?_⟩
  rintro ⟨value, children'', hvalue, hback⟩
  obtain rfl := Except.ok.inj ((if_pos hlength).symm.trans hvalue)
  have hsame := congrArg Prod.fst (Except.ok.inj (hdecode.symm.trans hback))
  have hdata : [] = List.replicate (2 ^ 31) (0x61 : UInt8) :=
    (NodeBody.leaf.inj (congrArg StoredNode.body hsame)).2.2
  have hzero := congrArg List.length hdata
  rw [List.length_replicate] at hzero
  cases hzero

end StoredNode

section Nodes

/-- The stored fields of a node in memory. -/
def NodeData.stored (d : NodeData) : Option StoredNode :=
  match d.type, d.item with
  | .innerNode, _ => some ⟨d.isTransactionTree, d.branchMask, .inner d.childrenHash⟩
  | .transactionLeaf, some item =>
    some ⟨d.isTransactionTree, d.branchMask, .leaf true item.index item.data⟩
  | .accountLeaf, some item =>
    some ⟨d.isTransactionTree, d.branchMask, .leaf false item.index item.data⟩
  | _, _ => none

/-- A node of the tree is stored in this form. -/
theorem NodeData.encode_stored {d : NodeData} {n : StoredNode} (h : d.stored = some n) :
    d.encode = .ok n.encode := by
  obtain ⟨hash, childrenHash, item, flag, type, mask⟩ := d
  have hleaf : ∀ (isTransaction : Bool) (leaf : RadixMerkleTreeLeaf),
      (StoredNode.mk flag mask (.leaf isTransaction leaf.index leaf.data)).encode =
        rawBool flag ++ raw32 (leafType isTransaction).code ++ raw32 mask ++ leaf.index.data ++
          leaf.data := by
    intro isTransaction leaf
    rw [StoredNode.encode_leaf rfl, Serializer.kept_of_lt leaf.length_lt, List.take_length,
      ← List.append_assoc]
    rfl
  cases type with
  | error => cases h
  | innerNode =>
    cases h
    rw [StoredNode.encode_inner rfl]
    rfl
  | transactionLeaf =>
    cases item with
    | none => cases h
    | some leaf =>
      cases h
      rw [hleaf]
      rfl
  | accountLeaf =>
    cases item with
    | none => cases h
    | some leaf =>
      cases h
      rw [hleaf]
      rfl

/-- Nothing of a node of the tree is cut. -/
theorem NodeData.cut_stored {d : NodeData} {n : StoredNode} (h : d.stored = some n) :
    n.cut = n := by
  obtain ⟨hash, childrenHash, item, flag, type, mask⟩ := d
  have hleaf : ∀ (isTransaction : Bool) (leaf : RadixMerkleTreeLeaf),
      (StoredNode.mk flag mask (.leaf isTransaction leaf.index leaf.data)).cut =
        ⟨flag, mask, .leaf isTransaction leaf.index leaf.data⟩ := by
    intro isTransaction leaf
    unfold StoredNode.cut
    dsimp only
    rw [Serializer.kept_of_lt leaf.length_lt, List.take_length]
  cases type with
  | error => cases h
  | innerNode =>
    cases h
    rfl
  | transactionLeaf =>
    cases item with
    | none => cases h
    | some leaf =>
      cases h
      exact hleaf true leaf
  | accountLeaf =>
    cases item with
    | none => cases h
    | some leaf =>
      cases h
      exact hleaf false leaf

/-- `put` writes what `do_encode` makes of a node, as long as the `int` of its loop can count the
bytes: exactly for the nodes whose encoding is shorter than 2 GiB. -/
theorem Database.put_eq_doEncode_iff (db : Database) {d : NodeData} {n : StoredNode}
    (h : d.stored = some n) :
    (db.put d = do
      let value ← n.doEncode
      .ok (Function.update db d.hash.toString (some value))) ↔ n.fits = true := by
  rw [StoredNode.fits_iff, Database.put, NodeData.encode_stored h, ok_bind, StoredNode.doEncode]
  constructor
  · intro hput
    refine ⟨NodeData.cut_stored h, ?_⟩
    by_contra hlong
    rw [if_neg hlong] at hput
    cases hput
  · rintro ⟨_, hlength⟩
    rw [if_pos hlength, ok_bind]

/-- A node of the tree is read back from this form. -/
theorem NodeData.decode_stored {d d' : NodeData} {value : Bytes} (h : d.decode value = .ok d')
    (children : Fin 16 → RadixMerkleTreeNode) : ∃ n children',
      d'.stored = some n ∧ StoredNode.decode children value = .ok (n, children') := by
  have hleaf : ∀ (isTransaction : Bool) {rest : Bytes} {index : Uint256},
      Uint256.init rest = .ok index → (rest.drop 32).length < 2 ^ 31 →
      StoredNode.decodeItem isTransaction rest rest.length =
        .ok (.leaf isTransaction index (rest.drop 32)) := by
    intro isTransaction rest index hinit hlength
    have hall : (BitVec.ofNat 32 (rest.length - 32)).toInt.toNat = (rest.drop 32).length := by
      rw [List.length_drop] at hlength ⊢
      exact Serializer.kept_of_lt hlength
    rw [StoredNode.decodeItem, hinit, ok_bind, Serializer.addRaw, hall, List.take_length,
      List.nil_append]
  unfold NodeData.decode at h
  split at h
  · rename_i flag t0 t1 t2 t3 m0 m1 m2 m3 rest
    unfold StoredNode.decode
    dsimp only
    have hlen : (flag :: t0 :: t1 :: t2 :: t3 :: m0 :: m1 :: m2 :: m3 :: rest).length - 1 - 4 - 4 =
        rest.length := rfl
    rw [hlen]
    cases htype : NodeData.typeOfCode (value32 t0 t1 t2 t3) with
    | error =>
      rw [htype] at h
      cases h
    | innerNode =>
      rw [htype, decodeBody] at h
      dsimp only at h ⊢
      split at h
      · rename_i hlength
        cases h
        rw [dif_pos hlength]
        exact ⟨_, _, rfl, rfl⟩
      · cases h
    | transactionLeaf =>
      rw [htype, decodeBody] at h
      obtain ⟨index, hindex, h⟩ := bind_eq_ok.mp h
      split at h
      · rename_i hlength
        cases h
        dsimp only
        rw [hleaf true hindex hlength, ok_bind]
        exact ⟨_, _, rfl, rfl⟩
      · cases h
    | accountLeaf =>
      rw [htype, decodeBody] at h
      obtain ⟨index, hindex, h⟩ := bind_eq_ok.mp h
      split at h
      · rename_i hlength
        cases h
        dsimp only
        rw [hleaf false hindex hlength, ok_bind]
        exact ⟨_, _, rfl, rfl⟩
      · cases h
  · cases h

end Nodes

end Bubi
