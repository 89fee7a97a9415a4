import Bubi.Net.Handler

/-!
# The list of peers

`vNodes` is a list of pointers to nodes. The address and the direction of a node are fixed
when it is made and stand beside its pointer; its socket and its queues change, and are
found behind the pointer.
-/

namespace Bubi

/-- `BService`: an address and a port. -/
structure BService where
  /-- `ip_`. -/
  ip : BitVec 32
  /-- `port_`. -/
  port : BitVec 16
  deriving DecidableEq

/-- An element of `vNodes`. -/
structure Peer (κ : Type) where
  pointer : κ
  /-- `bService_`. -/
  bService : BService
  /-- `fInbound_`. -/
  fInbound : Bool
  deriving DecidableEq

/-- The condition under which the disconnect phase takes a node out of `vNodes`. -/
def BNode.removable (node : BNode) : Bool :=
  node.fDisconnect && node.vSendMsg.isEmpty && node.vRecvMsg.isEmpty

namespace Peers

variable {κ ν : Type}

/-- `FindNode`. -/
def findNode (vNodes : List (Peer κ)) (bService : BService) : Option (Peer κ) :=
  vNodes.find? fun p => p.bService = bService

/-- `MAXINBOUND`. -/
def maxInbound : ℕ := 10

/-- `AcceptSocket` closes the accepted socket at once. -/
def full (vNodes : List (Peer κ)) : Bool := maxInbound < vNodes.countP Peer.fInbound

/-- The nodes that this process has connected to. -/
def outbound (vNodes : List (Peer κ)) : List (Peer κ) := vNodes.filter fun p => !p.fInbound

/-- The disconnect phase of `ThreadSocketHandler`. -/
def disconnect (nodes : κ → BNode) (vNodes : List (Peer κ)) : List (Peer κ) :=
  vNodes.filter fun p => !(nodes p.pointer).removable

/-- The loop that pushes to every node that this process has connected to. -/
def pushOutbound [DecidableEq κ] (push : ν → ν) (vNodes : List (Peer κ)) (nodes : κ → ν) : κ → ν :=
  (outbound vNodes).foldl
    (fun nodes p => Function.update nodes p.pointer (push (nodes p.pointer))) nodes

theorem findNode_eq_none {vNodes : List (Peer κ)} {bService : BService} :
    findNode vNodes bService = none ↔ ∀ p ∈ vNodes, p.bService ≠ bService := by
  simp [findNode]

theorem mem_outbound {vNodes : List (Peer κ)} {p : Peer κ} :
    p ∈ outbound vNodes ↔ p ∈ vNodes ∧ p.fInbound = false := by
  simp [outbound]

theorem outbound_append_inbound (vNodes : List (Peer κ)) (pointer : κ) (bService : BService) :
    outbound (vNodes ++ [⟨pointer, bService, true⟩]) = outbound vNodes := by
  simp [outbound]

theorem outbound_append_outbound (vNodes : List (Peer κ)) (pointer : κ) (bService : BService) :
    outbound (vNodes ++ [⟨pointer, bService, false⟩]) =
      outbound vNodes ++ [⟨pointer, bService, false⟩] := by
  simp [outbound]

theorem mem_disconnect {nodes : κ → BNode} {vNodes : List (Peer κ)} {p : Peer κ} :
    p ∈ disconnect nodes vNodes ↔ p ∈ vNodes ∧ (nodes p.pointer).removable = false := by
  simp [disconnect]

section Push

variable [DecidableEq κ]

/-- The loop makes only pushes. -/
theorem pushOutbound_induction {P : ν → Prop} {push : ν → ν}
    (hpush : ∀ node, P node → P (push node)) (vNodes : List (Peer κ)) {nodes : κ → ν} {k : κ}
    (h : P (nodes k)) : P (pushOutbound push vNodes nodes k) := by
  unfold pushOutbound
  induction outbound vNodes generalizing nodes with
  | nil => exact h
  | cons p peers ih =>
    apply ih
    dsimp only
    rw [Function.update_apply]
    split
    · rename_i hk
      exact hpush _ (hk ▸ h)
    · exact h

theorem foldl_update_of_notMem {push : ν → ν} {peers : List (Peer κ)} {nodes : κ → ν} {k : κ}
    (h : k ∉ peers.map Peer.pointer) :
    peers.foldl (fun nodes p => Function.update nodes p.pointer (push (nodes p.pointer))) nodes k =
      nodes k := by
  induction peers generalizing nodes with
  | nil => rfl
  | cons p peers ih =>
    rw [List.map_cons, List.mem_cons, not_or] at h
    rw [List.foldl_cons, ih h.2, Function.update_of_ne h.1]

/-- Every node that this process has connected to gets one push, the others none. -/
theorem pushOutbound_apply {push : ν → ν} {vNodes : List (Peer κ)} {nodes : κ → ν}
    (hnodup : ((outbound vNodes).map Peer.pointer).Nodup) (k : κ) :
    pushOutbound push vNodes nodes k =
      if k ∈ (outbound vNodes).map Peer.pointer then push (nodes k) else nodes k := by
  unfold pushOutbound
  generalize outbound vNodes = peers at hnodup ⊢
  induction peers generalizing nodes with
  | nil => rfl
  | cons p peers ih =>
    rw [List.map_cons, List.nodup_cons] at hnodup
    rw [List.foldl_cons, List.map_cons]
    by_cases hk : k = p.pointer
    · subst hk
      rw [foldl_update_of_notMem hnodup.1, Function.update_self, if_pos List.mem_cons_self]
    · rw [ih hnodup.2, Function.update_of_ne hk]
      simp only [List.mem_cons, hk, false_or]

/-- A node of `vNodes` with its direction. -/
def connection (nodes : κ → BNode) (p : Peer κ) : Connection := ⟨p.fInbound, nodes p.pointer⟩

/-- The loop over the pointers is the one over the nodes. -/
theorem broadcast_map_connection (codec : MessageCodec) {vNodes : List (Peer κ)}
    {nodes : κ → BNode} (hnodup : (vNodes.map Peer.pointer).Nodup) (command : Command) :
    Process.broadcast codec (vNodes.map (connection nodes)) command =
      vNodes.map (connection
        (pushOutbound (fun node => node.pushMessage codec command.1 command.2) vNodes nodes)) := by
  unfold Process.broadcast
  rw [List.map_map]
  apply List.map_congr_left
  intro p hp
  have hpointer : p.pointer ∈ (outbound vNodes).map Peer.pointer ↔ p.fInbound = false := by
    constructor
    · intro h
      obtain ⟨q, hq, heq⟩ := List.mem_map.mp h
      obtain ⟨hq, hinbound⟩ := mem_outbound.mp hq
      rwa [← List.inj_on_of_nodup_map hnodup hq hp heq]
    · intro h
      exact List.mem_map_of_mem (mem_outbound.mpr ⟨hp, h⟩)
  have hout : ((outbound vNodes).map Peer.pointer).Nodup :=
    hnodup.sublist (List.filter_sublist.map _)
  simp only [Function.comp_apply, connection, pushOutbound_apply hout, hpointer]
  by_cases hinbound : p.fInbound = true
  · simp [hinbound]
  · simp [hinbound]

end Push

end Peers

end Bubi
