import Mathlib.Data.List.TakeWhile
import Bubi.Net.Delivery

/-!
# Writing the queue to the socket

`SocketSendData` asks every `send` for as many bytes as the front message has, also where a
part of the message is already sent. The queue is written exactly as long as no `send`
takes more than what is left of the message. Only a written message and a short write end
the loop or move it on: after any other answer the same `send` is repeated, also after an
error that has closed the socket.
-/

namespace Bubi.BNode

open Bubi.Core

section Partial

variable {codec : MessageCodec}

/-- The offset lies inside the front message, and is 0 without one. -/
def Positioned (node : BNode) : Prop :=
  match node.vSendMsg with
  | [] => node.nSendOffset = 0
  | data :: _ => node.nSendOffset < data.length

/-- A queue of messages that are not empty, with its offset. -/
structure Ready (node : BNode) : Prop where
  nonempty : ∀ data ∈ node.vSendMsg, data ≠ []
  positioned : node.Positioned

/-- Every `send` of a call takes at least one byte and at most what the limit gives for the
offset and the size of its message, or is to be repeated. -/
def admits (limit : ℕ → ℕ → ℕ) : List SendAnswer → List Bytes → ℕ → Bool
  | [], _, _ => true
  | _ :: _, [], _ => true
  | .again :: answers, data :: rest, offset => admits limit answers (data :: rest) offset
  | .failed :: _, _ :: _, _ => false
  | .accepted nBytes :: answers, data :: rest, offset =>
    decide (1 ≤ nBytes ∧ nBytes ≤ limit offset data.length) &&
      if offset + nBytes = data.length then admits limit answers rest 0 else true

/-- The calls of a run admit the answers of their `send` calls. -/
def allowed (codec : MessageCodec) (limit : ℕ → ℕ → ℕ) : List SendEvent → BNode × Bytes → Bool
  | [], _ => true
  | .pushMessage command data :: events, s =>
    allowed codec limit events (s.1.pushMessage codec command data, s.2)
  | .socketSendData answers :: events, s =>
    admits limit answers s.1.vSendMsg s.1.nSendOffset &&
      match socketSendData answers s with
      | .ok r => allowed codec limit events r.1
      | .error _ => true

/-- The length that `SocketSendData` passes to `send`. -/
def sizeLimit (_ size : ℕ) : ℕ := size

/-- What is left of a message behind the offset. -/
def restLimit (offset size : ℕ) : ℕ := size - offset

/-- The rest of a queue starts at its front. -/
theorem Ready.tail {node : BNode} (h : Ready node) {data : Bytes} {rest : List Bytes}
    (hqueue : node.vSendMsg = data :: rest) (nSendBytes : BitVec 64) :
    Ready { node with nSendOffset := 0, nSendBytes, vSendMsg := rest } := by
  have hrest : ∀ data ∈ rest, data ≠ [] := by
    intro data' hdata'
    apply h.nonempty
    rw [hqueue]
    exact List.mem_cons_of_mem _ hdata'
  refine ⟨hrest, ?_⟩
  cases rest with
  | nil => rfl
  | cons data' rest => exact List.length_pos_iff.mpr (hrest data' List.mem_cons_self)

/-- Further messages leave the front of the queue alone. -/
theorem Ready.append {node : BNode} (h : Ready node) {more : List Bytes}
    (hmore : ∀ data ∈ more, data ≠ []) :
    Ready { node with vSendMsg := node.vSendMsg ++ more } := by
  refine ⟨fun data hdata => ?_, ?_⟩
  · rcases List.mem_append.mp hdata with hdata | hdata
    · exact h.nonempty data hdata
    · exact hmore data hdata
  · have hpositioned := h.positioned
    unfold Positioned at hpositioned ⊢
    cases hqueue : node.vSendMsg with
    | nil =>
      rw [hqueue] at hpositioned
      cases more with
      | nil => exact hpositioned
      | cons front more =>
        dsimp only [List.nil_append]
        rw [hpositioned]
        exact List.length_pos_iff.mpr (hmore front List.mem_cons_self)
    | cons front rest =>
      rw [hqueue] at hpositioned
      exact hpositioned

theorem Ready.pushMessage {node : BNode} (h : Ready node) (command data : Bytes) :
    Ready (node.pushMessage codec command data) := by
  apply h.append
  intro data' hdata'
  rw [List.mem_singleton.mp hdata']
  exact BNetMessage.serializer_ne_nil codec _

/-- A call without a fault leaves the offset inside the front message. -/
theorem Ready.socketSendData {node : BNode} {stream : Bytes} (h : Ready node)
    {answers : List SendAnswer} {r : (BNode × Bytes) × Bool}
    (hr : socketSendData answers (node, stream) = .ok r) : Ready r.1.1 := by
  refine socketSendData_induction (P := fun s => Ready s.1) (fun node stream h => ?_)
    (fun node stream data rest nBytes hqueue _ _ h => h.tail hqueue _)
    (fun node stream data rest nBytes hqueue hpart h => ⟨h.nonempty, ?_⟩) h hr
  · exact ⟨h.nonempty, h.positioned⟩
  · unfold Positioned
    simp only [hqueue]
    exact hpart

/-- Where no `send` takes more than the rest of its message, a call meets no fault. -/
theorem Ready.exists_socketSendData {node : BNode} {stream : Bytes} (h : Ready node)
    {answers : List SendAnswer}
    (hadmits : admits restLimit answers node.vSendMsg node.nSendOffset = true) :
    ∃ r, BNode.socketSendData answers (node, stream) = .ok r := by
  induction answers generalizing node stream with
  | nil =>
    have hpositioned := h.positioned
    unfold Positioned at hpositioned
    unfold BNode.socketSendData
    split <;> rename_i hqueue <;> rw [hqueue] at hpositioned <;> rw [if_pos hpositioned]
    · exact ⟨_, rfl⟩
    · exact ⟨_, rfl⟩
  | cons answer answers ih =>
    have hpositioned := h.positioned
    unfold Positioned at hpositioned
    unfold BNode.socketSendData
    split <;> rename_i hqueue <;> rw [hqueue] at hpositioned <;> rw [if_pos hpositioned]
    · exact ⟨_, rfl⟩
    · rename_i data rest
      rw [hqueue] at hadmits
      cases answer with
      | again => exact ih h (by rwa [hqueue])
      | failed => cases hadmits
      | accepted nBytes =>
        simp only [admits, Bool.and_eq_true, decide_eq_true_eq] at hadmits
        obtain ⟨⟨hpos, hle⟩, hadmits⟩ := hadmits
        unfold restLimit at hle
        dsimp only
        rw [if_neg (by omega), if_neg (by omega)]
        split
        · rename_i hend
          rw [if_pos hend] at hadmits
          exact ih (h.tail hqueue _) hadmits
        · exact ⟨_, rfl⟩

/-- A call without a fault has taken no more than the rest of each message. -/
theorem admits_restLimit {node : BNode} {stream : Bytes} {answers : List SendAnswer}
    (hadmits : admits sizeLimit answers node.vSendMsg node.nSendOffset = true)
    {r : (BNode × Bytes) × Bool} (hr : socketSendData answers (node, stream) = .ok r) :
    admits restLimit answers node.vSendMsg node.nSendOffset = true := by
  induction answers generalizing node stream with
  | nil => rfl
  | cons answer answers ih =>
    unfold BNode.socketSendData at hr
    cases hqueue : node.vSendMsg with
    | nil => rfl
    | cons data rest =>
      rw [hqueue] at hadmits
      simp only [hqueue] at hr
      split at hr
      · cases answer with
        | again =>
          have hsame := ih (by rwa [hqueue]) hr
          rwa [hqueue] at hsame
        | failed => cases hadmits
        | accepted nBytes =>
          simp only [admits, Bool.and_eq_true, decide_eq_true_eq] at hadmits ⊢
          obtain ⟨⟨hpos, _⟩, hadmits⟩ := hadmits
          dsimp only at hr
          rw [if_neg (by omega)] at hr
          split at hr
          · cases hr
          · refine ⟨⟨hpos, ?_⟩, ?_⟩
            · unfold restLimit
              omega
            split
            · rename_i hend
              rw [if_pos hend] at hr hadmits
              exact ih hadmits hr
            · rfl
      · cases hr

/-- A run meets no fault where no `send` takes more than the rest of its message. -/
theorem Ready.run {s : BNode × Bytes} (h : Ready s.1) {events : List SendEvent}
    (hallowed : allowed codec restLimit events s = true) :
    ∃ s', events.foldlM (sendStep codec) s = .ok s' ∧ Ready s'.1 := by
  induction events generalizing s with
  | nil => exact ⟨s, rfl, h⟩
  | cons e events ih =>
    cases e with
    | pushMessage command data =>
      obtain ⟨s', hs', hready⟩ := ih (h.pushMessage command data) hallowed
      exact ⟨s', foldlM_cons_ok.mpr ⟨_, rfl, hs'⟩, hready⟩
    | socketSendData answers =>
      simp only [allowed, Bool.and_eq_true] at hallowed
      obtain ⟨hadmits, hallowed⟩ := hallowed
      obtain ⟨r, hr⟩ := @Ready.exists_socketSendData s.1 s.2 h answers hadmits
      rw [hr] at hallowed
      obtain ⟨s', hs', hready⟩ := ih (h.socketSendData hr) hallowed
      exact ⟨s', foldlM_cons_ok.mpr ⟨r.1, bind_eq_ok.mpr ⟨r, hr, rfl⟩, hs'⟩, hready⟩

/-- In a run without a fault no `send` has taken more than the rest of its message. -/
theorem allowed_restLimit {s s' : BNode × Bytes} {events : List SendEvent}
    (hallowed : allowed codec sizeLimit events s = true)
    (hrun : events.foldlM (sendStep codec) s = .ok s') :
    allowed codec restLimit events s = true := by
  induction events generalizing s with
  | nil => rfl
  | cons e events ih =>
    obtain ⟨m, hm, hrun⟩ := foldlM_cons_ok.mp hrun
    cases e with
    | pushMessage command data =>
      cases hm
      exact ih hallowed hrun
    | socketSendData answers =>
      obtain ⟨r, hr, hm⟩ := bind_eq_ok.mp hm
      cases hm
      simp only [allowed, Bool.and_eq_true, hr] at hallowed ⊢
      exact ⟨admits_restLimit hallowed.1 hr, ih hallowed.2 hrun⟩

/-- Over any pushes and calls whose `send` takes from one byte up to the length it is given, or
is to be repeated: the run meets no fault, the socket has a prefix of the bytes of all messages
and the offset lies inside the front message, exactly when no `send` took more than was left of
its message. -/
theorem partial_sends_exact_iff (codec : MessageCodec) (node : BNode) (events : List SendEvent)
    (hqueue : ∀ data ∈ node.vSendMsg, data ≠ []) (hoffset : node.nSendOffset = 0)
    (hallowed : allowed codec sizeLimit events (node, []) = true) :
    (∃ s, events.foldlM (sendStep codec) (node, []) = .ok s ∧
        s.2 <+: node.vSendMsg.flatten ++ (pushed events).flatMap (BNetMessage.serializer codec) ∧
        s.1.Positioned) ↔
      allowed codec restLimit events (node, []) = true := by
  constructor
  · rintro ⟨s, hs, _, _⟩
    exact allowed_restLimit hallowed hs
  · intro hrest
    have hready : Ready node := by
      refine ⟨hqueue, ?_⟩
      unfold Positioned
      split
      · exact hoffset
      · rename_i data rest hfront
        rw [hoffset]
        apply List.length_pos_iff.mpr
        apply hqueue
        rw [hfront]
        exact List.mem_cons_self
    obtain ⟨s, hs, hready⟩ := Ready.run (s := (node, [])) hready hrest
    have hcarries : Carries node.vSendMsg.flatten (node, []) :=
      ⟨by simp [hoffset], by simp [hoffset]⟩
    have hstream := (hcarries.run hs).stream
    refine ⟨s, hs, ?_, hready.positioned⟩
    rw [← hstream]
    exact List.prefix_append _ _

/-- Two messages, of which the first is sent in two parts. -/
def shortWrite : List SendEvent :=
  [.pushMessage [1] [10], .pushMessage [2] [20], .socketSendData [.again, .accepted 3],
    .socketSendData [.accepted (((sampleMessage 1 10).serializer plainMessages).length - 3),
      .accepted 1]]

theorem shortWrite_exact :
    allowed plainMessages sizeLimit shortWrite (new 3, []) = true ∧
      ∃ s, shortWrite.foldlM (sendStep plainMessages) (new 3, []) = .ok s ∧
        s.2 <+: [].flatten ++ (pushed shortWrite).flatMap
          (BNetMessage.serializer plainMessages) ∧ s.1.Positioned := by
  have hallowed : allowed plainMessages sizeLimit shortWrite (new 3, []) = true := by
    decide +kernel
  refine ⟨hallowed, ?_⟩
  exact (partial_sends_exact_iff plainMessages (new 3) shortWrite (fun _ h => nomatch h) rfl
    hallowed).mpr (by decide +kernel)

/-- Behind a short write the next `send` is offered as many bytes as the whole message has, and
it takes bytes that are not of the message. -/
theorem send_reads_past_message :
    allowed plainMessages sizeLimit
        [.pushMessage [1] [10], .socketSendData [.accepted 3],
          .socketSendData
            [.accepted ((sampleMessage 1 10).serializer plainMessages).length]] (new 3, []) = true ∧
      [SendEvent.pushMessage [1] [10], .socketSendData [.accepted 3],
          .socketSendData
            [.accepted ((sampleMessage 1 10).serializer plainMessages).length]].foldlM
        (sendStep plainMessages) (new 3, []) = .error .outOfRange := by
  refine ⟨by decide +kernel, ?_⟩
  rfl

end Partial

section Termination

/-- The bytes that one `send` took, if it took any. -/
def taken : SendAnswer → Option ℕ
  | .accepted nBytes => if nBytes = 0 then none else some nBytes
  | .again => none
  | .failed => none

/-- The bytes that `send` took, call by call, without the calls that took none. -/
def counts (answers : List SendAnswer) : List ℕ := answers.filterMap taken

theorem counts_accepted (nBytes : ℕ) (answers : List SendAnswer) :
    counts (.accepted nBytes :: answers) =
      if nBytes = 0 then counts answers else nBytes :: counts answers := by
  by_cases hzero : nBytes = 0 <;> simp [counts, taken, hzero]

theorem pos_of_mem_counts {answers : List SendAnswer} {nBytes : ℕ}
    (h : nBytes ∈ counts answers) : 0 < nBytes := by
  obtain ⟨answer, _, htaken⟩ := List.mem_filterMap.mp h
  cases answer with
  | accepted taken =>
    by_cases hzero : taken = 0 <;> simp [BNode.taken, hzero] at htaken
    omega
  | again => cases htaken
  | failed => cases htaken

/-- What is left to send of each message. -/
def sizesLeft (node : BNode) : List ℕ :=
  match node.vSendMsg with
  | [] => []
  | data :: rest => (data.length - node.nSendOffset) :: rest.map List.length

/-- What is left to send of each message, up to one of which nothing is left. -/
def toSend (node : BNode) : List ℕ := node.sizesLeft.takeWhile (0 < ·)

/-- A list is continued by another one. -/
def ProperPrefix (l l' : List ℕ) : Prop := l <+: l' ∧ l ≠ l'

theorem properPrefix_nil {l : List ℕ} : ¬ ProperPrefix l [] :=
  fun h => h.2 (List.prefix_nil.mp h.1)

theorem properPrefix_cons {a b : ℕ} {l l' : List ℕ} :
    ProperPrefix (a :: l) (b :: l') ↔ a = b ∧ ProperPrefix l l' := by
  unfold ProperPrefix
  rw [List.cons_prefix_cons]
  grind

theorem toSend_cons {node : BNode} {data : Bytes} {rest : List Bytes}
    (hqueue : node.vSendMsg = data :: rest) (hoffset : node.nSendOffset < data.length) :
    node.toSend = (data.length - node.nSendOffset) ::
      (rest.map List.length).takeWhile (0 < ·) := by
  unfold toSend sizesLeft
  rw [hqueue]
  dsimp only
  rw [List.takeWhile_cons_of_pos (by simpa using hoffset)]

theorem toSend_of_le {node : BNode} {data : Bytes} {rest : List Bytes}
    (hqueue : node.vSendMsg = data :: rest) (hoffset : ¬ node.nSendOffset < data.length) :
    node.toSend = [] := by
  unfold toSend sizesLeft
  rw [hqueue]
  dsimp only
  rw [List.takeWhile_cons_of_neg (by simpa using hoffset)]

/-- A queue at the start of its front message is left to send as it is. -/
theorem sizesLeft_zero {node : BNode} (hoffset : node.nSendOffset = 0) :
    node.sizesLeft = node.vSendMsg.map List.length := by
  unfold sizesLeft
  cases node.vSendMsg with
  | nil => rfl
  | cons data rest =>
    dsimp only
    rw [hoffset, Nat.sub_zero, List.map_cons]

theorem toSend_eq_nil_or (node : BNode) :
    node.toSend = [] ∨
      ∃ data rest, node.vSendMsg = data :: rest ∧ node.nSendOffset < data.length := by
  cases hqueue : node.vSendMsg with
  | nil =>
    left
    rw [toSend, sizesLeft, hqueue]
    rfl
  | cons data rest =>
    by_cases hoffset : node.nSendOffset < data.length
    · exact Or.inr ⟨data, rest, rfl, hoffset⟩
    · exact Or.inl (toSend_of_le hqueue hoffset)

/-- With nothing left to send the loop ends, or an assertion does not hold. -/
theorem socketSendData_of_toSend_eq_nil {node : BNode} {stream : Bytes}
    {answers : List SendAnswer} (hnone : node.toSend = []) :
    ¬ ∃ s, socketSendData answers (node, stream) = .ok (s, false) := by
  rintro ⟨s, hs⟩
  unfold socketSendData at hs
  cases hqueue : node.vSendMsg with
  | nil =>
    rw [hqueue] at hs
    dsimp only at hs
    split at hs <;> cases hs
  | cons data rest =>
    rw [hqueue] at hs
    dsimp only at hs
    split at hs
    · rename_i hoffset
      rw [toSend_cons hqueue hoffset] at hnone
      cases hnone
    · cases hs

/-- The loop goes on exactly while every `send` that took bytes has completed a message and
messages are left. -/
theorem socketSendData_false_iff {node : BNode} {stream : Bytes} {answers : List SendAnswer} :
    (∃ s, socketSendData answers (node, stream) = .ok (s, false)) ↔
      ProperPrefix (counts answers) node.toSend := by
  induction answers generalizing node stream with
  | nil =>
    rcases node.toSend_eq_nil_or with hnone | ⟨data, rest, hqueue, hoffset⟩
    · rw [hnone]
      exact iff_of_false (socketSendData_of_toSend_eq_nil hnone) properPrefix_nil
    · rw [toSend_cons hqueue hoffset]
      unfold socketSendData
      rw [hqueue]
      dsimp only
      rw [if_pos hoffset]
      exact iff_of_true ⟨_, rfl⟩ ⟨List.nil_prefix, (List.cons_ne_nil _ _).symm⟩
  | cons answer answers ih =>
    rcases node.toSend_eq_nil_or with hnone | ⟨data, rest, hqueue, hoffset⟩
    · rw [hnone]
      exact iff_of_false (socketSendData_of_toSend_eq_nil hnone) properPrefix_nil
    · unfold socketSendData
      rw [hqueue]
      dsimp only
      rw [if_pos hoffset]
      cases answer with
      | again => exact ih
      | failed => exact @ih node.closeSocketDisconnect _
      | accepted nBytes =>
        dsimp only
        by_cases hzero : nBytes = 0
        · rw [if_pos hzero, counts_accepted, if_pos hzero]
          exact ih
        · rw [if_neg hzero, counts_accepted, if_neg hzero, toSend_cons hqueue hoffset,
            properPrefix_cons]
          split
          · refine iff_of_false ?_ (by omega)
            rintro ⟨s, hs⟩
            cases hs
          · split
            · rename_i hend
              rw [ih, toSend, sizesLeft_zero rfl]
              exact (and_iff_right (by omega)).symm
            · refine iff_of_false ?_ (by omega)
              rintro ⟨s, hs⟩
              cases hs

/-- A socket that takes all that is left of every message. -/
def takesAll (node : BNode) : List SendAnswer := node.toSend.map .accepted

theorem counts_takesAll (node : BNode) : counts node.takesAll = node.toSend := by
  have hpos : ∀ nBytes ∈ node.toSend, 0 < nBytes := by
    intro nBytes hmem
    simpa using List.mem_takeWhile_imp hmem
  unfold counts takesAll
  rw [List.filterMap_map]
  refine (List.filterMap_congr fun nBytes hmem => ?_).trans List.filterMap_some
  exact if_neg (hpos nBytes hmem).ne'

theorem admits_lengths {queue : List Bytes} (h : ∀ data ∈ queue, data ≠ []) :
    admits restLimit (((queue.map List.length).takeWhile (0 < ·)).map .accepted) queue 0 =
      true := by
  induction queue with
  | nil => rfl
  | cons data rest ih =>
    have hpos : 0 < data.length := List.length_pos_iff.mpr (h data List.mem_cons_self)
    have hrest := ih fun data' hdata' => h data' (List.mem_cons_of_mem _ hdata')
    rw [List.map_cons, List.takeWhile_cons_of_pos (by simpa using hpos), List.map_cons]
    simp only [admits, restLimit, Nat.sub_zero, Nat.zero_add, if_true, hrest, Bool.and_true]
    exact decide_eq_true ⟨hpos, le_refl _⟩

/-- Where the socket takes all that is left, the call returns. -/
theorem Ready.exists_ends {node : BNode} {stream : Bytes} (h : Ready node) :
    ∃ s, BNode.socketSendData node.takesAll (node, stream) = .ok (s, true) := by
  have hadmits : admits restLimit node.takesAll node.vSendMsg node.nSendOffset = true := by
    have hpositioned := h.positioned
    unfold Positioned at hpositioned
    unfold takesAll
    cases hqueue : node.vSendMsg with
    | nil => rw [toSend, sizesLeft, hqueue]; rfl
    | cons data rest =>
      rw [hqueue] at hpositioned
      have hrest := admits_lengths fun data' hdata' =>
        h.nonempty data' (hqueue ▸ List.mem_cons_of_mem _ hdata')
      rw [toSend_cons hqueue hpositioned, List.map_cons]
      simp only [admits, restLimit, Nat.add_sub_of_le (Nat.le_of_lt hpositioned), if_true, hrest,
        Bool.and_true]
      exact decide_eq_true ⟨by omega, le_refl _⟩
  obtain ⟨⟨s, returned⟩, hr⟩ : ∃ r, BNode.socketSendData node.takesAll (node, stream) = .ok r :=
    h.exists_socketSendData hadmits
  cases returned with
  | true => exact ⟨s, hr⟩
  | false =>
    have hprefix := socketSendData_false_iff.mp ⟨s, hr⟩
    rw [counts_takesAll] at hprefix
    exact absurd rfl hprefix.2

/-- The first answers of an endless sequence. -/
def firstAnswers (answers : ℕ → SendAnswer) (n : ℕ) : List SendAnswer :=
  (List.range n).map answers

/-- On a closed socket `send` takes nothing. -/
theorem counts_firstAnswers_of_failed {answers : ℕ → SendAnswer} {i : ℕ}
    (hfailed : ∀ j, i ≤ j → answers j = .failed) {n : ℕ} (hle : i ≤ n) :
    counts (firstAnswers answers n) = counts (firstAnswers answers i) := by
  obtain ⟨m, rfl⟩ := Nat.exists_eq_add_of_le hle
  have hrest : ((List.range m).map fun k => answers (i + k)).filterMap taken = [] := by
    rw [List.filterMap_eq_nil_iff]
    intro answer hanswer
    obtain ⟨k, _, rfl⟩ := List.mem_map.mp hanswer
    rw [hfailed (i + k) (Nat.le_add_right i k), taken]
  unfold counts firstAnswers
  rw [List.range_add, List.map_append, List.map_map, List.filterMap_append]
  exact (congrArg _ hrest).trans (List.append_nil _)

/-- The call has returned: at the end of the queue or behind a short write, or behind a `send`
that took more than the rest of its message, where the loop breaks as behind a short one. -/
def Returned (outcome : Except Fault ((BNode × Bytes) × Bool)) : Prop :=
  (∃ s, outcome = .ok (s, true)) ∨ outcome = .error .outOfRange

/-- The bytes taken make the loop leave a queue with these sizes: every message is written, or
behind messages that are written a `send` took another number of bytes than the next message
has, which is not empty. -/
def Leaves (counts sizes : List ℕ) : Prop :=
  sizes <+: counts ∨
    ∃ written nBytes size, written ++ [nBytes] <+: counts ∧ written ++ [size] <+: sizes ∧
      nBytes ≠ size ∧ 0 < size

theorem leaves_nil_right (counts : List ℕ) : Leaves counts [] := Or.inl List.nil_prefix

theorem not_leaves_nil_left {size : ℕ} {sizes : List ℕ} : ¬ Leaves [] (size :: sizes) := by
  rintro (h | ⟨written, nBytes, _, h, _⟩)
  · exact List.cons_ne_nil _ _ (List.prefix_nil.mp h)
  · exact absurd (List.prefix_nil.mp h) (by simp)

theorem leaves_cons {nBytes size : ℕ} {counts sizes : List ℕ} :
    Leaves (nBytes :: counts) (size :: sizes) ↔
      (nBytes ≠ size ∧ 0 < size) ∨ (nBytes = size ∧ Leaves counts sizes) := by
  constructor
  · rintro (h | ⟨written, n, z, hcounts, hsizes, hne, hpos⟩)
    · obtain ⟨heq, h⟩ := List.cons_prefix_cons.mp h
      exact Or.inr ⟨heq.symm, Or.inl h⟩
    · cases written with
      | nil =>
        obtain ⟨rfl, _⟩ := List.cons_prefix_cons.mp hcounts
        obtain ⟨rfl, _⟩ := List.cons_prefix_cons.mp hsizes
        exact Or.inl ⟨hne, hpos⟩
      | cons first written =>
        obtain ⟨rfl, hcounts'⟩ := List.cons_prefix_cons.mp hcounts
        obtain ⟨rfl, hsizes'⟩ := List.cons_prefix_cons.mp hsizes
        exact Or.inr ⟨rfl, Or.inr ⟨written, n, z, hcounts', hsizes', hne, hpos⟩⟩
  · rintro (⟨hne, hpos⟩ | ⟨rfl, h | ⟨written, n, z, hcounts, hsizes, hne, hpos⟩⟩)
    · refine Or.inr ⟨[], nBytes, size, ?_, ?_, hne, hpos⟩
      · exact List.cons_prefix_cons.mpr ⟨rfl, List.nil_prefix⟩
      · exact List.cons_prefix_cons.mpr ⟨rfl, List.nil_prefix⟩
    · exact Or.inl (List.cons_prefix_cons.mpr ⟨rfl, h⟩)
    · refine Or.inr ⟨nBytes :: written, n, z, ?_, ?_, hne, hpos⟩
      · exact List.cons_prefix_cons.mpr ⟨rfl, hcounts⟩
      · exact List.cons_prefix_cons.mpr ⟨rfl, hsizes⟩

/-- No bytes taken leave an empty message behind. -/
theorem not_leaves_zero {counts sizes : List ℕ} (hpos : ∀ nBytes ∈ counts, 0 < nBytes) :
    ¬ Leaves counts (0 :: sizes) := by
  cases counts with
  | nil => exact not_leaves_nil_left
  | cons nBytes counts =>
    rw [leaves_cons]
    have := hpos nBytes List.mem_cons_self
    omega

/-- A call has returned exactly when the bytes taken make its loop leave. An assertion that
fails is no return. -/
theorem returned_iff {node : BNode} {stream : Bytes} {answers : List SendAnswer}
    (hempty : node.vSendMsg = [] → node.nSendOffset = 0) :
    Returned (socketSendData answers (node, stream)) ↔
      Leaves (counts answers) node.sizesLeft := by
  induction answers generalizing node stream with
  | nil =>
    unfold socketSendData sizesLeft Returned
    cases hqueue : node.vSendMsg with
    | nil =>
      dsimp only
      rw [if_pos (hempty hqueue)]
      exact iff_of_true (Or.inl ⟨_, rfl⟩) (leaves_nil_right _)
    | cons data rest =>
      refine iff_of_false ?_ not_leaves_nil_left
      dsimp only
      split
      · rintro (⟨s, hs⟩ | hs) <;> cases hs
      · rintro (⟨s, hs⟩ | hs) <;> cases hs
  | cons answer answers ih =>
    unfold socketSendData
    cases hqueue : node.vSendMsg with
    | nil =>
      dsimp only
      rw [if_pos (hempty hqueue), sizesLeft, hqueue]
      exact iff_of_true (Or.inl ⟨_, rfl⟩) (leaves_nil_right _)
    | cons data rest =>
      have hsizes : node.sizesLeft =
          (data.length - node.nSendOffset) :: rest.map List.length := by
        rw [sizesLeft, hqueue]
      dsimp only
      by_cases hoffset : node.nSendOffset < data.length
      · rw [if_pos hoffset]
        cases answer with
        | again => exact ih hempty
        | failed => exact @ih node.closeSocketDisconnect _ hempty
        | accepted nBytes =>
          dsimp only
          by_cases hzero : nBytes = 0
          · rw [if_pos hzero, counts_accepted, if_pos hzero]
            exact ih hempty
          · rw [if_neg hzero, counts_accepted, if_neg hzero, hsizes, leaves_cons]
            split
            · exact iff_of_true (Or.inr rfl) (Or.inl (by omega))
            · split
              · rw [ih fun _ => rfl, sizesLeft_zero rfl]
                constructor
                · intro h
                  exact Or.inr ⟨by omega, h⟩
                · rintro (h | h)
                  · omega
                  · exact h.2
              · exact iff_of_true (Or.inl ⟨_, rfl⟩) (Or.inl (by omega))
      · -- Nothing is left of the front message: the assertion before `send` fails.
        rw [if_neg hoffset, hsizes, Nat.sub_eq_zero_of_le (Nat.le_of_not_lt hoffset)]
        refine iff_of_false ?_ (not_leaves_zero fun _ => pos_of_mem_counts)
        rintro (⟨s, hs⟩ | hs) <;> cases hs

/-- For every queue with an offset inside its front message and every sequence of answers in
which an error that closes the socket stays: the call of `SocketSendData` returns exactly when,
before such an error, every message is written, or behind messages that are written a `send`
takes some bytes, but not as many as the next message has left, which is not empty. -/
theorem socketSendData_ends_iff (s : BNode × Bytes) (answers : ℕ → SendAnswer) (data : Bytes)
    (rest : List Bytes) (hqueue : s.1.vSendMsg = data :: rest)
    (hoffset : s.1.nSendOffset < data.length)
    (hfatal : ∀ i j, i ≤ j → answers i = .failed → answers j = .failed) :
    (∃ n, Returned (socketSendData (firstAnswers answers n) s)) ↔
      ∃ n, (∀ i < n, answers i ≠ .failed) ∧
        Leaves (counts (firstAnswers answers n))
          ((data.length - s.1.nSendOffset) :: rest.map List.length) := by
  classical
  obtain ⟨node, stream⟩ := s
  have hsizes : node.sizesLeft = (data.length - node.nSendOffset) :: rest.map List.length := by
    rw [sizesLeft, hqueue]
  have hempty : node.vSendMsg = [] → node.nSendOffset = 0 := by
    intro hnone
    rw [hqueue] at hnone
    cases hnone
  simp only [returned_iff hempty, ← hsizes]
  constructor
  · rintro ⟨n, hn⟩
    by_cases hfailed : ∃ i, i < n ∧ answers i = .failed
    · -- The first error ends what counts: nothing is taken behind it.
      obtain ⟨hlt, hfirst⟩ := Nat.find_spec hfailed
      refine ⟨Nat.find hfailed, fun i hi hanswer => ?_, ?_⟩
      · exact Nat.find_min hfailed hi ⟨hi.trans hlt, hanswer⟩
      · rwa [← counts_firstAnswers_of_failed (fun j hj => hfatal _ j hj hfirst) hlt.le]
    · exact ⟨n, fun i hi hanswer => hfailed ⟨i, hi, hanswer⟩, hn⟩
  · rintro ⟨n, _, hn⟩
    exact ⟨n, hn⟩

/-- A node with one message of two bytes in its queue. -/
def oneQueued : BNode := { new 3 with vSendMsg := [[1, 2]] }

/-- A `send` that is repeated, then a short write; later calls fail. -/
def shortAnswers : ℕ → SendAnswer
  | 0 => .again
  | 1 => .accepted 1
  | _ => .failed

theorem shortAnswers_end :
    (∀ i j, i ≤ j → shortAnswers i = .failed → shortAnswers j = .failed) ∧
      ∃ n, Returned (socketSendData (firstAnswers shortAnswers n) (oneQueued, [])) := by
  have hfatal : ∀ i j, i ≤ j → shortAnswers i = .failed → shortAnswers j = .failed := by
    intro i j hij hi
    match i, j with
    | 0, _ => cases hi
    | 1, _ => cases hi
    | _ + 2, 0 => omega
    | _ + 2, 1 => omega
    | _ + 2, _ + 2 => rfl
  refine ⟨hfatal, (socketSendData_ends_iff (oneQueued, []) shortAnswers [1, 2] [] rfl (by decide)
    hfatal).mpr ⟨2, fun i hi => ?_, ?_⟩⟩
  · match i with
    | 0 => exact SendAnswer.noConfusion
    | 1 => exact SendAnswer.noConfusion
  · -- One byte of the two is taken.
    exact leaves_cons.mpr (Or.inl ⟨by decide, by decide⟩)

/-- An error that closes the socket is met again and again: the call never returns. -/
theorem socketSendData_spins :
    oneQueued.vSendMsg ≠ [] ∧ oneQueued.nSendOffset < [(1 : UInt8), 2].length ∧
      ∀ n, ∃ s', socketSendData (firstAnswers (fun _ => .failed) n) (oneQueued, []) =
        .ok (s', false) := by
  refine ⟨List.cons_ne_nil _ _, by decide, fun n => socketSendData_false_iff.mpr ?_⟩
  rw [counts_firstAnswers_of_failed (fun _ _ => rfl) (Nat.zero_le n)]
  exact ⟨List.nil_prefix, (List.cons_ne_nil _ _).symm⟩

end Termination

end Bubi.BNode
