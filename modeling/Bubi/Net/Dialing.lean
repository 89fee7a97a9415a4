import Bubi.Core.Decimal
import Bubi.Net.Threads

/-!
# Connecting to the peers

`ThreadOpenConnections` reads the words of `peers.dat`, leaves out the addresses of its own
host and calls `ConnectNode` for the others, round after round. It compares the number of
the peers that it has connected to with the length of its list, and ends when they are
equal. `ConnectNode` looks for a node, connects and appends under two separate locks, while
the socket thread accepts and removes peers.

The list is not searched for repetitions: with one, the loop never ends. Where it ends, every
peer of the list is connected, once. After that no peer that is lost is connected again.
-/

namespace Bubi

open Bubi.Core Peers

section Text

/-- The character between the numbers of an address. -/
def dot : UInt8 := 0x2e

/-- `inet_ntoa`: the four bytes of an address in decimal, without leading zeros. -/
def inetNtoa (ip : BitVec 32) : Bytes :=
  [dot].intercalate ((raw32 ip).map fun byte => Decimal.print byte.toNat)

/-- The address in the numbers of a text. -/
def dottedNumbers (text : Bytes) : BitVec 32 :=
  match (text.splitOn dot).map fun word => UInt8.ofNat (Decimal.number word) with
  | [a, b, c, d] => value32 a b c d
  | _ => 0

/-- `inet_pton`, which takes the text of an address only as `inet_ntoa` writes it. -/
def inetPton (text : Bytes) : Option (BitVec 32) :=
  if inetNtoa (dottedNumbers text) = text then some (dottedNumbers text) else none

theorem dottedNumbers_inetNtoa (ip : BitVec 32) : dottedNumbers (inetNtoa ip) = ip := by
  have hdigits : ∀ word ∈ (raw32 ip).map fun byte => Decimal.print byte.toNat, dot ∉ word := by
    intro word hword hdot
    obtain ⟨byte, _, rfl⟩ := List.mem_map.mp hword
    have hdigit := Decimal.isDigit_of_mem_print hdot
    revert hdigit
    decide
  have hread : ∀ byte : UInt8, UInt8.ofNat (Decimal.number (Decimal.print byte.toNat)) = byte := by
    intro byte
    rw [Decimal.number_print, UInt8.ofNat_toNat]
  unfold dottedNumbers inetNtoa
  rw [List.splitOn_intercalate dot hdigits (by simp [raw32])]
  simp only [raw32, List.map_cons, List.map_nil, hread]
  exact value32_raw32 ip

/-- Every address is read back from its text. -/
theorem inetPton_inetNtoa (ip : BitVec 32) : inetPton (inetNtoa ip) = some ip := by
  rw [inetPton, dottedNumbers_inetNtoa, if_pos rfl]

/-- An address has one text. -/
theorem inetNtoa_of_inetPton {text : Bytes} {ip : BitVec 32} (h : inetPton text = some ip) :
    inetNtoa ip = text := by
  unfold inetPton at h
  split at h
  · next htext =>
    cases h
    exact htext
  · cases h

end Text

/-- `htons`, which is `ntohs` as well. -/
def htons (port : BitVec 16) : BitVec 16 := port.rotateLeft 8

/-- `BService (const char*, unsigned short)`; an address that cannot be read is left as it was. -/
def BService.ofText (leftover : BitVec 32) (ip : Bytes) (port : BitVec 16) : BService :=
  ⟨(inetPton ip).getD leftover, htons port⟩

/-- An interface of the host, with its address if that is of the family `AF_INET`. -/
structure Interface where
  name : Bytes
  address : Option (BitVec 32)

/-- `Discover`. -/
def discover (interfaces : List Interface) : List (BitVec 32) :=
  interfaces.filterMap fun i => if i.name = ascii ['l', 'o'] then none else i.address

/-- `vAddrToConnect` as `ThreadOpenConnections` makes it of the words of `peers.dat`. -/
def vAddrToConnect (leftover : BitVec 32) (hostAddr : List (BitVec 32)) (words : List Bytes) :
    List BService :=
  (words.filter fun ip => !hostAddr.any fun addr => decide (ip = inetNtoa addr)).map fun ip =>
    BService.ofText leftover ip 30000

/-- The host's own addresses are left out. -/
theorem ip_notMem_hostAddr {leftover : BitVec 32} {hostAddr : List (BitVec 32)}
    {words : List Bytes} (hwords : ∀ ip ∈ words, (inetPton ip).isSome = true) {b : BService}
    (hb : b ∈ vAddrToConnect leftover hostAddr words) : b.ip ∉ hostAddr := by
  obtain ⟨ip, hip, rfl⟩ := List.mem_map.mp hb
  obtain ⟨hmem, hown⟩ := List.mem_filter.mp hip
  obtain ⟨addr, haddr⟩ := Option.isSome_iff_exists.mp (hwords ip hmem)
  intro hcontra
  have hread : (BService.ofText leftover ip 30000).ip = addr := by
    rw [BService.ofText, haddr, Option.getD_some]
  rw [hread] at hcontra
  have hany : hostAddr.any (fun addr => decide (ip = inetNtoa addr)) = true :=
    List.any_eq_true.mpr ⟨addr, hcontra, decide_eq_true (inetNtoa_of_inetPton haddr).symm⟩
  rw [hany] at hown
  cases hown

/-- Where `ThreadOpenConnections` is. -/
inductive DialPhase where
  /-- Before `ConnectNode` for the first of these addresses, or before the count. -/
  | dialing (todo : List BService)
  /-- `FindNode` has found no node; the socket connects. -/
  | connecting (bService : BService) (todo : List BService)
  | finished

/-- The threads of a process, with the place of `ThreadOpenConnections`. -/
structure Dialer where
  threads : Threads
  phase : DialPhase

/-- What happens in a process, with `ConnectNode` in two parts. -/
inductive DialEvent where
  /-- `FindNode`. -/
  | findNode
  /-- The rest of `ConnectNode`, with the socket that `ConnectSocket` opens. -/
  | connectSocket (socket : Option ℕ)
  /-- The count at the end of a round. -/
  | count
  /-- Any call of another thread. -/
  | thread (e : ThreadEvent)

namespace Dialer

/-- A call of `ConnectNode`. -/
def connects : ThreadEvent → Bool
  | .connectNode _ _ => true
  | _ => false

/-- The peers that this process has connected to. -/
def services (d : Dialer) : List BService := (outbound d.threads.vNodes).map Peer.bService

/-- A process that has no nodes yet. -/
def start (s : Ledger.State) (list : List BService) : Dialer := ⟨.start s, .dialing list⟩

section Model

variable (sha : Bytes → Uint256) (pb : Protobuf) (codec : MessageCodec)
  (extract : Bytes → Option ℚ) (list : List BService)

/-- One event; a call that cannot be made now does nothing. -/
def step (d : Dialer) : DialEvent → Except Fault Dialer
  | .findNode =>
    match d.phase with
    | .dialing (bService :: todo) =>
      match findNode d.threads.vNodes bService with
      | none => .ok { d with phase := .connecting bService todo }
      | some _ => .ok { d with phase := .dialing todo }
    | _ => .ok d
  | .connectSocket socket =>
    match d.phase with
    | .connecting bService todo =>
      match socket with
      | none => .ok { d with phase := .dialing todo }
      | some socket => .ok ⟨d.threads.addNode bService false socket, .dialing todo⟩
    | _ => .ok d
  | .count =>
    match d.phase with
    | .dialing [] =>
      if (outbound d.threads.vNodes).length = list.length then .ok { d with phase := .finished }
      else .ok { d with phase := .dialing list }
    | _ => .ok d
  | .thread e =>
    if connects e then .ok d
    else do
      let threads ← Threads.step sha pb codec extract d.threads e
      .ok { d with threads }

end Model

variable {sha : Bytes → Uint256} {pb : Protobuf} {codec : MessageCodec}
  {extract : Bytes → Option ℚ} {list : List BService} {d d' : Dialer}

section Threads

open Threads

variable {t t' : Threads}

/-- The other threads connect to no peers. -/
theorem outbound_act {e : ThreadEvent} (he : connects e = false)
    (h : act sha pb codec extract t e = .ok t') :
    (outbound t'.vNodes).Sublist (outbound t.vNodes) := by
  have hsame : t'.vNodes = t.vNodes → (outbound t'.vNodes).Sublist (outbound t.vNodes) :=
    fun hvNodes => hvNodes ▸ List.Sublist.refl _
  cases e with
  | connectNode bService socket => cases he
  | disconnect =>
    cases h
    exact List.filter_sublist.filter _
  | acceptSocket accepted =>
    cases accepted with
    | none =>
      cases h
      exact hsame rfl
    | some accepted =>
      dsimp only [act] at h
      split at h <;> cases h
      · exact hsame rfl
      · dsimp only [addNode]
        rw [outbound_append_inbound]
  | select sendLocked recvLocked readable writable =>
    cases h
    exact hsame rfl
  | socketRecvData pointer answer =>
    cases h
    exact hsame rfl
  | socketRecvRequest pointer rest m request =>
    obtain ⟨r, _, h⟩ := bind_eq_ok.mp h
    cases h
    exact hsame rfl
  | socketSendData pointer answers =>
    obtain ⟨r, _, h⟩ := bind_eq_ok.mp h
    cases h
    exact hsame rfl
  | processMessages pointer =>
    obtain ⟨r, _, h⟩ := bind_eq_ok.mp h
    cases h
    exact hsame rfl

theorem outbound_step {e : ThreadEvent} (he : connects e = false)
    (h : Threads.step sha pb codec extract t e = .ok t') :
    (outbound t'.vNodes).Sublist (outbound t.vNodes) := by
  unfold Threads.step at h
  split at h
  · exact outbound_act he h
  · cases h
    exact List.Sublist.refl _

end Threads

/-- What an event can do. -/
inductive Advances (list : List BService) (d : Dialer) : Dialer → Prop where
  | same : Advances list d d
  | search {bService : BService} {todo : List BService}
    (hphase : d.phase = .dialing (bService :: todo))
    (hfind : findNode d.threads.vNodes bService = none) :
    Advances list d { d with phase := .connecting bService todo }
  | skip {bService : BService} {todo : List BService}
    (hphase : d.phase = .dialing (bService :: todo)) :
    Advances list d { d with phase := .dialing todo }
  | giveUp {bService : BService} {todo : List BService}
    (hphase : d.phase = .connecting bService todo) :
    Advances list d { d with phase := .dialing todo }
  | connect {bService : BService} {todo : List BService} (socket : ℕ)
    (hphase : d.phase = .connecting bService todo) :
    Advances list d ⟨d.threads.addNode bService false socket, .dialing todo⟩
  | finish (hphase : d.phase = .dialing [])
    (hcount : (outbound d.threads.vNodes).length = list.length) :
    Advances list d { d with phase := .finished }
  | again (hphase : d.phase = .dialing []) : Advances list d { d with phase := .dialing list }
  | thread {threads : Threads}
    (hsub : (outbound threads.vNodes).Sublist (outbound d.threads.vNodes)) :
    Advances list d { d with threads }

theorem step_advances {e : DialEvent} (hd' : step sha pb codec extract list d e = .ok d') :
    Advances list d d' := by
  cases e with
  | findNode =>
    dsimp only [Dialer.step] at hd'
    split at hd'
    · next hphase =>
      split at hd' <;> cases hd'
      · next hfind => exact .search hphase hfind
      · exact .skip hphase
    · cases hd'
      exact .same
  | connectSocket socket =>
    dsimp only [Dialer.step] at hd'
    split at hd'
    · next hphase =>
      cases socket with
      | none =>
        cases hd'
        exact .giveUp hphase
      | some socket =>
        cases hd'
        exact .connect socket hphase
    · cases hd'
      exact .same
  | count =>
    dsimp only [Dialer.step] at hd'
    split at hd'
    · next hphase =>
      split at hd' <;> cases hd'
      · next hcount => exact .finish hphase hcount
      · exact .again hphase
    · cases hd'
      exact .same
  | thread e =>
    dsimp only [Dialer.step] at hd'
    split at hd'
    · cases hd'
      exact .same
    · next he =>
      obtain ⟨threads, hthreads, hd'⟩ := bind_eq_ok.mp hd'
      cases hd'
      exact .thread (outbound_step (Bool.eq_false_iff.mpr he) hthreads)

/-- What `ThreadOpenConnections` has left to do in its round is on the list. -/
def Ahead (list services : List BService) : DialPhase → Prop
  | .dialing todo => todo ⊆ list
  | .connecting bService todo => bService ∈ list ∧ bService ∉ services ∧ todo ⊆ list
  | .finished => True

/-- The process has connected to peers of the list, to each at most once. -/
structure Listed (list : List BService) (d : Dialer) : Prop where
  nodup : d.services.Nodup
  subset : d.services ⊆ list
  ahead : Ahead list d.services d.phase

theorem listed_start (s : Ledger.State) (list : List BService) : Listed list (start s list) :=
  ⟨List.nodup_nil, List.nil_subset _, List.Subset.refl _⟩

/-- Fewer peers leave the same work. -/
theorem Ahead.sublist {services services' : List BService} {phase : DialPhase}
    (h : Ahead list services phase) (hsub : services'.Sublist services) :
    Ahead list services' phase := by
  cases phase with
  | dialing todo => exact h
  | connecting bService todo => exact ⟨h.1, fun hmem => h.2.1 (hsub.subset hmem), h.2.2⟩
  | finished => trivial

/-- A node that `FindNode` has not found is no peer. -/
theorem notMem_services {bService : BService}
    (h : findNode d.threads.vNodes bService = none) : bService ∉ d.services := by
  intro hmem
  obtain ⟨p, hp, hservice⟩ := List.mem_map.mp hmem
  exact findNode_eq_none.mp h p (mem_outbound.mp hp).1 hservice

theorem services_addNode (d : Dialer) (bService : BService) (socket : ℕ) (phase : DialPhase) :
    services ⟨d.threads.addNode bService false socket, phase⟩ = d.services ++ [bService] := by
  unfold services Threads.addNode
  dsimp only
  rw [outbound_append_outbound, List.map_append]
  rfl

theorem Listed.advances (h : Listed list d) (hd' : Advances list d d') : Listed list d' := by
  have hahead := h.ahead
  cases hd' with
  | same => exact h
  | search hphase hfind =>
    rw [hphase] at hahead
    obtain ⟨hb, htodo⟩ := List.cons_subset.mp hahead
    exact ⟨h.nodup, h.subset, hb, notMem_services hfind, htodo⟩
  | skip hphase =>
    rw [hphase] at hahead
    exact ⟨h.nodup, h.subset, (List.cons_subset.mp hahead).2⟩
  | giveUp hphase =>
    rw [hphase] at hahead
    exact ⟨h.nodup, h.subset, hahead.2.2⟩
  | connect socket hphase =>
    rw [hphase] at hahead
    obtain ⟨hb, hnew, htodo⟩ := hahead
    refine ⟨?_, ?_, htodo⟩
    · rw [services_addNode]
      exact h.nodup.append (List.nodup_singleton _) (List.disjoint_singleton.mpr hnew)
    · rw [services_addNode]
      exact List.append_subset.mpr ⟨h.subset, List.cons_subset.mpr ⟨hb, List.nil_subset _⟩⟩
  | finish hphase hcount => exact ⟨h.nodup, h.subset, trivial⟩
  | again hphase => exact ⟨h.nodup, h.subset, List.Subset.refl _⟩
  | thread hsub =>
    have hservices := hsub.map Peer.bService
    exact ⟨h.nodup.sublist hservices, fun b hb => h.subset (hservices.subset hb),
      hahead.sublist hservices⟩

/-- A count that ends the loop finds every peer of the list connected. -/
theorem Listed.perm (h : Listed list d)
    (hcount : (outbound d.threads.vNodes).length = list.length) : d.services.Perm list := by
  have hlength : list.length ≤ d.services.length := by
    rw [services, List.length_map, hcount]
  exact (h.nodup.subperm h.subset).perm_of_length_le hlength

/-- The loop ends by a count that finds as many peers connected as the list has. -/
theorem step_finishes {e : DialEvent} (hd' : step sha pb codec extract list d e = .ok d')
    (hphase : d.phase ≠ .finished) (hfinished : d'.phase = .finished) :
    e = .count ∧ (outbound d.threads.vNodes).length = list.length ∧
      d' = { d with phase := .finished } := by
  cases e with
  | findNode =>
    dsimp only [Dialer.step] at hd'
    split at hd'
    · split at hd' <;> cases hd' <;> cases hfinished
    · cases hd'
      exact absurd hfinished hphase
  | connectSocket socket =>
    dsimp only [Dialer.step] at hd'
    split at hd'
    · cases socket <;> cases hd' <;> cases hfinished
    · cases hd'
      exact absurd hfinished hphase
  | count =>
    dsimp only [Dialer.step] at hd'
    split at hd'
    · split at hd'
      · next hcount =>
        cases hd'
        exact ⟨rfl, hcount, rfl⟩
      · cases hd'
        cases hfinished
    · cases hd'
      exact absurd hfinished hphase
  | thread e =>
    dsimp only [Dialer.step] at hd'
    split at hd'
    · cases hd'
      exact absurd hfinished hphase
    · obtain ⟨threads, _, hd'⟩ := bind_eq_ok.mp hd'
      cases hd'
      exact absurd hfinished hphase

/-- After its end the loop connects to nobody. -/
theorem Advances.of_finished (h : Advances list d d') (hfinished : d.phase = .finished) :
    d'.phase = .finished ∧ (outbound d'.threads.vNodes).Sublist (outbound d.threads.vNodes) := by
  cases h with
  | same => exact ⟨hfinished, List.Sublist.refl _⟩
  | thread hsub => exact ⟨hfinished, hsub⟩
  | search hphase => exact nomatch hfinished.symm.trans hphase
  | skip hphase => exact nomatch hfinished.symm.trans hphase
  | giveUp hphase => exact nomatch hfinished.symm.trans hphase
  | connect socket hphase => exact nomatch hfinished.symm.trans hphase
  | finish hphase => exact nomatch hfinished.symm.trans hphase
  | again hphase => exact nomatch hfinished.symm.trans hphase

/-- What every run after its end keeps. -/
theorem run_of_finished {events : List DialEvent} (hfinished : d.phase = .finished)
    (hrun : events.foldlM (step sha pb codec extract list) d = .ok d') :
    d'.phase = .finished ∧ (outbound d'.threads.vNodes).Sublist (outbound d.threads.vNodes) := by
  refine @run_invariant _ _ _ _ (fun d' : Dialer => d'.phase = .finished ∧
    (outbound d'.threads.vNodes).Sublist (outbound d.threads.vNodes)) ?_ events _ d'
    ⟨hfinished, List.Sublist.refl _⟩ hrun
  intro m e m' h hstep
  obtain ⟨hphase, hsub⟩ := (step_advances hstep).of_finished h.1
  exact ⟨hphase, hsub.trans h.2⟩

/-- What every run keeps. -/
theorem run_listed {s : Ledger.State} {events : List DialEvent}
    (hrun : events.foldlM (step sha pb codec extract list) (start s list) = .ok d) :
    Listed list d := by
  refine @run_invariant _ _ _ _ (Listed list) ?_ events _ d (listed_start s list) hrun
  intro d e d' h hstep
  exact h.advances (step_advances hstep)

/-- A run in which the loop has ended has a count at which every peer of the list is connected. -/
theorem exists_count {s : Ledger.State} {events : List DialEvent}
    (hrun : events.foldlM (step sha pb codec extract list) (start s list) = .ok d)
    (hfinished : d.phase = .finished) :
    ∃ before after d₀, events = before ++ .count :: after ∧
      before.foldlM (step sha pb codec extract list) (start s list) = .ok d₀ ∧
      step sha pb codec extract list d₀ .count = .ok { d₀ with phase := .finished } ∧
      d₀.services.Nodup ∧ d₀.services.Perm list ∧
      after.foldlM (step sha pb codec extract list) { d₀ with phase := .finished } = .ok d := by
  obtain ⟨before, e, after, d₀, d₁, rfl, hbefore, hphase, hstep, hphase', hafter⟩ :=
    exists_first_step (P := fun d : Dialer => d.phase = .finished)
      (fun h : (start s list).phase = .finished => nomatch h) hfinished hrun
  obtain ⟨rfl, hcount, rfl⟩ := step_finishes hstep hphase hphase'
  have hlisted := run_listed hbefore
  exact ⟨before, after, d₀, rfl, hbefore, hstep, hlisted.nodup, hlisted.perm hcount, hafter⟩

/-- Over every run of the threads: the peers that a process has connected to are those of
`peers.dat`, each at most once, and none is the process's own host, where all words of the file
are addresses. -/
theorem outbound_peers_listed (sha : Bytes → Uint256) (pb : Protobuf) (codec : MessageCodec)
    (extract : Bytes → Option ℚ) (leftover : BitVec 32) (interfaces : List Interface)
    (words : List Bytes) (hwords : ∀ ip ∈ words, (inetPton ip).isSome = true) (s : Ledger.State)
    (events : List DialEvent) (d : Dialer)
    (hrun : events.foldlM (step sha pb codec extract
        (vAddrToConnect leftover (discover interfaces) words))
      (start s (vAddrToConnect leftover (discover interfaces) words)) = .ok d) :
    d.services.Nodup ∧ ∀ b ∈ d.services, inetNtoa b.ip ∈ words ∧ b.port = htons 30000 ∧
      b.ip ∉ discover interfaces := by
  have hlisted := run_listed hrun
  refine ⟨hlisted.nodup, fun b hb => ?_⟩
  have hmem := hlisted.subset hb
  have hown := ip_notMem_hostAddr hwords hmem
  obtain ⟨ip, hip, rfl⟩ := List.mem_map.mp hmem
  have hword := (List.mem_filter.mp hip).1
  obtain ⟨addr, haddr⟩ := Option.isSome_iff_exists.mp (hwords ip hword)
  refine ⟨?_, rfl, hown⟩
  rw [BService.ofText, haddr, Option.getD_some, inetNtoa_of_inetPton haddr]
  exact hword

/-- A host with one network, and the words of its file. -/
def sampleInterfaces : List Interface :=
  [⟨ascii "lo".toList, inetPton (ascii "127.0.0.1".toList)⟩,
    ⟨ascii "eth0".toList, inetPton (ascii "10.0.0.1".toList)⟩]

/-- The file has the address of the host itself. -/
def sampleWords : List Bytes := [ascii "10.0.0.1".toList, ascii "10.0.0.2".toList]

/-- `ConnectNode` for every address of a round that has an open socket each. -/
def round (sockets : List ℕ) : List DialEvent :=
  sockets.flatMap fun socket => [.findNode, .connectSocket (some socket)]

theorem outbound_peers_sampleWords :
    ∃ l d, Ledger.new checksum = .ok l ∧
      (round [3]).foldlM (step checksum plainProtobuf plainMessages Process.decimal
          (vAddrToConnect 0 (discover sampleInterfaces) sampleWords))
        (start (fun _ => none, l) (vAddrToConnect 0 (discover sampleInterfaces) sampleWords)) =
          .ok d ∧ d.services.length = 1 ∧
      ∀ b ∈ d.services, inetNtoa b.ip ∈ sampleWords ∧ b.ip ∉ discover sampleInterfaces := by
  have hok : (do
      let l ← Ledger.new checksum
      let d ← (round [3]).foldlM (step checksum plainProtobuf plainMessages Process.decimal
          (vAddrToConnect 0 (discover sampleInterfaces) sampleWords))
        (start (fun _ => none, l) (vAddrToConnect 0 (discover sampleInterfaces) sampleWords))
      .ok (decide (d.services.length = 1))) = .ok true :=
    eq_ok_of_toOption (by decide +kernel)
  obtain ⟨l, hl, hok⟩ := bind_eq_ok.mp hok
  obtain ⟨d, hd, hok⟩ := bind_eq_ok.mp hok
  have hwords : ∀ ip ∈ sampleWords, (inetPton ip).isSome = true := by decide +kernel
  have hpeers := (outbound_peers_listed checksum plainProtobuf plainMessages Process.decimal 0
    sampleInterfaces sampleWords hwords (fun _ => none, l) (round [3]) d hd).2
  exact ⟨l, d, hl, hd, of_decide_eq_true (Except.ok.inj hok),
    fun b hb => ⟨(hpeers b hb).1, (hpeers b hb).2.2⟩⟩

/-- Over every run of the threads: where `ThreadOpenConnections` has ended, it ended at a count in
whose state every peer of its list is connected, once. From that state on the peers that the
process has connected to only get fewer: no peer that is lost is ever connected again. -/
theorem dialing_ends_connected (sha : Bytes → Uint256) (pb : Protobuf) (codec : MessageCodec)
    (extract : Bytes → Option ℚ) (list : List BService) (s : Ledger.State)
    (events : List DialEvent) (d : Dialer)
    (hrun : events.foldlM (step sha pb codec extract list) (start s list) = .ok d)
    (hfinished : d.phase = .finished) :
    ∃ before after d₀, events = before ++ .count :: after ∧
      before.foldlM (step sha pb codec extract list) (start s list) = .ok d₀ ∧
      step sha pb codec extract list d₀ .count = .ok { d₀ with phase := .finished } ∧
      d₀.services.Nodup ∧ d₀.services.Perm list ∧
      ∀ (later later' : List DialEvent) (d₁ d₂ : Dialer),
        later.foldlM (step sha pb codec extract list) { d₀ with phase := .finished } = .ok d₁ →
        later'.foldlM (step sha pb codec extract list) d₁ = .ok d₂ →
          (outbound d₂.threads.vNodes).Sublist (outbound d₁.threads.vNodes) := by
  obtain ⟨before, after, d₀, hevents, hbefore, hstep, hnodup, hperm, _⟩ :=
    exists_count hrun hfinished
  refine ⟨before, after, d₀, hevents, hbefore, hstep, hnodup, hperm, ?_⟩
  intro later later' d₁ d₂ hlater hlater'
  exact (run_of_finished (run_of_finished rfl hlater).1 hlater').2

/-- One peer is connected, the loop ends, and the socket thread goes on. -/
theorem dialing_ends_sampleService :
    ∃ l before after d₀, Ledger.new checksum = .ok l ∧
      round [3] ++ [DialEvent.count, .thread .disconnect] = before ++ DialEvent.count :: after ∧
      before.foldlM (step checksum plainProtobuf plainMessages Process.decimal
          [Threads.sampleService]) (start (fun _ => none, l) [Threads.sampleService]) = .ok d₀ ∧
      d₀.services.Perm [Threads.sampleService] := by
  obtain ⟨l, hl⟩ : ∃ l, Ledger.new checksum = .ok l := ⟨_, rfl⟩
  obtain ⟨d, hd, hfinished⟩ : ∃ d, (round [3] ++ [DialEvent.count, .thread .disconnect]).foldlM
      (step checksum plainProtobuf plainMessages Process.decimal [Threads.sampleService])
      (start (fun _ => none, l) [Threads.sampleService]) = .ok d ∧ d.phase = .finished :=
    ⟨_, rfl, rfl⟩
  obtain ⟨before, after, d₀, hevents, hbefore, _, _, hperm, _⟩ := dialing_ends_connected checksum
    plainProtobuf plainMessages Process.decimal [Threads.sampleService] (fun _ => none, l) _ d hd
    hfinished
  exact ⟨l, before, after, d₀, hl, hevents, hbefore, hperm⟩

section End

/-- A round in which every peer answers connects to all of them. -/
theorem round_connects {todo : List BService} (hphase : d.phase = .dialing todo)
    (houtbound : ∀ p ∈ d.threads.vNodes, p.fInbound = false)
    (hnodup : (d.threads.vNodes.map Peer.bService ++ todo).Nodup) {sockets : List ℕ}
    (hsockets : sockets.length = todo.length) :
    ∃ d', (round sockets).foldlM (step sha pb codec extract list) d = .ok d' ∧
      d'.phase = .dialing [] ∧
      (outbound d'.threads.vNodes).length = d.threads.vNodes.length + todo.length := by
  induction todo generalizing d sockets with
  | nil =>
    obtain rfl := List.length_eq_zero_iff.mp hsockets
    refine ⟨d, rfl, hphase, ?_⟩
    rw [outbound, List.filter_eq_self.mpr fun p hp => by simp [houtbound p hp]]
    rfl
  | cons bService todo ih =>
    obtain ⟨socket, sockets, rfl⟩ := List.exists_cons_of_length_eq_add_one hsockets
    have hfind : findNode d.threads.vNodes bService = none := by
      refine findNode_eq_none.mpr fun p hp heq => ?_
      exact List.disjoint_of_nodup_append hnodup (List.mem_map.mpr ⟨p, hp, heq⟩)
        List.mem_cons_self
    let d₁ : Dialer := ⟨d.threads.addNode bService false socket, .dialing todo⟩
    have hfirst : [.findNode, .connectSocket (some socket)].foldlM
        (step sha pb codec extract list) d = .ok d₁ := by
      refine foldlM_cons_ok.mpr ⟨{ d with phase := .connecting bService todo }, ?_, ?_⟩
      · simp only [Dialer.step, hphase, hfind]
      · exact foldlM_cons_ok.mpr ⟨d₁, rfl, rfl⟩
    have houtbound₁ : ∀ p ∈ d₁.threads.vNodes, p.fInbound = false := by
      intro p hp
      rcases List.mem_append.mp hp with hp | hp
      · exact houtbound p hp
      · rw [List.mem_singleton.mp hp]
    have hnodup₁ : (d₁.threads.vNodes.map Peer.bService ++ todo).Nodup := by
      simp only [d₁, Threads.addNode, List.map_append, List.append_assoc]
      exact hnodup
    have hlength₁ : d₁.threads.vNodes.length = d.threads.vNodes.length + 1 :=
      List.length_append
    obtain ⟨d', hd', hphase', hlength⟩ :=
      @ih d₁ rfl houtbound₁ hnodup₁ sockets (by simpa using hsockets)
    refine ⟨d', foldlM_append_ok.mpr ⟨d₁, hfirst, hd'⟩, hphase', ?_⟩
    rw [hlength, hlength₁, List.length_cons]
    omega

end End

/-- `ThreadOpenConnections` can end exactly when its list has no repetition. -/
theorem dialing_ends_iff (sha : Bytes → Uint256) (pb : Protobuf) (codec : MessageCodec)
    (extract : Bytes → Option ℚ) (list : List BService) (s : Ledger.State) :
    (∃ (events : List DialEvent) (d : Dialer),
        events.foldlM (step sha pb codec extract list) (start s list) = .ok d ∧
          d.phase = .finished) ↔ list.Nodup := by
  constructor
  · rintro ⟨events, d, hrun, hfinished⟩
    obtain ⟨_, _, d₀, _, _, _, hnodup, hperm, _⟩ := exists_count hrun hfinished
    exact hperm.nodup_iff.mp hnodup
  · intro hnodup
    obtain ⟨d, hrun, hphase, hlength⟩ := @round_connects sha pb codec extract list (start s list)
      list rfl (by simp [start, Threads.start]) (by simpa [start, Threads.start] using hnodup)
      (List.range list.length) (by simp)
    refine ⟨round (List.range list.length) ++ [.count], { d with phase := .finished }, ?_, rfl⟩
    refine foldlM_append_ok.mpr ⟨d, hrun, foldlM_cons_ok.mpr ⟨_, ?_, rfl⟩⟩
    have hcount : (outbound d.threads.vNodes).length = list.length := by
      rw [hlength]
      exact Nat.zero_add _
    simp only [Dialer.step, hphase, hcount, if_true]

end Dialer

end Bubi
