import Ebpf101.UserMemory
import Ebpf101.Lib.Pairing

/-!
# netsnoop

Chapter 11, `11-connect`. The pattern of opensnoop for `connect`: the entry hook
stashes a copy of the socket address, the exit hook decodes it and submits a
record. Unlike opensnoop's, this entry hook ignores some calls: those with a NULL
address, and those of another family than IPv4 and IPv6. It then leaves the stash
as it is.

Results:
1. `events_of_own_calls`: as long as no ignored call returns while the stash holds
   an entry for its pid, every event has the address, port and family of the very
   call whose return value it has, and no call of another family has one.
   `leftover_entry_reported`: the entry of a killed process is reported with the
   return value of a `connect` to a Unix socket.
-/

namespace Ebpf101.Netsnoop

open Runs Pairing

/-- `sizeof(struct addr_buf)`. -/
def ADDR_BUF_LEN : Nat := 128

/-- `max_entries` of the stash. -/
def STASH_ENTRIES : Nat := 10240

/-- What the entry hook sees of a call: the pointer `args[1]` and the memory of the
process. -/
structure Call where
  uaddr : Nat
  mem : UserMem

/-- `struct addr_buf`. -/
structure AddrBuf where
  bytes : List UInt8
  length_eq : bytes.length = ADDR_BUF_LEN
deriving DecidableEq

/-- `struct event`. -/
structure Event where
  pid : Pid
  uid : UInt32
  comm : Comm
  family : UInt32
  addr4 : UInt32
  addr6 : List UInt8
  port : UInt16
  ret : Int32
deriving DecidableEq

/-- What the exit hook sees: the current task, the return value, and what
`bpf_ringbuf_reserve` returns: a record as it was left in the ring, or `none` when
the ring is full. -/
structure Exit where
  uid : UInt32
  comm : Comm
  ret : Int64
  reserve : Option Event

abbrev Stash := BpfMap Pid AddrBuf

/-! ## The hooks -/

/-- The copy that `bpf_probe_read_user` makes. -/
def Call.buf (c : Call) : AddrBuf :=
  ⟨probeReadUser c.mem ADDR_BUF_LEN c.uaddr, length_probeReadUser _ _ _⟩

/-- `*(__u16 *)buf.bytes`. -/
def AddrBuf.family (b : AddrBuf) : UInt16 := load16 b.bytes 0

def traceEnter (stash : Stash) (pid : Pid) (c : Call) : Stash :=
  if c.uaddr = 0 then stash
  else if c.buf.family.toNat ≠ AF_INET ∧ c.buf.family.toNat ≠ AF_INET6 then stash
  else stash.updateElem STASH_ENTRIES 0 pid c.buf .any

/-- The stores of `trace_exit` into the reserved record `e`. The address field of
the other family keeps what was there. -/
def record (e : Event) (pid : Pid) (x : Exit) (saved : AddrBuf) : Event :=
  let e :=
    { e with
      pid := pid
      uid := x.uid
      comm := x.comm
      ret := x.ret.toInt32
      family := saved.family.toUInt32 }
  if saved.family.toNat = AF_INET then
    { e with port := ntohs (load16 saved.bytes 2), addr4 := ntohl (load32 saved.bytes 4) }
  else
    { e with port := ntohs (load16 saved.bytes 2), addr6 := (saved.bytes.drop 8).take 16 }

def traceExit (stash : Stash) (pid : Pid) (x : Exit) : Stash × Option Event :=
  match stash.lookupElem pid with
  | none => (stash, none)
  | some saved =>
    match x.reserve with
    | none => (stash.deleteElem pid, none)
    | some e => (stash.deleteElem pid, some (record e pid x saved))

/-! ## Runs -/

abbrev Action := Pairing.Action Pid Call Exit

/-- The stash after the run `acts`, in which processes enter and leave calls, or
are killed. -/
def after (acts : List Action) : Stash := exec (hook traceEnter traceExit) BpfMap.empty acts

/-! ## What an event is to say -/

/-- The socket address of a call, as memory has it. -/
def Call.sockaddr (c : Call) : List UInt8 := bytesAt c.mem ADDR_BUF_LEN c.uaddr

def Call.family (c : Call) : UInt16 := load16 c.sockaddr 0

/-- The call has an address of one of the two families. -/
def Call.Inet (c : Call) : Prop :=
  c.uaddr ≠ 0 ∧ (c.family.toNat = AF_INET ∨ c.family.toNat = AF_INET6)

/-- The event has the family, the port and the address of call `c`, and the return
value of the exit `x`. -/
structure Carries (pid : Pid) (c : Call) (x : Exit) (w : Event) : Prop where
  pid : w.pid = pid
  family : w.family = c.family.toUInt32
  port : w.port = ntohs (load16 c.sockaddr 2)
  addr4 : c.family.toNat = AF_INET → w.addr4 = ntohl (load32 c.sockaddr 4)
  addr6 : c.family.toNat = AF_INET6 → w.addr6 = (c.sockaddr.drop 8).take 16
  ret : w.ret = x.ret.toInt32

/-- An event that an exit submits is that of the call in flight, a call of one of
the two families. -/
def OwnAt (pre : List Action) : Action → Prop
  | .exit pid x => ∀ w, (traceExit (after pre) pid x).2 = some w →
      ∃ i c, current pid pre = some (i, c) ∧ c.Inet ∧ Carries pid c x w
  | _ => True

/-- The entry hook ignores the call. -/
def Call.ignored (c : Call) : Bool :=
  c.uaddr = 0 ∨ (c.buf.family.toNat ≠ AF_INET ∧ c.buf.family.toNat ≠ AF_INET6)

/-- An ignored call returns, with room in the ring, only when the stash holds no
entry for its pid. -/
def CleanAt (pre : List Action) : Action → Prop
  | .exit pid x => ∀ p ∈ current pid pre, p.2.ignored = true → x.reserve.isSome →
      (after pre).lookupElem pid = none
  | _ => True

instance (pre : List Action) : (a : Action) → Decidable (CleanAt pre a)
  | .exit _ _ => inferInstanceAs (Decidable (∀ _ ∈ _, _))
  | .enter _ _ => isTrue trivial
  | .kill _ => isTrue trivial

namespace NetsnoopLemmas

/-- The hooks, as an instance of the pairing pattern. -/
def hooks : Hooks Pid Call Exit AddrBuf Event where
  cap := STASH_ENTRIES
  save c := if c.ignored then none else some c.buf
  emit pid x saved := x.reserve.map fun e => record e pid x saved

theorem traceEnter_eq : traceEnter = hooks.enter := by
  funext stash pid c
  unfold traceEnter
  split
  · next h => simp [Hooks.enter, hooks, Call.ignored, h]
  · next h =>
    split
    · next hf => simp [Hooks.enter, hooks, Call.ignored, hf]
    · next hf =>
      have hno : c.ignored = false := decide_eq_false (not_or.mpr ⟨h, hf⟩)
      simp [Hooks.enter, hooks, hno]

theorem traceExit_eq : traceExit = hooks.exit := by
  funext stash pid x
  simp only [traceExit, Hooks.exit]
  cases stash.lookupElem pid with
  | none => rfl
  | some saved =>
    simp only [hooks]
    cases x.reserve <;> rfl

theorem after_eq (acts : List Action) : after acts = hooks.after acts := by
  rw [after, traceEnter_eq, traceExit_eq]
  rfl

theorem family_zero : load16 (List.replicate ADDR_BUF_LEN 0) 0 = 0 := by decide

/-- The copy of a call that is not ignored is what memory has: a failed read leaves
zeros, which are no family of the two. -/
theorem buf_eq_sockaddr {c : Call} (h : c.ignored = false) : c.buf.bytes = c.sockaddr := by
  by_cases hm : Mapped c.mem ADDR_BUF_LEN c.uaddr
  · exact if_pos hm
  · have hz : c.buf.family = 0 := by
      have hbytes : c.buf.bytes = List.replicate ADDR_BUF_LEN 0 := if_neg hm
      rw [AddrBuf.family, hbytes]
      exact family_zero
    rw [Call.ignored, hz] at h
    simp [AF_INET, AF_INET6] at h

theorem inet_of_not_ignored {c : Call} (h : c.ignored = false) : c.Inet := by
  have hfam : c.buf.family = c.family := congrArg (load16 · 0) (buf_eq_sockaddr h)
  simp only [Call.ignored, hfam, decide_eq_false_iff_not, not_or, not_and_or, not_not] at h
  exact h

/-- The record of a copy that is what memory has. -/
theorem carries_record {c : Call} (h : c.buf.bytes = c.sockaddr) (e : Event) (pid : Pid)
    (x : Exit) : Carries pid c x (record e pid x c.buf) := by
  have hfam : c.buf.family = c.family := congrArg (load16 · 0) h
  unfold record
  rw [hfam, h]
  split
  · next h4 =>
    refine ⟨rfl, rfl, rfl, fun _ => rfl, fun h6 => ?_, rfl⟩
    rw [h4] at h6
    cases h6
  · next h4 => exact ⟨rfl, rfl, rfl, fun h => absurd h h4, fun _ => rfl, rfl⟩

theorem save_of_not_ignored {c : Call} (h : c.ignored = false) : hooks.save c = some c.buf := by
  simp only [hooks, h]
  rfl

end NetsnoopLemmas

open NetsnoopLemmas

/-! ## 1. Events of their own calls -/

/-- For every run in which processes return only from calls they are in, with any
kills, reuse of pids, and failures of the stash and of the ring: if no ignored call
returns while the stash holds an entry for its pid, every event is of its own call. -/
theorem events_of_own_calls {acts : List Action} (h : Along PairedAt acts)
    (hclean : Along CleanAt acts) : Along OwnAt acts := by
  intro pre a post hacts
  have hpaired := h pre a post hacts
  have hc := hclean pre a post hacts
  cases a with
  | enter pid c => trivial
  | kill pid => trivial
  | exit pid x =>
    intro w hw
    rw [after_eq, traceExit_eq] at hw
    obtain ⟨i, c, saved, hcur, hlook, hemit, hown⟩ := emitted_by_current hpaired hw
    obtain ⟨e, hres, rfl⟩ := Option.map_eq_some_iff.mp hemit
    cases hig : c.ignored with
    | true =>
      have hnone := hc (i, c) hcur hig (by rw [hres]; rfl)
      rw [after_eq, hlook] at hnone
      cases hnone
    | false =>
      cases hown _ (save_of_not_ignored hig)
      exact ⟨i, c, hcur, inet_of_not_ignored hig, carries_record (buf_eq_sockaddr hig) e pid x⟩

/-- Memory that begins with the bytes `bs`, at address 1. -/
def exMem (bs : List UInt8) : UserMem := fun a => some (bs.getD (a - 1) 0)

/-- `connect` to 1.2.3.4, port 80. -/
def exInet : Call := ⟨1, exMem [2, 0, 0, 80, 1, 2, 3, 4]⟩

/-- `connect` to a Unix socket. -/
def exUnix : Call := ⟨1, exMem [1, 0, 47, 120]⟩

/-- A return of 0, with room in the ring. -/
def exOk : Exit := ⟨0, Comm.ofBytes [112], 0, some ⟨0, 0, Comm.ofBytes [], 0, 0, [], 0, 0⟩⟩

/-- Pid 5 is killed inside a `connect` to 1.2.3.4; the process that gets its pid
connects to a Unix socket. -/
def exLeftover : List Action := [.enter 5 exInet, .kill 5, .enter 5 exUnix, .exit 5 exOk]

/-- The return value of the Unix call is reported as one of a connection to
1.2.3.4. -/
theorem leftover_entry_reported :
    Along PairedAt exLeftover ∧
    ((traceExit (after (exLeftover.take 3)) 5 exOk).2.map fun w =>
      (w.family, w.addr4, w.port, w.ret)) = some (2, 0x01020304, 80, 0) ∧
    ¬ Along OwnAt exLeftover := by
  refine ⟨by decide +kernel, by decide +kernel, fun h => ?_⟩
  have hown : OwnAt (exLeftover.take 3) (.exit 5 exOk) := h.at rfl
  have hsome : (traceExit (after (exLeftover.take 3)) 5 exOk).2.isSome := by decide +kernel
  obtain ⟨w, hw⟩ := Option.isSome_iff_exists.mp hsome
  obtain ⟨i, c, hcur, ⟨-, hinet⟩, -⟩ := hown w hw
  have hunix : current 5 (exLeftover.take 3) = some (2, exUnix) := rfl
  rw [hunix] at hcur
  cases hcur
  revert hinet
  decide +kernel

/-- The same with threads, which share the pid: while one connects to 1.2.3.4, the other one
connects to a Unix socket, and its return value is reported for the address of the first. -/
theorem ignored_call_reports_other :
    ((traceExit (after [.enter 7 exInet, .enter 7 exUnix]) 7 exOk).2.map fun w =>
      (w.family, w.addr4, w.port, w.ret)) = some (2, 0x01020304, 80, 0) := by
  decide +kernel

/-- The same, but the second process connects to 1.2.3.4 first. -/
def exOverwritten : List Action :=
  [.enter 5 exInet, .kill 5, .enter 5 exInet, .exit 5 exOk, .enter 5 exUnix, .exit 5 exOk]

theorem exOverwritten_own : Along OwnAt exOverwritten :=
  events_of_own_calls (by decide +kernel) (by decide +kernel)

end Ebpf101.Netsnoop
