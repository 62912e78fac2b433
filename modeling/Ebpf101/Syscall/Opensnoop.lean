import Ebpf101.UserMemory
import Ebpf101.Lib.Pairing

/-!
# opensnoop

Chapter 10, `10-openat-ret`. The entry hook of `openat` stashes the filename and
the flags of the call under the pid of the caller; the exit hook adds the return
value and submits one record.

Results:
1. `pairs_calls`: an event has the filename and the flags of the very call whose
   return value it has; a call has at most one event, and exactly one if its entry
   was stored and its exit finds room in the ring. A process may be killed inside
   the call and its pid reused: the entry it leaves is overwritten by the next
   entry of the pid, even in a full stash, before an exit can take it.
-/

namespace Ebpf101.Opensnoop

open Runs Pairing

def FNAME_LEN : Nat := 256

/-- `max_entries` of the stash. -/
def STASH_ENTRIES : Nat := 10240

/-- What the entry hook sees of a call: the string at `args[1]` and the word
`args[2]`. -/
structure Call where
  filename : Option CString
  flags : UInt64

/-- What the exit hook sees: the current task, the return value, and whether
`bpf_ringbuf_reserve` finds room. -/
structure Exit where
  uid : UInt32
  comm : Comm
  ret : Int64
  room : Bool

/-- `struct entry_t`. -/
structure Entry where
  flags : Int32
  filename : List UInt8
deriving DecidableEq

/-- `struct event`. -/
structure Event where
  pid : Pid
  uid : UInt32
  comm : Comm
  flags : Int32
  ret : Int64
  filename : List UInt8
deriving DecidableEq

abbrev Stash := BpfMap Pid Entry

/-! ## The hooks -/

/-- The cast `(int)ctx->args[2]`. -/
def Call.intFlags (c : Call) : Int32 := c.flags.toUInt32.toInt32

/-- The entry that `trace_enter` builds. -/
def Call.entry (c : Call) : Entry :=
  ⟨c.intFlags, probeReadUserStr FNAME_LEN (List.replicate FNAME_LEN 0) c.filename⟩

def traceEnter (stash : Stash) (pid : Pid) (c : Call) : Stash :=
  stash.updateElem STASH_ENTRIES 0 pid c.entry .any

def traceExit (stash : Stash) (pid : Pid) (x : Exit) : Stash × Option Event :=
  match stash.lookupElem pid with
  | none => (stash, none)
  | some ep =>
    if x.room then
      (stash.deleteElem pid, some ⟨pid, x.uid, x.comm, ep.flags, x.ret, ep.filename⟩)
    else (stash.deleteElem pid, none)

/-! ## Runs -/

abbrev Action := Pairing.Action Pid Call Exit

/-- The stash after the run `acts`, in which processes enter and leave calls, or
are killed. -/
def after (acts : List Action) : Stash := exec (hook traceEnter traceExit) BpfMap.empty acts

/-- The call that was entered at place `i` of the run has the event `p.2`, at
place `p.1`. -/
def Emits (acts : List Action) (i : Nat) (p : Nat × Event) : Prop :=
  ∃ pid x c, acts[p.1]? = some (.exit pid x) ∧ current pid (acts.take p.1) = some (i, c) ∧
    (traceExit (after (acts.take p.1)) pid x).2 = some p.2

/-- The event has the filename and the flags of call `c` and the return value of
the exit `x`. -/
structure Carries (pid : Pid) (c : Call) (x : Exit) (w : Event) : Prop where
  pid : w.pid = pid
  uid : w.uid = x.uid
  comm : w.comm = x.comm
  flags : w.flags = c.intFlags
  filename : cstr w.filename = cut FNAME_LEN c.filename
  ret : w.ret = x.ret

namespace OpensnoopLemmas

/-- The hooks, as an instance of the pairing pattern in which every call is saved. -/
def hooks : Hooks Pid Call Exit Entry Event where
  cap := STASH_ENTRIES
  save c := some c.entry
  emit pid x ep := if x.room then some ⟨pid, x.uid, x.comm, ep.flags, x.ret, ep.filename⟩ else none

theorem traceEnter_eq : traceEnter = hooks.enter := rfl

theorem traceExit_eq : traceExit = hooks.exit := by
  funext stash pid x
  simp only [traceExit, Hooks.exit]
  cases stash.lookupElem pid with
  | none => rfl
  | some ep =>
    simp only [hooks]
    split <;> rfl

theorem after_eq (acts : List Action) : after acts = hooks.after acts := by
  rw [after, traceEnter_eq, traceExit_eq]
  rfl

theorem emits_iff {acts : List Action} {i : Nat} {p : Nat × Event} :
    Emits acts i p ↔ hooks.Emits acts i p := by
  simp only [Emits, Hooks.Emits, after_eq, traceExit_eq]

theorem carries_of_emit {pid : Pid} {c : Call} {x : Exit} {w : Event}
    (h : hooks.emit pid x c.entry = some w) : Carries pid c x w := by
  simp only [hooks] at h
  split at h
  · cases h
    exact ⟨rfl, rfl, rfl, rfl, cstr_probeReadUserStr _ _ _, rfl⟩
  · cases h

end OpensnoopLemmas

open OpensnoopLemmas

/-! ## 1. Pairing -/

/-- For every run in which processes return only from calls they are in, with any
kills, reuse of pids, and failures of the stash and of the ring. -/
theorem pairs_calls {acts : List Action} (h : Along PairedAt acts) :
    (∀ j pid x w, acts[j]? = some (.exit pid x) →
      (traceExit (after (acts.take j)) pid x).2 = some w →
      ∃ i c, current pid (acts.take j) = some (i, c) ∧ Carries pid c x w) ∧
    (∀ i p q, Emits acts i p → Emits acts i q → p = q) ∧
    (∀ i j pid c x, acts[j]? = some (.exit pid x) → current pid (acts.take j) = some (i, c) →
      (after (acts.take (i + 1))).lookupElem pid = some c.entry → x.room = true →
      ∃! p, Emits acts i p) := by
  have huniq : ∀ i p q, Emits acts i p → Emits acts i q → p = q := fun i p q hp hq =>
    emits_unique (emits_iff.mp hp) (emits_iff.mp hq)
  refine ⟨fun j pid x w hexit hw => ?_, huniq, fun i j pid c x hexit hcur hstored hroom => ?_⟩
  · rw [after_eq, traceExit_eq] at hw
    obtain ⟨i, c, e, hcur, -, hemit, hown⟩ := emitted_by_current (h.at hexit) hw
    cases hown _ rfl
    exact ⟨i, c, hcur, carries_of_emit hemit⟩
  · rw [after_eq, ← lookup_take_since_enter hcur] at hstored
    have hemits := emits_of_lookup (H := hooks) hexit hcur hstored (if_pos hroom)
    exact ⟨_, emits_iff.mpr hemits, fun q hq => huniq i q _ hq (emits_iff.mpr hemits)⟩

/-- Pid 7 is killed inside a call for `a`; the process that gets its pid opens `b`
while pid 8, whose call began before the tool was started, returns. -/
def exReuse : List Action :=
  [.enter 7 ⟨some (CString.ofBytes [97]), 0⟩, .kill 7, .enter 7 ⟨some (CString.ofBytes [98]), 2⟩,
    .exit 8 ⟨0, Comm.ofBytes [112], 4, true⟩, .exit 7 ⟨0, Comm.ofBytes [112], 3, true⟩]

/-- The second call of pid 7 has exactly one event. -/
theorem exReuse_paired : ∃! p, Emits exReuse 2 p :=
  (@pairs_calls exReuse (by decide +kernel)).2.2 2 4 7 ⟨some (CString.ofBytes [98]), 2⟩
    ⟨0, Comm.ofBytes [112], 3, true⟩ rfl rfl (by decide +kernel) rfl

end Ebpf101.Opensnoop
