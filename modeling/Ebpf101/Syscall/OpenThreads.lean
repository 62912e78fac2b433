import Mathlib.Data.List.ReduceOption
import Ebpf101.Lib.SharedKey
import Ebpf101.Syscall.Opensnoop

/-!
# opensnoop and threads

Chapters 9 and 10, `09-openat` and `10-openat-ret`. Chapter 9 submits a record at the entry of
`openat`; chapter 10 waits for the return value. Both take the thread group id for the pid, so
the threads of a process share one entry of the stash of chapter 10. They run on different CPUs:
between the lookup and the delete of `trace_exit` another thread may overwrite the entry, or
delete it.

Results:
1. `thread_event`: if no thread of the process writes to the entry between the lookup of a return
   and its delete, the event has the filename and the flags of the thread's own call if no thread
   of the process has written to the entry since; else it has those of a call that another thread
   has begun since, or there is no event. `threads_mixed`: two threads, and a filename that is
   reported with the descriptor of the other.
2. `chapters_agree`: where no hook of a process begins while one of its exit hooks is under way,
   what chapter 10 reports of it is part of what chapter 9 reports, in the same order, and it is
   all but the call in flight if and only if no call begins while another of the process is in
   the stash. `entry_reported_twice`: two exit hooks of a process that overlap.
-/

namespace Ebpf101.Opensnoop

open Runs
open SharedKey (Op OneHeld writes RoomAt FoundAt ExclusiveAt)

abbrev Tid := Nat

/-! ## Chapter 10, with threads -/

/-- The steps of the threads: `trace_enter`, and `trace_exit` up to its lookup and from there. -/
abbrev ThreadOp := Op Tid Call Exit Entry

/-- The two hooks. -/
def tool : SharedKey.Tool Pid Call Exit Entry Event where
  cap := STASH_ENTRIES
  save := Call.entry
  emit pid x ep := if x.room then some ⟨pid, x.uid, x.comm, ep.flags, x.ret, ep.filename⟩ else none

/-- The stash and the hooks under way after the steps `ops`. -/
def threads (owner : Tid → Pid) (ops : List ThreadOp) : SharedKey.Sys Tid Pid Entry :=
  SharedKey.after tool owner ops

/-- What the exit hook of the thread `t`, which has made its lookup, submits after `ops`. If its
entry was freed since, it reads `stale`. -/
def eventOf (owner : Tid → Pid) (ops : List ThreadOp) (t : Tid) (x : Exit) (stale : Entry) :
    Option Event :=
  (SharedKey.step tool owner (threads owner ops) (.finish t x stale)).2

/-- The event of a call. -/
def record (pid : Pid) (x : Exit) (c : Call) : Event :=
  ⟨pid, x.uid, x.comm, c.entry.flags, x.ret, c.entry.filename⟩

namespace OpenThreadsLemmas

theorem traceEnter_tool : traceEnter = tool.enter := rfl

theorem traceExit_tool (stash : Stash) (pid : Pid) (x : Exit) :
    traceExit stash pid x =
      match stash.lookupElem pid with
      | none => (stash, none)
      | some ep => tool.finish stash pid x ep := by
  unfold traceExit
  cases stash.lookupElem pid with
  | none => rfl
  | some ep =>
    simp only [SharedKey.Tool.finish, tool]
    split <;> rfl

/-- An exit hook that nothing interrupts. -/
theorem exit_uninterrupted (owner : Tid → Pid) (s : SharedKey.Sys Tid Pid Entry) (t : Tid)
    (x : Exit) (stale : Entry) :
    let s' := (SharedKey.step tool owner s (.look t : ThreadOp)).1
    ((SharedKey.step tool owner s' (.finish t x stale)).1.stash,
      (SharedKey.step tool owner s' (.finish t x stale)).2) = traceExit s.stash (owner t) x := by
  intro s'
  have hheld : s'.held t = (s.stash.lookupElem (owner t)).map .entry :=
    (SharedKey.held_look t).trans (if_pos rfl)
  rw [traceExit_tool]
  cases hl : s.stash.lookupElem (owner t) with
  | none =>
    rw [hl, Option.map_none] at hheld
    rw [SharedKey.step_finish_none hheld]
    rfl
  | some ep =>
    rw [hl, Option.map_some] at hheld
    rw [SharedKey.step_finish hheld]
    rfl

theorem eventOf_eq (owner : Tid → Pid) (ops : List ThreadOp) (t : Tid) {x : Exit}
    (hring : x.room = true) (stale : Entry) :
    eventOf owner ops t x stale = ((threads owner ops).held t).map fun p =>
      ⟨owner t, x.uid, x.comm, (p.read stale).flags, x.ret, (p.read stale).filename⟩ := by
  unfold eventOf
  cases hheld : (threads owner ops).held t with
  | none => rw [SharedKey.step_finish_none hheld, Option.map_none]
  | some p =>
    rw [SharedKey.step_finish hheld]
    exact if_pos hring

end OpenThreadsLemmas

open OpenThreadsLemmas

/-! ## 1. The event of a return -/

/-- For every interleaving of the threads of every process. The thread enters, looks up, and
finishes after `rest`. -/
theorem thread_event (owner : Tid → Pid) {before since rest : List ThreadOp} {t : Tid} {c : Call}
    (hroom : Along (RoomAt tool owner) (before ++ .enter t c :: since))
    (hfound : Along (FoundAt tool owner) (before ++ .enter t c :: since))
    (hcall : ∀ op ∈ since, op.caller ≠ t)
    (hrest : ∀ op ∈ rest, op.caller ≠ t ∧ writes owner (owner t) op = false)
    {x : Exit} (hring : x.room = true) (stale : Entry) :
    ((∀ op ∈ since, writes owner (owner t) op = false) →
      eventOf owner (before ++ .enter t c :: since ++ .look t :: rest) t x stale =
        some (record (owner t) x c)) ∧
    ((∃ op ∈ since, writes owner (owner t) op = true) →
      eventOf owner (before ++ .enter t c :: since ++ .look t :: rest) t x stale = none ∨
      ∃ t' ≠ t, owner t' = owner t ∧ ∃ c', .enter t' c' ∈ since ∧
        eventOf owner (before ++ .enter t c :: since ++ .look t :: rest) t x stale =
          some (record (owner t) x c')) := by
  rw [eventOf_eq owner _ t hring, threads, SharedKey.held_of_look hrest]
  constructor
  · intro hquiet
    rw [SharedKey.lookup_of_quiet hroom hquiet]
    rfl
  · intro hwritten
    rcases SharedKey.lookup_since hroom hfound hwritten with hnone | ⟨t', c', hin, howner, hlook⟩
    · exact .inl (by rw [hnone]; rfl)
    · exact .inr ⟨t', hcall _ hin, howner, c', hin, by rw [hlook]; rfl⟩

/-- Threads 1 and 2 of process 7 open `a` and `b` at the same time. -/
def exOwner : Tid → Pid := fun _ => 7

def exOpenA : Call := ⟨some (CString.ofBytes [97]), 0⟩
def exOpenB : Call := ⟨some (CString.ofBytes [98]), 0⟩

def exReturn (ret : Int64) : Exit := ⟨0, Comm.ofBytes [112], ret, true⟩

/-- Thread 2 returns from a call that began before the tool was started, and finds the entry of
thread 1; it is still in the hook. -/
theorem exOne_event :
    eventOf exOwner [.enter 1 exOpenA, .look 2, .look 1] 1 (exReturn 3) exOpenB.entry =
      some (record 7 (exReturn 3) exOpenA) :=
  have hroom : Along (RoomAt tool exOwner) ([] ++ .enter 1 exOpenA :: [.look 2]) := by
    decide +kernel
  have hfound : Along (FoundAt tool exOwner) ([] ++ .enter 1 exOpenA :: [.look 2]) := by
    decide +kernel
  (thread_event exOwner hroom hfound (by decide) (List.forall_mem_nil _) rfl
    exOpenB.entry).1 (by decide)

/-- Thread 1 gets the descriptor 3 for `a`; it is reported for `b`, and the return of thread 2 is
not reported. -/
theorem threads_mixed :
    eventOf exOwner [.enter 1 exOpenA, .enter 2 exOpenB, .look 1] 1 (exReturn 3) exOpenA.entry =
      some (record 7 (exReturn 3) exOpenB) ∧
    eventOf exOwner [.enter 1 exOpenA, .enter 2 exOpenB, .look 1,
      .finish 1 (exReturn 3) exOpenA.entry, .look 2] 2 (exReturn 4) exOpenB.entry = none := by
  decide +kernel

/-! ## 2. Two chapters -/

/-- `struct event` of chapter 9. -/
structure Attempt where
  pid : Pid
  uid : UInt32
  comm : Comm
  flags : Int32
  filename : List UInt8

/-- `trace_openat`, into a record as it was left in the ring, or `none` if there is no room. -/
def traceOpenat (reserve : Option Attempt) (pid : Pid) (uid : UInt32) (comm : Comm) (c : Call) :
    Option Attempt :=
  reserve.map fun e =>
    ⟨pid, uid, comm, c.intFlags, probeReadUserStr FNAME_LEN e.filename c.filename⟩

/-- What the entry hook of chapter 9 finds at each place of the run: a record of the ring, and
the current task. -/
structure Ring where
  reserve : Nat → Option Attempt
  uid : Nat → UInt32
  comm : Nat → Comm

/-- The record that chapter 9 submits at a step. Its hook and that of chapter 10 run at an entry
right after each other. -/
def attemptAt (ring : Ring) (owner : Tid → Pid) (i : Nat) : ThreadOp → Option Attempt
  | .enter t c => traceOpenat (ring.reserve i) (owner t) (ring.uid i) (ring.comm i) c
  | _ => none

/-- The records of chapter 9. -/
def attempts (ring : Ring) (owner : Tid → Pid) (ops : List ThreadOp) : List Attempt :=
  ops.zipIdx.filterMap fun op => attemptAt ring owner op.2 op.1

/-- The records of chapter 10. -/
def events (owner : Tid → Pid) (ops : List ThreadOp) : List Event :=
  (outs (SharedKey.step tool owner) SharedKey.Sys.empty ops).reduceOption

/-- What the two programs print of a process: the flags and the name of the file. -/
def names09 (ring : Ring) (owner : Tid → Pid) (pid : Pid) (ops : List ThreadOp) :
    List (Int32 × List UInt8) :=
  ((attempts ring owner ops).filter fun e => e.pid = pid).map fun e => (e.flags, cstr e.filename)

def names10 (owner : Tid → Pid) (pid : Pid) (ops : List ThreadOp) : List (Int32 × List UInt8) :=
  ((events owner ops).filter fun e => e.pid = pid).map fun e => (e.flags, cstr e.filename)

/-- The call in the stash. -/
def inStash (owner : Tid → Pid) (pid : Pid) (ops : List ThreadOp) : List (Int32 × List UInt8) :=
  ((threads owner ops).stash.lookupElem pid).toList.map fun e => (e.flags, cstr e.filename)

/-- No call of the process begins while another is in the stash. -/
def FreshAt (owner : Tid → Pid) (pid : Pid) (pre : List ThreadOp) : ThreadOp → Prop
  | .enter t _ => owner t = pid → (threads owner pre).stash.lookupElem pid = none
  | _ => True

/-- The stash and the ring of chapter 10 have room. -/
def AllRoomAt (owner : Tid → Pid) (pre : List ThreadOp) : ThreadOp → Prop
  | .enter t c => RoomAt tool owner pre (.enter t c)
  | .look _ => True
  | .finish _ x _ => x.room = true

instance (owner : Tid → Pid) (pre : List ThreadOp) :
    (op : ThreadOp) → Decidable (AllRoomAt owner pre op)
  | .enter t c => inferInstanceAs (Decidable (RoomAt tool owner pre (.enter t c)))
  | .look _ => isTrue trivial
  | .finish _ x _ => inferInstanceAs (Decidable (x.room = true))

instance (owner : Tid → Pid) (pid : Pid) (pre : List ThreadOp) :
    (op : ThreadOp) → Decidable (FreshAt owner pid pre op)
  | .enter _ _ => inferInstanceAs (Decidable (_ → _))
  | .look _ => isTrue trivial
  | .finish _ _ _ => isTrue trivial

namespace OpenThreadsLemmas

variable {owner : Tid → Pid} {pid : Pid} {ring : Ring}

/-- The name of a call, as both chapters show it. -/
def name (c : Call) : Int32 × List UInt8 := (c.intFlags, cut FNAME_LEN c.filename)

theorem name_entry (c : Call) : (c.entry.flags, cstr c.entry.filename) = name c :=
  congrArg (Prod.mk c.intFlags) (cstr_probeReadUserStr ..)

theorem names09_snoc (ops : List ThreadOp) (op : ThreadOp) :
    names09 ring owner pid (ops ++ [op]) = names09 ring owner pid ops ++
      ((attemptAt ring owner ops.length op).toList.filter fun e => e.pid = pid).map
        fun e => (e.flags, cstr e.filename) := by
  rw [names09, attempts, List.zipIdx_append, List.filterMap_append, List.filter_append,
    List.map_append, Nat.zero_add]
  rfl

theorem names10_snoc (ops : List ThreadOp) (op : ThreadOp) :
    names10 owner pid (ops ++ [op]) = names10 owner pid ops ++
      ((SharedKey.step tool owner (threads owner ops) op).2.toList.filter fun e =>
        e.pid = pid).map fun e => (e.flags, cstr e.filename) := by
  rw [names10, events, outs_snoc, List.reduceOption_append, List.reduceOption_singleton,
    List.filter_append, List.map_append]
  rfl

theorem inStash_snoc (ops : List ThreadOp) (op : ThreadOp) :
    inStash owner pid (ops ++ [op]) =
      ((SharedKey.step tool owner (threads owner ops) op).1.stash.lookupElem pid).toList.map
        fun e => (e.flags, cstr e.filename) := by
  rw [inStash, threads, SharedKey.after_snoc]
  rfl

/-- What a step does to the three lists. -/
structure Moves (ring : Ring) (owner : Tid → Pid) (pid : Pid) (ops : List ThreadOp) (op : ThreadOp)
    (new09 new10 stash : List (Int32 × List UInt8)) : Prop where
  names09 : names09 ring owner pid (ops ++ [op]) = names09 ring owner pid ops ++ new09
  names10 : names10 owner pid (ops ++ [op]) = names10 owner pid ops ++ new10
  inStash : inStash owner pid (ops ++ [op]) = stash

theorem moves_enter (hring : ∀ i, (ring.reserve i).isSome) (ops : List ThreadOp) {t : Tid}
    (c : Call) (hpid : owner t = pid) :
    Moves ring owner pid ops (.enter t c) [name c] []
      (if ((threads owner ops).stash.lookupElem pid).isSome ∨
          (threads owner ops).stash.size < STASH_ENTRIES then [name c] else []) := by
  obtain ⟨e, he⟩ := Option.isSome_iff_exists.mp (hring ops.length)
  refine ⟨?_, ?_, ?_⟩
  · rw [names09_snoc, attemptAt, traceOpenat, he]
    simp [hpid, name, cstr_probeReadUserStr]
  · rw [names10_snoc]
    rfl
  · subst hpid
    rw [inStash_snoc]
    split
    · next hroom =>
      rw [SharedKey.lookup_enter c hroom]
      exact congrArg (fun n => [n]) (name_entry c)
    · next hfull =>
      have hnone : (threads owner ops).stash.lookupElem (owner t) = none :=
        Option.not_isSome_iff_eq_none.mp fun hs => hfull (.inl hs)
      rw [SharedKey.step, SharedKey.Tool.enter, BpfMap.lookupElem_updateElem_any,
        if_neg fun h => hfull h.2, hnone]
      rfl

/-- A hook that is alone reports what is in the stash and deletes it. -/
theorem moves_finish (ring : Ring) {ops : List ThreadOp} {t : Tid} (hpid : owner t = pid)
    (hone : OneHeld owner pid (threads owner ops)) {p : SharedKey.Ptr Entry}
    (hheld : (threads owner ops).held t = some p) (x : Exit) (stale : Entry) :
    Moves ring owner pid ops (.finish t x stale) []
      (if x.room then inStash owner pid ops else []) [] := by
  obtain ⟨e, rfl, hlook⟩ := hone.entry t p hpid hheld
  refine ⟨?_, ?_, ?_⟩
  · rw [names09_snoc]
    rfl
  · rw [names10_snoc, inStash, hlook, SharedKey.step_finish hheld, hpid]
    cases hx : x.room <;> simp [tool, hx, SharedKey.Ptr.read]
  · rw [inStash_snoc, SharedKey.step_finish hheld, hpid, BpfMap.lookupElem_deleteElem, if_pos rfl]
    rfl

/-- A lookup, and a step of another process, touches nothing of the process. -/
theorem moves_other (ring : Ring) (ops : List ThreadOp) {op : ThreadOp}
    (h : writes owner pid op = false) :
    Moves ring owner pid ops op [] [] (inStash owner pid ops) := by
  refine ⟨?_, ?_, by rw [inStash_snoc, SharedKey.lookup_step h, inStash]⟩
  · rw [names09_snoc]
    cases op with
    | enter t c =>
      have hne : owner t ≠ pid := of_decide_eq_false h
      rw [attemptAt, traceOpenat]
      cases ring.reserve ops.length <;> simp [hne]
    | look t => rfl
    | finish t x stale => rfl
  · rw [names10_snoc]
    cases op with
    | enter t c => rfl
    | look t => rfl
    | finish t x stale =>
      have hne : owner t ≠ pid := of_decide_eq_false h
      cases hheld : (threads owner ops).held t with
      | none =>
        rw [SharedKey.step_finish_none hheld]
        rfl
      | some p =>
        rw [SharedKey.step_finish hheld]
        cases hx : x.room <;> simp [tool, hx, hne]

/-- A step of a hook that is not under way does nothing. -/
theorem moves_over (ring : Ring) {ops : List ThreadOp} {t : Tid}
    (hheld : (threads owner ops).held t = none) (x : Exit) (stale : Entry) :
    Moves ring owner pid ops (.finish t x stale) [] [] (inStash owner pid ops) := by
  refine ⟨?_, ?_, by rw [inStash_snoc, SharedKey.step_finish_none hheld, inStash]⟩
  · rw [names09_snoc]
    rfl
  · rw [names10_snoc, SharedKey.step_finish_none hheld]
    rfl

/-- What a step is to a process with at most one exit hook under way. -/
theorem step_cases (hring : ∀ i, (ring.reserve i).isSome) {ops : List ThreadOp}
    (hone : OneHeld owner pid (threads owner ops)) (op : ThreadOp) :
    (∃ t c, op = .enter t c ∧ owner t = pid ∧ Moves ring owner pid ops op [name c] []
      (if ((threads owner ops).stash.lookupElem pid).isSome ∨
        (threads owner ops).stash.size < STASH_ENTRIES then [name c] else [])) ∨
    (∃ t x stale, op = .finish t x stale ∧
      Moves ring owner pid ops op [] (if x.room then inStash owner pid ops else []) []) ∨
    ((∀ t c, op = .enter t c → owner t ≠ pid) ∧
      Moves ring owner pid ops op [] [] (inStash owner pid ops)) := by
  cases hwrites : writes owner pid op with
  | false =>
    refine .inr (.inr ⟨fun t c hop => ?_, moves_other ring ops hwrites⟩)
    subst hop
    exact of_decide_eq_false hwrites
  | true =>
    cases op with
    | enter t c =>
      have hpid : owner t = pid := of_decide_eq_true hwrites
      exact .inl ⟨t, c, rfl, hpid, moves_enter hring ops c hpid⟩
    | look t => cases hwrites
    | finish t x stale =>
      cases hheld : (threads owner ops).held t with
      | none => exact .inr (.inr ⟨fun t c hop => (nomatch hop), moves_over ring hheld x stale⟩)
      | some p =>
        have hpid : owner t = pid := of_decide_eq_true hwrites
        exact .inr (.inl ⟨t, x, stale, rfl, moves_finish ring hpid hone hheld x stale⟩)

/-- Every name of chapter 10, and the one in the stash, is a name of chapter 9. -/
theorem names_sublist (hring : ∀ i, (ring.reserve i).isSome) {ops : List ThreadOp}
    (hex : Along (ExclusiveAt tool owner pid) ops) :
    (names10 owner pid ops ++ inStash owner pid ops).Sublist (names09 ring owner pid ops) := by
  induction ops using List.reverseRecOn with
  | nil => exact List.Sublist.refl []
  | append_singleton ops op ih =>
    have ih := ih hex.left
    have hprinted := (List.sublist_append_left _ _).trans ih
    rcases step_cases hring (SharedKey.oneHeld_after hex.left) op with
      ⟨t, c, -, -, hm⟩ | ⟨t, x, stale, -, hm⟩ | ⟨-, hm⟩
    · rw [hm.names09, hm.names10, hm.inStash, List.append_nil]
      split
      · exact hprinted.append (List.Sublist.refl _)
      · rw [List.append_nil]
        exact hprinted.trans (List.sublist_append_left _ _)
    · rw [hm.names09, hm.names10, hm.inStash, List.append_nil, List.append_nil]
      split
      · exact ih
      · rwa [List.append_nil]
    · rw [hm.names09, hm.names10, hm.inStash, List.append_nil, List.append_nil]
      exact ih

/-- Nothing is lost as long as no entry is overwritten. -/
theorem names_eq_iff (hring : ∀ i, (ring.reserve i).isSome) {ops : List ThreadOp}
    (hex : Along (ExclusiveAt tool owner pid) ops) (hroom : Along (AllRoomAt owner) ops) :
    names10 owner pid ops ++ inStash owner pid ops = names09 ring owner pid ops ↔
      Along (FreshAt owner pid) ops := by
  induction ops using List.reverseRecOn with
  | nil => exact iff_of_true rfl (along_nil _)
  | append_singleton ops op ih =>
    rw [along_snoc, ← ih hex.left hroom.left]
    have hlast := hroom.last
    rcases step_cases hring (SharedKey.oneHeld_after hex.left) op with
      ⟨t, c, rfl, hpid, hm⟩ | ⟨t, x, stale, rfl, hm⟩ | ⟨hother, hm⟩
    · have hstored : ((threads owner ops).stash.lookupElem pid).isSome ∨
          (threads owner ops).stash.size < STASH_ENTRIES := hpid ▸ hlast
      rw [hm.names09, hm.names10, hm.inStash, if_pos hstored, List.append_nil,
        List.append_left_inj]
      cases hl : (threads owner ops).stash.lookupElem pid with
      | none =>
        have hempty : inStash owner pid ops = [] := by
          rw [inStash, hl]
          rfl
        rw [hempty, List.append_nil]
        exact (and_iff_left fun _ => hl).symm
      | some e =>
        -- the entry that is overwritten is in chapter 9 only
        refine iff_of_false (fun heq => ?_) fun hand => nomatch hl.symm.trans (hand.2 hpid)
        have hsub := (names_sublist hring hex.left).length_le
        rw [heq, List.length_append, inStash, hl] at hsub
        exact absurd hsub (Nat.not_le_of_lt (Nat.lt_succ_self _))
    · rw [hm.names09, hm.names10, hm.inStash, if_pos (show x.room = true from hlast),
        List.append_nil, List.append_nil]
      exact (and_iff_left trivial).symm
    · rw [hm.names09, hm.names10, hm.inStash, List.append_nil, List.append_nil]
      refine (and_iff_left ?_).symm
      cases op with
      | enter t c => exact fun hpid => absurd hpid (hother t c rfl)
      | look t => trivial
      | finish t x stale => trivial

end OpenThreadsLemmas

/-- For every interleaving of threads, and every process whose hooks do not overlap an exit hook
of it. -/
theorem chapters_agree (ring : Ring) (owner : Tid → Pid) (pid : Pid) {ops : List ThreadOp}
    (hring : ∀ i, (ring.reserve i).isSome) (hex : Along (ExclusiveAt tool owner pid) ops) :
    (names10 owner pid ops).Sublist (names09 ring owner pid ops) ∧
    (Along (AllRoomAt owner) ops →
      (names10 owner pid ops ++ inStash owner pid ops = names09 ring owner pid ops ↔
        Along (FreshAt owner pid) ops)) :=
  ⟨(List.sublist_append_left _ _).trans (names_sublist hring hex), names_eq_iff hring hex⟩

/-- A ring with room. -/
def exRing : Ring :=
  ⟨fun _ => some ⟨0, 0, Comm.ofBytes [], 0, []⟩, fun _ => 0, fun _ => Comm.ofBytes [112]⟩

/-- The two threads in turn. -/
def exTurns : List ThreadOp :=
  [.enter 1 exOpenA, .look 1, .finish 1 (exReturn 3) exOpenB.entry, .enter 2 exOpenB, .look 2,
    .finish 2 (exReturn 4) exOpenA.entry, .enter 1 exOpenB]

theorem exTurns_agree :
    names10 exOwner 7 exTurns ++ inStash exOwner 7 exTurns = names09 exRing exOwner 7 exTurns :=
  have hex : Along (ExclusiveAt tool exOwner 7) exTurns := by decide +kernel
  have hroom : Along (AllRoomAt exOwner) exTurns := by decide +kernel
  ((chapters_agree exRing exOwner 7 (fun _ => rfl) hex).2 hroom).mpr (by decide +kernel)

/-- Both threads look up before either deletes. The second one still finds `b` in the freed
memory. -/
def exOverlap : List ThreadOp :=
  [.enter 1 exOpenA, .enter 2 exOpenB, .look 1, .look 2, .finish 1 (exReturn 3) exOpenA.entry,
    .finish 2 (exReturn 4) exOpenB.entry]

/-- `b` is reported twice. -/
theorem entry_reported_twice :
    names10 exOwner 7 exOverlap = [name exOpenB, name exOpenB] ∧
    names09 exRing exOwner 7 exOverlap = [name exOpenA, name exOpenB] := by
  decide +kernel

end Ebpf101.Opensnoop
