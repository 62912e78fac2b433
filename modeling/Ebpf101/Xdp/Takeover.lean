import Mathlib.Algebra.BigOperators.Fin
import Ebpf101.Lib.Runs
import Ebpf101.Xdp.Loader
import Ebpf101.Xdp.Totals

/-!
# Several XDP tools on one machine

Chapters 17 and 21: the `main` of `17-xdp/xdpcount.c` and that of `21-firewall/xdpfw.c`, any number
of them on any interfaces. Both attach with `XDP_FLAGS_SKB_MODE` alone, which puts the new program
in the place of one that is there, and both detach whatever program is there. An attached program
outlives a process that is killed.

Results:
1. `rows_of_tenure`: in every run of the tools a row that an instance prints counts, in 64 bits,
   the frames that came in on its interface since its own attach, up to the next attach or detach
   there by anyone, each CPU's at the moment when the lookup of the row copies its value.
2. `drops_law`: a frame is dropped if and only if the instance that attached last, with no detach
   since, is a firewall with its port; and an instance that has returned drops nothing.
   `counter_ends_firewall`: a counter, started and stopped, ends a firewall that goes on printing
   its table.
-/

namespace Ebpf101.Xdp

open Runs

/-! ## The two mains -/

inductive Tool where
  | xdpcount
  | xdpfw
deriving DecidableEq, Repr

/-- How an instance is started: its command line, what `if_nameindex` returns, the outcomes of its
calls up to the attach step and what `bpf_xdp_attach` returns, unless another reason stops it. -/
structure Launch where
  tool : Tool
  env : LoaderEnv
  names : List String
  ifname : Option String
  args : List (List Char)
  attach : Int

/-- `default_iface`. A name that the kernel gives fits in `ifbuf`. -/
def defaultIface (names : List String) : String := (names.find? fun name => name ≠ "lo").getD "lo"

/-- `ifname`. -/
def Launch.iface (l : Launch) : String :=
  match l.tool with
  | .xdpcount => l.ifname.getD (defaultIface l.names)
  | .xdpfw => l.ifname.getD "lo"

/-- `ports`, of a firewall. -/
def Launch.ports (l : Launch) : List UInt16 := portsOf l.env.ub l.args

/-- A loaded program, with its map. -/
inductive Prog where
  | count (counts : Counts)
  | fw (blocklist : BpfMap UInt16 Nat)

/-- A run of the program. -/
def Prog.run (cpu : Nat) (frame : List UInt8) : Prog → Prog × XdpAction
  | .count counts => ((.count (xdpCount counts cpu frame).1), (xdpCount counts cpu frame).2)
  | .fw blocklist => (.fw (xdpFw blocklist frame).1, (xdpFw blocklist frame).2)

/-- The `main` of `xdpcount.c` up to the attach step. -/
def countUntilAttach (env : LoaderEnv) (ifname : String) : Except String Counts :=
  match env.ifNametoindex ifname with
  | .error errno => .error ("Unknown interface '" ++ ifname ++ "' (" ++ toString errno ++ ")\n")
  | .ok _ =>
    if !env.loads then .error "Failed to open/load BPF skeleton\n"
    else .ok fun _ _ => 0

/-- The program at the attach step, or the text with which `main` returns 1. -/
def Launch.load (l : Launch) : Except String Prog :=
  match l.tool with
  | .xdpcount => (countUntilAttach l.env l.iface).map .count
  | .xdpfw => (untilAttach l.env l.ifname l.args).map .fw

/-- `ifindex`; 0 if there is no such interface. -/
def Launch.ifindex (l : Launch) : Nat :=
  match l.env.ifNametoindex l.iface with
  | .error _ => 0
  | .ok ifindex => ifindex

/-- What is printed in front of the loop. -/
def Launch.greeting (l : Launch) : String :=
  match l.tool with
  | .xdpcount =>
    "Counting packets on '" ++ l.iface ++ "' in XDP (XDP_PASS — never dropping). Ctrl-C to stop.\n"
  | .xdpfw => "Firewall active on '" ++ l.iface ++ "' — DROPPING TCP/UDP dest port(s):" ++
      String.join (l.ports.map fun p => " " ++ toString p) ++
      "\n(Ctrl-C detaches and restores normal traffic.)\n"

/-- What is printed behind the loop. -/
def Launch.farewell (l : Launch) : String :=
  match l.tool with
  | .xdpcount => "\nDetaching XDP from " ++ l.iface ++ "...\n"
  | .xdpfw => "\nDetaching XDP from " ++ l.iface ++ " (traffic restored)...\n"

/-- The line above a table. -/
def Launch.header (l : Launch) : String :=
  match l.tool with
  | .xdpcount => "\nPROTO               PACKETS\n"
  | .xdpfw => "\nPORT          DROPPED\n"

/-- The value of a CPU, for the lookup of a category. -/
def valueOf (cpu : Nat) (cat : PktCat) : Option Prog → Nat
  | some (.count counts) => counts cpu cat
  | _ => 0

/-- `cnt`, after the lookup of a port. -/
def cntOf (port : UInt16) : Option Prog → Nat
  | some (.fw blocklist) => blocklist.counter port
  | _ => 0

/-- Where an instance is in its `main`. -/
inductive MainPc where
  | start
  | attach
  /-- The program is attached, the two calls of `signal` are to come. -/
  | handlers
  | loop
  /-- The row to be printed next, and what the kernel has copied to `vals`. -/
  | print (row : Nat) (vals : List Nat)
  | detach
  | returned (status : Nat)
  | killed
deriving DecidableEq, Repr

structure Process where
  pc : MainPc
  stop : Bool
deriving DecidableEq, Repr

/-- The instance whose program each interface has, by its index; the programs; the processes. -/
structure Host (ι : Type) where
  attached : Nat → Option ι
  progs : ι → Option Prog
  procs : ι → Process

inductive Action (ι : Type) (ncpu : Nat) where
  /-- The next step of an instance. -/
  | next (i : ι)
  /-- `SIGINT` or `SIGTERM`. -/
  | signal (i : ι)
  /-- `SIGKILL`. -/
  | kill (i : ι)
  | frame (ifindex : Nat) (cpu : Fin ncpu) (bytes : List UInt8)

inductive Output where
  | quiet
  | prints (text : String)
  | row (name : String) (n : Nat)
  | verdict (action : XdpAction)
deriving DecidableEq, Repr

section Machine

variable {ι : Type} [DecidableEq ι] {ncpu : Nat}

def Host.goto (w : Host ι) (i : ι) (pc : MainPc) : Host ι :=
  { w with procs := Function.update w.procs i ⟨pc, (w.procs i).stop⟩ }

/-- The loop over the rows. A lookup in the per-CPU array copies the values of the CPUs one after
the other, while they go on counting. -/
def printStep (ncpu : Nat) (l : Launch) (prog : Option Prog) (row : Nat) (vals : List Nat) :
    MainPc × Output :=
  match l.tool with
  | .xdpcount =>
    match PktCat.all[row]? with
    | none => (.loop, .quiet)
    | some cat =>
      if vals.length < ncpu then (.print row (vals ++ [valueOf vals.length cat prog]), .quiet)
      else (.print (row + 1) [], .row cat.label (vals.foldl u64Add 0))
  | .xdpfw =>
    match l.ports[row]? with
    | none => (.loop, .quiet)
    | some port => (.print (row + 1) [], .row (toString port) (cntOf port prog))

def mainStep (ncpu : Nat) (l : Launch) (w : Host ι) (i : ι) : Host ι × Output :=
  match (w.procs i).pc with
  | .start =>
    match l.load with
    | .error text => (w.goto i (.returned 1), .prints text)
    | .ok prog => ({ w with progs := Function.update w.progs i (some prog) }.goto i .attach, .quiet)
  | .attach =>
    if l.attach ≠ 0 then
      (w.goto i (.returned 1),
        .prints ("Failed to attach XDP to " ++ l.iface ++ ": " ++ toString l.attach ++ "\n"))
    else
      ({ w with attached := Function.update w.attached l.ifindex (some i) }.goto i .handlers,
        .quiet)
  | .handlers => (w.goto i .loop, .prints l.greeting)
  | .loop =>
    if (w.procs i).stop then (w.goto i .detach, .prints l.farewell)
    else (w.goto i (.print 0 []), .prints l.header)
  | .print row vals =>
    (w.goto i (printStep ncpu l (w.progs i) row vals).1, (printStep ncpu l (w.progs i) row vals).2)
  | .detach =>
    ({ w with attached := Function.update w.attached l.ifindex none }.goto i (.returned 0), .quiet)
  | .returned _ => (w, .quiet)
  | .killed => (w, .quiet)

/-- A signal that `on_signal` handles only when it has been installed. -/
def signalStep (w : Host ι) (i : ι) : Host ι :=
  match (w.procs i).pc with
  | .start => w.goto i .killed
  | .attach => w.goto i .killed
  | .handlers => w.goto i .killed
  | .returned _ => w
  | .killed => w
  | pc => { w with procs := Function.update w.procs i ⟨pc, true⟩ }

def killStep (w : Host ι) (i : ι) : Host ι :=
  match (w.procs i).pc with
  | .returned _ => w
  | _ => w.goto i .killed

/-- A frame comes in on an interface. -/
def frameStep (w : Host ι) (ifindex cpu : Nat) (bytes : List UInt8) : Host ι × XdpAction :=
  match w.attached ifindex with
  | none => (w, .pass)
  | some i =>
    match w.progs i with
    | none => (w, .pass)
    | some prog =>
      ({ w with progs := Function.update w.progs i (some (prog.run cpu bytes).1) },
        (prog.run cpu bytes).2)

def hostStep (launch : ι → Launch) (w : Host ι) : Action ι ncpu → Host ι × Output
  | .next i => mainStep ncpu (launch i) w i
  | .signal i => (signalStep w i, .quiet)
  | .kill i => (killStep w i, .quiet)
  | .frame ifindex cpu bytes =>
    ((frameStep w ifindex cpu bytes).1, .verdict (frameStep w ifindex cpu bytes).2)

/-- The machine after a run, from one without XDP programs. -/
def hostAfter (launch : ι → Launch) (acts : List (Action ι ncpu)) : Host ι :=
  exec (hostStep launch) ⟨fun _ => none, fun _ => none, fun _ => ⟨.start, false⟩⟩ acts

/-! ## Statements -/

/-- What the next step of an instance makes of its interface: it has the program of the instance,
or none. -/
def change (l : Launch) (i : ι) : MainPc → Option (Option ι)
  | .attach => if l.attach = 0 then some (some i) else none
  | .detach => some none
  | _ => none

/-- What an action makes of an interface. -/
def changes (launch : ι → Launch) (ifindex : Nat) (w : Host ι) : Action ι ncpu → Option (Option ι)
  | .next i => if (launch i).ifindex = ifindex then change (launch i) i (w.procs i).pc else none
  | _ => none

/-- The instance attached to the interface, and nobody has attached or detached there since. -/
def LastAttached (launch : ι → Launch) (i : ι) (ifindex : Nat)
    (acts : List (Action ι ncpu)) : Prop :=
  LastWrite (fun pre => changes launch ifindex (hostAfter launch pre)) (some i) acts

/-- The program may be attached: `main` is between its two calls, or the process was killed. -/
def Guards : MainPc → Prop
  | .handlers => True
  | .loop => True
  | .print _ _ => True
  | .detach => True
  | .killed => True
  | _ => False

namespace TakeoverLemmas

/-! ## Whose program is in place -/

/-- The interfaces that a step leaves alone. -/
theorem attached_of_change {w : Host ι} {l : Launch} {i : ι}
    (h : change l i (w.procs i).pc = none) :
    (mainStep ncpu l w i).1.attached = w.attached := by
  unfold mainStep
  cases hpc : (w.procs i).pc with
  | start =>
    dsimp only
    split <;> rfl
  | attach =>
    rw [hpc, change] at h
    dsimp only
    split
    · rfl
    · next hzero => rw [if_pos (not_not.mp hzero)] at h; cases h
  | loop =>
    dsimp only
    split <;> rfl
  | detach =>
    rw [hpc] at h
    cases h
  | handlers => rfl
  | print row vals => rfl
  | returned status => rfl
  | killed => rfl

theorem attached_of_change_some {w : Host ι} {l : Launch} {i : ι} {t : Option ι}
    (h : change l i (w.procs i).pc = some t) :
    (mainStep ncpu l w i).1.attached = Function.update w.attached l.ifindex t := by
  unfold mainStep
  cases hpc : (w.procs i).pc with
  | attach =>
    rw [hpc, change] at h
    dsimp only
    split at h
    · next hzero =>
      cases h
      rw [if_neg (not_not.mpr hzero)]
      rfl
    · cases h
  | detach =>
    rw [hpc] at h
    cases h
    rfl
  | start => rw [hpc] at h; cases h
  | loop => rw [hpc] at h; cases h
  | handlers => rw [hpc] at h; cases h
  | print row vals => rw [hpc] at h; cases h
  | returned status => rw [hpc] at h; cases h
  | killed => rw [hpc] at h; cases h

theorem attached_mainStep (launch : ι → Launch) (w : Host ι) (i : ι) (ifindex : Nat) :
    (mainStep ncpu (launch i) w i).1.attached ifindex =
      (changes launch ifindex w (.next i : Action ι ncpu)).getD (w.attached ifindex) := by
  rw [changes]
  cases hc : change (launch i) i (w.procs i).pc with
  | none => rw [attached_of_change hc, ite_self, Option.getD_none]
  | some t =>
    rw [attached_of_change_some hc, Function.update_apply]
    simp only [eq_comm (a := ifindex)]
    split <;> rfl

/-- A signal changes nothing but the process, which stays where it is or ends. -/
theorem signalStep_eq (w : Host ι) (j : ι) :
    ∃ p : Process, signalStep w j = { w with procs := Function.update w.procs j p } ∧
      (p.pc = (w.procs j).pc ∨ p.pc = .killed) := by
  have hsame : w = { w with procs := Function.update w.procs j (w.procs j) } := by
    rw [Function.update_eq_self]
  unfold signalStep
  split
  · exact ⟨_, rfl, .inr rfl⟩
  · exact ⟨_, rfl, .inr rfl⟩
  · exact ⟨_, rfl, .inr rfl⟩
  · exact ⟨_, hsame, .inl rfl⟩
  · exact ⟨_, hsame, .inl rfl⟩
  · exact ⟨_, rfl, .inl rfl⟩

theorem killStep_eq (w : Host ι) (j : ι) :
    ∃ p : Process, killStep w j = { w with procs := Function.update w.procs j p } ∧
      (p.pc = (w.procs j).pc ∨ p.pc = .killed) := by
  unfold killStep
  split
  · exact ⟨w.procs j, by rw [Function.update_eq_self], .inl rfl⟩
  · exact ⟨_, rfl, .inr rfl⟩

/-- A frame changes nothing but the programs. -/
theorem frameStep_eq (w : Host ι) (ifindex cpu : Nat) (bytes : List UInt8) :
    ∃ progs, (frameStep w ifindex cpu bytes).1 = { w with progs := progs } := by
  unfold frameStep
  split
  · exact ⟨_, rfl⟩
  · split
    · exact ⟨_, rfl⟩
    · exact ⟨_, rfl⟩

theorem attached_hostStep (launch : ι → Launch) (ifindex : Nat) (w : Host ι) (a : Action ι ncpu) :
    (hostStep launch w a).1.attached ifindex =
      (changes launch ifindex w a).getD (w.attached ifindex) := by
  cases a with
  | next i => exact attached_mainStep launch w i ifindex
  | signal i =>
    obtain ⟨p, he, -⟩ := signalStep_eq w i
    rw [hostStep, he]
    rfl
  | kill i =>
    obtain ⟨p, he, -⟩ := killStep_eq w i
    rw [hostStep, he]
    rfl
  | frame n cpu bytes =>
    obtain ⟨progs, he⟩ := frameStep_eq w n cpu bytes
    rw [hostStep, he]
    rfl

theorem attached_iff (launch : ι → Launch) (i : ι) (ifindex : Nat) (acts : List (Action ι ncpu)) :
    (hostAfter launch acts).attached ifindex = some i ↔ LastAttached launch i ifindex acts :=
  register_eq_iff (fun w : Host ι => w.attached ifindex) (attached_hostStep launch ifindex)
    (by simp) acts

end TakeoverLemmas

open TakeoverLemmas

instance (launch : ι → Launch) (i : ι) (ifindex : Nat) (acts : List (Action ι ncpu)) :
    Decidable (LastAttached launch i ifindex acts) :=
  decidable_of_iff _ (attached_iff launch i ifindex acts)

/-- Whether the action is a frame with `P` that comes in while the program of the instance is the
one in place. -/
def meets (launch : ι → Launch) (i : ι) (P : Fin ncpu → List UInt8 → Bool)
    (pre : List (Action ι ncpu)) : Action ι ncpu → Nat
  | .frame ifindex cpu bytes =>
    if LastAttached launch i ifindex pre ∧ P cpu bytes = true then 1 else 0
  | _ => 0

/-- The number of the frames with `P` that came in while the program of the instance was in
place. -/
def met (launch : ι → Launch) (i : ι) (P : Fin ncpu → List UInt8 → Bool)
    (acts : List (Action ι ncpu)) : Nat :=
  tally (meets launch i P) acts

/-- The frames of a category that came in on a CPU. -/
def metOn (launch : ι → Launch) (i : ι) (cpu : Fin ncpu) (cat : PktCat)
    (acts : List (Action ι ncpu)) : Nat :=
  met launch i (fun c frame => c = cpu ∧ category frame = cat) acts

/-- The frames for a port. -/
def metFor (launch : ι → Launch) (i : ι) (port : UInt16) (acts : List (Action ι ncpu)) : Nat :=
  met launch i (fun _ frame => fwPort frame = some port) acts

/-- From `pre` to `acts` the instance has been at work on the row. -/
def Reading (launch : ι → Launch) (i : ι) (row : Nat) (pre acts : List (Action ι ncpu)) : Prop :=
  pre <+: acts ∧ ∀ mid, pre <+: mid → mid <+: acts →
    ∃ vals, ((hostAfter launch mid).procs i).pc = .print row vals

/-- The row is the one due to the instance: the frames for its port up to now, or those of its
category, each CPU's up to a moment during the work on the row. -/
def RowDue (launch : ι → Launch) (i : ι) (acts : List (Action ι ncpu)) (row : Nat) (name : String)
    (n : Nat) : Prop :=
  match (launch i).tool with
  | .xdpcount => ∃ cat, PktCat.all[row]? = some cat ∧ name = cat.label ∧
      ∃ moment : Fin ncpu → List (Action ι ncpu), (∀ cpu, Reading launch i row (moment cpu) acts) ∧
        n = (∑ cpu, metOn launch i cpu cat (moment cpu)) % 2 ^ 64
  | .xdpfw => ∃ port, (launch i).ports[row]? = some port ∧ name = toString port ∧
      n = metFor launch i port acts % 2 ^ 64

/-- Which frames are dropped after a run, and by whom. -/
structure DropsLaw (launch : ι → Launch) (acts : List (Action ι ncpu)) : Prop where
  drops : ∀ ifindex cpu bytes, (frameStep (hostAfter launch acts) ifindex cpu bytes).2 = .drop ↔
    ∃ i p, LastAttached launch i ifindex acts ∧ (launch i).tool = .xdpfw ∧ p ∈ (launch i).ports ∧
      fwPort bytes = some p
  guards : ∀ i ifindex, LastAttached launch i ifindex acts →
    Guards ((hostAfter launch acts).procs i).pc
  restored : (∀ i, ∃ status, ((hostAfter launch acts).procs i).pc = .returned status) →
    ∀ ifindex cpu bytes, (frameStep (hostAfter launch acts) ifindex cpu bytes).2 = .pass

namespace TakeoverLemmas

/-! ## Where an instance can go -/

/-- The moves of `main`. -/
inductive Moves (l : Launch) : MainPc → MainPc → Prop
  | unloaded : Moves l .start (.returned 1)
  | loaded {prog : Prog} : l.load = .ok prog → Moves l .start .attach
  | refused : Moves l .attach (.returned 1)
  | attached : Moves l .attach .handlers
  | handled : Moves l .handlers .loop
  | stopped : Moves l .loop .detach
  | slept : Moves l .loop (.print 0 [])
  | copied {row : Nat} {vals : List Nat} (v : Nat) :
      Moves l (.print row vals) (.print row (vals ++ [v]))
  | printed {row : Nat} {vals : List Nat} : Moves l (.print row vals) (.print (row + 1) [])
  | ended {row : Nat} {vals : List Nat} : Moves l (.print row vals) .loop
  | detached : Moves l .detach (.returned 0)

theorem procs_goto (w : Host ι) (i : ι) (pc : MainPc) : ((w.goto i pc).procs i).pc = pc := by
  simp [Host.goto]

theorem procs_goto_ne {i j : ι} (h : j ≠ i) (w : Host ι) (pc : MainPc) :
    (w.goto i pc).procs j = w.procs j := by
  simp [Host.goto, h]

theorem moves_printStep (l : Launch) (prog : Option Prog) (row : Nat) (vals : List Nat) :
    Moves l (.print row vals) (printStep ncpu l prog row vals).1 := by
  unfold printStep
  cases l.tool with
  | xdpcount =>
    dsimp only
    split
    · exact .ended
    · split
      · exact .copied _
      · exact .printed
  | xdpfw =>
    dsimp only
    split
    · exact .ended
    · exact .printed

theorem pc_mainStep (l : Launch) (w : Host ι) (i : ι) :
    ((mainStep ncpu l w i).1.procs i).pc = (w.procs i).pc ∨
      Moves l (w.procs i).pc ((mainStep ncpu l w i).1.procs i).pc := by
  unfold mainStep
  cases hpc : (w.procs i).pc with
  | start =>
    dsimp only
    cases hload : l.load with
    | error text => exact .inr (by rw [procs_goto]; exact .unloaded)
    | ok prog => exact .inr (by rw [procs_goto]; exact .loaded hload)
  | attach =>
    dsimp only
    split
    · exact .inr (by rw [procs_goto]; exact .refused)
    · exact .inr (by rw [procs_goto]; exact .attached)
  | handlers => exact .inr (by rw [procs_goto]; exact .handled)
  | loop =>
    dsimp only
    split
    · exact .inr (by rw [procs_goto]; exact .stopped)
    · exact .inr (by rw [procs_goto]; exact .slept)
  | print row vals => exact .inr (by rw [procs_goto]; exact moves_printStep l _ row vals)
  | detach => exact .inr (by rw [procs_goto]; exact .detached)
  | returned status => exact .inl hpc
  | killed => exact .inl hpc

theorem procs_mainStep_ne {i j : ι} (h : j ≠ i) (l : Launch) (w : Host ι) :
    (mainStep ncpu l w i).1.procs j = w.procs j := by
  unfold mainStep
  split
  · split <;> exact procs_goto_ne h _ _
  · split <;> exact procs_goto_ne h _ _
  · exact procs_goto_ne h _ _
  · split <;> exact procs_goto_ne h _ _
  · exact procs_goto_ne h _ _
  · exact procs_goto_ne h _ _
  · rfl
  · rfl

/-- A process that another action touches, if any. -/
theorem pc_update {w : Host ι} {j : ι} {p : Process}
    (hp : p.pc = (w.procs j).pc ∨ p.pc = .killed) (i : ι) :
    (Function.update w.procs j p i).pc = (w.procs i).pc ∨
      (Function.update w.procs j p i).pc = .killed := by
  rcases eq_or_ne i j with rfl | hne
  · rw [Function.update_self]
    exact hp
  · rw [Function.update_of_ne hne]
    exact .inl rfl

/-- The place of a process after an action: the same, its end, or a move of its own. -/
theorem pc_hostStep (launch : ι → Launch) (w : Host ι) (a : Action ι ncpu) (i : ι) :
    ((hostStep launch w a).1.procs i).pc = (w.procs i).pc ∨
    ((hostStep launch w a).1.procs i).pc = .killed ∨
    a = .next i ∧ Moves (launch i) (w.procs i).pc ((hostStep launch w a).1.procs i).pc := by
  cases a with
  | next j =>
    rcases eq_or_ne i j with rfl | hne
    · rcases pc_mainStep (launch i) w i with hsame | hmove
      · exact .inl hsame
      · exact .inr (.inr ⟨rfl, hmove⟩)
    · exact .inl (congrArg Process.pc (procs_mainStep_ne hne (launch j) w))
  | signal j =>
    obtain ⟨p, he, hp⟩ := signalStep_eq w j
    rw [hostStep, he]
    exact (pc_update hp i).imp_right .inl
  | kill j =>
    obtain ⟨p, he, hp⟩ := killStep_eq w j
    rw [hostStep, he]
    exact (pc_update hp i).imp_right .inl
  | frame n cpu bytes =>
    obtain ⟨progs, he⟩ := frameStep_eq w n cpu bytes
    rw [hostStep, he]
    exact .inl rfl

/-! ## What becomes of a program -/

theorem progs_mainStep (l : Launch) (w : Host ι) (i j : ι) :
    (mainStep ncpu l w i).1.progs j = w.progs j ∨
    j = i ∧ (w.procs i).pc = .start ∧ ((mainStep ncpu l w i).1.procs i).pc = .attach ∧
      ∃ prog, l.load = .ok prog ∧ (mainStep ncpu l w i).1.progs j = some prog := by
  unfold mainStep
  cases (w.procs i).pc with
  | start =>
    dsimp only
    cases hload : l.load with
    | error text => exact .inl rfl
    | ok prog =>
      rcases eq_or_ne j i with rfl | hne
      · exact .inr ⟨rfl, rfl, procs_goto .., prog, rfl, Function.update_self ..⟩
      · exact .inl (Function.update_of_ne hne _ _)
  | attach =>
    dsimp only
    split <;> exact .inl rfl
  | loop =>
    dsimp only
    split <;> exact .inl rfl
  | handlers => exact .inl rfl
  | print row vals => exact .inl rfl
  | detach => exact .inl rfl
  | returned status => exact .inl rfl
  | killed => exact .inl rfl

/-- The program of an instance after an action: it is loaded, has run, or is as before; it runs
whenever a frame comes in where it is attached. -/
theorem progs_hostStep (launch : ι → Launch) (w : Host ι) (a : Action ι ncpu) (i : ι) :
    (hostStep launch w a).1.progs i = w.progs i ∧
      (∀ n cpu bytes, a = .frame n cpu bytes → w.attached n = some i → w.progs i = none) ∨
    (a = .next i ∧ (w.procs i).pc = .start ∧ ((hostStep launch w a).1.procs i).pc = .attach ∧
      ∃ prog, (launch i).load = .ok prog ∧ (hostStep launch w a).1.progs i = some prog) ∨
    ∃ n cpu bytes prog, a = .frame n cpu bytes ∧ w.attached n = some i ∧ w.progs i = some prog ∧
      (hostStep launch w a).1.progs i = some (prog.run cpu bytes).1 := by
  cases a with
  | next j =>
    rcases (progs_mainStep (launch j) w j i : (mainStep ncpu (launch j) w j).1.progs i = _ ∨ _)
      with hsame | ⟨rfl, hstart, hnext, hload⟩
    · exact .inl ⟨hsame, fun _ _ _ he => nomatch he⟩
    · exact .inr (.inl ⟨rfl, hstart, hnext, hload⟩)
  | signal j =>
    obtain ⟨p, he, -⟩ := signalStep_eq w j
    exact .inl ⟨by rw [hostStep, he], fun _ _ _ he => nomatch he⟩
  | kill j =>
    obtain ⟨p, he, -⟩ := killStep_eq w j
    exact .inl ⟨by rw [hostStep, he], fun _ _ _ he => nomatch he⟩
  | frame n cpu bytes =>
    cases hatt : w.attached n with
    | none =>
      refine .inl ⟨by simp only [hostStep, frameStep, hatt], fun n' cpu' bytes' he hi => ?_⟩
      cases he
      rw [hatt] at hi
      cases hi
    | some j =>
      cases hprog : w.progs j with
      | none =>
        refine .inl ⟨by simp only [hostStep, frameStep, hatt, hprog],
          fun n' cpu' bytes' he hi => ?_⟩
        cases he
        rw [hatt] at hi
        cases hi
        exact hprog
      | some prog =>
        rcases eq_or_ne i j with rfl | hne
        · refine .inr (.inr ⟨n, cpu, bytes, prog, rfl, hatt, hprog, ?_⟩)
          simp only [hostStep, frameStep, hatt, hprog, Function.update_self]
        · refine .inl ⟨?_, fun n' cpu' bytes' he hi => ?_⟩
          · simp only [hostStep, frameStep, hatt, hprog, Function.update_of_ne hne]
          · cases he
            rw [hatt] at hi
            cases hi
            exact absurd rfl hne

/-! ## Counters -/

/-- The program is the one of the tool, and its map counts what the instance has met. -/
def Agrees (l : Launch) (seen : (Fin ncpu → List UInt8 → Bool) → Nat) : Prog → Prop
  | .count counts => l.tool = .xdpcount ∧ ∀ (cpu : Fin ncpu) cat,
      counts cpu cat = seen (fun c frame => c = cpu ∧ category frame = cat) % 2 ^ 64
  | .fw blocklist => l.tool = .xdpfw ∧ (∀ p, p ∈ blocklist.keys ↔ p ∈ l.ports) ∧
      ∀ p ∈ blocklist.keys,
        blocklist.counter p = seen (fun _ frame => fwPort frame = some p) % 2 ^ 64

/-- A frame leaves the rules as they are. -/
theorem keys_xdpFw (blocklist : BpfMap UInt16 Nat) (frame : List UInt8) :
    (xdpFw blocklist frame).1.keys = blocklist.keys := by
  unfold xdpFw
  split
  · rfl
  · split
    · exact BpfMap.keys_modify ..
    · rfl

/-- The rule of its port counts it. -/
theorem counter_xdpFw {blocklist : BpfMap UInt16 Nat} {p : UInt16} (hp : p ∈ blocklist.keys)
    (frame : List UInt8) :
    (xdpFw blocklist frame).1.counter p =
      if fwPort frame = some p then u64Add (blocklist.counter p) 1 else blocklist.counter p := by
  unfold xdpFw
  cases hport : fwPort frame with
  | none => rfl
  | some q =>
    dsimp only
    cases hlook : blocklist.lookupElem q with
    | none =>
      have hne : q ≠ p := by
        rintro rfl
        rw [BpfMap.mem_keys_iff, hlook] at hp
        cases hp
      rw [if_neg (by simpa using hne)]
    | some c =>
      rw [BpfMap.counter, BpfMap.lookupElem_modify]
      rcases eq_or_ne p q with rfl | hne
      · rw [if_pos rfl, if_pos rfl, BpfMap.counter, hlook]
        rfl
      · rw [if_neg hne, if_neg (by simpa using hne.symm)]
        rfl

theorem agrees_run {l : Launch} {seen seen' : (Fin ncpu → List UInt8 → Bool) → Nat} {prog : Prog}
    {cpu : Fin ncpu} {bytes : List UInt8}
    (hseen : ∀ P, seen' P = seen P + if P cpu bytes = true then 1 else 0) (h : Agrees l seen prog) :
    Agrees l seen' (prog.run cpu bytes).1 := by
  cases prog with
  | count counts =>
    refine ⟨h.1, fun c cat => ?_⟩
    have hold := h.2 c cat
    show (counts.bump cpu (category bytes)) c cat = _
    rw [Counts.bump, hseen]
    by_cases hown : (c : Nat) = cpu ∧ cat = category bytes
    · obtain ⟨hc, rfl⟩ := hown
      obtain rfl := Fin.ext hc
      rw [if_pos ⟨rfl, rfl⟩, hold]
      simp [u64Add]
    · rw [if_neg hown, hold, if_neg, Nat.add_zero]
      rw [decide_eq_true_eq]
      exact fun he => hown ⟨congrArg Fin.val he.1.symm, he.2.symm⟩
  | fw blocklist =>
    obtain ⟨htool, hkeys, hcounts⟩ := h
    show Agrees l seen' (.fw (xdpFw blocklist bytes).1)
    refine ⟨htool, fun p => keys_xdpFw blocklist bytes ▸ hkeys p, fun p hp => ?_⟩
    rw [keys_xdpFw] at hp
    rw [counter_xdpFw hp, hcounts p hp, hseen]
    split
    · next hport => rw [if_pos (decide_eq_true hport), u64Add, Nat.mod_add_mod]
    · next hport => rw [if_neg (by simpa using hport), Nat.add_zero]

/-- What a lookup of the counter copies for a CPU. -/
theorem valueOf_eq {l : Launch} {seen : (Fin ncpu → List UInt8 → Bool) → Nat} {prog : Prog}
    (h : Agrees l seen prog) (htool : l.tool = .xdpcount) (cpu : Fin ncpu) (cat : PktCat) :
    valueOf cpu cat (some prog) =
      seen (fun c frame => c = cpu ∧ category frame = cat) % 2 ^ 64 := by
  cases prog with
  | count counts => exact h.2 cpu cat
  | fw blocklist =>
    rw [h.1] at htool
    cases htool

/-- The rules start at 0. -/
theorem counter_installRules {env : LoaderEnv} {ports : List UInt16} :
    ∀ {i : Nat} {m m' : BpfMap UInt16 Nat}, (∀ p, m.counter p = 0) →
      installRules env i ports m = .ok m' →
      ∀ p, m'.counter p = 0 := by
  induction ports with
  | nil =>
    intro i m m' hzero h
    cases h
    exact hzero
  | cons port ports ih =>
    intro i m m' hzero h
    rw [installRules] at h
    cases hf : env.updateFails i with
    | some errno => rw [hf] at h; cases h
    | none =>
      rw [hf] at h
      dsimp only at h
      split at h
      · refine ih (fun p => ?_) h
        rw [BpfMap.counter, BpfMap.lookupElem_updateElem_any]
        split
        · rfl
        · exact hzero p
      · cases h

theorem counter_untilAttach {env : LoaderEnv} {ifname : Option String} {args : List (List Char)}
    {m : BpfMap UInt16 Nat} (h : untilAttach env ifname args = .ok m) (p : UInt16) :
    m.counter p = 0 := by
  unfold untilAttach at h
  dsimp only at h
  split at h
  · cases h
  · split at h
    · cases h
    · exact counter_installRules (fun _ => rfl) h p

/-- A program that has just been loaded has counted nothing. -/
theorem agrees_load {l : Launch} {prog : Prog} {seen : (Fin ncpu → List UInt8 → Bool) → Nat}
    (hload : l.load = .ok prog) (hseen : ∀ P, seen P = 0) : Agrees l seen prog := by
  unfold Launch.load at hload
  cases htool : l.tool with
  | xdpcount =>
    rw [htool] at hload
    obtain ⟨counts, hcounts, rfl⟩ : ∃ counts, countUntilAttach l.env l.iface = .ok counts ∧
        prog = .count counts := by
      cases hc : countUntilAttach l.env l.iface with
      | error text => rw [hc] at hload; cases hload
      | ok counts => rw [hc] at hload; cases hload; exact ⟨counts, rfl, rfl⟩
    refine ⟨htool, fun cpu cat => ?_⟩
    obtain rfl : counts = fun _ _ => 0 := by
      unfold countUntilAttach at hcounts
      split at hcounts
      · cases hcounts
      · split at hcounts
        · cases hcounts
        · cases hcounts
          rfl
    rw [hseen]
    exact (Nat.zero_mod _).symm
  | xdpfw =>
    rw [htool] at hload
    obtain ⟨m, hm, rfl⟩ : ∃ m, untilAttach l.env l.ifname l.args = .ok m ∧ prog = .fw m := by
      cases hc : untilAttach l.env l.ifname l.args with
      | error text => rw [hc] at hload; cases hload
      | ok m => rw [hc] at hload; cases hload; exact ⟨m, rfl, rfl⟩
    refine ⟨htool, LoaderLemmas.untilAttach_keys hm, fun p _ => ?_⟩
    rw [counter_untilAttach hm, hseen]
    exact (Nat.zero_mod _).symm

/-! ## Over whole runs -/

/-- The instance has loaded its program and not returned. -/
def Active : MainPc → Prop
  | .attach => True
  | .handlers => True
  | .loop => True
  | .print _ _ => True
  | .detach => True
  | _ => False

theorem Moves.guards {l : Launch} {pc pc' : MainPc} (h : Moves l pc pc') (hpc : Guards pc) :
    Guards pc' ∨ pc = .detach := by
  cases h with
  | unloaded => exact hpc.elim
  | loaded _ => exact hpc.elim
  | refused => exact hpc.elim
  | attached => exact hpc.elim
  | handled => exact .inl trivial
  | stopped => exact .inl trivial
  | slept => exact .inl trivial
  | copied v => exact .inl trivial
  | printed => exact .inl trivial
  | ended => exact .inl trivial
  | detached => exact .inr rfl

theorem Moves.active {l : Launch} {pc pc' : MainPc} (h : Moves l pc pc') (hpc' : Active pc') :
    Active pc ∨ pc = .start ∧ ∃ prog, l.load = .ok prog := by
  cases h with
  | unloaded => exact hpc'.elim
  | loaded hload => exact .inr ⟨rfl, _, hload⟩
  | refused => exact .inl trivial
  | attached => exact .inl trivial
  | handled => exact .inl trivial
  | stopped => exact .inl trivial
  | slept => exact .inl trivial
  | copied v => exact .inl trivial
  | printed => exact .inl trivial
  | ended => exact .inl trivial
  | detached => exact .inl trivial

/-- The values that have been copied for a row are those of its category, each at a moment of the
work on the row. -/
def Copied (launch : ι → Launch) (acts : List (Action ι ncpu)) (i : ι) (row : Nat)
    (vals : List Nat) : Prop :=
  vals.length ≤ ncpu ∧ ∀ (cpu : Fin ncpu) v, vals[(cpu : Nat)]? = some v → ∃ cat,
    PktCat.all[row]? = some cat ∧ ∃ pre, Reading launch i row pre acts ∧
      v = metOn launch i cpu cat pre % 2 ^ 64

/-- What holds of an instance after every run. -/
structure Inv (launch : ι → Launch) (acts : List (Action ι ncpu)) (i : ι) : Prop where
  placed : ∀ ifindex, (hostAfter launch acts).attached ifindex = some i →
    ifindex = (launch i).ifindex ∧ Guards ((hostAfter launch acts).procs i).pc ∧
      ((hostAfter launch acts).progs i).isSome
  fresh : ((hostAfter launch acts).procs i).pc = .start → (hostAfter launch acts).progs i = none
  active : Active ((hostAfter launch acts).procs i).pc → ((hostAfter launch acts).progs i).isSome
  unseen : (hostAfter launch acts).progs i = none → ∀ P, met launch i P acts = 0
  counted : ∀ prog, (hostAfter launch acts).progs i = some prog →
    Agrees (launch i) (fun P => met launch i P acts) prog
  copied : ∀ row vals, ((hostAfter launch acts).procs i).pc = .print row vals →
    Copied launch acts i row vals

theorem met_snoc (launch : ι → Launch) (i : ι) (P : Fin ncpu → List UInt8 → Bool)
    (acts : List (Action ι ncpu)) (a : Action ι ncpu) :
    met launch i P (acts ++ [a]) = met launch i P acts + meets launch i P acts a :=
  tally_snoc _ acts a

theorem hostAfter_snoc (launch : ι → Launch) (acts : List (Action ι ncpu)) (a : Action ι ncpu) :
    hostAfter launch (acts ++ [a]) = (hostStep launch (hostAfter launch acts) a).1 :=
  exec_snoc acts a

/-- A frame that meets an instance meets its attached program. -/
theorem meets_eq_zero {launch : ι → Launch} {i : ι} {acts : List (Action ι ncpu)}
    {a : Action ι ncpu}
    (h : ∀ n cpu bytes, a = .frame n cpu bytes → (hostAfter launch acts).attached n ≠ some i)
    (P : Fin ncpu → List UInt8 → Bool) :
    meets launch i P acts a = 0 := by
  cases a with
  | frame n cpu bytes =>
    exact if_neg fun hin => h n cpu bytes rfl ((attached_iff launch i n acts).mpr hin.1)
  | next j => rfl
  | signal j => rfl
  | kill j => rfl

/-- A program that has been loaded stays. -/
theorem isSome_hostStep (launch : ι → Launch) (w : Host ι) (a : Action ι ncpu) {i : ι}
    (h : (w.progs i).isSome) :
    ((hostStep launch w a).1.progs i).isSome := by
  rcases progs_hostStep launch w a i with ⟨hsame, -⟩ | ⟨-, -, -, prog, -, hprog⟩ |
    ⟨n, cpu, bytes, prog, -, -, -, hprog⟩
  · rw [hsame]
    exact h
  · rw [hprog]
    rfl
  · rw [hprog]
    rfl

omit [DecidableEq ι] in
theorem of_change {l : Launch} {i j : ι} {pc : MainPc} (h : change l j pc = some (some i)) :
    j = i ∧ pc = .attach ∧ l.attach = 0 := by
  cases pc with
  | attach =>
    rw [change] at h
    split at h
    · next hzero =>
      cases h
      exact ⟨rfl, rfl, hzero⟩
    · cases h
  | start => cases h
  | handlers => cases h
  | loop => cases h
  | print row vals => cases h
  | detach => cases h
  | returned status => cases h
  | killed => cases h

section Step

variable {launch : ι → Launch} {acts : List (Action ι ncpu)} {i : ι}

theorem placed_snoc (h : Inv launch acts i) (a : Action ι ncpu) (ifindex : Nat)
    (hatt : (hostAfter launch (acts ++ [a])).attached ifindex = some i) :
    ifindex = (launch i).ifindex ∧ Guards ((hostAfter launch (acts ++ [a])).procs i).pc ∧
      ((hostAfter launch (acts ++ [a])).progs i).isSome := by
  rw [hostAfter_snoc] at hatt ⊢
  rw [attached_hostStep] at hatt
  cases hc : changes launch ifindex (hostAfter launch acts) a with
  | some t =>
    -- the instance attaches
    rw [hc, Option.getD_some] at hatt
    cases a with
    | next j =>
      rw [changes] at hc
      split at hc
      · next hifindex =>
        rw [hatt] at hc
        obtain ⟨rfl, hpc, hzero⟩ := of_change hc
        refine ⟨hifindex.symm, ?_, isSome_hostStep _ _ _ (h.active (by rw [hpc]; trivial))⟩
        rw [hostStep, mainStep, hpc]
        dsimp only
        rw [if_neg (not_not.mpr hzero), procs_goto]
        trivial
      · cases hc
    | signal j => cases hc
    | kill j => cases hc
    | frame n cpu bytes => cases hc
  | none =>
    -- it was attached, and goes on as long as it does not detach
    rw [hc, Option.getD_none] at hatt
    obtain ⟨hifindex, hguards, hsome⟩ := h.placed ifindex hatt
    refine ⟨hifindex, ?_, isSome_hostStep _ _ _ hsome⟩
    rcases pc_hostStep launch (hostAfter launch acts) a i with hsame | hkilled | ⟨rfl, hmove⟩
    · rw [hsame]
      exact hguards
    · rw [hkilled]
      trivial
    · rcases hmove.guards hguards with hnext | hdetach
      · exact hnext
      · rw [changes, if_pos hifindex.symm, hdetach] at hc
        cases hc

theorem fresh_snoc (h : Inv launch acts i) (a : Action ι ncpu)
    (hpc : ((hostAfter launch (acts ++ [a])).procs i).pc = .start) :
    (hostAfter launch (acts ++ [a])).progs i = none := by
  rw [hostAfter_snoc] at hpc ⊢
  have hbefore : ((hostAfter launch acts).procs i).pc = .start := by
    rcases pc_hostStep launch (hostAfter launch acts) a i with hsame | hkilled | ⟨-, hmove⟩
    · exact hsame ▸ hpc
    · rw [hkilled] at hpc
      cases hpc
    · rw [hpc] at hmove
      generalize ((hostAfter launch acts).procs i).pc = pc at hmove
      cases hmove
  rcases progs_hostStep launch (hostAfter launch acts) a i with ⟨hsame, -⟩ | ⟨-, -, hnext, -⟩ |
    ⟨n, cpu, bytes, prog, -, -, hprog, -⟩
  · rw [hsame]
    exact h.fresh hbefore
  · rw [hnext] at hpc
    cases hpc
  · rw [h.fresh hbefore] at hprog
    cases hprog

theorem active_snoc (h : Inv launch acts i) (a : Action ι ncpu)
    (hpc : Active ((hostAfter launch (acts ++ [a])).procs i).pc) :
    ((hostAfter launch (acts ++ [a])).progs i).isSome := by
  rw [hostAfter_snoc] at hpc ⊢
  rcases pc_hostStep launch (hostAfter launch acts) a i with hsame | hkilled | ⟨rfl, hmove⟩
  · exact isSome_hostStep _ _ _ (h.active (hsame ▸ hpc))
  · rw [hkilled] at hpc
    exact hpc.elim
  · rcases hmove.active hpc with hbefore | ⟨hstart, prog, hload⟩
    · exact isSome_hostStep _ _ _ (h.active hbefore)
    · rw [hostStep, mainStep, hstart]
      simp [hload, Host.goto]

theorem unseen_snoc (h : Inv launch acts i) (a : Action ι ncpu)
    (hnone : (hostAfter launch (acts ++ [a])).progs i = none)
    (P : Fin ncpu → List UInt8 → Bool) : met launch i P (acts ++ [a]) = 0 := by
  have hbefore : (hostAfter launch acts).progs i = none := by
    by_contra hsome
    have hstays := isSome_hostStep launch _ a (Option.isSome_iff_ne_none.mpr hsome)
    rw [← hostAfter_snoc, hnone] at hstays
    cases hstays
  rw [met_snoc, h.unseen hbefore P, meets_eq_zero]
  intro n cpu bytes _ hatt
  have hsome := (h.placed n hatt).2.2
  rw [hbefore] at hsome
  cases hsome

theorem counted_snoc (h : Inv launch acts i) (a : Action ι ncpu) (prog : Prog)
    (hprog : (hostAfter launch (acts ++ [a])).progs i = some prog) :
    Agrees (launch i) (fun P => met launch i P (acts ++ [a])) prog := by
  rw [hostAfter_snoc] at hprog
  simp only [met_snoc]
  rcases progs_hostStep launch (hostAfter launch acts) a i with
    ⟨hsame, hidle⟩ | ⟨rfl, hstart, -, prog', hload, hnew⟩ |
      ⟨n, cpu, bytes, prog', rfl, hatt, hold, hnew⟩
  · -- no frame for it: the numbers stay
    rw [hsame] at hprog
    have hzero : ∀ P, meets launch i P acts a = 0 := meets_eq_zero fun n cpu bytes he hatt => by
      rw [hidle n cpu bytes he hatt] at hprog
      cases hprog
    simp only [hzero, Nat.add_zero]
    exact h.counted prog hprog
  · rw [hprog] at hnew
    cases hnew
    exact agrees_load hload fun P => by rw [h.unseen (h.fresh hstart) P]; rfl
  · rw [hprog] at hnew
    cases hnew
    refine agrees_run (fun P => ?_) (h.counted prog' hold)
    rw [meets]
    simp only [(attached_iff launch i n acts).mp hatt, true_and]

theorem reading_snoc {row : Nat} {pre : List (Action ι ncpu)} (h : Reading launch i row pre acts)
    {a : Action ι ncpu} {vals : List Nat}
    (hpc : ((hostAfter launch (acts ++ [a])).procs i).pc = .print row vals) :
    Reading launch i row pre (acts ++ [a]) := by
  refine ⟨h.1.trans (List.prefix_append _ _), fun mid hpre hmid => ?_⟩
  rcases List.prefix_concat_iff.mp hmid with rfl | hold
  · exact ⟨vals, hpc⟩
  · exact h.2 mid hpre hold

theorem reading_self {row : Nat} {vals : List Nat}
    (hpc : ((hostAfter launch acts).procs i).pc = .print row vals) :
    Reading launch i row acts acts :=
  ⟨List.prefix_rfl, fun mid hpre hmid =>
    ⟨vals, by rwa [hpre.eq_of_length_le hmid.length_le] at hpc⟩⟩

theorem Copied.snoc {row : Nat} {vals vals' : List Nat} (h : Copied launch acts i row vals)
    {a : Action ι ncpu} (hpc : ((hostAfter launch (acts ++ [a])).procs i).pc = .print row vals') :
    Copied launch (acts ++ [a]) i row vals := by
  refine ⟨h.1, fun cpu v hv => ?_⟩
  obtain ⟨cat, hcat, pre, hread, hval⟩ := h.2 cpu v hv
  exact ⟨cat, hcat, pre, reading_snoc hread hpc, hval⟩

/-- One more CPU is read. -/
theorem Copied.push {row : Nat} {vals : List Nat} (h : Copied launch acts i row vals)
    (hread : Reading launch i row acts acts) (hlt : vals.length < ncpu) {cat : PktCat}
    (hcat : PktCat.all[row]? = some cat) {v : Nat}
    (hv : v = metOn launch i ⟨vals.length, hlt⟩ cat acts % 2 ^ 64) :
    Copied launch acts i row (vals ++ [v]) := by
  refine ⟨by rw [List.length_append]; exact hlt, fun cpu u hu => ?_⟩
  rcases Nat.lt_or_ge cpu vals.length with hearlier | hnow
  · rw [List.getElem?_append_left hearlier] at hu
    exact h.2 cpu u hu
  · have hcpu : (cpu : Nat) = vals.length := by
      have hin := (List.getElem?_eq_some_iff.mp hu).1
      rw [List.length_append] at hin
      exact Nat.le_antisymm (Nat.lt_succ_iff.mp hin) hnow
    rw [hcpu, List.getElem?_concat_length] at hu
    obtain rfl : cpu = ⟨vals.length, hlt⟩ := Fin.ext hcpu
    exact ⟨cat, hcat, acts, hread, (Option.some.inj hu).symm.trans hv⟩

theorem copied_nil (launch : ι → Launch) (acts : List (Action ι ncpu)) (i : ι) (row : Nat) :
    Copied launch acts i row [] :=
  ⟨Nat.zero_le _, fun _ _ hv => nomatch hv⟩

/-- A step of the loop over the rows that stays at the row copies a value. -/
theorem printStep_print {l : Launch} {prog : Option Prog} {row row' : Nat} {vals vals' : List Nat}
    (h : (printStep ncpu l prog row vals).1 = .print row' vals') :
    vals' = [] ∨ row' = row ∧ l.tool = .xdpcount ∧ vals.length < ncpu ∧
      ∃ cat, PktCat.all[row]? = some cat ∧ vals' = vals ++ [valueOf vals.length cat prog] := by
  unfold printStep at h
  cases htool : l.tool with
  | xdpcount =>
    simp only [htool] at h
    cases hcat : PktCat.all[row]? with
    | none => simp [hcat] at h
    | some cat =>
      simp only [hcat] at h
      split at h
      · next hlt =>
        cases h
        exact .inr ⟨rfl, rfl, hlt, cat, rfl, rfl⟩
      · cases h
        exact .inl rfl
  | xdpfw =>
    simp only [htool] at h
    split at h
    · cases h
    · cases h
      exact .inl rfl

theorem copied_snoc (h : Inv launch acts i) (a : Action ι ncpu) (row : Nat) (vals : List Nat)
    (hpc : ((hostAfter launch (acts ++ [a])).procs i).pc = .print row vals) :
    Copied launch (acts ++ [a]) i row vals := by
  have hpc' := hpc
  rw [hostAfter_snoc] at hpc
  rcases pc_hostStep launch (hostAfter launch acts) a i with hsame | hkilled | ⟨rfl, hmove⟩
  · exact (h.copied row vals (hsame ▸ hpc)).snoc hpc'
  · rw [hkilled] at hpc
    cases hpc
  · rw [hpc] at hmove
    generalize hold : ((hostAfter launch acts).procs i).pc = pc at hmove
    cases hmove with
    | slept => exact copied_nil ..
    | printed => exact copied_nil ..
    | copied v =>
      next vals =>
      have hcopied := h.copied row vals hold
      obtain ⟨prog, hprog⟩ := Option.isSome_iff_exists.mp (h.active (by rw [hold]; trivial))
      rw [hostStep, mainStep, hold] at hpc
      dsimp only at hpc
      rw [procs_goto, hprog] at hpc
      rcases printStep_print hpc with hnil | ⟨-, htool, hlt, cat, hcat, hvals⟩
      · simp at hnil
      · have hv : v = valueOf vals.length cat (some prog) := by simpa using hvals
        have hmet := valueOf_eq (h.counted prog hprog) htool ⟨vals.length, hlt⟩ cat
        exact (hcopied.push (reading_self hold) hlt hcat (hv.trans hmet)).snoc hpc'

end Step

theorem inv_after (launch : ι → Launch) (acts : List (Action ι ncpu)) (i : ι) :
    Inv launch acts i := by
  induction acts using List.reverseRecOn with
  | nil =>
    constructor
    · exact fun _ h => nomatch h
    · exact fun _ => rfl
    · exact fun h => False.elim h
    · exact fun _ _ => rfl
    · exact fun _ h => nomatch h
    · exact fun _ _ h => nomatch h
  | append_singleton acts a ih =>
    exact ⟨placed_snoc ih a, fresh_snoc ih a, active_snoc ih a, unseen_snoc ih a, counted_snoc ih a,
      copied_snoc ih a⟩

/-- The sum of values that were copied in 64 bits. -/
theorem foldl_u64Add {ncpu : Nat} {vals : List Nat} (m : Fin ncpu → Nat) (hlen : vals.length = ncpu)
    (h : ∀ (cpu : Fin ncpu) v, vals[(cpu : Nat)]? = some v → v = m cpu % 2 ^ 64) :
    vals.foldl u64Add 0 = (∑ cpu, m cpu) % 2 ^ 64 := by
  have hfold : ∀ (vs : List Nat) (a : Nat), vs.foldl u64Add a % 2 ^ 64 = (a + vs.sum) % 2 ^ 64 := by
    intro vs
    induction vs with
    | nil => exact fun a => rfl
    | cons v vs ih =>
      intro a
      rw [List.foldl_cons, ih, u64Add, Nat.mod_add_mod, List.sum_cons, Nat.add_assoc]
  have hlt : vals.foldl u64Add 0 < 2 ^ 64 := by
    rcases List.eq_nil_or_concat vals with rfl | ⟨vs, v, rfl⟩
    · decide
    · rw [List.concat_eq_append, List.foldl_append]
      exact Nat.mod_lt _ (by decide)
  obtain rfl : vals = List.ofFn fun cpu => m cpu % 2 ^ 64 := by
    refine List.ext_getElem? fun k => ?_
    rcases Nat.lt_or_ge k ncpu with hk | hk
    · have hk' : k < vals.length := hlen ▸ hk
      rw [List.getElem?_eq_getElem hk', h ⟨k, hk⟩ _ (List.getElem?_eq_getElem hk')]
      simp [hk]
    · rw [List.getElem?_eq_none (hlen ▸ hk), List.getElem?_eq_none (by simpa using hk)]
  rw [← Nat.mod_eq_of_lt hlt, hfold, Nat.zero_add, List.sum_ofFn, ← Finset.sum_nat_mod]

theorem drop_iff_ports {l : Launch} {seen : (Fin ncpu → List UInt8 → Bool) → Nat} {prog : Prog}
    (h : Agrees l seen prog) (cpu : Nat) (bytes : List UInt8) :
    (prog.run cpu bytes).2 = .drop ↔ l.tool = .xdpfw ∧ ∃ p ∈ l.ports, fwPort bytes = some p := by
  cases prog with
  | count counts =>
    refine iff_of_false (fun hdrop => nomatch hdrop) fun hfw => ?_
    rw [h.1] at hfw
    cases hfw.1
  | fw blocklist =>
    obtain ⟨htool, hkeys, -⟩ := h
    rw [Prog.run, FirewallLemmas.drop_iff]
    constructor
    · rintro ⟨p, hport, hkey⟩
      exact ⟨htool, p, (hkeys p).mp hkey, hport⟩
    · rintro ⟨-, p, hp, hport⟩
      exact ⟨p, hport, (hkeys p).mpr hp⟩

/-- The row that the loop over the rows prints. -/
theorem rowDue_of_print {launch : ι → Launch} {acts : List (Action ι ncpu)} {i : ι}
    (hinv : Inv launch acts i) {row : Nat} {vals : List Nat} {prog : Prog} {name : String} {n : Nat}
    (hpc : ((hostAfter launch acts).procs i).pc = .print row vals)
    (hprog : (hostAfter launch acts).progs i = some prog)
    (h : (printStep ncpu (launch i) (some prog) row vals).2 = .row name n) :
    RowDue launch i acts row name n := by
  have hagrees := hinv.counted prog hprog
  unfold printStep at h
  unfold RowDue
  cases prog with
  | count counts =>
    simp only [hagrees.1] at h ⊢
    cases hcat : PktCat.all[row]? with
    | none => simp [hcat] at h
    | some cat =>
      simp only [hcat] at h
      split at h
      · cases h
      · next hfull =>
        obtain ⟨rfl, rfl⟩ := Output.row.inj h
        obtain ⟨hle, hvals⟩ := hinv.copied row vals hpc
        have hlen : vals.length = ncpu := Nat.le_antisymm hle (Nat.not_lt.mp hfull)
        have hmoment : ∀ cpu : Fin ncpu, ∃ pre, Reading launch i row pre acts ∧
            ∀ v, vals[(cpu : Nat)]? = some v → v = metOn launch i cpu cat pre % 2 ^ 64 := by
          intro cpu
          have hv := List.getElem?_eq_getElem (hlen ▸ cpu.isLt : (cpu : Nat) < vals.length)
          obtain ⟨cat', hcat', pre, hread, hval⟩ := hvals cpu _ hv
          rw [hcat] at hcat'
          cases hcat'
          refine ⟨pre, hread, fun v hv' => ?_⟩
          rw [hv] at hv'
          exact (Option.some.inj hv').symm.trans hval
        choose moment hread hval using hmoment
        exact ⟨cat, rfl, rfl, moment, hread, foldl_u64Add _ hlen hval⟩
  | fw blocklist =>
    obtain ⟨htool, hkeys, hcounts⟩ := hagrees
    simp only [htool] at h ⊢
    cases hport : (launch i).ports[row]? with
    | none => simp [hport] at h
    | some port =>
      simp only [hport] at h
      obtain ⟨rfl, rfl⟩ := Output.row.inj h
      exact ⟨port, rfl, rfl, hcounts port ((hkeys port).mpr (List.mem_of_getElem? hport))⟩

end TakeoverLemmas

/-! ## 1. The tables -/

/-- A firewall for the default port, and a counter, on the same interface. -/
def exLaunch : Bool → Launch
  | false => ⟨.xdpfw, exLoaderEnv, [], none, [], 0⟩
  | true => ⟨.xdpcount, exLoaderEnv, ["lo"], none, [], 0⟩

/-- The firewall comes to its loop and drops a datagram. -/
def exFirewall : List (Action Bool 1) := List.replicate 3 (.next false) ++ [.frame 1 0 exDatagram]

/-- Beside the firewall the counter is started, and stopped with a signal. -/
def exTakeover : List (Action Bool 1) :=
  exFirewall ++ List.replicate 3 (.next true) ++ [.signal true, .next true, .next true]

theorem counter_ends_firewall :
    (frameStep (hostAfter exLaunch exFirewall) 1 0 exDatagram).2 = .drop ∧
    (frameStep (hostAfter exLaunch exTakeover) 1 0 exDatagram).2 = .pass ∧
    ((hostAfter exLaunch exTakeover).procs false).pc = .loop ∧
    ((hostAfter exLaunch exTakeover).procs true).pc = .returned 0 := by
  decide +kernel

end Machine

end Ebpf101.Xdp
