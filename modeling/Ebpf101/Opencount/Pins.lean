import Mathlib.Data.List.Induction
import Mathlib.Logic.Function.Basic

/-!
# opencount: the pins

`main` of `16-bpftool/opencount.c` pins its map and its program under a directory of bpffs and
removes both and the directory when a signal ends its wait. The names are fixed, so several
instances of the program meet in that directory. `bpf_map__pin` and `bpf_program__pin` create the
directory if it is not there and fail if the name is taken; `bpf_map__unpin` and
`bpf_program__unpin` remove the name, whoever has pinned under it. The handlers of the signals are
installed behind the pinnings: a signal before that, and `SIGKILL` at any time, end the process
as it is.

Results:
1. `pins_follow_instances`: however the system calls of any number of instances and the signals
   they get interleave, what is pinned belongs to an instance that has pinned it and not yet come
   to remove it, or that was killed, and when every instance has returned the pins and the
   directory are gone.
   `second_instance_unpins`: an instance that ends removes the pin of one that still runs.
   `early_signal_leaves_pins`: a signal in front of the handlers leaves both pins behind.
-/

namespace Ebpf101.Opencount

variable {ι : Type}

/-- The two names. -/
inductive Pin where
  | map
  | prog
deriving DecidableEq, Repr

/-- The file system: whether it is mounted, whether `PIN_DIR` is there, and which instance's
object is under each name. -/
structure Fs (ι : Type) where
  mounted : Bool
  dir : Bool
  pins : Pin → Option ι

/-- Where an instance is: `parent` and `pin` are the two system calls of one pinning. -/
inductive MainPc where
  | load
  | attach
  | mkdir
  | parent (p : Pin)
  | pin (p : Pin)
  /-- The two calls of `signal` are to come. -/
  | handlers
  | wait
  | unpin (p : Pin)
  | rmdir
  | done (status : Nat)
  | killed
deriving DecidableEq, Repr

/-- An instance: its place, the variable `stop`, and what it has written to `stderr`. -/
structure Instance where
  pc : MainPc
  stop : Bool
  stderr : List String

/-- What an instance meets before it pins: whether the skeleton loads, and the error of
attaching, if any. -/
structure Start where
  loads : Bool
  attachError : Option Int

def ENOENT : Int := 2
def EEXIST : Int := 17

/-- The warning of a pinning that failed. -/
def pinWarning (p : Pin) (errno : Int) : String :=
  (match p with
    | .map => "warning: pin map: "
    | .prog => "warning: pin prog: ") ++ toString (-errno) ++ "\n"

/-- The place behind a pinning, and behind the removal of a pin. -/
def behindPin : Pin → MainPc
  | .map => .parent .prog
  | .prog => .handlers

def behindUnpin : Pin → MainPc
  | .map => .unpin .prog
  | .prog => .rmdir

def Instance.goto (l : Instance) (pc : MainPc) : Instance := { l with pc := pc }

def Instance.warn (l : Instance) (text : String) (pc : MainPc) : Instance :=
  { l with pc := pc, stderr := l.stderr ++ [text] }

/-- The next system call of the instance `i`. -/
def mainStep (start : ι → Start) (i : ι) (fs : Fs ι) (l : Instance) : Fs ι × Instance :=
  match l.pc with
  | .load =>
    if (start i).loads then (fs, l.goto .attach)
    else (fs, l.warn "Failed to open/load BPF skeleton\n" (.done 1))
  | .attach =>
    match (start i).attachError with
    | none => (fs, l.goto .mkdir)
    | some err =>
      (fs, l.warn ("Failed to attach: " ++ toString err ++ "\n") (.done (if err < 0 then 1 else 0)))
  | .mkdir =>
    -- a directory that is there already is no reason to warn
    if fs.mounted then ({ fs with dir := true }, l.goto (.parent .map))
    else (fs, l.warn ("warning: mkdir /sys/fs/bpf/ebpf101: " ++ toString (-ENOENT) ++
      " (is bpffs mounted at /sys/fs/bpf?)\n") (.parent .map))
  | .parent p =>
    if fs.mounted then ({ fs with dir := true }, l.goto (.pin p))
    else (fs, l.warn (pinWarning p ENOENT) (behindPin p))
  | .pin p =>
    if !fs.dir then (fs, l.warn (pinWarning p ENOENT) (behindPin p))
    else if (fs.pins p).isSome then (fs, l.warn (pinWarning p EEXIST) (behindPin p))
    else ({ fs with pins := Function.update fs.pins p (some i) }, l.goto (behindPin p))
  | .handlers => (fs, l.goto .wait)
  | .wait => if l.stop then (fs, l.goto (.unpin .map)) else (fs, l)
  | .unpin p => ({ fs with pins := Function.update fs.pins p none }, l.goto (behindUnpin p))
  | .rmdir =>
    -- a directory with a pin in it stays
    if (fs.pins .map).isNone ∧ (fs.pins .prog).isNone then
      ({ fs with dir := false }, l.goto (.done 0))
    else (fs, l.goto (.done 0))
  | .done _ => (fs, l)
  | .killed => (fs, l)

/-- `SIGINT` or `SIGTERM`: `on_signal`, once it has been installed. -/
def Instance.signal (l : Instance) : Instance :=
  match l.pc with
  | .wait => { l with stop := true }
  | .unpin _ => { l with stop := true }
  | .rmdir => { l with stop := true }
  | .done _ => l
  | _ => l.goto .killed

/-- `SIGKILL`. -/
def Instance.kill (l : Instance) : Instance :=
  match l.pc with
  | .done _ => l
  | _ => l.goto .killed

inductive Event where
  /-- The next system call of the instance. -/
  | call
  | signal
  | kill
deriving DecidableEq, Repr

def eventStep (start : ι → Start) (i : ι) (fs : Fs ι) (l : Instance) : Event → Fs ι × Instance
  | .call => mainStep start i fs l
  | .signal => (fs, l.signal)
  | .kill => (fs, l.kill)

/-- The file system and the instances. -/
structure Instances (ι : Type) where
  fs : Fs ι
  locals : ι → Instance

section

variable [DecidableEq ι]

/-- Something happens to an instance. -/
def step (start : ι → Start) (s : Instances ι) (a : ι × Event) : Instances ι :=
  ⟨(eventStep start a.1 s.fs (s.locals a.1) a.2).1,
    Function.update s.locals a.1 (eventStep start a.1 s.fs (s.locals a.1) a.2).2⟩

/-- The instances after a run, from an empty file system. -/
def instancesAfter (mounted : Bool) (start : ι → Start) (acts : List (ι × Event)) : Instances ι :=
  acts.foldl (step start) ⟨⟨mounted, false, fun _ => none⟩, fun _ => ⟨.load, false, []⟩⟩

end

/-! ## Statements -/

/-- The places at which an instance may hold a pin: behind its pinning, until it has removed it. -/
def Holds : Pin → MainPc → Prop
  | .map, pc =>
    pc = .parent .prog ∨ pc = .pin .prog ∨ pc = .handlers ∨ pc = .wait ∨ pc = .unpin .map
  | .prog, pc => pc = .handlers ∨ pc = .wait ∨ pc = .unpin .map ∨ pc = .unpin .prog

def Returned (pc : MainPc) : Prop := ∃ status, pc = .done status

/-- What the pins have to do with the instances. -/
structure Follows (s : Instances ι) : Prop where
  held : ∀ p i, s.fs.pins p = some i → Holds p (s.locals i).pc ∨ (s.locals i).pc = .killed
  clean : (∀ i, Returned (s.locals i).pc) → s.fs.dir = false ∧ ∀ p, s.fs.pins p = none

namespace PinsLemmas

/-! ## What an event does -/

/-- An instance that is at work in the directory: it has `rmdir` to come, or it was killed. -/
def Active (pc : MainPc) : Prop :=
  (∃ p, pc = .parent p ∨ pc = .pin p ∨ pc = .unpin p) ∨
    pc = .handlers ∨ pc = .wait ∨ pc = .rmdir ∨ pc = .killed

/-- Where an instance with a pin may be. -/
def Keeps (p : Pin) (pc : MainPc) : Prop := Holds p pc ∨ pc = .killed

theorem Keeps.active {p : Pin} {pc : MainPc} (h : Keeps p pc) : Active pc := by
  unfold Active
  cases p <;> simp only [Keeps, Holds] at h <;> grind

theorem keeps_behindPin (p : Pin) : Keeps p (behindPin p) := by
  cases p <;> exact .inl (.inl rfl)

theorem active_behindUnpin (p : Pin) : Active (behindUnpin p) := by
  cases p <;> simp [Active, behindUnpin]

/-- What an event makes of the file system `fs`, and of the place `pc` of its instance. -/
inductive Effect (i : ι) (fs : Fs ι) (pc : MainPc) : Fs ι → MainPc → Prop
  | same {pc' : MainPc} : (∀ p, Keeps p pc → Keeps p pc') → (Active pc → Active pc') →
      Effect i fs pc fs pc'
  | mkdir {pc' : MainPc} : (∀ p, Keeps p pc → Keeps p pc') → Active pc' →
      Effect i fs pc { fs with dir := true } pc'
  | pin {pc' : MainPc} (p : Pin) : fs.dir = true → (∀ q, Keeps q pc → Keeps q pc') → Keeps p pc' →
      Effect i fs pc { fs with pins := Function.update fs.pins p (some i) } pc'
  | unpin {pc' : MainPc} (p : Pin) : (∀ q, q ≠ p → Keeps q pc → Keeps q pc') → Active pc' →
      Effect i fs pc { fs with pins := Function.update fs.pins p none } pc'
  | rmdir {pc' : MainPc} : (∀ p, fs.pins p = none) → Effect i fs pc { fs with dir := false } pc'
  /-- A directory with a pin in it stays. -/
  | rest {pc' : MainPc} (p : Pin) : pc = .rmdir → (fs.pins p).isSome → Effect i fs pc fs pc'

/-- In front of `mkdir` an instance has nothing to do with the directory. -/
theorem Effect.outside {i : ι} {fs : Fs ι} {pc pc' : MainPc} (h : ¬ Active pc) :
    Effect i fs pc fs pc' :=
  .same (fun _ hk => absurd hk.active h) fun ha => absurd ha h

theorem mainStep_effect (start : ι → Start) (i : ι) (fs : Fs ι) (l : Instance) :
    Effect i fs l.pc (mainStep start i fs l).1 (mainStep start i fs l).2.pc := by
  obtain ⟨pc, stop, err⟩ := l
  unfold mainStep
  cases pc with
  | load =>
    dsimp only
    split <;> exact .outside (by simp [Active])
  | attach =>
    dsimp only
    split <;> exact .outside (by simp [Active])
  | mkdir =>
    dsimp only
    split
    · exact .mkdir (fun p hk => absurd hk.active (by simp [Active])) (.inl ⟨.map, .inl rfl⟩)
    · exact .outside (by simp [Active])
  | parent q =>
    dsimp only
    split
    · refine .mkdir (fun p hk => ?_) (.inl ⟨q, .inr (.inl rfl)⟩)
      cases p <;> cases q <;> simp [Keeps, Holds, Instance.goto] at hk ⊢
    · refine .same (fun p hk => ?_) fun _ => (keeps_behindPin q).active
      cases p <;> cases q <;> simp [Keeps, Holds, Instance.warn, behindPin] at hk ⊢
  | pin q =>
    have hkeep : ∀ p, Keeps p (.pin q) → Keeps p (behindPin q) := fun p hk => by
      cases p <;> cases q <;> simp [Keeps, Holds, behindPin] at hk ⊢
    dsimp only
    split
    · exact .same hkeep fun _ => (keeps_behindPin q).active
    · next hdir =>
      split
      · exact .same hkeep fun _ => (keeps_behindPin q).active
      · exact .pin q (by simpa using hdir) hkeep (keeps_behindPin q)
  | handlers =>
    refine .same (fun p hk => ?_) fun _ => .inr (.inr (.inl rfl))
    cases p <;> simp [Keeps, Holds, Instance.goto]
  | wait =>
    dsimp only
    split
    · refine .same (fun p hk => ?_) fun _ => .inl ⟨.map, .inr (.inr rfl)⟩
      cases p <;> simp [Keeps, Holds, Instance.goto]
    · exact .same (fun _ hk => hk) id
  | unpin q =>
    refine .unpin q (fun p hne hk => ?_) (active_behindUnpin q)
    cases p <;> cases q <;> simp [Keeps, Holds, Instance.goto, behindUnpin] at hk hne ⊢
  | rmdir =>
    dsimp only
    split
    · next hempty =>
      refine .rmdir fun p => ?_
      cases p
      · exact Option.isNone_iff_eq_none.mp hempty.1
      · exact Option.isNone_iff_eq_none.mp hempty.2
    · next hfull =>
      obtain ⟨p, hp⟩ : ∃ p, (fs.pins p).isSome := by
        by_contra hnone
        have hall : ∀ p, (fs.pins p).isNone := fun p => by
          simpa using fun hsome => hnone ⟨p, hsome⟩
        exact hfull ⟨hall .map, hall .prog⟩
      exact .rest p rfl hp
  | done status => exact .same (fun _ hk => hk) id
  | killed => exact .same (fun _ hk => hk) id

/-- A signal leaves an instance where it is, or ends it. -/
theorem signal_pc (l : Instance) : l.signal.pc = l.pc ∨ l.signal.pc = .killed := by
  unfold Instance.signal
  split
  · exact .inl rfl
  · exact .inl rfl
  · exact .inl rfl
  · exact .inl rfl
  · exact .inr rfl

theorem kill_pc (l : Instance) : l.kill.pc = l.pc ∨ l.kill.pc = .killed := by
  unfold Instance.kill
  split
  · exact .inl rfl
  · exact .inr rfl

theorem Effect.ended {i : ι} {fs : Fs ι} {pc pc' : MainPc} (h : pc' = pc ∨ pc' = .killed) :
    Effect i fs pc fs pc' := by
  rcases h with rfl | rfl
  · exact .same (fun _ hk => hk) id
  · exact .same (fun _ _ => .inr rfl) fun _ => .inr (.inr (.inr (.inr rfl)))

theorem eventStep_effect (start : ι → Start) (i : ι) (fs : Fs ι) (l : Instance) (e : Event) :
    Effect i fs l.pc (eventStep start i fs l e).1 (eventStep start i fs l e).2.pc := by
  cases e with
  | call => exact mainStep_effect start i fs l
  | signal => exact .ended (signal_pc l)
  | kill => exact .ended (kill_pc l)

/-! ## Over whole runs -/

/-- What holds of every reachable state. -/
structure Inv (s : Instances ι) : Prop where
  held : ∀ p i, s.fs.pins p = some i → Keeps p (s.locals i).pc
  inDir : ∀ p, (s.fs.pins p).isSome → s.fs.dir = true
  active : s.fs.dir = true → ∃ i, Active (s.locals i).pc

section Step

variable [DecidableEq ι] {fs fs' : Fs ι} {locals : ι → Instance} {i : ι} {l' : Instance}

theorem held_effect (he : Effect i fs (locals i).pc fs' l'.pc)
    (h : ∀ p j, fs.pins p = some j → Keeps p (locals j).pc) (p : Pin) (j : ι)
    (hj : fs'.pins p = some j) : Keeps p (Function.update locals i l' j).pc := by
  have hkept : (Keeps p (locals i).pc → Keeps p l'.pc) → fs.pins p = some j →
      Keeps p (Function.update locals i l' j).pc := fun hkeep hpin => by
    rcases eq_or_ne j i with rfl | hne
    · rw [Function.update_self]
      exact hkeep (h p j hpin)
    · rw [Function.update_of_ne hne]
      exact h p j hpin
  generalize hpc : (locals i).pc = pc at he hkept
  generalize hpc' : l'.pc = pc' at he hkept
  cases he with
  | same hkeep _ => exact hkept (hkeep p) hj
  | mkdir hkeep _ => exact hkept (hkeep p) hj
  | pin q _ hkeep hnew =>
    replace hj : Function.update fs.pins q (some i) p = some j := hj
    rcases eq_or_ne p q with rfl | hne
    · rw [Function.update_self] at hj
      cases hj
      rw [Function.update_self, hpc']
      exact hnew
    · rw [Function.update_of_ne hne] at hj
      exact hkept (hkeep p) hj
  | unpin q hkeep _ =>
    replace hj : Function.update fs.pins q none p = some j := hj
    rcases eq_or_ne p q with rfl | hne
    · rw [Function.update_self] at hj
      cases hj
    · rw [Function.update_of_ne hne] at hj
      exact hkept (hkeep p hne) hj
  | rmdir hempty =>
    rw [show ({ fs with dir := false } : Fs ι).pins p = none from hempty p] at hj
    cases hj
  | rest q hrm _ =>
    refine hkept (fun hk => ?_) hj
    rw [hrm] at hk
    cases p <;> simp [Keeps, Holds] at hk

omit [DecidableEq ι] in
theorem inDir_effect {pc pc' : MainPc} (he : Effect i fs pc fs' pc')
    (h : ∀ p, (fs.pins p).isSome → fs.dir = true) (p : Pin) (hp : (fs'.pins p).isSome) :
    fs'.dir = true := by
  cases he with
  | same _ _ => exact h p hp
  | mkdir _ _ => rfl
  | pin q hdir _ _ => exact hdir
  | unpin q _ _ =>
    rcases eq_or_ne p q with rfl | hne
    · simp at hp
    · exact h p (by simpa [Function.update_of_ne hne] using hp)
  | rmdir hempty =>
    rw [show ({ fs with dir := false } : Fs ι).pins p = none from hempty p] at hp
    cases hp
  | rest q _ _ => exact h p hp

theorem active_effect (he : Effect i fs (locals i).pc fs' l'.pc) (h : Inv ⟨fs, locals⟩)
    (hdir : fs'.dir = true) : ∃ j, Active (Function.update locals i l' j).pc := by
  have hself : Active l'.pc → ∃ j, Active (Function.update locals i l' j).pc := fun ha =>
    ⟨i, by rwa [Function.update_self]⟩
  have hstay : (Active (locals i).pc → Active l'.pc) → fs.dir = true →
      ∃ j, Active (Function.update locals i l' j).pc := fun hkeep hd => by
    obtain ⟨j, hj⟩ := h.active hd
    rcases eq_or_ne j i with rfl | hne
    · exact hself (hkeep hj)
    · exact ⟨j, by rwa [Function.update_of_ne hne]⟩
  generalize hpc : (locals i).pc = pc at he hstay
  generalize l'.pc = pc' at he hself hstay
  cases he with
  | same _ ha => exact hstay ha hdir
  | mkdir _ ha => exact hself ha
  | pin q _ _ hk => exact hself hk.active
  | unpin q _ ha => exact hself ha
  | rmdir _ => cases hdir
  | rest q hrm hp =>
    -- the pin that keeps the directory is another instance's
    obtain ⟨j, hj⟩ := Option.isSome_iff_exists.mp hp
    have hk := h.held q j hj
    have hne : j ≠ i := by
      rintro rfl
      simp only [hpc, hrm] at hk
      cases q <;> simp [Keeps, Holds] at hk
    exact ⟨j, by rw [Function.update_of_ne hne]; exact hk.active⟩

end Step

variable [DecidableEq ι]

theorem inv_step (start : ι → Start) {s : Instances ι} (h : Inv s) (a : ι × Event) :
    Inv (step start s a) := by
  have he := eventStep_effect start a.1 s.fs (s.locals a.1) a.2
  exact ⟨held_effect he h.held, inDir_effect he h.inDir, active_effect he h⟩

theorem inv_after (mounted : Bool) (start : ι → Start) (acts : List (ι × Event)) :
    Inv (instancesAfter mounted start acts) := by
  induction acts using List.reverseRecOn with
  | nil =>
    refine ⟨?_, ?_, ?_⟩
    · exact fun p i h => nomatch h
    · exact fun p h => nomatch h
    · exact fun h => nomatch h
  | append_singleton acts a ih =>
    rw [instancesAfter, List.foldl_append]
    exact inv_step start ih a

end PinsLemmas

open PinsLemmas

/-! ## 1. The pins -/

/-- For every number of instances and every interleaving of their system calls and signals. -/
theorem pins_follow_instances [DecidableEq ι] (mounted : Bool) (start : ι → Start)
    (acts : List (ι × Event)) : Follows (instancesAfter mounted start acts) := by
  have h := inv_after mounted start acts
  refine ⟨h.held, fun hreturned => ?_⟩
  have hdir : (instancesAfter mounted start acts).fs.dir = false := by
    by_contra htrue
    obtain ⟨i, hactive⟩ := h.active (Bool.not_eq_false _ |>.mp htrue)
    obtain ⟨status, hdone⟩ := hreturned i
    rw [hdone] at hactive
    simp [Active] at hactive
  refine ⟨hdir, fun p => ?_⟩
  by_contra hsome
  have htrue := h.inDir p (Option.isSome_iff_ne_none.mpr hsome)
  rw [hdir] at htrue
  cases htrue

/-- Two instances. -/
def exStarts : Bool → Start := fun _ => ⟨true, none⟩

/-- The first comes to its wait. -/
def exFirst : List (Bool × Event) := List.replicate 8 (false, .call)

/-- The second runs from its beginning to its end, which a signal brings about. -/
def exSecond : List (Bool × Event) :=
  List.replicate 8 (true, .call) ++ [(true, .signal)] ++ List.replicate 4 (true, .call)

/-- The second, whose own pins failed, has removed those of the first. -/
theorem second_instance_unpins :
    (instancesAfter true exStarts exFirst).fs.pins .map = some false ∧
    ((instancesAfter true exStarts (exFirst ++ exSecond)).locals false).pc = .wait ∧
    ((instancesAfter true exStarts (exFirst ++ exSecond)).locals true).pc = .done 0 ∧
    (instancesAfter true exStarts (exFirst ++ exSecond)).fs.pins .map = none := by
  decide +kernel

/-- A signal one step earlier, in front of the handlers. -/
theorem early_signal_leaves_pins :
    ((instancesAfter true exStarts (exFirst.take 7 ++ [(false, .signal)])).locals false).pc =
      .killed ∧
    ∀ p ∈ [Pin.map, Pin.prog],
      (instancesAfter true exStarts (exFirst.take 7 ++ [(false, .signal)])).fs.pins p =
        some false := by
  decide +kernel

end Ebpf101.Opencount
