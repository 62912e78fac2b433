import Mathlib.Data.Fintype.Option
import Ebpf101.Basic
import Ebpf101.Lib.Threads

/-!
# Dispatch by tail call

Chapter 19, `19-tailcall`. On each `execve`, `dispatch` jumps through a table of programs
to the handler for root or to that for other users; each handler bumps its counter, and
`dispatch` bumps a third one if the jump falls through. The loader fills the table, then
attaches `dispatch`, prints the counters once a second, and in the end detaches and closes
the table, which empties it.

Calls of `execve` and the loader are threads. A run of `dispatch` that began while it was
attached may still be on its way when the table is emptied.

Results:
1. `dispatch_counted`: at any time of any interleaving, each counter is the number of the
   runs that bumped it; while the table is open no run has fallen through, each was
   counted by the handler for its uid, and no line was printed that shows a miss.
   `late_run_misses`: a run that jumps after the table was closed does fall through.
-/

namespace Ebpf101.Tailcall

open Runs

/-! ## The programs -/

/-- `IDX_USER`, `IDX_ROOT` and `IDX_MISS`; the first two are also the slots of the table. -/
inductive Idx where
  | user
  | root
  | miss
deriving DecidableEq, Repr

/-- `handle_user` and `handle_root`. -/
inductive Handler where
  | user
  | root
deriving DecidableEq, Repr

/-- The counter that a handler bumps. -/
def Handler.bumps : Handler → Idx
  | .user => .user
  | .root => .root

/-- The next step of the loader; `left` rounds of printing are to come before it is told to
stop, and `u` and `r` are the counters it has read in this round. -/
inductive LoaderPc where
  | setUser
  | setRoot
  | attach
  | loop (left : Nat)
  | readRoot (left u : Nat)
  | readMiss (left u r : Nat)
  | detach
  | destroy
  | exited
deriving DecidableEq, Repr

/-- A printed round. -/
structure Tallies where
  user : Nat
  root : Nat
  miss : Nat
deriving DecidableEq, Repr

/-- The maps, whether the loader holds them open and `dispatch` is attached, what was
printed, and where the loader is. -/
structure World where
  jmpTable : Idx → Option Handler
  counts : Idx → Nat
  isOpen : Bool
  attached : Bool
  printed : List Tallies
  loader : LoaderPc

/-- The next step of one `execve`; `untraced` if `dispatch` was not attached. -/
inductive RunPc where
  | enter
  | tail (idx : Idx)
  | bump (idx : Idx)
  | done (idx : Idx)
  | untraced
deriving DecidableEq, Repr

/-- The slot for a uid. -/
def slotOf (uid : UInt32) : Idx := if uid = 0 then .root else .user

/-- `dispatch`, and the handler it jumps to. -/
def dispatch (uid : UInt32) (w : World) : RunPc → World × RunPc
  | .enter => (w, if w.attached then .tail (slotOf uid) else .untraced)
  | .tail idx =>
    match w.jmpTable idx with
    | some h => (w, .bump h.bumps)
    | none => (w, .bump .miss)
  | .bump idx =>
    ({ w with counts := Function.update w.counts idx (u64Add (w.counts idx) 1) }, .done idx)
  | .done idx => (w, .done idx)
  | .untraced => (w, .untraced)

/-- Which calls of the loader succeed, and how often it prints. -/
structure Script where
  setUser : Bool
  setRoot : Bool
  attach : Bool
  rounds : Nat

/-- `main` of the loader, after the skeleton is loaded. -/
def loader (sc : Script) (w : World) : World :=
  match w.loader with
  | .setUser =>
    if sc.setUser then
      { w with jmpTable := Function.update w.jmpTable .user (some .user), loader := .setRoot }
    else { w with loader := .destroy }
  | .setRoot =>
    if sc.setRoot then
      { w with jmpTable := Function.update w.jmpTable .root (some .root), loader := .attach }
    else { w with loader := .destroy }
  | .attach =>
    if sc.attach then { w with attached := true, loader := .loop sc.rounds }
    else { w with loader := .destroy }
  | .loop 0 => { w with loader := .detach }
  | .loop (left + 1) => { w with loader := .readRoot left (w.counts .user) }
  | .readRoot left u => { w with loader := .readMiss left u (w.counts .root) }
  | .readMiss left u r =>
    { w with printed := w.printed ++ [⟨u, r, w.counts .miss⟩], loader := .loop left }
  | .detach => { w with attached := false, loader := .destroy }
  -- closing the last descriptor of the table empties it
  | .destroy => { w with jmpTable := fun _ => none, isOpen := false, loader := .exited }
  | .exited => w

/-- Before the first step. -/
def World.init : World := ⟨fun _ => none, fun _ => 0, true, false, [], .setUser⟩

variable {n : Nat}

/-- The loader is `none`, the calls of `execve` are the others. -/
def prog (sc : Script) (uids : Fin n → UInt32) : Option (Fin n) → World → RunPc → World × RunPc
  | none, w, t => (loader sc w, t)
  | some i, w, t => dispatch (uids i) w t

/-- The system after a schedule. -/
def after (sc : Script) (uids : Fin n → UInt32) (sched : List (Option (Fin n))) :
    Threads.Sys (Option (Fin n)) World RunPc :=
  Threads.after (prog sc uids) ⟨World.init, fun _ => .enter⟩ sched

/-! ## Statements -/

/-- The runs that have bumped a counter. -/
def bumped (locals : Option (Fin n) → RunPc) (idx : Idx) : Nat :=
  ∑ i, if locals i = .done idx then 1 else 0

namespace TailcallLemmas

/-! ## The loader -/

/-- The loader has filled the table and not begun to take things down. -/
def LoaderPc.armed : LoaderPc → Bool
  | .attach | .loop _ | .readRoot .. | .readMiss .. | .detach => true
  | _ => false

/-- The loader may have attached `dispatch`. -/
def LoaderPc.running : LoaderPc → Bool
  | .loop _ | .readRoot .. | .readMiss .. | .detach => true
  | _ => false

theorem armed_of_running {pc : LoaderPc} (h : LoaderPc.running pc = true) :
    LoaderPc.armed pc = true := by
  cases pc <;> first | rfl | cases h

/-- The handlers stand in the table. -/
def Filled (w : World) : Prop := w.jmpTable .user = some .user ∧ w.jmpTable .root = some .root

/-- What holds of the maps and the loader throughout. -/
structure Sane (w : World) : Prop where
  armed : LoaderPc.armed w.loader = true → Filled w
  first : w.loader = .setRoot → w.jmpTable .user = some .user
  attached : w.attached = true → LoaderPc.running w.loader = true
  isOpen : w.isOpen = true ↔ w.loader ≠ .exited
  miss : w.isOpen = true → w.counts .miss = 0
  printed : ∀ l ∈ w.printed, l.miss = 0

theorem sane_init : Sane World.init :=
  ⟨fun h => (nomatch h), fun h => (nomatch h), fun h => (nomatch h), by decide, fun _ => rfl,
    fun l hl => (nomatch hl)⟩

/-- The loader moves on without touching the maps. -/
theorem Sane.goto {w : World} (h : Sane w) {pc : LoaderPc} (hpc : w.loader ≠ .exited)
    (hexit : pc ≠ .exited) (hroot : pc ≠ .setRoot)
    (harmed : LoaderPc.armed pc = true → Filled w)
    (hatt : w.attached = true → LoaderPc.running pc = true) : Sane { w with loader := pc } :=
  ⟨harmed, fun hr => absurd hr hroot, hatt,
    ⟨fun _ => hexit, fun _ => h.isOpen.mpr hpc⟩, h.miss, h.printed⟩

/-- The loader is not done yet and has nothing attached. -/
theorem Sane.idle {w : World} (h : Sane w) (hpc : LoaderPc.running w.loader = false) :
    w.attached = false := by
  cases hatt : w.attached with
  | false => rfl
  | true => exact absurd (h.attached hatt) (by simp [hpc])

theorem sane_loader (sc : Script) {w : World} (h : Sane w) : Sane (loader sc w) := by
  unfold loader
  cases hpc : w.loader with
  | setUser =>
    have hidle := h.idle (by rw [hpc]; rfl)
    have hopen := h.isOpen.mpr (by simp [hpc])
    simp only
    split
    · exact ⟨fun ha => (nomatch ha), fun _ => rfl,
        fun ha => absurd (hidle.symm.trans ha) Bool.false_ne_true,
        ⟨fun _ => by simp, fun _ => hopen⟩, h.miss, h.printed⟩
    · exact h.goto (by simp [hpc]) (by simp) (by simp) (fun ha => (nomatch ha))
        fun ha => absurd (hidle.symm.trans ha) Bool.false_ne_true
  | setRoot =>
    have hidle := h.idle (by rw [hpc]; rfl)
    have hopen := h.isOpen.mpr (by simp [hpc])
    simp only
    split
    · refine ⟨fun _ => ⟨?_, rfl⟩, fun ha => (nomatch ha),
        fun ha => absurd (hidle.symm.trans ha) Bool.false_ne_true,
        ⟨fun _ => by simp, fun _ => hopen⟩, h.miss, h.printed⟩
      exact h.first hpc
    · exact h.goto (by simp [hpc]) (by simp) (by simp) (fun ha => (nomatch ha))
        fun ha => absurd (hidle.symm.trans ha) Bool.false_ne_true
  | attach =>
    have hidle := h.idle (by rw [hpc]; rfl)
    have hfilled := h.armed (by rw [hpc]; rfl)
    have hopen := h.isOpen.mpr (by simp [hpc])
    simp only
    split
    · exact ⟨fun _ => hfilled, fun ha => (nomatch ha), fun _ => rfl,
        ⟨fun _ => by simp, fun _ => hopen⟩, h.miss, h.printed⟩
    · exact h.goto (by simp [hpc]) (by simp) (by simp) (fun ha => (nomatch ha))
        fun ha => absurd (hidle.symm.trans ha) Bool.false_ne_true
  | loop left =>
    have hfilled := h.armed (by rw [hpc]; rfl)
    cases left with
    | zero => exact h.goto (by simp [hpc]) (by simp) (by simp) (fun _ => hfilled) fun _ => rfl
    | succ left => exact h.goto (by simp [hpc]) (by simp) (by simp) (fun _ => hfilled) fun _ => rfl
  | readRoot left u =>
    have hfilled := h.armed (by rw [hpc]; rfl)
    exact h.goto (by simp [hpc]) (by simp) (by simp) (fun _ => hfilled) fun _ => rfl
  | readMiss left u r =>
    have hfilled := h.armed (by rw [hpc]; rfl)
    have hopen := h.isOpen.mpr (by simp [hpc])
    refine ⟨fun _ => hfilled, fun ha => (nomatch ha), fun _ => rfl,
      ⟨fun _ => by simp, fun _ => hopen⟩, h.miss, fun l hl => ?_⟩
    rcases List.mem_append.mp hl with hold | hnew
    · exact h.printed l hold
    · rw [List.mem_singleton.mp hnew]
      exact h.miss hopen
  | detach =>
    have hopen := h.isOpen.mpr (by simp [hpc])
    exact ⟨fun ha => (nomatch ha), fun ha => (nomatch ha), fun ha => (nomatch ha),
      ⟨fun _ => by simp, fun _ => hopen⟩, h.miss, h.printed⟩
  | destroy =>
    have hidle := h.idle (by rw [hpc]; rfl)
    exact ⟨fun ha => (nomatch ha), fun ha => (nomatch ha),
      fun ha => absurd (hidle.symm.trans ha) Bool.false_ne_true,
      ⟨fun ha => (nomatch ha), fun ha => absurd rfl ha⟩, fun ha => (nomatch ha), h.printed⟩
  | exited => exact h

/-! ## One run -/

/-- What a run knows of the maps. -/
def RunOk (uid : UInt32) (w : World) : RunPc → Prop
  | .enter | .untraced => True
  | .tail idx => idx = slotOf uid ∧ (w.isOpen = true → Filled w)
  | .bump idx | .done idx => w.isOpen = true → idx = slotOf uid

/-- What any step may do to the maps: an open table stays open or is closed for good, and
while it is open the handlers stay in it. -/
structure Later (w w' : World) : Prop where
  isOpen : w'.isOpen = true → w.isOpen = true
  filled : w'.isOpen = true → Filled w → Filled w'

theorem Later.refl (w : World) : Later w w := ⟨id, fun _ => id⟩

theorem slotOf_ne_miss (uid : UInt32) : slotOf uid ≠ .miss := by
  unfold slotOf
  split <;> simp

theorem lookup_filled {w : World} (h : Filled w) (uid : UInt32) :
    ∃ hd, w.jmpTable (slotOf uid) = some hd ∧ hd.bumps = slotOf uid := by
  unfold slotOf
  split
  · exact ⟨.root, h.2, rfl⟩
  · exact ⟨.user, h.1, rfl⟩

theorem later_loader (sc : Script) (w : World) : Later w (loader sc w) := by
  unfold loader
  cases w.loader with
  | setUser =>
    simp only
    split
    · exact ⟨id, fun _ hf => ⟨rfl, hf.2⟩⟩
    · exact ⟨id, fun _ => id⟩
  | setRoot =>
    simp only
    split
    · exact ⟨id, fun _ hf => ⟨hf.1, rfl⟩⟩
    · exact ⟨id, fun _ => id⟩
  | attach =>
    simp only
    split <;> exact ⟨id, fun _ => id⟩
  | loop left => cases left <;> exact ⟨id, fun _ => id⟩
  | readRoot left u => exact ⟨id, fun _ => id⟩
  | readMiss left u r => exact ⟨id, fun _ => id⟩
  | detach => exact ⟨id, fun _ => id⟩
  | destroy => exact ⟨fun h => (nomatch h), fun h => (nomatch h)⟩
  | exited => exact Later.refl w

/-- The jump: the handler in the slot, or the fall-through. -/
theorem dispatch_tail (uid : UInt32) (w : World) (idx : Idx) :
    dispatch uid w (.tail idx) = (w, .bump ((w.jmpTable idx).elim .miss Handler.bumps)) := by
  rw [dispatch]
  cases w.jmpTable idx <;> rfl

theorem later_dispatch (uid : UInt32) (w : World) (pc : RunPc) : Later w (dispatch uid w pc).1 := by
  cases pc with
  | enter | done | untraced => exact Later.refl w
  | tail idx =>
    rw [dispatch_tail]
    exact Later.refl w
  | bump idx => exact ⟨id, fun _ => id⟩

theorem runOk_later {uid : UInt32} {w w' : World} {pc : RunPc} (hl : Later w w')
    (h : RunOk uid w pc) : RunOk uid w' pc := by
  cases pc with
  | enter | untraced => trivial
  | tail idx => exact ⟨h.1, fun ho => hl.filled ho (h.2 (hl.isOpen ho))⟩
  | bump idx | done idx => exact fun ho => h (hl.isOpen ho)

/-- A run keeps what it knows, and the counters of an open table free of misses. -/
theorem runOk_dispatch {uid : UInt32} {w : World} {pc : RunPc} (hs : Sane w) (h : RunOk uid w pc) :
    Sane (dispatch uid w pc).1 ∧ RunOk uid (dispatch uid w pc).1 (dispatch uid w pc).2 := by
  cases pc with
  | enter =>
    unfold dispatch
    cases hatt : w.attached with
    | false => exact ⟨hs, trivial⟩
    | true => exact ⟨hs, rfl, fun _ => hs.armed (armed_of_running (hs.attached hatt))⟩
  | tail idx =>
    obtain ⟨rfl, hfill⟩ := h
    rw [dispatch_tail]
    refine ⟨hs, fun ho => ?_⟩
    obtain ⟨hd, hhd, hb⟩ := lookup_filled (hfill ho) uid
    rw [hhd]
    exact hb
  | bump idx =>
    refine ⟨⟨hs.armed, hs.first, hs.attached, hs.isOpen, fun ho => ?_, hs.printed⟩, h⟩
    have hne : Idx.miss ≠ idx := fun he => slotOf_ne_miss uid ((h ho).symm.trans he.symm)
    exact (Function.update_of_ne hne _ _).trans (hs.miss ho)
  | done idx => exact ⟨hs, h⟩
  | untraced => exact ⟨hs, trivial⟩

/-- The loader and the runs together. -/
theorem holds_after (sc : Script) (uids : Fin n → UInt32) (sched : List (Option (Fin n))) :
    Sane (after sc uids sched).shared ∧
    ∀ i, RunOk (uids i) (after sc uids sched).shared ((after sc uids sched).locals (some i)) := by
  induction sched using List.reverseRecOn with
  | nil => exact ⟨sane_init, fun _ => trivial⟩
  | append_singleton sched t ih =>
    obtain ⟨hs, hruns⟩ := ih
    unfold after
    rw [Threads.shared_snoc]
    cases t with
    | none =>
      refine ⟨sane_loader sc hs, fun i => ?_⟩
      rw [Threads.locals_snoc_ne (by simp)]
      exact runOk_later (later_loader sc _) (hruns i)
    | some j =>
      obtain ⟨hs', hown⟩ := runOk_dispatch hs (hruns j)
      refine ⟨hs', fun i => ?_⟩
      rcases eq_or_ne i j with rfl | hne
      · rw [Threads.locals_snoc_self]
        exact hown
      · rw [Threads.locals_snoc_ne (by simpa using hne)]
        exact runOk_later (later_dispatch (uids j) _ _) (hruns i)

/-! ## The counters -/

theorem counts_loader (sc : Script) (w : World) : (loader sc w).counts = w.counts := by
  unfold loader
  cases w.loader with
  | setUser | setRoot | attach =>
    simp only
    split <;> rfl
  | loop left => cases left <;> rfl
  | _ => rfl

/-- A run adds to a counter what it adds to the runs that have bumped it. -/
theorem bump_share (uid : UInt32) (w : World) (pc : RunPc) (idx : Idx) :
    ∃ d, (if (dispatch uid w pc).2 = .done idx then 1 else 0) =
        (if pc = .done idx then 1 else 0) + d ∧
      ∀ {k : Nat}, w.counts idx = k % 2 ^ 64 →
        (dispatch uid w pc).1.counts idx = (k + d) % 2 ^ 64 := by
  cases pc with
  | enter =>
    refine ⟨0, ?_, fun h => h⟩
    rw [dispatch]
    split <;> simp
  | tail i =>
    rw [dispatch_tail]
    exact ⟨0, by simp, fun h => h⟩
  | done i => exact ⟨0, rfl, fun h => h⟩
  | untraced => exact ⟨0, rfl, fun h => h⟩
  | bump i =>
    rcases eq_or_ne i idx with rfl | hne
    · refine ⟨1, by simp [dispatch], fun h => ?_⟩
      show Function.update w.counts i _ i = _
      rw [Function.update_self, u64Add, h, Nat.mod_add_mod]
    · refine ⟨0, by simp [dispatch, hne], fun h => ?_⟩
      exact (Function.update_of_ne hne.symm _ _).trans h

theorem counts_after (sc : Script) (uids : Fin n → UInt32) (sched : List (Option (Fin n)))
    (idx : Idx) :
    (after sc uids sched).shared.counts idx = bumped (after sc uids sched).locals idx % 2 ^ 64 := by
  refine Threads.after_sum (f := fun k => k % 2 ^ 64)
    (V := fun sched => (after sc uids sched).shared.counts idx)
    (S := fun _ pc => if pc = RunPc.done idx then 1 else 0) ?_ fun pre t post _ => ?_
  · simp [after, World.init]
  · have hnext : (after sc uids (pre ++ [t])).shared =
        (prog sc uids t (after sc uids pre).shared ((after sc uids pre).locals t)).1 :=
      Threads.shared_snoc pre t
    show ∃ d, _ ∧ (_ → (after sc uids (pre ++ [t])).shared.counts idx = _)
    rw [hnext]
    cases t with
    | none => exact ⟨0, rfl, fun hval => (congrFun (counts_loader sc _) idx).trans hval⟩
    | some i =>
      obtain ⟨d, hshare, hval⟩ := bump_share (uids i) (after sc uids pre).shared
        ((after sc uids pre).locals (some i)) idx
      exact ⟨d, hshare, fun h => hval h⟩

end TailcallLemmas

open TailcallLemmas

/-! ## 1. Every dispatch is counted once -/

/-- For every number of calls, every outcome of the loader's calls and every
interleaving. -/
theorem dispatch_counted (sc : Script) (uids : Fin n → UInt32) (sched : List (Option (Fin n))) :
    (∀ idx, (after sc uids sched).shared.counts idx =
      bumped (after sc uids sched).locals idx % 2 ^ 64) ∧
    ((after sc uids sched).shared.isOpen = true → ∀ i idx,
      (after sc uids sched).locals (some i) = .done idx → idx = slotOf (uids i)) ∧
    ∀ l ∈ (after sc uids sched).shared.printed, l.miss = 0 := by
  obtain ⟨hs, hruns⟩ := holds_after sc uids sched
  refine ⟨counts_after sc uids sched, fun ho i idx hd => ?_, hs.printed⟩
  have hrun := hruns i
  rw [hd] at hrun
  exact hrun ho

/-- A run begins, the loader takes everything down, and only then the run jumps. -/
theorem late_run_misses :
    (after ⟨true, true, true, 0⟩ (fun _ : Fin 1 => 0)
      [none, none, none, some 0, none, none, none, some 0, some 0]).shared.counts .miss = 1 := by
  decide

end Ebpf101.Tailcall
