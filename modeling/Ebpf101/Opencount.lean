import Mathlib.Algebra.Order.BigOperators.Group.Finset
import Ebpf101.Basic
import Ebpf101.Lib.BpfMap
import Ebpf101.Lib.Threads

/-!
# opencount

Chapter 16, `16-bpftool/opencount.bpf.c`, counts the `openat` calls of each uid in
a hash map. A run that finds the counter adds to it atomically; one that finds
none inserts a counter of 1, under `BPF_NOEXIST`. Runs on several CPUs interleave
between the two map calls.

Results:
1. `counts_every_run_iff`: when all runs have finished, every counter is the number
   of the runs of its uid if and only if no run came to insert a counter that was
   there already (and none of these numbers needs more than 64 bits).
   `insert_race_loses_run`: two first calls of a uid that both miss leave a counter
   of 1; the run that loses the race does not look up again.
-/

namespace Ebpf101.Opencount

open Runs

/-! ## The program -/

/-- The size of `open_count`. -/
def MAX_ENTRIES : Nat := 1024

abbrev Uid := Nat

/-- One run of `count_open`: the uid of the caller, and where its counter lands in
the map if it is the run that inserts it. -/
structure Run where
  uid : Uid
  pos : Nat
deriving DecidableEq

/-- The next step of a run. -/
inductive Pc where
  | lookup
  | add
  | insert
  | done
deriving DecidableEq, Repr

/-- `count_open`, one map operation or atomic add at a time. -/
def countOpen (r : Run) (m : BpfMap Uid Nat) : Pc → BpfMap Uid Nat × Pc
  | .lookup =>
    match m.lookupElem r.uid with
    | some _ => (m, .add)
    | none => (m, .insert)
  | .add => (m.modify r.uid fun cnt => u64Add cnt 1, .done)
  -- the error of an insertion that lost the race is ignored
  | .insert => (m.updateElem MAX_ENTRIES r.pos r.uid 1 .noexist, .done)
  | .done => (m, .done)

variable {n : Nat}

/-- The map and the runs after a schedule, from an empty map. -/
def after (runs : Fin n → Run) (sched : List (Fin n)) : Threads.Sys (Fin n) (BpfMap Uid Nat) Pc :=
  Threads.after (fun i => countOpen (runs i)) ⟨BpfMap.empty, fun _ => .lookup⟩ sched

/-- The counter of a uid; 0 if it has none. -/
def openCount (m : BpfMap Uid Nat) (uid : Uid) : Nat := m.counter uid

/-! ## Statements -/

/-- The number of runs made by the uid. -/
def runsOf (runs : Fin n → Run) (uid : Uid) : Nat :=
  Threads.runsOf (fun i => (runs i).uid) uid

/-- A run inserts a counter only when there is none: no other run of the uid has
inserted it since the run looked it up. -/
def NoRaceAt (runs : Fin n → Run) (pre : List (Fin n)) (i : Fin n) : Prop :=
  (after runs pre).locals i = .insert → (after runs pre).shared.lookupElem (runs i).uid = none

instance (runs : Fin n → Run) (pre : List (Fin n)) (i : Fin n) : Decidable (NoRaceAt runs pre i) :=
  inferInstanceAs (Decidable (_ → _))

namespace OpencountLemmas

/-! ## Rows stay -/

/-- What a run knows of the map: its keys are uids of the runs, and the counter it
is about to add to is there. -/
structure Knows (uids : Finset Uid) (r : Run) (m : BpfMap Uid Nat) (pc : Pc) : Prop where
  uid : r.uid ∈ uids
  keys : ∀ k ∈ m.keys, k ∈ uids
  add : pc = .add → r.uid ∈ m.keys

section Step

variable {uids : Finset Uid} {r : Run} {m : BpfMap Uid Nat} {pc : Pc}

/-- A run only adds keys, and uids of the runs at that. -/
theorem grows_countOpen (huids : uids.card ≤ MAX_ENTRIES) (h : Knows uids r m pc) :
    BpfMap.Grows uids m (countOpen r m pc).1 := by
  cases pc with
  | lookup =>
    rw [countOpen]
    split <;> exact BpfMap.Grows.refl uids m
  | add => exact BpfMap.grows_modify uids m r.uid _
  | insert => exact (BpfMap.grows_noexist huids h.keys h.uid r.pos 1).1
  | done => exact BpfMap.Grows.refl uids m

theorem knows_countOpen (huids : uids.card ≤ MAX_ENTRIES) (h : Knows uids r m pc) :
    Knows uids r (countOpen r m pc).1 (countOpen r m pc).2 := by
  refine ⟨h.uid, (grows_countOpen huids h).subset h.keys, fun hpc => ?_⟩
  cases pc with
  | lookup =>
    rw [countOpen] at hpc ⊢
    cases hl : m.lookupElem r.uid with
    | none => simp [hl] at hpc
    | some cnt => exact BpfMap.mem_keys_iff.mpr (by simp [hl])
  | add => cases hpc
  | insert => cases hpc
  | done => cases hpc

theorem knows_stable {m' : BpfMap Uid Nat} (hgrow : BpfMap.Grows uids m m')
    (h : Knows uids r m pc) :
    Knows uids r m' pc :=
  ⟨h.uid, hgrow.subset h.keys, fun hpc => hgrow.1 _ (h.add hpc)⟩

end Step

theorem knows_after {runs : Fin n → Run}
    (huids : (Finset.univ.image fun i => (runs i).uid).card ≤ MAX_ENTRIES) (sched : List (Fin n))
    (i : Fin n) : Knows (Finset.univ.image fun i => (runs i).uid) (runs i)
      (after runs sched).shared ((after runs sched).locals i) := by
  refine Threads.after_local
    (J := fun i m pc => Knows (Finset.univ.image fun i => (runs i).uid) (runs i) m pc)
    (R := BpfMap.Grows (Finset.univ.image fun i => (runs i).uid))
    (fun i m pc h => knows_countOpen huids h) (fun i m pc h => grows_countOpen huids h)
    (fun i m m' pc hg h => knows_stable hg h) (fun i => ⟨?_, ?_, ?_⟩) sched i
  · exact Finset.mem_image_of_mem _ (Finset.mem_univ i)
  · exact fun k hk => by cases hk
  · exact fun hpc => by cases hpc

/-! ## Runs that are counted, and runs that are lost -/

/-- The next step of the run puts it into the counter of the uid: an addition, or an
insertion that finds no counter. -/
def counts (uid : Uid) (r : Run) (m : BpfMap Uid Nat) : Pc → Nat
  | .add => if r.uid = uid then 1 else 0
  | .insert => if r.uid = uid ∧ m.lookupElem r.uid = none then 1 else 0
  | _ => 0

/-- The next step of the run is an insertion that finds the counter of the uid. -/
def loses (uid : Uid) (r : Run) (m : BpfMap Uid Nat) : Pc → Nat
  | .insert => if r.uid = uid ∧ m.lookupElem r.uid ≠ none then 1 else 0
  | _ => 0

theorem openCount_countOpen {uids : Finset Uid} (huids : uids.card ≤ MAX_ENTRIES) {r : Run}
    {m : BpfMap Uid Nat} {pc : Pc} (h : Knows uids r m pc) {uid : Uid}
    (hlt : openCount m uid < 2 ^ 64) :
    openCount (countOpen r m pc).1 uid = (openCount m uid + counts uid r m pc) % 2 ^ 64 := by
  have hsame : (openCount m uid + 0) % 2 ^ 64 = openCount m uid := Nat.mod_eq_of_lt hlt
  cases pc with
  | lookup =>
    rw [countOpen]
    split <;> exact hsame.symm
  | done => exact hsame.symm
  | add =>
    obtain ⟨cnt, hcnt⟩ := Option.isSome_iff_exists.mp (BpfMap.mem_keys_iff.mp (h.add rfl))
    rcases eq_or_ne r.uid uid with rfl | hne
    · simp [countOpen, counts, openCount, BpfMap.counter, BpfMap.lookupElem_modify, hcnt, u64Add]
    · rw [counts, if_neg hne, hsame]
      simp [countOpen, openCount, BpfMap.counter, BpfMap.lookupElem_modify, hne.symm]
  | insert =>
    rw [counts]
    split
    · next hc =>
      obtain ⟨rfl, hnone⟩ := hc
      have hroom : m.size < MAX_ENTRIES :=
        Nat.lt_of_lt_of_le (BpfMap.size_lt_of_absent h.keys h.uid hnone) huids
      simp [countOpen, openCount, BpfMap.counter, BpfMap.lookupElem_updateElem_noexist, hnone,
        hroom]
    · next hc =>
      rw [hsame, countOpen, openCount, BpfMap.counter, BpfMap.lookupElem_updateElem_noexist,
        if_neg fun hnew => hc ⟨hnew.1.symm, hnew.2.1⟩]
      rfl

theorem share_countOpen (uid : Uid) (r : Run) (m : BpfMap Uid Nat) (pc : Pc) :
    Threads.share .done uid r.uid (countOpen r m pc).2 =
      Threads.share .done uid r.uid pc + (counts uid r m pc + loses uid r m pc) := by
  cases pc with
  | lookup =>
    rw [countOpen]
    cases m.lookupElem r.uid <;> simp [Threads.share, counts, loses]
  | add => simp [countOpen, Threads.share, counts, loses]
  | insert =>
    rcases eq_or_ne r.uid uid with rfl | hne
    · cases hrow : m.lookupElem r.uid <;> simp [countOpen, Threads.share, counts, loses, hrow]
    · simp [countOpen, Threads.share, counts, loses, hne]
  | done => simp [countOpen, Threads.share, counts, loses]

/-- The runs of the uid that a schedule has counted. -/
def counted (runs : Fin n → Run) (uid : Uid) : List (Fin n) → Nat :=
  tally fun pre i => counts uid (runs i) (after runs pre).shared ((after runs pre).locals i)

/-- The runs of the uid that a schedule has lost. -/
def lost (runs : Fin n → Run) (uid : Uid) : List (Fin n) → Nat :=
  tally fun pre i => loses uid (runs i) (after runs pre).shared ((after runs pre).locals i)

theorem openCount_after {runs : Fin n → Run}
    (huids : (Finset.univ.image fun i => (runs i).uid).card ≤ MAX_ENTRIES) (uid : Uid)
    (sched : List (Fin n)) :
    openCount (after runs sched).shared uid = counted runs uid sched % 2 ^ 64 := by
  induction sched using List.reverseRecOn with
  | nil => rfl
  | append_singleton pre i ih =>
    have hlt : openCount (after runs pre).shared uid < 2 ^ 64 := by
      rw [ih]
      exact Nat.mod_lt _ (by decide)
    have hstep := openCount_countOpen huids (knows_after huids pre i) hlt
    rw [ih, Nat.mod_add_mod] at hstep
    rw [counted, tally_snoc, after, Threads.shared_snoc]
    exact hstep

/-- A finished run is one counted or one lost. -/
theorem counted_add_lost (runs : Fin n → Run) (uid : Uid) (sched : List (Fin n)) :
    counted runs uid sched + lost runs uid sched =
      ∑ i, Threads.share .done uid (runs i).uid ((after runs sched).locals i) := by
  refine Threads.after_sum (f := id) (S := fun i => Threads.share Pc.done uid (runs i).uid)
    (V := fun sched => counted runs uid sched + lost runs uid sched)
    ?_ fun pre i post _ => ⟨_, share_countOpen uid (runs i) _ _, fun hval => ?_⟩
  · simp [counted, lost, Threads.share]
  · simp only [counted, lost, tally_snoc] at hval ⊢
    rw [Nat.add_add_add_comm, hval]
    rfl

theorem lost_eq_zero_iff (runs : Fin n → Run) (sched : List (Fin n)) :
    (∀ uid, lost runs uid sched = 0) ↔ Along (NoRaceAt runs) sched := by
  simp only [lost, tally_eq_zero_iff]
  constructor
  · intro h pre i post he hpc
    have hnone := h (runs i).uid pre i post he
    simpa [loses, hpc] using hnone
  · intro h uid pre i post he
    have hnone := h pre i post he
    unfold loses
    split
    · next hpc => exact if_neg fun hc => hc.2 (hnone hpc)
    · rfl

end OpencountLemmas

open OpencountLemmas

/-! ## 1. Runs are counted -/

/-- For any runs by at most `MAX_ENTRIES` uids and any schedule after which all of
them have finished: every run is counted if and only if no run came to insert a
counter that was there already, and no uid made more runs than 64 bits hold. -/
theorem counts_every_run_iff (runs : Fin n → Run)
    (huids : (Finset.univ.image fun i => (runs i).uid).card ≤ MAX_ENTRIES) {sched : List (Fin n)}
    (hdone : ∀ i, (after runs sched).locals i = .done) :
    (∀ uid, openCount (after runs sched).shared uid = runsOf runs uid) ↔
      Along (NoRaceAt runs) sched ∧ ∀ uid, runsOf runs uid < 2 ^ 64 := by
  have hall : ∀ uid, counted runs uid sched + lost runs uid sched = runsOf runs uid := by
    intro uid
    rw [counted_add_lost]
    exact Threads.sum_share_of_last hdone _ uid
  rw [← lost_eq_zero_iff, ← forall_and]
  refine forall_congr' fun uid => ?_
  rw [openCount_after huids, ← hall uid]
  constructor
  · intro heq
    have hlt : counted runs uid sched + lost runs uid sched < 2 ^ 64 := by
      rw [← heq]
      exact Nat.mod_lt _ (by decide)
    rw [Nat.mod_eq_of_lt (Nat.lt_of_le_of_lt (Nat.le_add_right _ _) hlt)] at heq
    exact ⟨Nat.left_eq_add.mp heq, hlt⟩
  · rintro ⟨hnone, hlt⟩
    rw [hnone] at hlt ⊢
    exact Nat.mod_eq_of_lt hlt

/-- Two runs of one uid. -/
def exRuns : Fin 2 → Run := fun _ => ⟨0, 0⟩

/-- Both look up and miss; both insert. -/
theorem insert_race_loses_run :
    (∀ i, (after exRuns [0, 1, 0, 1]).locals i = .done) ∧
    openCount (after exRuns [0, 1, 0, 1]).shared 0 = 1 ∧ runsOf exRuns 0 = 2 := by
  decide +kernel

/-- One after the other. -/
theorem exRuns_counted :
    Along (NoRaceAt exRuns) [0, 0, 1, 1] ∧
    openCount (after exRuns [0, 0, 1, 1]).shared 0 = runsOf exRuns 0 := by
  have hno : Along (NoRaceAt exRuns) [0, 0, 1, 1] := by decide +kernel
  have hfew : ∀ uid, runsOf exRuns uid < 2 ^ 64 := by
    intro uid
    unfold runsOf Threads.runsOf
    refine Nat.lt_of_le_of_lt (m := 2) (Finset.sum_le_card_nsmul _ _ 1 fun i _ => ?_) (by decide)
    split <;> decide
  exact ⟨hno, (counts_every_run_iff exRuns (by decide +kernel) (by decide +kernel)).mpr
    ⟨hno, hfew⟩ 0⟩

end Ebpf101.Opencount
