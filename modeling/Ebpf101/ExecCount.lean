import Mathlib.Algebra.Order.BigOperators.Group.Finset
import Ebpf101.Basic
import Ebpf101.Lib.BpfMap
import Ebpf101.Lib.Threads

/-!
# Counters that are read, incremented and written back

Chapter 2, `02-maps/count_by_uid.py`, counts `execve` calls by uid, and chapter 24,
`24-pythonbpf/hello_pythonbpf.py`, by pid. A run looks the counter up, adds one to a copy
and writes the copy back, with `BPF_ANY`. Runs on several CPUs interleave between the
lookup and the update. (Chapter 16 adds in place: `Opencount`.)

Results:
1. `writes_back_iff`: at no time is a counter larger than the number of its runs, or the
   counter of a finished run missing; when all runs have finished, all counters are exact if
   and only if every run wrote one more than what was there when it wrote.
   `stale_write_forgets`: a run that writes late may set a counter back.
-/

namespace Ebpf101.ExecCount

open Runs

/-! ## The program -/

/-- One run: the uid or pid it counts, and where its counter lands in the map if it is the
run that inserts it. -/
structure Run where
  key : Nat
  pos : Nat
deriving DecidableEq

/-- The next step of a run; `counter` is its local variable. -/
inductive Pc where
  | lookup
  | update (counter : Nat)
  | done
deriving DecidableEq, Repr

/-- A run over a map of `cap` entries, one map operation at a time. -/
def readModifyWrite (cap : Nat) (r : Run) (m : BpfMap Nat Nat) : Pc → BpfMap Nat Nat × Pc
  | .lookup => (m, .update (u64Add ((m.lookupElem r.key).getD 0) 1))
  | .update counter => (m.updateElem cap r.pos r.key counter .any, .done)
  | .done => (m, .done)

/-- `hello` of chapter 2; a `BPF_HASH` has 10240 entries. -/
def hello : Run → BpfMap Nat Nat → Pc → BpfMap Nat Nat × Pc := readModifyWrite 10240

/-- `count_exec` of chapter 24. -/
def countExec : Run → BpfMap Nat Nat → Pc → BpfMap Nat Nat × Pc := readModifyWrite 4096

/-- The two programs. -/
inductive Program where
  | hello
  | countExec
deriving DecidableEq, Repr

def Program.run : Program → Run → BpfMap Nat Nat → Pc → BpfMap Nat Nat × Pc
  | .hello => ExecCount.hello
  | .countExec => ExecCount.countExec

/-- The size of the program's map. -/
def Program.maxEntries : Program → Nat
  | .hello => 10240
  | .countExec => 4096

variable {n : Nat}

/-- The map and the runs after a schedule, from an empty map. -/
def after (P : Program) (runs : Fin n → Run) (sched : List (Fin n)) :
    Threads.Sys (Fin n) (BpfMap Nat Nat) Pc :=
  Threads.after (fun i => P.run (runs i)) ⟨BpfMap.empty, fun _ => .lookup⟩ sched

/-! ## Statements -/

/-- The number of runs that count the key. -/
def runsOf (runs : Fin n → Run) (key : Nat) : Nat := Threads.runsOf (fun i => (runs i).key) key

/-- A run that writes, writes one more than what is there. -/
def FreshAt (P : Program) (runs : Fin n → Run) (pre : List (Fin n)) (i : Fin n) : Prop :=
  match (after P runs pre).locals i with
  | .update counter => counter = (after P runs pre).shared.counter (runs i).key + 1
  | _ => True

instance (P : Program) (runs : Fin n → Run) (pre : List (Fin n)) (i : Fin n) :
    Decidable (FreshAt P runs pre i) := by
  unfold FreshAt
  split <;> infer_instance

namespace ExecCountLemmas

/-! ## Finished runs -/

/-- The finished runs of the key. -/
def finished (runs : Fin n → Run) (key : Nat) (locals : Fin n → Pc) : Nat :=
  ∑ i, Threads.share .done key (runs i).key (locals i)

theorem finished_update (runs : Fin n → Run) (key : Nat) (locals : Fin n → Pc) (i : Fin n) (pc : Pc)
    (hnot : locals i ≠ .done) :
    finished runs key (Function.update locals i pc) =
      finished runs key locals + Threads.share .done key (runs i).key pc := by
  have hsum := Threads.sum_update (fun j => Threads.share .done key (runs j).key) locals i pc
  have hzero : Threads.share .done key (runs i).key (locals i) = 0 := if_neg fun h => hnot h.2
  rw [hzero, Nat.add_zero] at hsum
  exact hsum

/-- As long as a run has not finished, the finished ones are fewer. -/
theorem finished_lt (runs : Fin n → Run) (key : Nat) {locals : Fin n → Pc} {i : Fin n}
    (hnot : locals i ≠ .done) : finished runs key locals < n := by
  have hone : ∑ j : Fin n, (if j = i then 0 else 1) < n := by
    calc ∑ j : Fin n, (if j = i then 0 else 1)
        < ∑ _j : Fin n, 1 :=
          Finset.sum_lt_sum (fun j _ => by split <;> decide) ⟨i, Finset.mem_univ i, by simp⟩
      _ = n := by simp
  refine Nat.lt_of_le_of_lt (Finset.sum_le_sum fun j _ => ?_) hone
  unfold Threads.share
  rcases eq_or_ne j i with rfl | hj
  · rw [if_neg fun h => hnot h.2]
    exact Nat.zero_le _
  · rw [if_neg hj]
    split <;> decide

theorem finished_ne_zero {runs : Fin n → Run} {locals : Fin n → Pc} {i : Fin n}
    (hi : locals i = .done) : finished runs (runs i).key locals ≠ 0 := by
  refine Nat.ne_of_gt (Finset.sum_pos' (fun j _ => Nat.zero_le _) ⟨i, Finset.mem_univ i, ?_⟩)
  rw [Threads.share, if_pos ⟨rfl, hi⟩]
  exact Nat.one_pos

/-! ## What holds throughout -/

/-- The counters against the finished runs. A copy that a run is about to write was read
no later than now: it exceeds the finished runs by at most one, and then nothing was
missed before. -/
structure Inv (runs : Fin n → Run) (s : Threads.Sys (Fin n) (BpfMap Nat Nat) Pc) : Prop where
  keys : ∀ k ∈ s.shared.keys, k ∈ Finset.univ.image fun i => (runs i).key
  le : ∀ k, s.shared.counter k ≤ finished runs k s.locals
  pos : ∀ k, finished runs k s.locals ≠ 0 → s.shared.counter k ≠ 0
  copy : ∀ i c, s.locals i = .update c → c ≠ 0 ∧ c ≤ finished runs (runs i).key s.locals + 1 ∧
    (c = finished runs (runs i).key s.locals + 1 →
      s.shared.counter (runs i).key = finished runs (runs i).key s.locals)

theorem inv_init (runs : Fin n → Run) : Inv runs ⟨BpfMap.empty, fun _ => .lookup⟩ := by
  have hnone : ∀ k, finished runs k (fun _ => Pc.lookup) = 0 := fun k =>
    Finset.sum_eq_zero fun i _ => if_neg fun h => nomatch h.2
  exact ⟨fun k hk => (nomatch hk), fun k => Nat.zero_le _, fun k h => absurd (hnone k) h,
    fun i c h => (nomatch h)⟩

variable {P : Program} {runs : Fin n → Run} {s : Threads.Sys (Fin n) (BpfMap Nat Nat) Pc}

/-- One step of a run. -/
def stepOf (P : Program) (runs : Fin n → Run) (s : Threads.Sys (Fin n) (BpfMap Nat Nat) Pc)
    (i : Fin n) : Threads.Sys (Fin n) (BpfMap Nat Nat) Pc :=
  (Threads.tick (fun i => P.run (runs i)) s i).1

theorem stepOf_lookup {i : Fin n} (hpc : s.locals i = .lookup) :
    stepOf P runs s i =
      ⟨s.shared, Function.update s.locals i
        (.update (u64Add (s.shared.counter (runs i).key) 1))⟩ := by
  simp only [stepOf, Threads.tick, hpc]
  cases P <;> rfl

theorem stepOf_update {i : Fin n} {c : Nat} (hpc : s.locals i = .update c) :
    stepOf P runs s i =
      ⟨s.shared.updateElem P.maxEntries (runs i).pos (runs i).key c .any,
        Function.update s.locals i .done⟩ := by
  simp only [stepOf, Threads.tick, hpc]
  cases P <;> rfl

theorem stepOf_done {i : Fin n} (hpc : s.locals i = .done) : stepOf P runs s i = s := by
  have hstay : P.run (runs i) s.shared .done = (s.shared, .done) := by cases P <;> rfl
  simp only [stepOf, Threads.tick, hpc, hstay]
  show Threads.Sys.mk s.shared (Function.update s.locals i Pc.done) = s
  rw [← hpc, Function.update_eq_self]

theorem finished_lookup {i : Fin n} (hpc : s.locals i = .lookup) (c k : Nat) :
    finished runs k (Function.update s.locals i (.update c)) = finished runs k s.locals := by
  rw [finished_update runs k s.locals i _ (by simp [hpc]), Threads.share, if_neg (by simp),
    Nat.add_zero]

theorem finished_written {i : Fin n} {c : Nat} (hpc : s.locals i = .update c) (k : Nat) :
    finished runs k (Function.update s.locals i .done) =
      finished runs k s.locals + if (runs i).key = k then 1 else 0 := by
  rw [finished_update runs k s.locals i _ (by simp [hpc]), Threads.share]
  simp

/-- A run looks its counter up. -/
theorem Inv.lookup (hn : n < 2 ^ 64) (h : Inv runs s) {i : Fin n} (hpc : s.locals i = .lookup) :
    Inv runs (stepOf P runs s i) := by
  have hcount := h.le (runs i).key
  have hlt : finished runs (runs i).key s.locals < n := finished_lt runs _ (i := i) (by simp [hpc])
  have hadd : u64Add (s.shared.counter (runs i).key) 1 = s.shared.counter (runs i).key + 1 :=
    u64Add_eq (by omega)
  rw [stepOf_lookup hpc]
  refine ⟨h.keys, fun k => ?_, fun k hk => h.pos k ?_, fun j c hj => ?_⟩
  · rw [finished_lookup hpc]
    exact h.le k
  · rwa [finished_lookup hpc] at hk
  · replace hj : Function.update s.locals i _ j = .update c := hj
    rw [finished_lookup hpc]
    rcases eq_or_ne j i with rfl | hne
    · rw [Function.update_self, hadd] at hj
      cases hj
      exact ⟨Nat.succ_ne_zero _, Nat.succ_le_succ hcount, fun he => Nat.succ.inj he⟩
    · rw [Function.update_of_ne hne] at hj
      exact h.copy j c hj

/-- A run writes its copy back: the map has room for every key. -/
theorem count_update (hcap : (Finset.univ.image fun i => (runs i).key).card ≤ P.maxEntries)
    (h : Inv runs s) (i : Fin n) (c : Nat) :
    (∀ k, (s.shared.updateElem P.maxEntries (runs i).pos (runs i).key c .any).counter k =
      if k = (runs i).key then c else s.shared.counter k) ∧
    ∀ k ∈ (s.shared.updateElem P.maxEntries (runs i).pos (runs i).key c .any).keys,
      k ∈ Finset.univ.image fun i => (runs i).key := by
  have hkey : (runs i).key ∈ Finset.univ.image fun i => (runs i).key :=
    Finset.mem_image_of_mem _ (Finset.mem_univ i)
  have hroom : (s.shared.lookupElem (runs i).key).isSome ∨ s.shared.size < P.maxEntries := by
    cases hl : s.shared.lookupElem (runs i).key with
    | none => exact Or.inr (Nat.lt_of_lt_of_le (BpfMap.size_lt_of_absent h.keys hkey hl) hcap)
    | some v => exact Or.inl rfl
  constructor
  · intro k
    rw [BpfMap.counter, BpfMap.lookupElem_updateElem_any]
    rcases eq_or_ne k (runs i).key with rfl | hne
    · rw [if_pos ⟨rfl, hroom⟩, if_pos rfl]
      rfl
    · rw [if_neg fun hk => hne hk.1, if_neg hne]
      rfl
  · intro k hk
    rcases (BpfMap.mem_keys_any hroom _ _ k).mp hk with rfl | hold
    · exact hkey
    · exact h.keys k hold

theorem Inv.update (hcap : (Finset.univ.image fun i => (runs i).key).card ≤ P.maxEntries)
    (h : Inv runs s)
    {i : Fin n} {c : Nat} (hpc : s.locals i = .update c) : Inv runs (stepOf P runs s i) := by
  obtain ⟨hcount, hkeys⟩ := count_update hcap h i c
  obtain ⟨hc0, hcle, -⟩ := h.copy i c hpc
  have hfin : ∀ k, finished runs k (Function.update s.locals i .done) = _ :=
    fun k => finished_written hpc k
  rw [stepOf_update hpc]
  refine ⟨hkeys, fun k => ?_, fun k hk => ?_, fun j d hj => ?_⟩
  · rw [hcount, hfin]
    rcases eq_or_ne k (runs i).key with rfl | hne
    · rw [if_pos rfl, if_pos rfl]
      exact hcle
    · rw [if_neg hne, if_neg hne.symm]
      exact h.le k
  · rw [hcount]
    rw [hfin] at hk
    rcases eq_or_ne k (runs i).key with rfl | hne
    · rw [if_pos rfl]
      exact hc0
    · rw [if_neg hne]
      rw [if_neg hne.symm] at hk
      exact h.pos k hk
  · replace hj : Function.update s.locals i .done j = .update d := hj
    have hji : j ≠ i := by
      rintro rfl
      rw [Function.update_self] at hj
      cases hj
    rw [Function.update_of_ne hji] at hj
    obtain ⟨hd0, hdle, hd⟩ := h.copy j d hj
    rw [hfin, hcount]
    rcases eq_or_ne (runs i).key (runs j).key with hkey | hne
    · -- a run of the same key has finished since: the copy is too old to be exact
      rw [if_pos hkey]
      exact ⟨hd0, Nat.le_succ_of_le hdle, fun he => absurd he (by omega)⟩
    · rw [if_neg hne, if_neg hne.symm]
      exact ⟨hd0, hdle, hd⟩

theorem after_snoc (sched : List (Fin n)) (i : Fin n) :
    after P runs (sched ++ [i]) = stepOf P runs (after P runs sched) i :=
  Threads.after_snoc sched i

theorem inv_after (hn : n < 2 ^ 64)
    (hcap : (Finset.univ.image fun i => (runs i).key).card ≤ P.maxEntries)
    (sched : List (Fin n)) : Inv runs (after P runs sched) := by
  induction sched using List.reverseRecOn with
  | nil => exact inv_init runs
  | append_singleton sched i ih =>
    rw [after_snoc]
    cases hpc : (after P runs sched).locals i with
    | lookup => exact ih.lookup hn hpc
    | update c => exact ih.update hcap hpc
    | done =>
      rw [stepOf_done hpc]
      exact ih

/-! ## Exactness -/

/-- Every finished run is counted. -/
def Exact (P : Program) (runs : Fin n → Run) (sched : List (Fin n)) : Prop :=
  ∀ k, (after P runs sched).shared.counter k = finished runs k (after P runs sched).locals

/-- What was missed stays missed: the counters are exact after a step if and only if they
were before and the step wrote what it should. -/
theorem exact_snoc (hn : n < 2 ^ 64)
    (hcap : (Finset.univ.image fun i => (runs i).key).card ≤ P.maxEntries)
    (sched : List (Fin n)) (i : Fin n) :
    Exact P runs (sched ++ [i]) ↔ Exact P runs sched ∧ FreshAt P runs sched i := by
  have hinv := inv_after hn hcap sched
  unfold Exact FreshAt
  rw [after_snoc]
  cases hpc : (after P runs sched).locals i with
  | lookup =>
    rw [stepOf_lookup hpc, and_true]
    exact forall_congr' fun k => by rw [finished_lookup hpc]
  | done => rw [stepOf_done hpc, and_true]
  | update c =>
    obtain ⟨hcount, -⟩ := count_update hcap hinv i c
    obtain ⟨-, -, hcopy⟩ := hinv.copy i c hpc
    rw [stepOf_update hpc]
    simp only [hcount, finished_written hpc]
    constructor
    · intro h
      have hown := h (runs i).key
      rw [if_pos rfl, if_pos rfl] at hown
      refine ⟨fun k => ?_, by rw [hcopy hown, hown]⟩
      rcases eq_or_ne k (runs i).key with rfl | hne
      · exact hcopy hown
      · have hk := h k
        rwa [if_neg hne, if_neg hne.symm, Nat.add_zero] at hk
    · rintro ⟨h, hc⟩ k
      rcases eq_or_ne k (runs i).key with rfl | hne
      · rw [if_pos rfl, if_pos rfl, hc, h]
      · rw [if_neg hne, if_neg hne.symm, h, Nat.add_zero]

theorem exact_iff (hn : n < 2 ^ 64)
    (hcap : (Finset.univ.image fun i => (runs i).key).card ≤ P.maxEntries)
    (sched : List (Fin n)) : Exact P runs sched ↔ Along (FreshAt P runs) sched := by
  induction sched using List.reverseRecOn with
  | nil =>
    refine iff_of_true (fun k => Nat.le_antisymm ((inv_init runs).le k) ?_) (along_nil _)
    exact Nat.le_of_eq (Finset.sum_eq_zero fun i _ => if_neg fun h => (nomatch h.2))
  | append_singleton sched i ih => rw [exact_snoc hn hcap, along_snoc, ih]

end ExecCountLemmas

open ExecCountLemmas

/-! ## 1. Copies that are written back -/

/-- Three runs of one key. -/
def exRuns : Fin 3 → Run := fun _ => ⟨0, 0⟩

/-- The first one looks up and writes when the other two have finished: from 2, the counter
goes back to 1. -/
theorem stale_write_forgets (P : Program) :
    (after P exRuns [0, 1, 1, 2, 2]).shared.counter 0 = 2 ∧
    (∀ i, (after P exRuns [0, 1, 1, 2, 2, 0]).locals i = .done) ∧
    (after P exRuns [0, 1, 1, 2, 2, 0]).shared.counter 0 = 1 := by
  cases P <;> decide +kernel

end Ebpf101.ExecCount
