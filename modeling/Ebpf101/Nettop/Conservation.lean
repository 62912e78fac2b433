import Ebpf101.Nettop.Poller

/-!
# nettop: what the frames account for

Results:
1. `displayed_deltas_conserved`: over any run in which no counter reaches 2^64,
   the deltas displayed for a pid whose row is never deleted add up to the growth
   of its counters between the priming pass and the last one.
2. `reported_before_reap_iff`: a pass deletes only rows whose counts were all
   reported before if and only if no displayed pass finds a pid that a hook has
   charged since the pass before unseeable and idle for more than 60 seconds.
   `reap_loses_traffic`: nothing keeps this from happening. The reaper tests
   `last_ns` before the row is diffed, so with a sampling interval above 60
   seconds a whole transfer is deleted unseen.
-/

namespace Ebpf101.Nettop

open Runs PollerLemmas

/-! ## 1. Conservation -/

/-- What the displayed frames show for `pid`, added up. -/
def displayed (fs : List Frame) (pid : Pid) (c : Counter) : Nat :=
  (fs.map fun f => shown f.rows pid c).sum

namespace ConservationLemmas

/-- As long as a row is not deleted, the account is the priming total plus what
was displayed. -/
theorem ledger_of_not_deleted {first : Frame} {rest : List Frame} {pid : Pid} (c : Counter)
    (hp : first.priming = true) (hrest : ∀ f ∈ rest, f.priming = false)
    (hd : ∀ f ∈ first :: rest, pid ∉ f.deleted.map Prod.fst) :
    ledger (first :: rest) pid c = displayed rest pid c + total first.map pid c := by
  induction rest using List.reverseRecOn with
  | nil =>
    have h0 := hd first (by simp)
    rw [← List.nil_append [first], ledger_snoc, if_neg h0, hp, if_pos rfl]
    simp [displayed]
  | append_singleton rest f ih =>
    have hf := hrest f (by simp)
    have hnd := hd f (by simp)
    have ih := ih (fun g hg => hrest g (by simp [hg]))
      (fun g hg => hd g (by
        rcases List.mem_cons.mp hg with rfl | hg
        · simp
        · simp [hg]))
    rw [← List.cons_append, ledger_snoc, if_neg hnd, hf, if_neg (by simp), ih]
    simp only [displayed, List.map_append, List.sum_append, List.map_cons, List.map_nil,
      List.sum_cons, List.sum_nil]
    omega

end ConservationLemmas

open ConservationLemmas

/-- Nothing is lost, shown twice or shown as a start-up spike: whatever other
pids do, what the displayed passes show for `pid` adds up to the growth of its
counters from the priming pass to the last pass. Every pass yields a frame, and
all but the first are displayed. -/
theorem displayed_deltas_conserved {evs : List Event} (hno : Along NoWrapAt evs)
    {first : Frame} {rest : List Frame} (hfr : frames evs = first :: rest) {pid : Pid}
    (hd : ∀ f ∈ frames evs, pid ∉ f.deleted.map Prod.fst) :
    (frames evs).length = (evs.filter fun ev => ev matches .pass _ _ _).length ∧
    first.priming = true ∧ (∀ f ∈ rest, f.priming = false) ∧
    ∀ c, displayed rest pid c + total first.map pid c = total (lastMap (frames evs)) pid c := by
  have h := runInv_of_noWrap hno
  obtain ⟨hp, hrest⟩ := h.priming first rest hfr
  refine ⟨h.passes, hp, hrest, fun c => ?_⟩
  rw [← h.ledger_eq pid c, hfr]
  exact (ledger_of_not_deleted c hp hrest (hfr ▸ hd)).symm

/-- A process and a socket of its own. -/
def exTask : Task := ⟨7, Comm.ofBytes [110, 99]⟩
def exSk : Sock := ⟨1, AF_INET⟩

/-- A run for the witness below: pid 7 sends 100 bytes before the priming pass
and 23 after it, while pid 9 appears and is reaped. -/
def exRun : List Event :=
  [.fire (.probe (.tcpSendmsg 100) exTask exSk ⟨1, 0, 0⟩),
   .pass 2 (fun _ => true) 1,
   .fire (.probe (.tcpCleanupRbuf 5) ⟨9, Comm.ofBytes [115, 104]⟩ ⟨2, AF_INET6⟩ ⟨3, 0, 0⟩),
   .fire (.probe (.tcpSendmsg 23) exTask exSk ⟨4, 0, 0⟩),
   .fire (.retransmit 1),
   .pass 5 (fun _ => true) 1,
   .pass (70 * 1000000000) (fun pid => pid == 7) 60]

theorem exRun_conserved :
    Along NoWrapAt exRun ∧ (∀ f ∈ frames exRun, 7 ∉ f.deleted.map Prod.fst) ∧
    ∃ first rest, frames exRun = first :: rest ∧
      displayed rest 7 .tx + total first.map 7 .tx = total (lastMap (frames exRun)) 7 .tx := by
  have hno : Along NoWrapAt exRun := by decide +kernel
  have hd : ∀ f ∈ frames exRun, 7 ∉ f.deleted.map Prod.fst := by decide +kernel
  have hlen : (frames exRun).length = 3 := by decide +kernel
  refine ⟨hno, hd, ?_⟩
  cases hfr : frames exRun with
  | nil => rw [hfr] at hlen; cases hlen
  | cons first rest =>
    exact ⟨first, rest, rfl, hfr ▸ (displayed_deltas_conserved hno hfr hd).2.2.2 .tx⟩

/-! ## 2. Reaping -/

/-- At a displayed pass, every count of a deleted row was reported before: it is
in the account of the frames so far, and a row with a nonzero count was displayed
or stood in the priming baseline. -/
def ReportedAt (pre : List Event) (ev : Event) : Prop :=
  ∀ f ∈ (step (after pre) ev).2, f.priming = false → ∀ e ∈ f.deleted, ∀ c,
    e.2.get c = ledger (frames pre) e.1 c ∧
    (e.2.get c ≠ 0 → ∃ g ∈ frames pre,
      (g.priming = true ∧ e.1 ∈ g.map.keys) ∨
      (g.priming = false ∧ ∃ r ∈ g.rows, r.pid = e.1))

/-- At a displayed pass, no pid that a hook has charged since the pass before is
unseeable with its row idle for more than `REAP_IDLE_NS`. -/
def SettledAt (pre : List Event) : Event → Prop
  | .fire _ => True
  | .pass now alive el => (after pre).primed = true → ∀ pid ∈ chargedSince pre, ∀ ps,
      (after pre).kernel.procStats.lookupElem pid = some ps →
      reaps ((after pre).env now alive el) (pid, ps) = false

namespace ConservationLemmas

theorem total_ne_zero {m : BpfMap Pid ProcStats} {pid : Pid} {c : Counter}
    (h : total m pid c ≠ 0) : pid ∈ m.keys := by
  rw [BpfMap.mem_keys_iff]
  unfold total at h
  cases hl : m.lookupElem pid with
  | none => rw [hl] at h; exact absurd rfl h
  | some ps => rfl

/-- An account that is not empty comes from the priming totals or from a row. -/
theorem ledger_ne_zero {fs : List Frame} {pid : Pid} {c : Counter} (h : ledger fs pid c ≠ 0) :
    ∃ g ∈ fs, (g.priming = true ∧ pid ∈ g.map.keys) ∨
      (g.priming = false ∧ ∃ r ∈ g.rows, r.pid = pid) := by
  induction fs using List.reverseRecOn with
  | nil => exact absurd rfl h
  | append_singleton fs f ih =>
    rw [ledger_snoc] at h
    split at h
    · exact absurd rfl h
    · cases hp : f.priming with
      | true =>
        rw [hp, if_pos rfl] at h
        exact ⟨f, by simp, Or.inl ⟨hp, total_ne_zero h⟩⟩
      | false =>
        rw [hp, if_neg (by simp)] at h
        by_cases hs : shown f.rows pid c = 0
        · obtain ⟨g, hg, hor⟩ := ih (by omega)
          exact ⟨g, by simp [hg], hor⟩
        · exact ⟨f, by simp, Or.inr ⟨hp, PassLemmas.shown_ne_zero hs⟩⟩

theorem total_eq_get {m : BpfMap Pid ProcStats} {pid : Pid} {ps : ProcStats}
    (h : m.lookupElem pid = some ps) (c : Counter) : total m pid c = ps.get c := by
  simp [total, h]

/-- At one step the two conditions are the same. -/
theorem reportedAt_iff {pre : List Event} (h : RunInv pre (after pre)) (ev : Event) :
    ReportedAt pre ev ↔ SettledAt pre ev := by
  cases ev with
  | fire f => simp [ReportedAt, SettledAt, step]
  | pass now alive el =>
    obtain ⟨r, hspec, hstep⟩ := step_pass h now alive el
    simp only [ReportedAt, SettledAt, hstep, List.mem_singleton, forall_eq]
    have hpr : (frameOf (after pre) r).priming = false ↔ (after pre).primed = true := by
      simp [frameOf]
    rw [hpr]
    constructor
    · intro hrep hp pid hpid ps hl
      by_contra hr
      rw [Bool.not_eq_false] at hr
      obtain ⟨c, hlt⟩ := h.moved pid hpid
      have heq := (hrep hp (pid, ps) ((mem_deleted_iff hspec).mpr ⟨hl, hr⟩) c).1
      rw [h.ledger_eq, ← total_eq_get hl] at heq
      exact absurd heq (Nat.ne_of_gt hlt)
    · intro hset hp e he c
      obtain ⟨hl, hr⟩ := (mem_deleted_iff hspec).mp he
      have hidle : e.1 ∉ chargedSince pre := by
        intro hm
        rw [hset hp e.1 hm e.2 hl] at hr
        cases hr
      have heq : e.2.get c = ledger (frames pre) e.1 c := by
        rw [h.ledger_eq, ← h.idle e.1 hidle c]
        exact (total_eq_get hl c).symm
      exact ⟨heq, fun hne => ledger_ne_zero (heq ▸ hne)⟩

end ConservationLemmas

/-- Over any run in which no counter reaches 2^64: every row that a displayed
pass deletes was fully reported before if and only if no displayed pass finds a
pid charged since the pass before unseeable and idle for more than 60 seconds. -/
theorem reported_before_reap_iff {evs : List Event} (hno : Along NoWrapAt evs) :
    Along ReportedAt evs ↔ Along SettledAt evs := by
  induction evs using List.reverseRecOn with
  | nil => simp
  | append_singleton pre ev ih =>
    obtain ⟨hpre, -⟩ := along_snoc.mp hno
    rw [along_snoc, along_snoc, ih hpre, reportedAt_iff (runInv_of_noWrap hpre)]

theorem exRun_reported :
    Along NoWrapAt exRun ∧ (Along ReportedAt exRun ↔ Along SettledAt exRun) :=
  ⟨by decide +kernel, reported_before_reap_iff (by decide +kernel)⟩

/-- nettop run with `-i 100`: pid 7 sends 100 bytes two seconds after the priming
pass and exits; the next pass comes 98 seconds later. -/
def exLongInterval : List Event :=
  [.pass 0 (fun _ => true) 100,
   .fire (.probe (.tcpSendmsg 100) exTask exSk ⟨2 * 1000000000, 0, 0⟩),
   .pass (100 * 1000000000) (fun _ => false) 100]

/-- The default interval: pid 7 sends at 2 s and exits; its segment is resent at
61.5 s, which leaves `last_ns` alone, and the next pass comes at 62.5 s. -/
def exLateRetransmit : List Event :=
  [.pass 1000000000 (fun _ => true) 1,
   .fire (.probe (.tcpSendmsg 100) exTask exSk ⟨2 * 1000000000, 0, 0⟩),
   .pass 3000000000 (fun _ => true) 1,
   .fire (.retransmit 1),
   .pass 62500000000 (fun _ => false) 1]

namespace ConservationLemmas

/-- One row deleted at the end of a run with a count that no frame reported. -/
theorem not_reported {pre : List Event} {ev : Event} {f : Frame} {e : Pid × ProcStats}
    {c : Counter} (hf : f ∈ (step (after pre) ev).2) (hp : f.priming = false) (he : e ∈ f.deleted)
    (hne : e.2.get c ≠ ledger (frames pre) e.1 c) : ¬ Along ReportedAt (pre ++ [ev]) :=
  fun h => hne (h.last f hf hp e he c).1

end ConservationLemmas

/-- The reaper deletes a row before it diffs it: the 100 bytes of the first run
and the retransmit of the second are in no frame. -/
theorem reap_loses_traffic :
    ¬ Along ReportedAt exLongInterval ∧ ¬ Along ReportedAt exLateRetransmit := by
  constructor
  · have hlost : ∃ f ∈ (step (after (exLongInterval.take 2))
          (.pass (100 * 1000000000) (fun _ => false) 100)).2, f.priming = false ∧
        ∃ e ∈ f.deleted, e.2.get .tx ≠ ledger (frames (exLongInterval.take 2)) e.1 .tx := by
      decide +kernel
    obtain ⟨f, hf, hp, e, he, hne⟩ := hlost
    exact not_reported hf hp he hne
  · have hlost : ∃ f ∈ (step (after (exLateRetransmit.take 4))
          (.pass 62500000000 (fun _ => false) 1)).2, f.priming = false ∧
        ∃ e ∈ f.deleted, e.2.get .retrans ≠
          ledger (frames (exLateRetransmit.take 4)) e.1 .retrans := by
      decide +kernel
    obtain ⟨f, hf, hp, e, he, hne⟩ := hlost
    exact not_reported hf hp he hne

end Ebpf101.Nettop
