import Ebpf101.Nettop.Poller

/-!
# nettop: whose name is on a row

A row carries the `comm` of the process that was current when `account` created
it. Rows outlive their process, and a pid may go to a new process, which then
finds the row and adds to it. The sampler counts on a decrease of the counters
to notice a recycled pid, but the counters of a row that is still there do not
decrease.

Results:
1. `labels_of_movers`: in every run in which a process moves bytes only while the
   map holds no row of its pid under another name, every displayed row has the
   name of the process that last moved bytes under the pid.
   `recycled_pid_mislabelled`: a pid that is reused before its row is reaped is
   displayed under the name of the process before.
-/

namespace Ebpf101.Nettop.Labels

open Runs

/-! ## Processes -/

/-- A process starts or exits, or nettop takes a step. -/
inductive ProcEvent where
  | start (t : Task)
  | exit (pid : Pid)
  | run (ev : Nettop.Event)

def step (s : State) : ProcEvent → State × List Frame
  | .start _ | .exit _ => (s, [])
  | .run ev => Nettop.step s ev

/-- The state after a run. -/
def after (evs : List ProcEvent) : State := exec step State.init evs

/-- A hook fires for `pid` with bytes for `account` to count. -/
def ProcEvent.moves (pid : Pid) : ProcEvent → Bool
  | .run (.fire (.probe p cur s _)) =>
    cur.pid = pid && pid ≠ 0 && (s.family = AF_INET || s.family = AF_INET6) &&
      (p.amount.map Prod.fst).any (· ≠ 0)
  | _ => false

/-- The process that holds `pid`, by its name, after one more event. -/
def holds (pid : Pid) (h : Option Comm) : ProcEvent → Option Comm
  | .start t => if t.pid = pid then some t.comm else h
  | .exit p => if p = pid then none else h
  | .run _ => h

/-- The process that holds `pid`. -/
def holder (pid : Pid) (evs : List ProcEvent) : Option Comm := evs.foldl (holds pid) none

/-- The process that last moved bytes under `pid`: the holder of the pid when it
did. -/
def mover (pid : Pid) (evs : List ProcEvent) : Option Comm :=
  (evs.foldl (fun a ev => (holds pid a.1 ev, if ev.moves pid then a.1 else a.2))
    ((none, none) : Option Comm × Option Comm)).2

/-! ## Statements -/

/-- A process starts under a free pid, and the task that is current in a hook is
the process that holds its pid. -/
def ConsistentAt (pre : List ProcEvent) : ProcEvent → Prop
  | .start t => holder t.pid pre = none
  | .exit pid => holder pid pre ≠ none
  | .run (.fire (.probe _ cur _ _)) => holder cur.pid pre = some cur.comm
  | _ => True

/-- In a displayed frame, a row with bytes has the name of the process that last
moved bytes under its pid. -/
def LabelledAt (pre : List ProcEvent) (ev : ProcEvent) : Prop :=
  ∀ f ∈ (step (after pre) ev).2, f.priming = false → ∀ r ∈ f.rows, r.dtx ≠ 0 ∨ r.drx ≠ 0 →
    mover r.pid pre = some r.comm

/-- A process moves bytes only while the map holds no row of its pid that an
earlier process with another name created. -/
def OwnRowAt (pre : List ProcEvent) : ProcEvent → Prop
  | .run (.fire (.probe p cur s env)) =>
    ProcEvent.moves cur.pid (.run (.fire (.probe p cur s env))) = true →
      ∀ ps ∈ (after pre).kernel.procStats.lookupElem cur.pid, ps.comm = cur.comm
  | _ => True

instance (pre : List ProcEvent) : (ev : ProcEvent) → Decidable (ConsistentAt pre ev)
  | .start t => inferInstanceAs (Decidable (holder t.pid pre = none))
  | .exit pid => inferInstanceAs (Decidable (holder pid pre ≠ none))
  | .run (.fire (.probe _ cur _ _)) =>
    inferInstanceAs (Decidable (holder cur.pid pre = some cur.comm))
  | .run (.fire (.retransmit _)) | .run (.fire (.close _)) | .run (.fire (.evict _))
  | .run (.pass _ _ _) => isTrue trivial

instance (pre : List ProcEvent) : (ev : ProcEvent) → Decidable (OwnRowAt pre ev)
  | .run (.fire (.probe _ _ _ _)) => inferInstanceAs (Decidable (_ → ∀ _ ∈ _, _))
  | .start _ | .exit _ | .run (.fire (.retransmit _)) | .run (.fire (.close _))
  | .run (.fire (.evict _)) | .run (.pass _ _ _) => isTrue trivial

namespace LabelsLemmas

open PollerLemmas PassLemmas

/-! ## Movers -/

theorem mover_snoc (pid : Pid) (evs : List ProcEvent) (ev : ProcEvent) :
    mover pid (evs ++ [ev]) = if ev.moves pid then holder pid evs else mover pid evs := by
  have hfold : ∀ evs : List ProcEvent,
      (evs.foldl (fun a ev => (holds pid a.1 ev, if ev.moves pid then a.1 else a.2))
        ((none, none) : Option Comm × Option Comm)).1 = holder pid evs := by
    intro evs
    induction evs using List.reverseRecOn with
    | nil => rfl
    | append_singleton evs ev ih => simp [holder, ih]
  simp only [mover, List.foldl_append, List.foldl_cons, List.foldl_nil, hfold]

/-! ## What a pass reads -/

/-- What a walk over the map `m` may hold: rows of `m`, and what they print. -/
structure ReadsFrom (env : PassEnv) (m : BpfMap Pid ProcStats) (w : Walk) : Prop where
  map : ∀ pid ps, w.map.lookupElem pid = some ps → m.lookupElem pid = some ps
  rows : ∀ r ∈ w.rows, ∃ ps p, m.lookupElem r.pid = some ps ∧ mkRow env (r.pid, ps) p = some r

/-- A visit prints the row it visits, if it prints. -/
theorem mem_visit {env : PassEnv} {acc : List PrevEntry × List Row} {e : Pid × ProcStats} {r : Row}
    (h : r ∈ (visit env acc e).2) : r ∈ acc.2 ∨ ∃ p, mkRow env e p = some r := by
  have hdiff : ∀ prev p, r ∈ (diffRow env prev acc.2 e p).2 →
      r ∈ acc.2 ∨ ∃ p, mkRow env e p = some r := by
    intro prev p hr
    unfold diffRow at hr
    cases hrow : mkRow env e p with
    | none => exact Or.inl (by simpa [hrow] using hr)
    | some row =>
      simp only [hrow] at hr
      split at hr
      · exact Or.inl hr
      · rcases List.mem_append.mp hr with hr | hr
        · exact Or.inl hr
        · exact Or.inr ⟨p, by rw [hrow, List.mem_singleton.mp hr]⟩
  unfold visit at h
  split at h
  · exact hdiff _ _ h
  · split at h
    · exact Or.inl h
    · split at h
      · exact Or.inl h
      · exact hdiff _ _ h

theorem readsFrom_walkStep {env : PassEnv} {m : BpfMap Pid ProcStats} {w w' : Walk}
    (h : ReadsFrom env m w) (hstep : walkStep env w = some w') : ReadsFrom env m w' := by
  unfold walkStep at hstep
  split at hstep
  · cases hstep
  · next key _ =>
    split at hstep
    · cases hstep
      exact ⟨h.map, h.rows⟩
    · next ps hps =>
      split at hstep
      · cases hstep
        refine ⟨fun pid q hq => ?_, h.rows⟩
        rw [BpfMap.lookupElem_deleteElem] at hq
        split at hq
        · cases hq
        · exact h.map pid q hq
      · cases hstep
        refine ⟨h.map, fun r hr => ?_⟩
        rcases mem_visit hr with hr | ⟨p, hp⟩
        · exact h.rows r hr
        · have hpid : r.pid = key := mkRow_pid hp
          exact ⟨ps, p, hpid ▸ h.map key ps hps, hpid ▸ hp⟩

theorem readsFrom_walk {env : PassEnv} {m : BpfMap Pid ProcStats} (fuel : Nat) {w w' : Walk}
    (h : ReadsFrom env m w) (hwalk : walk env fuel w = some w') : ReadsFrom env m w' := by
  induction fuel generalizing w with
  | zero => cases hwalk
  | succ fuel ih =>
    rw [walk] at hwalk
    split at hwalk
    · cases hwalk
      exact h
    · next hstep => exact ih (readsFrom_walkStep h hstep) hwalk

/-- A pass changes no row that it keeps, and prints rows of the map. -/
theorem sample_reads {env : PassEnv} {m : BpfMap Pid ProcStats} {prev : List PrevEntry}
    {res : PassResult} (h : sample env m prev = some res) :
    (∀ pid ps, res.map.lookupElem pid = some ps → m.lookupElem pid = some ps) ∧
    ∀ r ∈ res.rows, ∃ ps p, m.lookupElem r.pid = some ps ∧ mkRow env (r.pid, ps) p = some r := by
  obtain ⟨w, hw, rfl⟩ := Option.map_eq_some_iff.mp h
  have hstart : ReadsFrom env m ⟨0, m, clearSeen prev, []⟩ :=
    ⟨fun _ _ hl => hl, fun _ hr => absurd hr List.not_mem_nil⟩
  have hread := readsFrom_walk _ hstart hw
  exact ⟨hread.map, fun r hr => hread.rows r ((List.mem_insertionSort _).mp hr)⟩

/-- The bytes and the name that a printed row was made of. -/
theorem mkRow_source {env : PassEnv} {e : Pid × ProcStats} {p : PrevEntry} {r : Row}
    (h : mkRow env e p = some r) :
    r.comm = e.2.comm ∧ (r.dtx ≠ 0 ∨ r.drx ≠ 0 → e.2.txBytes ≠ 0 ∨ e.2.rxBytes ≠ 0) := by
  simp only [mkRow, diff_eq_sub] at h
  split at h
  · cases h
  · cases h
    refine ⟨Comm.terminate_eq _, fun hd => ?_⟩
    rcases hd with hd | hd
    · exact Or.inl fun h0 => hd (by simp [h0])
    · exact Or.inr fun h0 => hd (by simp [h0])

/-! ## What a hook writes -/

/-- The row that `account` leaves for a pid: as it was, or that of the current
process with the call counted in. -/
theorem row_account {k : Kernel} {cur : Task} {sk : Sock} {bytes : Nat} {isTx : Bool}
    {env : HookEnv} {pid : Pid} {ps : ProcStats}
    (h : (account k cur sk bytes isTx env).procStats.lookupElem pid = some ps) :
    k.procStats.lookupElem pid = some ps ∨
    (pid = cur.pid ∧ cur.pid ≠ 0 ∧ (sk.family = AF_INET ∨ sk.family = AF_INET6) ∧
      ∃ old : ProcStats, ps = old.count bytes isTx env.ktime ∧
        (k.procStats.lookupElem pid = some old ∨ old = ProcStats.init cur.comm)) := by
  unfold account at h
  split at h
  · exact Or.inl h
  · next hz =>
    split at h
    · exact Or.inl h
    · next hf =>
      have hin : sk.family = AF_INET ∨ sk.family = AF_INET6 := by
        rwa [← not_and_or.trans (or_congr not_not not_not)]
      rw [BpfMap.lookupElem_modify, lookup_fetchOrCreate] at h
      split at h
      · next hp =>
        obtain ⟨old, hold, rfl⟩ := Option.map_eq_some_iff.mp h
        refine Or.inr ⟨hp, hz, hin, old, rfl, ?_⟩
        split at hold
        · exact Or.inr (Option.some.inj hold).symm
        · exact Or.inl hold
      · next hp =>
        rw [if_neg fun hc => hp hc.1] at h
        exact Or.inl h

theorem comm_count (ps : ProcStats) (bytes : Nat) (isTx : Bool) (now : Nat) :
    (ps.count bytes isTx now).comm = ps.comm := by
  cases isTx <;> rfl

/-- A call that counts no bytes leaves a zero counter zero. -/
theorem bytes_count_zero {ps : ProcStats} {isTx : Bool} {now : Nat}
    (h : (ps.count 0 isTx now).txBytes ≠ 0 ∨ (ps.count 0 isTx now).rxBytes ≠ 0) :
    ps.txBytes ≠ 0 ∨ ps.rxBytes ≠ 0 := by
  have hadd : ∀ n : Nat, u64Add n 0 ≠ 0 → n ≠ 0 := fun n hn h0 => hn (by rw [h0]; rfl)
  cases isTx with
  | true => exact h.imp (hadd _) id
  | false => exact h.imp id (hadd _)

/-! ## Runs -/

/-- A row with bytes has the name of the last process that moved bytes. -/
def LabelInv (evs : List ProcEvent) (s : State) : Prop :=
  ∀ pid ps, s.kernel.procStats.lookupElem pid = some ps → ps.txBytes ≠ 0 ∨ ps.rxBytes ≠ 0 →
    mover pid evs = some ps.comm

theorem labelInv_probe {evs : List ProcEvent} {p : Probe} {cur : Task} {sk : Sock} {env : HookEnv}
    (h : LabelInv evs (after evs))
    (hcons : ConsistentAt evs (.run (.fire (.probe p cur sk env))))
    (hown : OwnRowAt evs (.run (.fire (.probe p cur sk env)))) :
    LabelInv (evs ++ [.run (.fire (.probe p cur sk env))])
      (step (after evs) (.run (.fire (.probe p cur sk env)))).1 := by
  intro pid ps hps hb
  have hstep : (step (after evs) (.run (.fire (.probe p cur sk env)))).1.kernel =
      (after evs).kernel.runProbe cur sk env p := rfl
  rw [hstep, runProbe_eq] at hps
  rw [mover_snoc]
  split
  · -- the process moves bytes: the row is its own
    next hm =>
    have hpid : cur.pid = pid := by
      simp only [ProcEvent.moves, Bool.and_eq_true, decide_eq_true_eq] at hm
      exact hm.1.1.1
    subst hpid
    have hcomm : ps.comm = cur.comm := by
      cases ha : p.amount with
      | none => simp [ProcEvent.moves, ha] at hm
      | some a =>
        rw [ha] at hps
        rcases row_account hps with hold | ⟨-, -, -, old, rfl, hold | rfl⟩
        · exact hown hm ps hold
        · rw [comm_count]
          exact hown hm old hold
        · rw [comm_count]
          rfl
    rw [hcomm]
    exact hcons
  · next hm =>
    cases ha : p.amount with
    | none =>
      rw [ha] at hps
      exact h pid ps hps hb
    | some a =>
      rw [ha] at hps
      rcases row_account hps with hold | ⟨rfl, hz, hin, old, rfl, hrow⟩
      · exact h pid ps hold hb
      · -- the call counts no bytes
        have hzero : a.1 = 0 := by
          by_contra hne
          exact hm (by simpa [ProcEvent.moves, ha, hz, hne] using hin)
        rw [hzero] at hb
        rw [comm_count]
        rcases hrow with hold | rfl
        · exact h _ old hold (bytes_count_zero hb)
        · exact absurd (bytes_count_zero hb) (by simp [ProcStats.init])

/-- A retransmit changes neither bytes nor names. -/
theorem row_retransmit {k : Kernel} {sk : SkAddr} {pid : Pid} {ps : ProcStats}
    (h : (k.fire (.retransmit sk)).procStats.lookupElem pid = some ps) :
    ∃ old, k.procStats.lookupElem pid = some old ∧ old.comm = ps.comm ∧
      old.txBytes = ps.txBytes ∧ old.rxBytes = ps.rxBytes := by
  simp only [Kernel.fire, handleTcpRetransmit] at h
  cases ho : k.sockOwner.lookupElem sk with
  | none =>
    rw [ho] at h
    exact ⟨ps, h, rfl, rfl, rfl⟩
  | some q =>
    simp only [ho] at h
    rw [BpfMap.lookupElem_modify] at h
    split at h
    · obtain ⟨old, hold, rfl⟩ := Option.map_eq_some_iff.mp h
      exact ⟨old, hold, rfl, rfl, rfl⟩
    · exact ⟨ps, h, rfl, rfl, rfl⟩

/-- A pass keeps rows or deletes them. -/
theorem row_pass {s : State} {now : Nat} {alive : Pid → Bool} {el : ℚ} {pid : Pid} {ps : ProcStats}
    (h : (Nettop.step s (.pass now alive el)).1.kernel.procStats.lookupElem pid = some ps) :
    s.kernel.procStats.lookupElem pid = some ps := by
  simp only [Nettop.step] at h
  cases hs : sample (s.env now alive el) s.kernel.procStats s.prev with
  | none =>
    rw [hs] at h
    exact h
  | some res =>
    rw [hs] at h
    exact (sample_reads hs).1 pid ps h

theorem labelInv_step {evs : List ProcEvent} {ev : ProcEvent} (h : LabelInv evs (after evs))
    (hcons : ConsistentAt evs ev) (hown : OwnRowAt evs ev) :
    LabelInv (evs ++ [ev]) (step (after evs) ev).1 := by
  cases ev with
  | start t => exact fun pid ps hps hb => by rw [mover_snoc]; exact h pid ps hps hb
  | exit p => exact fun pid ps hps hb => by rw [mover_snoc]; exact h pid ps hps hb
  | run ev =>
    cases ev with
    | pass now alive el =>
      intro pid ps hps hb
      rw [mover_snoc]
      exact h pid ps (row_pass hps) hb
    | fire f =>
      cases f with
      | probe p cur sk env => exact labelInv_probe h hcons hown
      | retransmit sk =>
        intro pid ps hps hb
        obtain ⟨old, hold, hc, ht, hr⟩ := row_retransmit hps
        rw [mover_snoc, ← hc]
        exact h pid old hold (by rwa [ht, hr])
      | close sk => exact fun pid ps hps hb => by rw [mover_snoc]; exact h pid ps hps hb
      | evict sk => exact fun pid ps hps hb => by rw [mover_snoc]; exact h pid ps hps hb

theorem labelInv_after {evs : List ProcEvent} (hcons : Along ConsistentAt evs)
    (hown : Along OwnRowAt evs) : LabelInv evs (after evs) :=
  exec_history (Q := fun pre ev => ConsistentAt pre ev ∧ OwnRowAt pre ev) LabelInv
    (fun _ _ hps => by cases hps) (fun _ _ _ hq hpre => labelInv_step hpre hq.1 hq.2) evs
    fun pre ev post he => ⟨hcons pre ev post he, hown pre ev post he⟩

/-- A row that a pass prints is one of the map's. -/
theorem labelled_of_inv {evs : List ProcEvent} (h : LabelInv evs (after evs)) (ev : ProcEvent) :
    LabelledAt evs ev := by
  intro f hf _ r hr hd
  cases ev with
  | start t => cases hf
  | exit p => cases hf
  | run ev =>
    cases ev with
    | fire g => cases hf
    | pass now alive el =>
      simp only [step, Nettop.step] at hf
      cases hs : sample ((after evs).env now alive el) (after evs).kernel.procStats
        (after evs).prev with
      | none =>
        rw [hs] at hf
        cases hf
      | some res =>
        rw [hs, List.mem_singleton] at hf
        subst hf
        obtain ⟨ps, p, hps, hrow⟩ := (sample_reads hs).2 r hr
        obtain ⟨hcomm, hbytes⟩ := mkRow_source hrow
        rw [hcomm]
        exact h r.pid ps hps (hbytes hd)

end LabelsLemmas

open LabelsLemmas

/-! ## 1. Rows and names -/

/-- For every run of processes with reused pids, hooks and passes: if no process
moves bytes while the map still holds a row of its pid under another name, every
displayed row with bytes has the name of the process that last moved them. -/
theorem labels_of_movers {evs : List ProcEvent} (hcons : Along ConsistentAt evs)
    (hown : Along OwnRowAt evs) : Along LabelledAt evs := by
  intro pre ev post he
  have hinv : LabelInv pre (after pre) :=
    labelInv_after (he ▸ hcons : Along _ (pre ++ ev :: post)).left
      (he ▸ hown : Along _ (pre ++ ev :: post)).left
  exact labelled_of_inv hinv ev

/-- Pid 7 is `a`, which sends 100 bytes and exits; the pid goes to `b`, which sends
50 bytes; a pass comes after each. -/
def exRecycledPid : List ProcEvent :=
  [.run (.pass 0 (fun _ => true) 1),
   .start ⟨7, Comm.ofBytes [97]⟩,
   .run (.fire (.probe (.tcpSendmsg 100) ⟨7, Comm.ofBytes [97]⟩ ⟨1, AF_INET⟩ ⟨1000, 0, 0⟩)),
   .run (.pass 2000 (fun _ => true) 1),
   .exit 7,
   .start ⟨7, Comm.ofBytes [98]⟩,
   .run (.fire (.probe (.tcpSendmsg 50) ⟨7, Comm.ofBytes [98]⟩ ⟨2, AF_INET⟩ ⟨3000, 0, 0⟩)),
   .run (.pass 4000 (fun _ => true) 1)]

/-- The last frame shows the 50 bytes of `b` as traffic of `a`. -/
theorem recycled_pid_mislabelled :
    Along ConsistentAt exRecycledPid ∧ ¬ Along LabelledAt exRecycledPid := by
  refine ⟨by decide +kernel, fun h => ?_⟩
  have hrow : ∃ f ∈ (step (after (exRecycledPid.take 7)) (.run (.pass 4000 (fun _ => true) 1))).2,
      f.priming = false ∧ ∃ r ∈ f.rows, r.dtx ≠ 0 ∧
        mover r.pid (exRecycledPid.take 7) ≠ some r.comm := by
    decide +kernel
  obtain ⟨f, hf, hp, r, hr, hd, hne⟩ := hrow
  exact hne (h.at (j := 7) rfl f hf hp r hr (Or.inl hd))

/-- The same processes, with a pass between them that finds the pid gone for more
than a minute. -/
def exReapedPid : List ProcEvent :=
  exRecycledPid.take 5 ++
  [.run (.pass (70 * 1000000000) (fun _ => false) 1),
   .start ⟨7, Comm.ofBytes [98]⟩,
   .run (.fire (.probe (.tcpSendmsg 50) ⟨7, Comm.ofBytes [98]⟩ ⟨2, AF_INET⟩ ⟨71000000000, 0, 0⟩)),
   .run (.pass (72 * 1000000000) (fun _ => true) 1)]

theorem exReapedPid_labelled :
    ((outs step State.init exReapedPid).flatten.map fun f => f.rows.map Row.comm) =
      [[], [Comm.ofBytes [97]], [], [Comm.ofBytes [98]]] ∧
    Along LabelledAt exReapedPid :=
  ⟨by decide +kernel, labels_of_movers (by decide +kernel) (by decide +kernel)⟩

end Ebpf101.Nettop.Labels
