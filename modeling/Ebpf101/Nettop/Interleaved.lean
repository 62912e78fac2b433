import Ebpf101.Nettop.Poller

/-!
# nettop: a pass while the hooks fire

`sample` of `27-nettop/nettop.c` makes three calls on `proc_stats_map` in its loop, and the
hooks may fire between any two of them. `scan` is a pass as a sequence of such calls and
firings. Without firings it is the pass of `Nettop.Sample` (`scan_alone`).

After a deletion the walk starts over. A row that was visited before is then visited again,
and if a hook has charged it in the meantime it is diffed and listed a second time.

Results:
1. `one_row_each`: if no process is charged between two visits of its row in the pass, every
   pid is listed at most once, and its row is the difference of its two baselines.
2. `listed_twice`: a pass that deletes a row and lists another one twice.
-/

namespace Ebpf101.Nettop

open Runs

/-! ## The loop, call by call -/

/-- The next call of the loop: `bpf_map_get_next_key`, `bpf_map_lookup_elem`,
`bpf_map_delete_elem`, or none when the loop has ended. -/
inductive Pc where
  | next
  | look
  | reap
  | done
deriving DecidableEq, Repr

/-- A pass between two calls. -/
structure Scan where
  pc : Pc
  key : Pid
  kernel : Kernel
  prev : List PrevEntry
  rows : List Row

/-- A call of the loop, with what `/proc` shows at the time, or a firing of a hook. -/
inductive ScanAct where
  | poll (alive : Pid → Bool)
  | fire (f : Firing)

/-- One call, and the code up to the next one. The lookup copies the row, so what follows it
does not see later firings. -/
def pollStep (env : PassEnv) (alive : Pid → Bool) (s : Scan) : Scan :=
  match s.pc with
  | .next =>
    match s.kernel.procStats.getNextKey s.key with
    | none => { s with pc := .done }
    | some key => { s with pc := .look, key := key }
  | .look =>
    match s.kernel.procStats.lookupElem s.key with
    | none => { s with pc := .next }
    | some ps =>
      if reaps { env with alive := alive } (s.key, ps) then { s with pc := .reap }
      else
        let acc := visit env (s.prev, s.rows) (s.key, ps)
        { s with pc := .next, prev := acc.1, rows := acc.2 }
  | .reap =>
    -- whatever the hooks have made of the row since the lookup, it goes
    let map := s.kernel.procStats.deleteElem s.key
    { s with pc := .next, kernel := { s.kernel with procStats := map } }
  | .done => s

def scanStep (env : PassEnv) (s : Scan) : ScanAct → Scan × Unit
  | .poll alive => (pollStep env alive s, ())
  | .fire f => ({ s with kernel := s.kernel.fire f }, ())

def Scan.start (k : Kernel) (prev : List PrevEntry) : Scan := ⟨.next, 0, k, clearSeen prev, []⟩

/-- The pass after the calls and firings `acts`. -/
def scan (env : PassEnv) (k : Kernel) (prev : List PrevEntry) (acts : List ScanAct) : Scan :=
  exec (scanStep env) (Scan.start k prev) acts

/-- What `sample` makes of it behind the loop. -/
def Scan.result (s : Scan) : PassResult where
  map := s.kernel.procStats
  prev := s.prev.filter fun p => p.seen
  rows := s.rows.insertionSort ByTraffic

/-! ## Statements -/

/-- The row that the next call finds and that is then diffed, if there is one. -/
def Scan.visits (env : PassEnv) (alive : Pid → Bool) (s : Scan) : Option (Pid × ProcStats) :=
  match s.pc with
  | .look =>
    ((s.kernel.procStats.lookupElem s.key).map fun ps => (s.key, ps)).filter fun e =>
      !reaps { env with alive := alive } e
  | _ => none

/-- The pass has visited the row of `pid`. -/
def Scan.visited (s : Scan) (pid : Pid) : Bool := (prevFind s.prev pid).any fun p => p.seen

/-- The pids that a hook has charged since the last visit of their row in the pass. -/
def chargedSinceVisit (env : PassEnv) (k : Kernel) (prev : List PrevEntry) (acts : List ScanAct) :
    List Pid :=
  (acts.foldl (fun a act =>
    ((scanStep env a.1 act).1,
      match act with
      | .poll alive =>
        match a.1.visits env alive with
        | some e => a.2.filter fun pid => pid ≠ e.1
        | none => a.2
      | .fire f =>
        match charge a.1.kernel f with
        | some (pid, _, _) => pid :: a.2
        | none => a.2)) (Scan.start k prev, ([] : List Pid))).2

/-- A row that the pass visits again has not been charged since its last visit. -/
def QuietAt (env : PassEnv) (k : Kernel) (prev : List PrevEntry) (pre : List ScanAct) :
    ScanAct → Prop
  | .poll alive =>
    match (scan env k prev pre).visits env alive with
    | some e => (scan env k prev pre).visited e.1 = true → e.1 ∉ chargedSinceVisit env k prev pre
    | none => True
  | .fire _ => True

instance (env : PassEnv) (k : Kernel) (prev : List PrevEntry) (pre : List ScanAct) :
    (act : ScanAct) → Decidable (QuietAt env k prev pre act)
  | .poll alive =>
    match h : (scan env k prev pre).visits env alive with
    | some e =>
      decidable_of_iff ((scan env k prev pre).visited e.1 = true →
        e.1 ∉ chargedSinceVisit env k prev pre) (by simp [QuietAt, h])
    | none => isTrue (by simp [QuietAt, h])
  | .fire _ => isTrue trivial

/-- The baseline before the pass of an entry `p` that it leaves: the entry of the pass
before, else `p` itself when priming, else 0. -/
def baseBefore (env : PassEnv) (prev : List PrevEntry) (p : PrevEntry) (c : Counter) : Nat :=
  match prevFind prev p.pid with
  | some q => q.get c
  | none => if env.priming then p.get c else 0

/-- Every pid is listed at most once, and for what its counters advanced by from one baseline
to the next. -/
structure OneRowEach (env : PassEnv) (prev : List PrevEntry) (r : PassResult) : Prop where
  once : (r.rows.map Row.pid).Nodup
  accounts : ∀ p ∈ r.prev, ∀ c, shown r.rows p.pid c = p.get c - baseBefore env prev p c
  known : ∀ row ∈ r.rows, ∃ p ∈ r.prev, p.pid = row.pid

namespace InterleavedLemmas

open PassLemmas PollerLemmas

/-! ## Without firings -/

/-- The pass as it stands before `bpf_map_get_next_key`. -/
def ofWalk (owner : BpfMap SkAddr Pid) (w : Walk) : Scan :=
  ⟨.next, w.key, ⟨w.map, owner⟩, w.prev, w.rows⟩

/-- The calls of one iteration. -/
theorem exec_walkStep (env : PassEnv) (owner : BpfMap SkAddr Pid) {w w' : Walk}
    (h : walkStep env w = some w') :
    ∃ n, exec (scanStep env) (ofWalk owner w) (List.replicate n (.poll env.alive)) =
      ofWalk owner w' := by
  unfold walkStep at h
  cases hkey : w.map.getNextKey w.key with
  | none => simp [hkey] at h
  | some key =>
    simp only [hkey] at h
    cases hps : w.map.lookupElem key with
    | none =>
      simp only [hps, Option.some.injEq] at h
      refine ⟨2, ?_⟩
      simp [List.replicate, scanStep, pollStep, ofWalk, hkey, hps, ← h]
    | some ps =>
      simp only [hps] at h
      cases hr : reaps env (key, ps) with
      | true =>
        simp only [hr, if_true, Option.some.injEq] at h
        refine ⟨3, ?_⟩
        simp [List.replicate, scanStep, pollStep, ofWalk, hkey, hps, hr, ← h]
      | false =>
        simp only [hr, Bool.false_eq_true, if_false, Option.some.injEq] at h
        refine ⟨2, ?_⟩
        simp [List.replicate, scanStep, pollStep, ofWalk, hkey, hps, hr, ← h]

theorem getNextKey_of_walkStep {env : PassEnv} {w : Walk} (h : walkStep env w = none) :
    w.map.getNextKey w.key = none := by
  unfold walkStep at h
  cases hkey : w.map.getNextKey w.key with
  | none => rfl
  | some key =>
    simp only [hkey] at h
    cases hps : w.map.lookupElem key with
    | none => simp [hps] at h
    | some ps => cases hr : reaps env (key, ps) <;> simp [hps, hr] at h

theorem exec_walk (env : PassEnv) (owner : BpfMap SkAddr Pid) {fuel : Nat} {w w' : Walk}
    (h : walk env fuel w = some w') :
    ∃ n, exec (scanStep env) (ofWalk owner w) (List.replicate n (.poll env.alive)) =
      { ofWalk owner w' with pc := .done } := by
  induction fuel generalizing w with
  | zero => cases h
  | succ fuel ih =>
    rw [walk] at h
    cases hstep : walkStep env w with
    | none =>
      have hkey := getNextKey_of_walkStep hstep
      rw [hstep] at h
      cases h
      refine ⟨1, ?_⟩
      simp [List.replicate, scanStep, pollStep, ofWalk, hkey]
    | some w₁ =>
      rw [hstep] at h
      obtain ⟨n₁, hn₁⟩ := exec_walkStep env owner hstep
      obtain ⟨n₂, hn₂⟩ := ih h
      refine ⟨n₁ + n₂, ?_⟩
      rw [List.replicate_add, exec, List.foldl_append]
      exact (congrArg (fun s => exec (scanStep env) s _) hn₁).trans hn₂

end InterleavedLemmas

open InterleavedLemmas in
/-- The pass of `Nettop.Sample` is the one in which no hook fires. -/
theorem scan_alone {env : PassEnv} {k : Kernel} {prev : List PrevEntry} {r : PassResult}
    (h : sample env k.procStats prev = some r) :
    ∃ n, (scan env k prev (List.replicate n (.poll env.alive))).pc = .done ∧
      (scan env k prev (List.replicate n (.poll env.alive))).result = r := by
  obtain ⟨w, hw, rfl⟩ := Option.map_eq_some_iff.mp h
  obtain ⟨n, hn⟩ := exec_walk env k.sockOwner hw
  have hscan : scan env k prev (List.replicate n (.poll env.alive)) =
      { ofWalk k.sockOwner w with pc := .done } := hn
  refine ⟨n, ?_⟩
  rw [hscan]
  exact ⟨rfl, rfl⟩

namespace InterleavedLemmas

open PassLemmas PollerLemmas

/-! ## Steps -/

section Steps

variable {env : PassEnv} {k : Kernel} {prev : List PrevEntry}

theorem scan_snoc (acts : List ScanAct) (act : ScanAct) :
    scan env k prev (acts ++ [act]) = (scanStep env (scan env k prev acts) act).1 := by
  simp [scan]

theorem chargedSinceVisit_snoc (acts : List ScanAct) (act : ScanAct) :
    chargedSinceVisit env k prev (acts ++ [act]) =
      match act with
      | .poll alive =>
        match (scan env k prev acts).visits env alive with
        | some e => (chargedSinceVisit env k prev acts).filter fun pid => pid ≠ e.1
        | none => chargedSinceVisit env k prev acts
      | .fire f =>
        match charge (scan env k prev acts).kernel f with
        | some (pid, _, _) => pid :: chargedSinceVisit env k prev acts
        | none => chargedSinceVisit env k prev acts := by
  have hfst : ∀ (g : Scan × List Pid → ScanAct → List Pid) (a : Scan × List Pid) (l : List ScanAct),
      (l.foldl (fun a act => ((scanStep env a.1 act).1, g a act)) a).1 =
        exec (scanStep env) a.1 l :=
    fun _ => fst_foldl fun _ _ => rfl
  unfold chargedSinceVisit
  rw [List.foldl_append, List.foldl_cons, List.foldl_nil]
  cases act <;> simp only [hfst] <;> rfl

/-- What a call does: it visits a row, or it leaves the table and the rows alone and deletes
at most one entry of the map. -/
theorem pollStep_cases (env : PassEnv) (alive : Pid → Bool) (s : Scan) :
    (∃ e, s.visits env alive = some e ∧ s.kernel.procStats.lookupElem e.1 = some e.2 ∧
      (pollStep env alive s).kernel = s.kernel ∧
      ((pollStep env alive s).prev, (pollStep env alive s).rows) = visit env (s.prev, s.rows) e) ∨
    (s.visits env alive = none ∧ (pollStep env alive s).prev = s.prev ∧
      (pollStep env alive s).rows = s.rows ∧
      ∀ pid ps, (pollStep env alive s).kernel.procStats.lookupElem pid = some ps →
        s.kernel.procStats.lookupElem pid = some ps) := by
  unfold pollStep Scan.visits
  cases s.pc with
  | next =>
    right
    cases s.kernel.procStats.getNextKey s.key <;> exact ⟨rfl, rfl, rfl, fun _ _ h => h⟩
  | look =>
    cases hps : s.kernel.procStats.lookupElem s.key with
    | none => exact Or.inr ⟨rfl, rfl, rfl, fun _ _ h => h⟩
    | some ps =>
      cases hr : reaps { env with alive := alive } (s.key, ps) with
      | true =>
        refine Or.inr ⟨by simp [hr], by simp [hr], by simp [hr], fun pid ps h => ?_⟩
        simpa [hr] using h
      | false => exact Or.inl ⟨(s.key, ps), by simp [hr], hps, by simp [hr], by simp [hr]⟩
  | reap =>
    refine Or.inr ⟨rfl, rfl, rfl, fun pid ps h => ?_⟩
    rw [BpfMap.lookupElem_deleteElem] at h
    split at h
    · cases h
    · exact h
  | done => exact Or.inr ⟨rfl, rfl, rfl, fun _ _ h => h⟩

/-- A firing leaves the rows of the pids it does not charge as they are. -/
theorem lookup_fire {k : Kernel} {f : Firing} {pid : Pid}
    (h : ∀ c n, charge k f ≠ some (pid, c, n)) :
    (k.fire f).procStats.lookupElem pid = k.procStats.lookupElem pid := by
  cases f with
  | probe p cur sk env =>
    simp only [Kernel.fire, runProbe_eq]
    cases ha : p.amount with
    | none => rfl
    | some a =>
      have hacc : ∀ c n, chargeAccount k cur sk a.1 a.2 ≠ some (pid, c, n) := by
        simpa [charge, ha] using h
      simp only [account]
      split
      · rfl
      · next hz =>
        split
        · rfl
        · next hfam =>
          simp only [chargeAccount, if_neg hz, if_neg hfam] at hacc
          rw [BpfMap.lookupElem_modify, lookup_fetchOrCreate]
          rcases eq_or_ne pid cur.pid with rfl | hne
          · -- its own row is not charged only if it is absent and the map is full
            split at hacc
            · exact absurd rfl (hacc _ _)
            · next hfull =>
              rw [not_or, Bool.not_eq_true, Option.isSome_eq_false_iff,
                Option.isNone_iff_eq_none] at hfull
              simp [hfull.1, hfull.2]
          · simp [hne]
  | retransmit sk =>
    simp only [Kernel.fire, handleTcpRetransmit]
    cases hsk : k.sockOwner.lookupElem sk with
    | none => rfl
    | some p =>
      simp only
      rw [BpfMap.lookupElem_modify]
      split
      · next hp =>
        subst hp
        cases hrow : k.procStats.lookupElem pid with
        | none => rfl
        | some ps => exact absurd (by simp [charge, hsk, hrow]) (h .retrans 1)
      · rfl
  | close sk => rfl
  | evict sk => rfl

end Steps

/-! ## The invariant -/

/-- What holds between two calls. `moved` are the pids charged since their last visit. -/
structure ScanInv (env : PassEnv) (prev : List PrevEntry) (moved : List Pid) (s : Scan) : Prop where
  pids : (s.prev.map PrevEntry.pid).Nodup
  room : s.prev.length ≤ MAX_ROWS
  once : (s.rows.map Row.pid).Nodup
  /-- A row is of a pid that was visited. -/
  listed : ∀ r ∈ s.rows, s.visited r.pid = true
  /-- A visited row that was not charged since is as the table has it, or is gone. -/
  settled : ∀ pid p ps, prevFind s.prev pid = some p → p.seen = true → pid ∉ moved →
    s.kernel.procStats.lookupElem pid = some ps → p = entryOf (pid, ps)
  /-- The other entries are those of the pass before. -/
  waiting : ∀ pid p, prevFind s.prev pid = some p → p.seen = false →
    prevFind (clearSeen prev) pid = some p
  unknown : ∀ pid, prevFind s.prev pid = none → prevFind prev pid = none
  accounts : ∀ pid p, prevFind s.prev pid = some p → p.seen = true →
    ∀ c, shown s.rows pid c = p.get c - baseBefore env prev p c

theorem visited_iff {s : Scan} {pid : Pid} :
    s.visited pid = true ↔ ∃ p, prevFind s.prev pid = some p ∧ p.seen = true := by
  unfold Scan.visited
  cases prevFind s.prev pid <;> simp

section Invariant

variable {env : PassEnv} {prev : List PrevEntry} {moved : List Pid} {s : Scan}

theorem scanInv_start (env : PassEnv) (k : Kernel) {prev : List PrevEntry}
    (hnd : (prev.map PrevEntry.pid).Nodup) (hlen : prev.length ≤ MAX_ROWS) :
    ScanInv env prev [] (Scan.start k prev) := by
  have hseen : ∀ pid p, prevFind (clearSeen prev) pid = some p → p.seen = false := by
    intro pid p hp
    rw [prevFind_clearSeen] at hp
    obtain ⟨q, -, rfl⟩ := Option.map_eq_some_iff.mp hp
    rfl
  exact
    { pids := by rwa [show (Scan.start k prev).prev = clearSeen prev from rfl, clearSeen_pids]
      room := by simpa [Scan.start, clearSeen] using hlen
      once := List.nodup_nil
      listed := by simp [Scan.start]
      settled := fun pid p ps hp hs => by simp [hseen pid p hp] at hs
      waiting := fun pid p hp _ => hp
      unknown := fun pid h => by
        rw [show (Scan.start k prev).prev = clearSeen prev from rfl, prevFind_clearSeen,
          Option.map_eq_none_iff] at h
        exact h
      accounts := fun pid p hp hs => by simp [hseen pid p hp] at hs }

theorem ScanInv.fire (h : ScanInv env prev moved s) (f : Firing) :
    ScanInv env prev
      (match charge s.kernel f with
        | some (pid, _, _) => pid :: moved
        | none => moved)
      { s with kernel := s.kernel.fire f } := by
  refine { h with settled := fun pid p ps hp hs hm hps => ?_ }
  have hcharge : pid ∉ moved ∧ ∀ c n, charge s.kernel f ≠ some (pid, c, n) := by
    cases hc : charge s.kernel f with
    | none => exact ⟨by simpa [hc] using hm, by simp⟩
    | some a =>
      rw [hc, List.mem_cons, not_or] at hm
      exact ⟨hm.2, fun c n he => hm.1 (congrArg Prod.fst (Option.some.inj he)).symm⟩
  exact h.settled pid p ps hp hs hcharge.1 (lookup_fire hcharge.2 ▸ hps)

/-- A call that visits nothing. -/
theorem ScanInv.of_same (h : ScanInv env prev moved s) {s' : Scan} (hprev : s'.prev = s.prev)
    (hrows : s'.rows = s.rows)
    (hmap : ∀ pid ps, s'.kernel.procStats.lookupElem pid = some ps →
      s.kernel.procStats.lookupElem pid = some ps) : ScanInv env prev moved s' := by
  obtain ⟨pc, key, k, prev', rows⟩ := s'
  cases hprev
  cases hrows
  exact { h with
    settled := fun pid p ps hp hs hm hps => h.settled pid p ps hp hs hm (hmap pid ps hps) }

/-- There is room for the row of a pid that is visited for the first time. -/
theorem ScanInv.rows_room (h : ScanInv env prev moved s) {pid : Pid} (hnew : s.visited pid = false)
    (hroom : prevFind s.prev pid = none → s.prev.length < MAX_ROWS) : s.rows.length < MAX_ROWS := by
  have hsub : s.rows.map Row.pid ⊆ s.prev.map PrevEntry.pid := by
    intro q hq
    obtain ⟨r, hr, rfl⟩ := List.mem_map.mp hq
    by_contra hn
    have hv := h.listed r hr
    rw [Scan.visited, prevFind_eq_none_iff.mpr hn] at hv
    cases hv
  cases hp : prevFind s.prev pid with
  | none =>
    have hle := (List.subperm_of_subset h.once hsub).length_le
    rw [List.length_map, List.length_map] at hle
    exact Nat.lt_of_le_of_lt hle (hroom hp)
  | some p =>
    have hmem : pid ∈ s.prev.map PrevEntry.pid := by
      by_contra hn
      rw [prevFind_eq_none_iff.mpr hn] at hp
      cases hp
    have hout : pid ∉ s.rows.map Row.pid := by
      intro hm
      obtain ⟨r, hr, rfl⟩ := List.mem_map.mp hm
      rw [h.listed r hr] at hnew
      cases hnew
    have hle := (List.subperm_of_subset (List.nodup_cons.mpr ⟨hout, h.once⟩)
      (List.cons_subset.mpr ⟨hmem, hsub⟩)).length_le
    rw [List.length_cons, List.length_map, List.length_map] at hle
    exact Nat.lt_of_lt_of_le hle h.room

/-- A first visit diffs against the baseline before the pass. -/
theorem ScanInv.baseline_get (h : ScanInv env prev moved s) {e : Pid × ProcStats}
    (hnew : s.visited e.1 = false) (c : Counter) :
    (baseline env s.prev e).get c = baseBefore env prev (entryOf e) c := by
  unfold baseline baseBefore
  rw [show (entryOf e).pid = e.1 from rfl]
  cases hp : prevFind s.prev e.1 with
  | none =>
    rw [h.unknown e.1 hp]
    cases env.priming with
    | true => rfl
    | false => cases c <;> rfl
  | some p =>
    have hold := h.waiting e.1 p hp (by simpa [Scan.visited, hp] using hnew)
    rw [prevFind_clearSeen] at hold
    obtain ⟨q, hq, rfl⟩ := Option.map_eq_some_iff.mp hold
    rw [hq]
    cases c <;> rfl

theorem visited_remember (s : Scan) (e : Pid × ProcStats) (rows : List Row) (pid : Pid) :
    Scan.visited { s with prev := remember s.prev e, rows := rows } pid =
      if pid = e.1 then true else s.visited pid := by
  unfold Scan.visited
  rw [prevFind_remember]
  split <;> rfl

/-- A pid that was not visited has no row. -/
theorem ScanInv.no_row (h : ScanInv env prev moved s) {pid : Pid} (hnew : s.visited pid = false) :
    ∀ r ∈ s.rows, r.pid ≠ pid := by
  intro r hr hpid
  rw [← hpid, h.listed r hr] at hnew
  cases hnew

theorem ScanInv.once_first (h : ScanInv env prev moved s) {e : Pid × ProcStats}
    (hnew : s.visited e.1 = false) :
    ((s.rows ++ (rowOf env s.prev e).toList).map Row.pid).Nodup := by
  rw [List.map_append, List.nodup_append]
  refine ⟨h.once, by cases rowOf env s.prev e <;> simp, ?_⟩
  intro a ha b hb hab
  obtain ⟨r, hr, rfl⟩ := List.mem_map.mp ha
  obtain ⟨r', hr', rfl⟩ := List.mem_map.mp hb
  exact h.no_row hnew r hr (hab.trans (rowOf_pid (Option.mem_toList.mp hr')))

/-- Nothing was shown for the pid before, so its row is all there is. -/
theorem ScanInv.shown_first (h : ScanInv env prev moved s) {e : Pid × ProcStats}
    (hnew : s.visited e.1 = false) (c : Counter) :
    shown (s.rows ++ (rowOf env s.prev e).toList) e.1 c =
      (entryOf e).get c - baseBefore env prev (entryOf e) c := by
  have hzero : shown s.rows e.1 c = 0 := by
    by_contra hn
    obtain ⟨r, hr, hpid⟩ := shown_ne_zero hn
    exact h.no_row hnew r hr hpid
  rw [shown_append, shown_rowOf, if_pos rfl, hzero, Nat.zero_add, h.baseline_get hnew]
  cases c <;> rfl

theorem ScanInv.visit_first (h : ScanInv env prev moved s) {e : Pid × ProcStats}
    (hlook : s.kernel.procStats.lookupElem e.1 = some e.2) (hnew : s.visited e.1 = false)
    (hroom : prevFind s.prev e.1 = none → s.prev.length < MAX_ROWS) :
    ScanInv env prev (moved.filter fun pid => pid ≠ e.1)
      { s with prev := remember s.prev e, rows := s.rows ++ (rowOf env s.prev e).toList } := by
  exact
    { pids := remember_nodup h.pids e
      room := by
        rw [length_remember]
        split
        · exact h.room
        · next hn => exact hroom (prevFind_eq_none_iff.mpr hn)
      once := h.once_first hnew
      listed := by
        intro r hr
        rw [visited_remember]
        rcases List.mem_append.mp hr with hr | hr
        · rw [if_neg (h.no_row hnew r hr)]
          exact h.listed r hr
        · rw [if_pos (rowOf_pid (Option.mem_toList.mp hr))]
      settled := by
        intro pid p ps hp hs hm hps
        rw [prevFind_remember] at hp
        rcases eq_or_ne pid e.1 with rfl | hne
        · rw [if_pos rfl] at hp
          cases hp
          cases hlook.symm.trans hps
          rfl
        · rw [if_neg hne] at hp
          exact h.settled pid p ps hp hs (fun hin => hm (by simp [hin, hne])) hps
      waiting := by
        intro pid p hp hs
        rw [prevFind_remember] at hp
        split at hp
        · cases hp
          cases hs
        · exact h.waiting pid p hp hs
      unknown := by
        intro pid hp
        rw [prevFind_remember] at hp
        split at hp
        · cases hp
        · exact h.unknown pid hp
      accounts := by
        intro pid p hp hs c
        rw [prevFind_remember] at hp
        rcases eq_or_ne pid e.1 with rfl | hne
        · rw [if_pos rfl] at hp
          cases hp
          exact h.shown_first hnew c
        · rw [if_neg hne] at hp
          rw [shown_append, shown_rowOf, if_neg (Ne.symm hne), Nat.add_zero]
          exact h.accounts pid p hp hs c }

/-- A visit of a row that is not charged since it was visited before, if it was. -/
theorem ScanInv.visit_quiet (h : ScanInv env prev moved s) (hmax : env.maxRows = MAX_ROWS)
    {e : Pid × ProcStats} (hlook : s.kernel.procStats.lookupElem e.1 = some e.2)
    (hquiet : s.visited e.1 = true → e.1 ∉ moved) :
    ScanInv env prev (moved.filter fun pid => pid ≠ e.1)
      { s with
        prev := (visit env (s.prev, s.rows) e).1,
        rows := (visit env (s.prev, s.rows) e).2 } := by
  -- a visit that changes nothing, of a row that was not charged or that has no entry
  have hsame : e.1 ∉ moved ∨ prevFind s.prev e.1 = none →
      visit env (s.prev, s.rows) e = (s.prev, s.rows) →
      ScanInv env prev (moved.filter fun pid => pid ≠ e.1)
        { s with
          prev := (visit env (s.prev, s.rows) e).1,
          rows := (visit env (s.prev, s.rows) e).2 } := by
    intro hkeep hvisit
    rw [hvisit]
    refine { h with
      settled := fun pid p ps hp hs hm hps => h.settled pid p ps hp hs (fun hin => ?_) hps }
    rcases eq_or_ne pid e.1 with rfl | hne
    · rcases hkeep with hnot | hnone
      · exact hnot hin
      · cases hp.symm.trans hnone
    · exact hm (by simp [hin, hne])
  cases hv : s.visited e.1 with
  | true =>
    obtain ⟨p, hp, hs⟩ := visited_iff.mp hv
    have hset : prevFind s.prev e.1 = some (entryOf e) :=
      hp.trans (congrArg some (h.settled e.1 p e.2 hp hs (hquiet hv) hlook))
    exact hsame (Or.inl (hquiet hv)) (@visit_again env (s.prev, s.rows) e hset)
  | false =>
    rcases Classical.em (prevFind s.prev e.1 = none ∧ MAX_ROWS ≤ s.prev.length) with
      ⟨hnone, hfull⟩ | hopen
    · exact hsame (Or.inr hnone) (@visit_full env (s.prev, s.rows) e hnone hfull)
    · have hroom : prevFind s.prev e.1 = none → s.prev.length < MAX_ROWS := fun hnone =>
        Nat.lt_of_not_le fun hfull => hopen ⟨hnone, hfull⟩
      rw [visit_eq hroom (hmax ▸ h.rows_room hv hroom)]
      exact h.visit_first hlook hv hroom

end Invariant

theorem scanInv_run {env : PassEnv} {k : Kernel} {prev : List PrevEntry} {acts : List ScanAct}
    (hnd : (prev.map PrevEntry.pid).Nodup) (hlen : prev.length ≤ MAX_ROWS)
    (hmax : env.maxRows = MAX_ROWS) (hquiet : Along (QuietAt env k prev) acts) :
    ScanInv env prev (chargedSinceVisit env k prev acts) (scan env k prev acts) := by
  refine prefix_history (P := fun acts => ScanInv env prev (chargedSinceVisit env k prev acts)
    (scan env k prev acts)) (scanInv_start env k hnd hlen) fun pre act post he ih => ?_
  have hq := hquiet pre act post he
  simp only [chargedSinceVisit_snoc, scan_snoc]
  cases act with
  | fire f => exact ih.fire f
  | poll alive =>
    rcases pollStep_cases env alive (scan env k prev pre) with
      ⟨e, hvis, hlook, hk, hacc⟩ | ⟨hvis, hprev, hrows, hmap⟩
    · simp only [QuietAt, hvis] at hq ⊢
      refine (ih.visit_quiet hmax hlook hq).of_same (congrArg Prod.fst hacc)
        (congrArg Prod.snd hacc) ?_
      intro pid ps hps
      exact hk ▸ hps
    · simp only [hvis]
      exact ih.of_same hprev hrows hmap

end InterleavedLemmas

open PassLemmas InterleavedLemmas in
/-- For every map, every table with an entry for each pid at most, and every interleaving of
the calls of the loop with firings of the hooks. -/
theorem one_row_each {env : PassEnv} {k : Kernel} {prev : List PrevEntry} {acts : List ScanAct}
    (hnd : (prev.map PrevEntry.pid).Nodup) (hlen : prev.length ≤ MAX_ROWS)
    (hmax : env.maxRows = MAX_ROWS) (hquiet : Along (QuietAt env k prev) acts) :
    OneRowEach env prev (scan env k prev acts).result := by
  have h := scanInv_run hnd hlen hmax hquiet
  have hperm := List.perm_insertionSort ByTraffic (scan env k prev acts).rows
  constructor
  · exact (hperm.map Row.pid).nodup_iff.mpr h.once
  · intro p hp c
    obtain ⟨hmem, hs⟩ := List.mem_filter.mp hp
    rw [Scan.result, shown_perm hperm]
    exact h.accounts p.pid p (prevFind_of_mem h.pids hmem) hs c
  · intro row hrow
    have hv := h.listed row (hperm.mem_iff.mp hrow)
    obtain ⟨p, hp, hs⟩ := visited_iff.mp hv
    exact ⟨p, List.mem_filter.mpr ⟨List.mem_of_find?_eq_some hp, hs⟩, prevFind_pid hp⟩

/-- A process that has moved 100 bytes since the last pass, and behind it in the map the row
of one that died two minutes ago. -/
def exKernel : Kernel :=
  ⟨(BpfMap.empty.insertAt 0 5 ⟨700, 0, 1, 0, 0, 0, Comm.ofBytes [97]⟩).insertAt 0 7
    ⟨300, 0, 3, 0, 0, 119, Comm.ofBytes [98]⟩, BpfMap.empty⟩

def exBefore : List PrevEntry := [⟨5, 700, 0, 0, true⟩, ⟨7, 200, 0, 0, true⟩]

def exArgs : PassEnv := ⟨120 * 10 ^ 9, fun _ => true, 1, MAX_ROWS, false⟩

def exPoll : ScanAct := .poll fun pid => pid ≠ 5

/-- The process sends 50 bytes more. -/
def exSend : ScanAct :=
  .fire (.probe (.tcpSendmsg 50) ⟨7, Comm.ofBytes [98]⟩ ⟨1, AF_INET⟩ ⟨120, 0, 0⟩)

/-- It sends before its first visit and behind its second one. -/
def exQuiet : List ScanAct :=
  [exPoll, exSend, exPoll, exPoll, exPoll, exPoll, exPoll, exPoll, exSend, exPoll]

theorem exQuiet_one_row :
    ((scan exArgs exKernel exBefore exQuiet).pc,
      (scan exArgs exKernel exBefore exQuiet).result.rows.map fun r => (r.pid, r.dtx)) =
      (.done, [(7, 150)]) ∧
    OneRowEach exArgs exBefore (scan exArgs exKernel exBefore exQuiet).result :=
  ⟨by decide +kernel, one_row_each (by decide +kernel) (by decide +kernel) rfl (by decide +kernel)⟩

/-- It sends between the deletion, which makes the walk start over, and its second visit. -/
def exRestart : List ScanAct :=
  [exPoll, exPoll, exPoll, exPoll, exPoll, exSend, exPoll, exPoll, exPoll]

theorem listed_twice :
    ((scan exArgs exKernel exBefore exRestart).pc,
      (scan exArgs exKernel exBefore exRestart).result.rows.map fun r => (r.pid, r.dtx)) =
      (.done, [(7, 100), (7, 50)]) ∧
    ¬ OneRowEach exArgs exBefore (scan exArgs exKernel exBefore exRestart).result := by
  constructor
  · decide +kernel
  · intro h
    have hdup : ¬ ((scan exArgs exKernel exBefore exRestart).result.rows.map Row.pid).Nodup := by
      decide +kernel
    exact hdup h.once

end Ebpf101.Nettop
