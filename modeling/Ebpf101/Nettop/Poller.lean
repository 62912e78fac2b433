import Ebpf101.Nettop.Pass
import Ebpf101.Lib.Runs

/-!
# nettop: hooks and passes together

`main` of `27-nettop/nettop.c` primes the table with one pass and then samples
for ever, while the hooks fire on the kernel side. `step` is that system: a hook
firing moves the kernel, a pass moves the map and the table and yields a frame.

`ledger` is the account a reader of the frames can keep of a pid: the priming
totals, plus everything shown since, from zero again once its row is deleted.
`RunInv` is what holds of every reachable state; its `ledger_eq` says that after
every pass this account is the row itself.
-/

namespace Ebpf101.Nettop

open Runs

/-! ## The system -/

structure State where
  kernel : Kernel
  prev : List PrevEntry
  /-- The priming pass has been made. -/
  primed : Bool

inductive Event where
  | fire (f : Firing)
  | pass (nowNs : Nat) (alive : Pid → Bool) (elapsed : ℚ)

/-- What a pass leaves behind: the rows it returned, the rows of the map it
deleted, and the map when it was done. -/
structure Frame where
  priming : Bool
  rows : List Row
  deleted : List (Pid × ProcStats)
  map : BpfMap Pid ProcStats

def State.init : State := ⟨Kernel.empty, [], false⟩

/-- The arguments of the next call of `sample`: `main` sets `priming` in the
first call only. -/
def State.env (s : State) (nowNs : Nat) (alive : Pid → Bool) (elapsed : ℚ) : PassEnv :=
  ⟨nowNs, alive, elapsed, MAX_ROWS, !s.primed⟩

/-- The frame of a pass that ends with `r`. -/
def frameOf (s : State) (r : PassResult) : Frame where
  priming := !s.primed
  rows := r.rows
  deleted := s.kernel.procStats.entries.filter fun e => (r.map.lookupElem e.1).isNone
  map := r.map

def step (s : State) : Event → State × List Frame
  | .fire f => ({ s with kernel := s.kernel.fire f }, [])
  | .pass nowNs alive elapsed =>
    match sample (s.env nowNs alive elapsed) s.kernel.procStats s.prev with
    | none => (s, [])
    | some r =>
      ({ kernel := { s.kernel with procStats := r.map }
         prev := r.prev
         primed := true }, [frameOf s r])

/-- The frames of a run, in order. -/
def frames (evs : List Event) : List Frame := (outs step State.init evs).flatten

/-- The state after a run. -/
def after (evs : List Event) : State := exec step State.init evs

/-- The map when the last pass was done; empty before the first. -/
def lastMap (fs : List Frame) : BpfMap Pid ProcStats :=
  match fs.getLast? with
  | some f => f.map
  | none => BpfMap.empty

/-- The account of `pid` that the frames give. -/
def ledger (fs : List Frame) (pid : Pid) (c : Counter) : Nat :=
  fs.foldl (fun acc f =>
    if pid ∈ f.deleted.map Prod.fst then 0
    else if f.priming then total f.map pid c
    else acc + shown f.rows pid c) 0

/-! ## What a firing charges -/

/-- What a probe hands to `account`: the bytes, and whether they are sent. -/
def Probe.amount : Probe → Option (Nat × Bool)
  | .tcpSendmsg n | .udpSendmsg n | .udpv6Sendmsg n => some (n, true)
  | .tcpCleanupRbuf n | .skbConsumeUdp n => if n ≤ 0 then none else some (n.toNat, false)

/-- What `account` adds: nothing for pid 0, for another family, or for a new pid
when the map is full. -/
def chargeAccount (k : Kernel) (cur : Task) (sk : Sock) (bytes : Nat) (isTx : Bool) :
    Option (Pid × Counter × Nat) :=
  if cur.pid = 0 then none
  else if sk.family ≠ AF_INET ∧ sk.family ≠ AF_INET6 then none
  else if (k.procStats.lookupElem cur.pid).isSome ∨ k.procStats.size < MAX_PROCS then
    some (cur.pid, if isTx then .tx else .rx, bytes)
  else none

/-- The pid, the counter and the amount that a firing adds, if it adds. -/
def charge (k : Kernel) : Firing → Option (Pid × Counter × Nat)
  | .probe p cur sk _ => p.amount.bind fun a => chargeAccount k cur sk a.1 a.2
  | .retransmit sk =>
    match k.sockOwner.lookupElem sk with
    | none => none
    | some pid =>
      if (k.procStats.lookupElem pid).isSome then some (pid, .retrans, 1) else none
  | .close _ => none
  | .evict _ => none

/-- No counter reaches 2^64: the add of the step `ev` after `pre` does not wrap. -/
def NoWrapAt (pre : List Event) : Event → Prop
  | .fire f =>
    match charge (after pre).kernel f with
    | some (pid, c, n) => total (after pre).kernel.procStats pid c + n < 2 ^ 64
    | none => True
  | .pass _ _ _ => True

instance (pre : List Event) : (ev : Event) → Decidable (NoWrapAt pre ev)
  | .fire f =>
    match h : charge (after pre).kernel f with
    | some (pid, c, n) =>
      decidable_of_iff (total (after pre).kernel.procStats pid c + n < 2 ^ 64)
        (by simp [NoWrapAt, h])
    | none => isTrue (by simp [NoWrapAt, h])
  | .pass _ _ _ => isTrue trivial

/-- The pids whose counters a hook has moved since the last pass of the run. -/
def chargedSince (evs : List Event) : List Pid :=
  (evs.foldl (fun a ev =>
    match ev with
    | .pass _ _ _ => ((step a.1 ev).1, [])
    | .fire f =>
      ((step a.1 ev).1,
        match charge a.1.kernel f with
        | some (pid, _, n) => if n = 0 then a.2 else pid :: a.2
        | none => a.2)) (State.init, ([] : List Pid))).2

namespace PollerLemmas

/-! ## Kernel steps -/

theorem count_get (ps : ProcStats) (bytes : Nat) (isTx : Bool) (now : Nat) (c : Counter) :
    (ps.count bytes isTx now).get c =
      if c = (if isTx then Counter.tx else Counter.rx) then u64Add (ps.get c) bytes
      else ps.get c := by
  cases isTx <;> cases c <;> rfl

theorem countRetrans_get (ps : ProcStats) (c : Counter) :
    ps.countRetrans.get c = if c = .retrans then u64Add (ps.get c) 1 else ps.get c := by
  cases c <;> rfl

theorem init_get (comm : Comm) (c : Counter) : (ProcStats.init comm).get c = 0 := by
  cases c <;> rfl

theorem lookup_fetchOrCreate (m : BpfMap Pid ProcStats) (cur : Task) (pos : Nat) (pid : Pid) :
    (fetchOrCreate m cur pos).lookupElem pid =
      if pid = cur.pid ∧ m.lookupElem cur.pid = none ∧ m.size < MAX_PROCS then
        some (ProcStats.init cur.comm)
      else m.lookupElem pid := by
  unfold fetchOrCreate
  cases h : m.lookupElem cur.pid with
  | some ps => simp
  | none => simp [BpfMap.lookupElem_updateElem_noexist, h]

/-- The second lookup of `account` fails only when the map is full. -/
theorem isSome_fetchOrCreate (m : BpfMap Pid ProcStats) (cur : Task) (pos : Nat) :
    ((fetchOrCreate m cur pos).lookupElem cur.pid).isSome ↔
      (m.lookupElem cur.pid).isSome ∨ m.size < MAX_PROCS := by
  rw [lookup_fetchOrCreate]
  cases h : m.lookupElem cur.pid with
  | some ps => simp
  | none => by_cases hs : m.size < MAX_PROCS <;> simp [hs]

theorem total_fetchOrCreate (m : BpfMap Pid ProcStats) (cur : Task) (pos : Nat) (pid : Pid)
    (c : Counter) : total (fetchOrCreate m cur pos) pid c = total m pid c := by
  unfold total
  rw [lookup_fetchOrCreate]
  by_cases h : pid = cur.pid ∧ m.lookupElem cur.pid = none ∧ m.size < MAX_PROCS
  · obtain ⟨rfl, hnone, hsize⟩ := h
    simp [hnone, hsize, init_get]
  · rw [if_neg h]

/-- A write through the pointer, seen in one counter. -/
theorem total_modify (m : BpfMap Pid ProcStats) (p : Pid) (f : ProcStats → ProcStats) (pid : Pid)
    (c : Counter) {g : Nat → Nat} (hg : ∀ ps, (f ps).get c = g (ps.get c)) :
    total (m.modify p f) pid c =
      if pid = p ∧ (m.lookupElem p).isSome then g (total m pid c) else total m pid c := by
  unfold total
  rw [BpfMap.lookupElem_modify]
  by_cases hp : pid = p
  · subst hp
    cases m.lookupElem pid with
    | none => simp
    | some ps => simp [hg]
  · simp [hp]

/-- The probes differ in what they hand to `account` only. -/
theorem runProbe_eq (k : Kernel) (cur : Task) (sk : Sock) (env : HookEnv) (p : Probe) :
    k.runProbe cur sk env p =
      match p.amount with
      | none => k
      | some (bytes, isTx) => account k cur sk bytes isTx env := by
  have hrecv : ∀ n : Int, handleRecv k cur sk n env =
      match (if n ≤ 0 then none else some (n.toNat, false)) with
      | none => k
      | some (bytes, isTx) => account k cur sk bytes isTx env := by
    intro n
    unfold handleRecv
    split <;> rfl
  cases p with
  | tcpSendmsg n => rfl
  | udpSendmsg n => rfl
  | udpv6Sendmsg n => rfl
  | tcpCleanupRbuf n => exact hrecv n
  | skbConsumeUdp n => exact hrecv n

/-- `account` adds its charge and nothing else. -/
theorem total_account (k : Kernel) (cur : Task) (sk : Sock) (bytes : Nat) (isTx : Bool)
    (env : HookEnv) (pid : Pid) (c : Counter) :
    total (account k cur sk bytes isTx env).procStats pid c =
      match chargeAccount k cur sk bytes isTx with
      | some (p, c', n) =>
        if pid = p ∧ c = c' then u64Add (total k.procStats pid c) n else total k.procStats pid c
      | none => total k.procStats pid c := by
  simp only [account, chargeAccount]
  split
  · rfl
  · split
    · rfl
    · rw [total_modify (g := fun n => if c = (if isTx then Counter.tx else Counter.rx) then
          u64Add n bytes else n) _ _ _ _ _ (fun ps => count_get ps bytes isTx env.ktime c),
        total_fetchOrCreate]
      by_cases hrow : (k.procStats.lookupElem cur.pid).isSome ∨ k.procStats.size < MAX_PROCS
      · simp only [isSome_fetchOrCreate, hrow, if_true, and_true, ite_and]
      · simp [isSome_fetchOrCreate, hrow]

/-- What a firing does to the counters: it adds its charge and nothing else. -/
theorem total_fire (k : Kernel) (f : Firing) (pid : Pid) (c : Counter) :
    total (k.fire f).procStats pid c =
      match charge k f with
      | some (p, c', n) =>
        if pid = p ∧ c = c' then u64Add (total k.procStats pid c) n else total k.procStats pid c
      | none => total k.procStats pid c := by
  cases f with
  | probe p cur sk env =>
    simp only [Kernel.fire, charge, runProbe_eq]
    cases p.amount with
    | none => rfl
    | some a => exact total_account k cur sk a.1 a.2 env pid c
  | retransmit sk =>
    simp only [Kernel.fire, handleTcpRetransmit, charge]
    cases k.sockOwner.lookupElem sk with
    | none => rfl
    | some p =>
      simp only
      rw [total_modify (g := fun n => if c = .retrans then u64Add n 1 else n) _ _ _ _ _
        (fun ps => countRetrans_get ps c)]
      by_cases hl : (k.procStats.lookupElem p).isSome
      · by_cases hp : pid = p <;> simp [hl, hp]
      · simp [hl]
  | close sk => rfl
  | evict sk => rfl

/-- What a firing can do to the rows. -/
theorem procStats_fire (k : Kernel) (f : Firing) :
    (k.fire f).procStats = k.procStats ∨
    (∃ cur pos bytes isTx now, cur.pid ≠ 0 ∧ (k.fire f).procStats =
      (fetchOrCreate k.procStats cur pos).modify cur.pid fun ps => ps.count bytes isTx now) ∨
    (∃ pid, (k.fire f).procStats = k.procStats.modify pid ProcStats.countRetrans) := by
  cases f with
  | probe p cur sk env =>
    simp only [Kernel.fire, runProbe_eq]
    cases p.amount with
    | none => exact Or.inl rfl
    | some a =>
      simp only [account]
      split
      · exact Or.inl rfl
      · next hz =>
        split
        · exact Or.inl rfl
        · exact Or.inr (Or.inl ⟨cur, env.rowPos, a.1, a.2, env.ktime, hz, rfl⟩)
  | retransmit sk =>
    simp only [Kernel.fire, handleTcpRetransmit]
    cases k.sockOwner.lookupElem sk with
    | none => exact Or.inl rfl
    | some pid => exact Or.inr (Or.inr ⟨pid, rfl⟩)
  | close sk => exact Or.inl rfl
  | evict sk => exact Or.inl rfl

/-- A hook deletes no row. -/
theorem keys_fire (k : Kernel) (f : Firing) {pid : Pid} (h : pid ∈ k.procStats.keys) :
    pid ∈ (k.fire f).procStats.keys := by
  rw [BpfMap.mem_keys_iff] at h ⊢
  rcases procStats_fire k f with he | ⟨cur, pos, bytes, isTx, now, _, he⟩ | ⟨p, he⟩
  · rwa [he]
  · have hrow : ((fetchOrCreate k.procStats cur pos).lookupElem pid).isSome := by
      rw [lookup_fetchOrCreate]
      split
      · rfl
      · exact h
    rw [he, BpfMap.lookupElem_modify]
    split <;> simpa using hrow
  · rw [he, BpfMap.lookupElem_modify]
    split <;> simpa using h

/-- No hook creates a row for pid 0. -/
theorem zero_notMem_fire (k : Kernel) (f : Firing) (h : 0 ∉ k.procStats.keys) :
    0 ∉ (k.fire f).procStats.keys := by
  rw [← BpfMap.lookupElem_eq_none_iff] at h ⊢
  rcases procStats_fire k f with he | ⟨cur, pos, bytes, isTx, now, hz, he⟩ | ⟨p, he⟩
  · rwa [he]
  · have hrow : (fetchOrCreate k.procStats cur pos).lookupElem 0 = none := by
      rw [lookup_fetchOrCreate, if_neg fun hp => hz hp.1.symm]
      exact h
    rw [he, BpfMap.lookupElem_modify, if_neg (Ne.symm hz)]
    exact hrow
  · rw [he, BpfMap.lookupElem_modify, h]
    split <;> rfl

/-- The map stays within its size. -/
theorem size_fire (k : Kernel) (f : Firing) (h : k.procStats.size ≤ MAX_PROCS) :
    (k.fire f).procStats.size ≤ MAX_PROCS := by
  rcases procStats_fire k f with he | ⟨cur, pos, bytes, isTx, now, _, he⟩ | ⟨p, he⟩
  · rwa [he]
  · rw [he, BpfMap.size_modify, fetchOrCreate]
    cases k.procStats.lookupElem cur.pid with
    | some ps => exact h
    | none => exact BpfMap.size_updateElem_le h _ _ _ _
  · rwa [he, BpfMap.size_modify]

/-! ## Runs -/

theorem after_snoc (evs : List Event) (ev : Event) :
    after (evs ++ [ev]) = (step (after evs) ev).1 :=
  exec_snoc evs ev

theorem frames_snoc (evs : List Event) (ev : Event) :
    frames (evs ++ [ev]) = frames evs ++ (step (after evs) ev).2 := by
  simp [frames, after]

theorem chargedSince_fold (evs : List Event) :
    (evs.foldl (fun a ev =>
      match ev with
      | .pass _ _ _ => ((step a.1 ev).1, [])
      | .fire f =>
        ((step a.1 ev).1,
          match charge a.1.kernel f with
          | some (pid, _, n) => if n = 0 then a.2 else pid :: a.2
          | none => a.2)) (State.init, ([] : List Pid))).1 = after evs :=
  fst_foldl (fun _ ev => by cases ev <;> rfl) _ evs

theorem chargedSince_fire (evs : List Event) (f : Firing) :
    chargedSince (evs ++ [.fire f]) =
      match charge (after evs).kernel f with
      | some (pid, _, n) => if n = 0 then chargedSince evs else pid :: chargedSince evs
      | none => chargedSince evs := by
  rw [chargedSince, List.foldl_append, List.foldl_cons, List.foldl_nil]
  simp only [chargedSince_fold]
  rfl

theorem chargedSince_pass (evs : List Event) (now : Nat) (alive : Pid → Bool) (el : ℚ) :
    chargedSince (evs ++ [.pass now alive el]) = [] := by
  rw [chargedSince, List.foldl_append, List.foldl_cons, List.foldl_nil]

theorem ledger_snoc (fs : List Frame) (f : Frame) (pid : Pid) (c : Counter) :
    ledger (fs ++ [f]) pid c =
      if pid ∈ f.deleted.map Prod.fst then 0
      else if f.priming then total f.map pid c
      else ledger fs pid c + shown f.rows pid c := by
  simp [ledger]

@[simp] theorem lastMap_snoc (fs : List Frame) (f : Frame) : lastMap (fs ++ [f]) = f.map := by
  simp [lastMap]

/-- What a reachable state satisfies, given the run that led to it. -/
structure RunInv (evs : List Event) (s : State) : Prop where
  zero : 0 ∉ s.kernel.procStats.keys
  size : s.kernel.procStats.size ≤ MAX_PROCS
  prevOk : PrevOk s.kernel.procStats s.prev
  primed_iff : s.primed = true ↔ frames evs ≠ []
  /-- Only the first pass primes. -/
  priming : ∀ f fs, frames evs = f :: fs → f.priming = true ∧ ∀ g ∈ fs, g.priming = false
  /-- Every pass ends and yields its frame. -/
  passes : (frames evs).length = (evs.filter fun ev => ev matches .pass _ _ _).length
  /-- The table holds the totals of the last pass. -/
  mirror : ∀ pid, prevFind s.prev pid =
    ((lastMap (frames evs)).lookupElem pid).map fun ps => entryOf (pid, ps)
  mono : ∀ pid c, total (lastMap (frames evs)) pid c ≤ total s.kernel.procStats pid c
  idle : ∀ pid, pid ∉ chargedSince evs →
    ∀ c, total s.kernel.procStats pid c = total (lastMap (frames evs)) pid c
  moved : ∀ pid, pid ∈ chargedSince evs →
    ∃ c, total (lastMap (frames evs)) pid c < total s.kernel.procStats pid c
  ledger_eq : ∀ pid c, ledger (frames evs) pid c = total (lastMap (frames evs)) pid c

theorem runInv_init : RunInv [] State.init where
  zero := by simp [State.init, Kernel.empty, BpfMap.empty, BpfMap.keys]
  size := Nat.zero_le _
  prevOk := ⟨List.nodup_nil, by simp [State.init]⟩
  primed_iff := by simp [State.init, frames]
  priming := by simp [frames]
  passes := rfl
  mirror := fun _ => rfl
  mono := fun _ _ => Nat.le_refl _
  idle := fun _ _ _ => rfl
  moved := fun _ h => absurd h List.not_mem_nil
  ledger_eq := fun _ _ => rfl

/-- What a firing adds to a counter of `pid`. -/
def added (k : Kernel) (f : Firing) (pid : Pid) (c : Counter) : Nat :=
  match charge k f with
  | some (p, c', n) => if pid = p ∧ c = c' then n else 0
  | none => 0

/-- A firing that does not wrap adds its charge. -/
theorem total_fire_of_noWrap {evs : List Event} {f : Firing} (hno : NoWrapAt evs (.fire f))
    (pid : Pid) (c : Counter) :
    total ((after evs).kernel.fire f).procStats pid c =
      total (after evs).kernel.procStats pid c + added (after evs).kernel f pid c := by
  rw [total_fire, added]
  cases hc : charge (after evs).kernel f with
  | none => rfl
  | some t =>
    obtain ⟨p, c', n⟩ := t
    simp only
    split
    · next h =>
      obtain ⟨rfl, rfl⟩ := h
      exact u64Add_eq (by simpa [NoWrapAt, hc] using hno)
    · rfl

/-- The pids charged since the last pass are those whose counters moved. -/
theorem mem_chargedSince_fire {evs : List Event} {f : Firing} {pid : Pid} :
    pid ∈ chargedSince (evs ++ [.fire f]) ↔
      pid ∈ chargedSince evs ∨ ∃ c, added (after evs).kernel f pid c ≠ 0 := by
  rw [chargedSince_fire]
  unfold added
  cases charge (after evs).kernel f with
  | none => simp
  | some t =>
    obtain ⟨p, c', n⟩ := t
    simp only
    split
    · next hn => simp [hn]
    · next hn =>
      rw [List.mem_cons, or_comm]
      refine or_congr_right ⟨fun hp => ⟨c', by simp [hp, hn]⟩, ?_⟩
      rintro ⟨c, hne⟩
      by_contra hp
      exact hne (if_neg fun h => hp h.1)

theorem runInv_fire {evs : List Event} {f : Firing} (h : RunInv evs (after evs))
    (hno : NoWrapAt evs (.fire f)) :
    RunInv (evs ++ [.fire f]) (after (evs ++ [.fire f])) := by
  have hfr : frames (evs ++ [.fire f]) = frames evs := by simp [frames_snoc, step]
  have hst : after (evs ++ [.fire f]) =
      { after evs with kernel := (after evs).kernel.fire f } := after_snoc _ _
  have htot := total_fire_of_noWrap hno
  rw [hst]
  refine
    { zero := zero_notMem_fire _ _ h.zero
      size := size_fire _ _ h.size
      prevOk := ⟨h.prevOk.nodup, fun p hp => keys_fire _ _ (h.prevOk.mem_keys p hp)⟩
      primed_iff := by rw [hfr]; exact h.primed_iff
      priming := by rw [hfr]; exact h.priming
      passes := by rw [hfr, h.passes]; simp
      mirror := by rw [hfr]; exact h.mirror
      mono := ?_
      idle := ?_
      moved := ?_
      ledger_eq := by rw [hfr]; exact h.ledger_eq }
  · intro pid c
    rw [hfr, htot]
    exact Nat.le_trans (h.mono pid c) (Nat.le_add_right _ _)
  · intro pid hpid c
    rw [mem_chargedSince_fire, not_or, not_exists] at hpid
    rw [hfr, htot, Decidable.not_not.mp (hpid.2 c), Nat.add_zero]
    exact h.idle pid hpid.1 c
  · intro pid hpid
    rw [hfr]
    rcases mem_chargedSince_fire.mp hpid with hold | ⟨c, hne⟩
    · obtain ⟨c, hlt⟩ := h.moved pid hold
      exact ⟨c, Nat.lt_of_lt_of_le hlt (by rw [htot]; exact Nat.le_add_right _ _)⟩
    · refine ⟨c, Nat.lt_of_le_of_lt (h.mono pid c) ?_⟩
      rw [htot]
      exact Nat.lt_add_of_pos_right (Nat.pos_of_ne_zero hne)

/-- A pass from a reachable state ends, and is described by `PassSpec`. -/
theorem step_pass {evs : List Event} (h : RunInv evs (after evs)) (now : Nat)
    (alive : Pid → Bool) (el : ℚ) :
    ∃ r, PassSpec ((after evs).env now alive el) (after evs).kernel.procStats (after evs).prev r ∧
      step (after evs) (.pass now alive el) =
        ({ kernel := { (after evs).kernel with procStats := r.map }
           prev := r.prev
           primed := true }, [frameOf (after evs) r]) := by
  obtain ⟨r, hr, hspec⟩ := @sample_spec ((after evs).env now alive el) _ _ h.prevOk h.zero
    h.size h.size
  exact ⟨r, hspec, by simp [step, hr]⟩

theorem mem_deleted_iff {s : State} {env : PassEnv} {r : PassResult}
    (h : PassSpec env s.kernel.procStats s.prev r) {e : Pid × ProcStats} :
    e ∈ (frameOf s r).deleted ↔
      s.kernel.procStats.lookupElem e.1 = some e.2 ∧ reaps env e = true := by
  simp only [frameOf, List.mem_filter]
  constructor
  · rintro ⟨hm, hn⟩
    have hl := BpfMap.lookupElem_of_mem hm
    refine ⟨hl, ?_⟩
    rw [h.lookup, hl] at hn
    simpa [Option.filter] using hn
  · rintro ⟨hl, hr⟩
    refine ⟨BpfMap.mem_of_lookupElem hl, ?_⟩
    rw [h.lookup, hl]
    simp [Option.filter, hr]

/-- A row that is not deleted keeps its totals; a deleted one has none. -/
theorem total_pass {s : State} {env : PassEnv} {r : PassResult}
    (h : PassSpec env s.kernel.procStats s.prev r) (pid : Pid) (c : Counter) :
    total r.map pid c =
      if pid ∈ (frameOf s r).deleted.map Prod.fst then 0
      else total s.kernel.procStats pid c := by
  have hiff : pid ∈ (frameOf s r).deleted.map Prod.fst ↔
      ∃ ps, s.kernel.procStats.lookupElem pid = some ps ∧ reaps env (pid, ps) = true := by
    rw [List.mem_map]
    constructor
    · rintro ⟨e, he, rfl⟩
      exact ⟨e.2, (mem_deleted_iff h).mp he⟩
    · rintro ⟨ps, hps⟩
      exact ⟨(pid, ps), (mem_deleted_iff h).mpr hps, rfl⟩
  unfold total
  rw [h.lookup]
  cases hl : s.kernel.procStats.lookupElem pid with
  | none => simp
  | some ps =>
    cases hr : reaps env (pid, ps) with
    | true =>
      rw [if_pos (hiff.mpr ⟨ps, hl, hr⟩)]
      simp [Option.filter, hr]
    | false =>
      have hn : pid ∉ (frameOf s r).deleted.map Prod.fst := by
        rw [hiff, hl]
        rintro ⟨ps', hps', hr'⟩
        cases hps'
        rw [hr] at hr'
        cases hr'
      rw [if_neg hn]
      simp [Option.filter, hr]

/-- After priming, the baseline of a pass is the total at the pass before. -/
theorem base_eq {evs : List Event} (h : RunInv evs (after evs))
    (hp : (after evs).primed = true) (now : Nat) (alive : Pid → Bool) (el : ℚ)
    (m : BpfMap Pid ProcStats) (pid : Pid) (c : Counter) :
    base ((after evs).env now alive el) (after evs).prev m pid c =
      total (lastMap (frames evs)) pid c := by
  unfold base total
  rw [h.mirror]
  cases (lastMap (frames evs)).lookupElem pid with
  | none => simp [State.env, hp]
  | some ps => cases c <;> rfl

/-- A pass primes exactly if no pass came before it. -/
theorem priming_pass {evs : List Event} (h : RunInv evs (after evs)) (r : PassResult) (f : Frame)
    (fs : List Frame) (he : frames evs ++ [frameOf (after evs) r] = f :: fs) :
    f.priming = true ∧ ∀ g ∈ fs, g.priming = false := by
  cases hf : frames evs with
  | nil =>
    have hnp : (after evs).primed = false := by
      rw [Bool.eq_false_iff, Ne, h.primed_iff, hf]
      simp
    rw [hf] at he
    cases he
    exact ⟨by simp [frameOf, hnp], by simp⟩
  | cons f' fs' =>
    have hp : (after evs).primed = true := h.primed_iff.mpr (by simp [hf])
    obtain ⟨h1, h2⟩ := h.priming f' fs' hf
    rw [hf] at he
    cases he
    refine ⟨h1, fun g hg => ?_⟩
    rcases List.mem_append.mp hg with hg | hg
    · exact h2 g hg
    · rw [List.mem_singleton] at hg
      simp [hg, frameOf, hp]

/-- What a pass shows brings the ledger up to its totals. -/
theorem ledger_pass {evs : List Event} (h : RunInv evs (after evs)) {now : Nat}
    {alive : Pid → Bool} {el : ℚ} {r : PassResult}
    (hspec : PassSpec ((after evs).env now alive el) (after evs).kernel.procStats
      (after evs).prev r)
    (pid : Pid) (c : Counter) :
    ledger (frames evs ++ [frameOf (after evs) r]) pid c = total r.map pid c := by
  rw [ledger_snoc, total_pass hspec]
  by_cases hd : pid ∈ (frameOf (after evs) r).deleted.map Prod.fst
  · rw [if_pos hd, if_pos hd]
  · rw [if_neg hd, if_neg hd]
    have htot : total r.map pid c = total (after evs).kernel.procStats pid c := by
      rw [total_pass hspec, if_neg hd]
    cases hp : (after evs).primed with
    | false => simpa [frameOf, hp] using htot
    | true =>
      have hmono := h.mono pid c
      have hshown := hspec.shown_eq pid c
      rw [base_eq h hp, htot] at hshown
      have hrows : (frameOf (after evs) r).rows = r.rows := rfl
      have hpr : (frameOf (after evs) r).priming = false := by simp [frameOf, hp]
      rw [hpr, if_neg (by simp), hrows, h.ledger_eq, hshown]
      omega

theorem runInv_pass {evs : List Event} (h : RunInv evs (after evs)) (now : Nat)
    (alive : Pid → Bool) (el : ℚ) :
    RunInv (evs ++ [.pass now alive el]) (after (evs ++ [.pass now alive el])) := by
  obtain ⟨r, hspec, hstep⟩ := step_pass h now alive el
  have hfr : frames (evs ++ [.pass now alive el]) =
      frames evs ++ [frameOf (after evs) r] := by rw [frames_snoc, hstep]
  have hlast : lastMap (frames evs ++ [frameOf (after evs) r]) = r.map := lastMap_snoc _ _
  have hcs := chargedSince_pass evs now alive el
  rw [after_snoc, hstep]
  refine
    { zero := ?_
      size := ?_
      prevOk := hspec.prevOk
      primed_iff := by simp [hfr]
      priming := ?_
      passes := ?_
      mirror := by rw [hfr, hlast]; exact hspec.mirror
      mono := by rw [hfr, hlast]; exact fun _ _ => Nat.le_refl _
      idle := by rw [hfr, hlast]; exact fun _ _ _ => rfl
      moved := by rw [hcs]; exact fun _ hm => absurd hm List.not_mem_nil
      ledger_eq := ?_ }
  · exact fun hm => h.zero ((hspec.sub.map _).subset hm)
  · exact Nat.le_trans hspec.sub.length_le h.size
  · rw [hfr]
    exact priming_pass h r
  · rw [hfr, List.length_append, h.passes]
    simp
  · rw [hfr, hlast]
    exact ledger_pass h hspec

end PollerLemmas

open PollerLemmas

/-- Every state of a run in which no counter wraps satisfies the invariant. -/
theorem runInv_of_noWrap {evs : List Event} (hno : Along NoWrapAt evs) :
    RunInv evs (after evs) := by
  refine exec_history (Q := NoWrapAt) RunInv runInv_init ?_ evs hno
  intro pre ev _ hev h
  have hnext := after_snoc pre ev
  cases ev with
  | fire f => exact hnext ▸ runInv_fire h hev
  | pass now alive el => exact hnext ▸ runInv_pass h now alive el

end Ebpf101.Nettop
