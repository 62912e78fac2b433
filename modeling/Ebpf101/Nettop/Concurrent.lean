import Ebpf101.Lib.Threads
import Ebpf101.Nettop.Kernel

/-!
# nettop: account on several CPUs

The hooks run on every CPU at once. `account` is here a program of atomic steps,
one for each map operation and each atomic add, and any number of calls interleave.
Two calls for a new pid may both miss the row; both then insert a zero row under
`BPF_NOEXIST`, one of them in vain, and both look up again.

Results:
1. `accounts_every_call`: when all calls have finished, the counters of every pid
   other than 0 are the totals of the calls made for it, modulo 2^64.
   `pid_zero_not_accounted`: a call with pid 0 is not counted.
2. `accountStep_alone`: a call that nothing interrupts is `account`.
-/

namespace Ebpf101.Nettop.Concurrent

/-! ## The program -/

/-- One call of `account`, with what it reads of its context. -/
structure Call where
  cur : Task
  sk : Sock
  bytes : Nat
  isTx : Bool
  env : HookEnv
deriving DecidableEq

/-- The next step of a call. -/
inductive Pc where
  | owner
  | lookup
  | insert
  | lookupAgain
  | addBytes
  | addCalls
  | stamp
  | done
deriving DecidableEq, Repr

/-- The first atomic add: the bytes of one direction. -/
def addBytes (ps : ProcStats) (bytes : Nat) (isTx : Bool) : ProcStats :=
  if isTx then { ps with txBytes := u64Add ps.txBytes bytes }
  else { ps with rxBytes := u64Add ps.rxBytes bytes }

/-- The second atomic add: the calls of that direction. -/
def addCalls (ps : ProcStats) (isTx : Bool) : ProcStats :=
  if isTx then { ps with txCalls := u64Add ps.txCalls 1 }
  else { ps with rxCalls := u64Add ps.rxCalls 1 }

/-- `account`, one map operation, atomic add or store at a time. -/
def accountStep (c : Call) (k : Kernel) : Pc → Kernel × Pc
  | .owner =>
    if c.cur.pid = 0 then (k, .done)
    else if c.sk.family ≠ AF_INET ∧ c.sk.family ≠ AF_INET6 then (k, .done)
    else ({ k with sockOwner := k.sockOwner.setElem c.env.ownerPos c.sk.addr c.cur.pid }, .lookup)
  | .lookup =>
    match k.procStats.lookupElem c.cur.pid with
    | some _ => (k, .addBytes)
    | none => (k, .insert)
  | .insert =>
    ({ k with
        procStats := k.procStats.updateElem MAX_PROCS c.env.rowPos c.cur.pid
          (ProcStats.init c.cur.comm) .noexist },
      .lookupAgain)
  | .lookupAgain =>
    match k.procStats.lookupElem c.cur.pid with
    | some _ => (k, .addBytes)
    -- the map is full
    | none => (k, .done)
  | .addBytes =>
    ({ k with procStats := k.procStats.modify c.cur.pid fun ps => addBytes ps c.bytes c.isTx },
      .addCalls)
  | .addCalls =>
    ({ k with procStats := k.procStats.modify c.cur.pid fun ps => addCalls ps c.isTx }, .stamp)
  | .stamp =>
    ({ k with
        procStats := k.procStats.modify c.cur.pid fun ps => { ps with lastNs := c.env.ktime } },
      .done)
  | .done => (k, .done)

variable {n : Nat}

/-- The maps and the calls after a schedule, from empty maps. -/
def after (calls : Fin n → Call) (sched : List (Fin n)) : Threads.Sys (Fin n) Kernel Pc :=
  Threads.after (fun i => accountStep (calls i)) ⟨Kernel.empty, fun _ => .owner⟩ sched

/-! ## Statements -/

/-- The counters that `account` keeps in a row. -/
inductive Counter where
  | txBytes
  | rxBytes
  | txCalls
  | rxCalls
deriving DecidableEq

/-- A counter of a row. -/
def Counter.get (ps : ProcStats) : Counter → Nat
  | .txBytes => ps.txBytes
  | .rxBytes => ps.rxBytes
  | .txCalls => ps.txCalls
  | .rxCalls => ps.rxCalls

/-- What a call is to add to a counter. -/
def Counter.amount (c : Call) : Counter → Nat
  | .txBytes => if c.isTx then c.bytes else 0
  | .rxBytes => if c.isTx then 0 else c.bytes
  | .txCalls => if c.isTx then 1 else 0
  | .rxCalls => if c.isTx then 0 else 1

/-- A counter of the pid; 0 if it has no row. -/
def counter (k : Kernel) (pid : Pid) (t : Counter) : Nat :=
  ((k.procStats.lookupElem pid).map t.get).getD 0

/-- The call is made for the pid, on an internet socket. -/
def MadeFor (pid : Pid) (c : Call) : Prop :=
  c.cur.pid = pid ∧ (c.sk.family = AF_INET ∨ c.sk.family = AF_INET6)

instance (pid : Pid) (c : Call) : Decidable (MadeFor pid c) := inferInstanceAs (Decidable (_ ∧ _))

/-- The total of the calls made for the pid. -/
def total (calls : Fin n → Call) (pid : Pid) (t : Counter) : Nat :=
  ∑ i, if MadeFor pid (calls i) then t.amount (calls i) else 0

namespace ConcurrentLemmas

/-! ## Rows stay -/

/-- The call has found its row. -/
def hasRow : Pc → Bool
  | .addBytes | .addCalls | .stamp => true
  | _ => false

/-- What a call knows: it has passed the checks of pid and family if it is under
way, the rows are of pids of the calls, and the row it looked up or tried to create
is there. -/
structure Knows (pids : Finset Pid) (c : Call) (k : Kernel) (pc : Pc) : Prop where
  pid : c.cur.pid ∈ pids
  checked : pc ≠ .owner → pc ≠ .done → c.cur.pid ≠ 0 ∧ MadeFor c.cur.pid c
  keys : ∀ p ∈ k.procStats.keys, p ∈ pids
  row : pc = .lookupAgain ∨ hasRow pc = true → c.cur.pid ∈ k.procStats.keys

section Step

variable {pids : Finset Pid} {c : Call} {k : Kernel} {pc : Pc}

theorem grows_accountStep (hpids : pids.card ≤ MAX_PROCS) (h : Knows pids c k pc) :
    BpfMap.Grows pids k.procStats (accountStep c k pc).1.procStats := by
  cases pc with
  | owner =>
    rw [accountStep]
    split
    · exact BpfMap.Grows.refl pids _
    · split <;> exact BpfMap.Grows.refl pids _
  | lookup =>
    rw [accountStep]
    split <;> exact BpfMap.Grows.refl pids _
  | insert => exact (BpfMap.grows_noexist hpids h.keys h.pid _ _).1
  | lookupAgain =>
    rw [accountStep]
    split <;> exact BpfMap.Grows.refl pids _
  | addBytes => exact BpfMap.grows_modify pids _ _ _
  | addCalls => exact BpfMap.grows_modify pids _ _ _
  | stamp => exact BpfMap.grows_modify pids _ _ _
  | done => exact BpfMap.Grows.refl pids _

/-- The row is there once a lookup has found it. -/
theorem mem_keys_of_lookup {ps : ProcStats} (h : k.procStats.lookupElem c.cur.pid = some ps) :
    c.cur.pid ∈ k.procStats.keys :=
  BpfMap.mem_keys_iff.mpr (by rw [h]; rfl)

theorem row_accountStep (hpids : pids.card ≤ MAX_PROCS) (h : Knows pids c k pc)
    (hpc : (accountStep c k pc).2 = .lookupAgain ∨ hasRow (accountStep c k pc).2 = true) :
    c.cur.pid ∈ (accountStep c k pc).1.procStats.keys := by
  have hgrow := grows_accountStep hpids h
  cases pc with
  | owner =>
    rw [accountStep] at hpc
    split at hpc
    · simp [hasRow] at hpc
    · split at hpc <;> simp [hasRow] at hpc
  | lookup =>
    cases hl : k.procStats.lookupElem c.cur.pid with
    | none => simp [accountStep, hl, hasRow] at hpc
    | some ps => exact hgrow.1 _ (mem_keys_of_lookup hl)
  | insert => exact (BpfMap.grows_noexist hpids h.keys h.pid _ _).2
  | lookupAgain => exact hgrow.1 _ (h.row (Or.inl rfl))
  | addBytes => exact hgrow.1 _ (h.row (Or.inr rfl))
  | addCalls => exact hgrow.1 _ (h.row (Or.inr rfl))
  | stamp => exact hgrow.1 _ (h.row (Or.inr rfl))
  | done => simp [accountStep, hasRow] at hpc

theorem checked_accountStep (h : Knows pids c k pc) (hne : (accountStep c k pc).2 ≠ .done) :
    c.cur.pid ≠ 0 ∧ MadeFor c.cur.pid c := by
  cases pc with
  | owner =>
    rw [accountStep] at hne
    split at hne
    · exact absurd rfl hne
    · next hzero =>
      split at hne
      · exact absurd rfl hne
      · next hfam =>
        refine ⟨hzero, rfl, ?_⟩
        rwa [not_and_or, not_not, not_not] at hfam
  | done => exact absurd rfl hne
  | lookup => exact h.checked (by decide) (by decide)
  | insert => exact h.checked (by decide) (by decide)
  | lookupAgain => exact h.checked (by decide) (by decide)
  | addBytes => exact h.checked (by decide) (by decide)
  | addCalls => exact h.checked (by decide) (by decide)
  | stamp => exact h.checked (by decide) (by decide)

theorem knows_accountStep (hpids : pids.card ≤ MAX_PROCS) (h : Knows pids c k pc) :
    Knows pids c (accountStep c k pc).1 (accountStep c k pc).2 :=
  ⟨h.pid, fun _ => checked_accountStep h, (grows_accountStep hpids h).subset h.keys,
    row_accountStep hpids h⟩

theorem knows_stable {k' : Kernel} (hgrow : BpfMap.Grows pids k.procStats k'.procStats)
    (h : Knows pids c k pc) : Knows pids c k' pc :=
  ⟨h.pid, h.checked, hgrow.subset h.keys, fun hpc => hgrow.1 _ (h.row hpc)⟩

end Step

theorem knows_after {calls : Fin n → Call}
    (hpids : (Finset.univ.image fun i => (calls i).cur.pid).card ≤ MAX_PROCS) (sched : List (Fin n))
    (i : Fin n) : Knows (Finset.univ.image fun i => (calls i).cur.pid) (calls i)
      (after calls sched).shared ((after calls sched).locals i) := by
  refine Threads.after_local
    (J := fun i k pc => Knows (Finset.univ.image fun i => (calls i).cur.pid) (calls i) k pc)
    (R := fun k k' => BpfMap.Grows (Finset.univ.image fun i => (calls i).cur.pid)
      k.procStats k'.procStats)
    (fun i k pc h => knows_accountStep hpids h) (fun i k pc h => grows_accountStep hpids h)
    (fun i k k' pc hg h => knows_stable hg h) (fun i => ⟨?_, ?_, ?_, ?_⟩) sched i
  · exact Finset.mem_image_of_mem _ (Finset.mem_univ i)
  · exact fun hne => absurd rfl hne
  · exact fun p hp => by cases hp
  · exact fun hpc => by simp [hasRow] at hpc

/-! ## What has been added -/

/-- What the next step of a call adds to a counter of its row. -/
def adds (c : Call) (t : Counter) : Pc → Nat
  | .addBytes => match t with
    | .txBytes | .rxBytes => t.amount c
    | .txCalls | .rxCalls => 0
  | .addCalls => match t with
    | .txBytes | .rxBytes => 0
    | .txCalls | .rxCalls => t.amount c
  | _ => 0

/-- What a call has added to a counter of the pid. -/
def share (pid : Pid) (t : Counter) (c : Call) (pc : Pc) : Nat :=
  if c.cur.pid ≠ 0 ∧ MadeFor pid c then
    match pc with
    | .addCalls => adds c t .addBytes
    | .stamp | .done => t.amount c
    | _ => 0
  else 0

theorem get_addBytes {ps : ProcStats} {t : Counter} (hlt : t.get ps < 2 ^ 64) (c : Call) :
    t.get (addBytes ps c.bytes c.isTx) = (t.get ps + adds c t .addBytes) % 2 ^ 64 := by
  cases t <;> cases hdir : c.isTx <;>
    simp [Counter.get, addBytes, adds, Counter.amount, hdir, u64Add] at hlt ⊢ <;>
    exact (Nat.mod_eq_of_lt hlt).symm

theorem get_addCalls {ps : ProcStats} {t : Counter} (hlt : t.get ps < 2 ^ 64) (c : Call) :
    t.get (addCalls ps c.isTx) = (t.get ps + adds c t .addCalls) % 2 ^ 64 := by
  cases t <;> cases hdir : c.isTx <;>
    simp [Counter.get, addCalls, adds, Counter.amount, hdir, u64Add] at hlt ⊢ <;>
    exact (Nat.mod_eq_of_lt hlt).symm

/-- A write to a row, as one of its counters sees it. -/
theorem counter_modify {k : Kernel} {p pid : Pid} {t : Counter}
    {f : ProcStats → ProcStats} {d : Nat}
    (hrow : p ∈ k.procStats.keys) (hlt : counter k pid t < 2 ^ 64)
    (hf : ∀ ps, t.get ps < 2 ^ 64 → t.get (f ps) = (t.get ps + d) % 2 ^ 64) :
    counter { k with procStats := k.procStats.modify p f } pid t =
      (counter k pid t + if p = pid then d else 0) % 2 ^ 64 := by
  unfold counter at hlt ⊢
  rw [BpfMap.lookupElem_modify]
  rcases eq_or_ne pid p with rfl | hne
  · obtain ⟨ps, hps⟩ := Option.isSome_iff_exists.mp (BpfMap.mem_keys_iff.mp hrow)
    rw [hps] at hlt ⊢
    rw [if_pos rfl, if_pos rfl]
    exact hf ps hlt
  · rw [if_neg hne, if_neg hne.symm]
    exact (Nat.mod_eq_of_lt hlt).symm

/-- The inserted row adds nothing. -/
theorem counter_insert (k : Kernel) (c : Call) (pid : Pid) (t : Counter) :
    counter (accountStep c k .insert).1 pid t = counter k pid t := by
  unfold counter accountStep
  rw [BpfMap.lookupElem_updateElem_noexist]
  split
  · next hnew =>
    rw [hnew.1, hnew.2.1]
    cases t <;> rfl
  · rfl

theorem counter_accountStep {pids : Finset Pid} {c : Call} {k : Kernel} {pc : Pc}
    (h : Knows pids c k pc) {pid : Pid} {t : Counter} (hlt : counter k pid t < 2 ^ 64) :
    counter (accountStep c k pc).1 pid t =
      (counter k pid t + if c.cur.pid = pid then adds c t pc else 0) % 2 ^ 64 := by
  have hsame : counter k pid t = (counter k pid t + if c.cur.pid = pid then 0 else 0) % 2 ^ 64 := by
    rw [ite_self]
    exact (Nat.mod_eq_of_lt hlt).symm
  cases pc with
  | owner =>
    rw [accountStep]
    split
    · exact hsame
    · split <;> exact hsame
  | lookup =>
    rw [accountStep]
    split <;> exact hsame
  | insert => exact (counter_insert k c pid t).trans hsame
  | lookupAgain =>
    rw [accountStep]
    split <;> exact hsame
  | addBytes => exact counter_modify (h.row (Or.inr rfl)) hlt fun ps hps => get_addBytes hps c
  | addCalls => exact counter_modify (h.row (Or.inr rfl)) hlt fun ps hps => get_addCalls hps c
  | stamp =>
    refine counter_modify (h.row (Or.inr rfl)) hlt fun ps hps => ?_
    exact (show t.get _ = t.get ps by cases t <;> rfl).trans (Nat.mod_eq_of_lt hps).symm
  | done => exact hsame

/-- A call has a share in its own pid only. -/
theorem share_eq_ite (pid : Pid) (t : Counter) (c : Call) (pc : Pc) :
    share pid t c pc = if c.cur.pid = pid then share c.cur.pid t c pc else 0 := by
  rcases eq_or_ne c.cur.pid pid with rfl | hne
  · rw [if_pos rfl]
  · unfold share
    rw [if_neg hne, if_neg fun hc => hne hc.2.1]

theorem amount_eq (c : Call) (t : Counter) :
    t.amount c = adds c t .addBytes + adds c t .addCalls := by
  cases t
  · exact (Nat.add_zero _).symm
  · exact (Nat.add_zero _).symm
  · exact (Nat.zero_add _).symm
  · exact (Nat.zero_add _).symm

theorem share_accountStep {pids : Finset Pid} {c : Call} {k : Kernel} {pc : Pc}
    (h : Knows pids c k pc) (pid : Pid) (t : Counter) :
    share pid t c (accountStep c k pc).2 =
      share pid t c pc + if c.cur.pid = pid then adds c t pc else 0 := by
  -- enough to look at the call's own pid
  have hown : ∀ pc pc', share c.cur.pid t c pc' = share c.cur.pid t c pc + adds c t pc →
      share pid t c pc' = share pid t c pc + if c.cur.pid = pid then adds c t pc else 0 := by
    intro pc pc' heq
    rw [share_eq_ite pid t c pc, share_eq_ite pid t c pc', heq]
    split <;> rfl
  cases pc with
  | owner =>
    rw [accountStep]
    split
    · next hzero => simp [share, adds, hzero]
    · split
      · next hfam => simp [share, adds, MadeFor, hfam]
      · simp [share, adds]
  | lookup =>
    rw [accountStep]
    split <;> simp [share, adds]
  | insert => simp [accountStep, share, adds]
  | lookupAgain =>
    obtain ⟨ps, hps⟩ := Option.isSome_iff_exists.mp (BpfMap.mem_keys_iff.mp (h.row (Or.inl rfl)))
    simp [accountStep, hps, share, adds]
  | addBytes =>
    have hc := h.checked (by decide) (by decide)
    refine hown .addBytes .addCalls ?_
    simp only [share, if_pos hc, Nat.zero_add]
  | addCalls =>
    have hc := h.checked (by decide) (by decide)
    refine hown .addCalls .stamp ?_
    simp only [share, if_pos hc, amount_eq]
  | stamp => simp [accountStep, share, adds]
  | done => simp [accountStep, adds]

/-- At any time, a counter is what the calls have added to it. -/
theorem counter_after {calls : Fin n → Call}
    (hpids : (Finset.univ.image fun i => (calls i).cur.pid).card ≤ MAX_PROCS)
    (pid : Pid) (t : Counter) (sched : List (Fin n)) :
    counter (after calls sched).shared pid t =
      (∑ i, share pid t (calls i) ((after calls sched).locals i)) % 2 ^ 64 := by
  refine Threads.after_sum (f := (· % 2 ^ 64)) (S := fun i => share pid t (calls i))
    (V := fun sched => counter (after calls sched).shared pid t)
    ?_ fun pre i post _ => ⟨_, share_accountStep (knows_after hpids pre i) pid t, fun hval => ?_⟩
  · simp [counter, after, share, Kernel.empty, BpfMap.empty, BpfMap.lookupElem]
  · have hlt : counter (after calls pre).shared pid t < 2 ^ 64 := by
      rw [hval]
      exact Nat.mod_lt _ (by decide)
    have hstep := counter_accountStep (knows_after hpids pre i) hlt
    rw [hval, Nat.mod_add_mod] at hstep
    rw [after, Threads.shared_snoc]
    exact hstep

end ConcurrentLemmas

open ConcurrentLemmas

/-! ## 1. No update is lost -/

/-- For any calls, by at most `MAX_PROCS` pids, and any schedule after which all of
them have finished. -/
theorem accounts_every_call (calls : Fin n → Call)
    (hpids : (Finset.univ.image fun i => (calls i).cur.pid).card ≤ MAX_PROCS) {sched : List (Fin n)}
    (hdone : ∀ i, (after calls sched).locals i = .done) {pid : Pid} (hpid : pid ≠ 0) (t : Counter) :
    counter (after calls sched).shared pid t = total calls pid t % 2 ^ 64 := by
  rw [counter_after hpids]
  congr 1
  refine Finset.sum_congr rfl fun i _ => ?_
  rw [hdone i, share]
  refine if_congr ⟨And.right, fun hmade => ⟨?_, hmade⟩⟩ rfl rfl
  rw [hmade.1]
  exact hpid

/-- A call of the idle task. -/
def exIdle : Fin 1 → Call := fun _ => ⟨⟨0, Comm.ofBytes [97]⟩, ⟨1, AF_INET⟩, 100, true, ⟨1, 0, 0⟩⟩

/-- It finishes at once and is counted nowhere. -/
theorem pid_zero_not_accounted :
    (∀ i, (after exIdle [0]).locals i = .done) ∧
    counter (after exIdle [0]).shared 0 .txBytes = 0 ∧ total exIdle 0 .txBytes = 100 := by
  decide +kernel

/-- Two sends and a receive of one new pid. -/
def exCalls : Fin 3 → Call := fun i =>
  ⟨⟨7, Comm.ofBytes [97]⟩, ⟨1, AF_INET⟩, 100 + i.val, i.val < 2, ⟨1, 0, 0⟩⟩

/-- All three miss the row and insert it, one after the other, and then count. -/
theorem exCalls_accounted :
    (∀ i, (after exCalls ((List.replicate 7 (List.finRange 3)).flatten)).locals i = .done) ∧
    counter (after exCalls ((List.replicate 7 (List.finRange 3)).flatten)).shared 7 .txBytes =
      201 := by
  have hdone : ∀ i, (after exCalls ((List.replicate 7 (List.finRange 3)).flatten)).locals i =
      .done := by
    decide +kernel
  exact ⟨hdone, accounts_every_call exCalls (by decide +kernel) hdone (by decide) .txBytes⟩

/-! ## 2. One call alone -/

/-- The next step of a call that runs alone. -/
def alone (c : Call) (s : Kernel × Pc) : Kernel × Pc := accountStep c s.1 s.2

/-- From the adds on. -/
theorem alone_addBytes (c : Call) (k : Kernel) :
    (alone c)^[3] (k, .addBytes) =
      ({ k with
          procStats := k.procStats.modify c.cur.pid fun ps =>
            ps.count c.bytes c.isTx c.env.ktime },
        .done) := by
  simp only [Function.iterate_succ_apply, Function.iterate_zero_apply, alone, accountStep,
    BpfMap.modify_modify]
  congr 3
  funext ps
  cases c.isTx <;> simp [addBytes, addCalls, ProcStats.count]

theorem alone_done (c : Call) (m : Nat) (k : Kernel) : (alone c)^[m] (k, .done) = (k, .done) :=
  Function.iterate_fixed rfl m

/-- From the second lookup on: without a row, the adds of `account` change nothing
either. -/
theorem alone_lookupAgain (c : Call) (k : Kernel) :
    (alone c)^[4] (k, .lookupAgain) =
      ({ k with
          procStats := k.procStats.modify c.cur.pid fun ps =>
            ps.count c.bytes c.isTx c.env.ktime },
        .done) := by
  rw [Function.iterate_succ_apply, alone, accountStep]
  cases hrow : k.procStats.lookupElem c.cur.pid with
  | some ps => exact alone_addBytes c k
  | none => rw [alone_done, BpfMap.modify_of_absent hrow]

/-- Seven steps in a row, from the start. -/
theorem accountStep_alone (c : Call) (k : Kernel) :
    (alone c)^[7] (k, .owner) = (account k c.cur c.sk c.bytes c.isTx c.env, .done) := by
  rw [Function.iterate_succ_apply, alone, accountStep, account]
  split
  · rw [alone_done]
  · split
    · rw [alone_done]
    · rw [Function.iterate_succ_apply, alone, accountStep, fetchOrCreate]
      cases hrow : k.procStats.lookupElem c.cur.pid with
      | some ps =>
        rw [Function.iterate_add_apply _ 2 3, alone_addBytes, alone_done]
      | none => exact alone_lookupAgain c _

end Ebpf101.Nettop.Concurrent
