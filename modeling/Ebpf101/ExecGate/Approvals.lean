import Ebpf101.ExecGate

/-!
# What an answer of the exec gate rests on

`verify_file` may answer from the verdict in the inode's storage, which another call wrote,
perhaps long ago and under another policy. Calls, changes of the policy and increments of
the epoch interleave in any way.

Results:
1. `answer_of_some_moment`: a call returns 0 only if the signature was accepted at some
   moment at which the epoch was at least as recent as when the call began, and an error
   only if it was refused at some moment while the call ran.
2. `cache_transparent`: so as long as the answer of a verification is the same all that
   time, a call gives the answer of a verification, and it does so within eight steps of
   its own.
   `unmarked_change_unseen`: a change that no increment follows is not seen.
-/

namespace Ebpf101.ExecGate

open Runs

variable {Inode Policy Keyring : Type} [DecidableEq Inode] {ι : Type} [DecidableEq ι]

/-! ## Statements -/

/-- After the schedule, a verification of the file would give the answer `ok`. -/
def AnswerAt (K : Kfuncs Inode Policy Keyring) (g : Gate Inode Policy)
    (threads : ι → Thread Inode Policy) (ino : Inode) (ok : Bool) (sched : List ι) : Prop :=
  K.accepts (after K g threads sched).shared.policy ino = ok

/-- The return value of an answer. -/
def answer (ok : Bool) : Int := if ok then 0 else -EPERM

/-- What the return value of a call rests on that began after `before` and has run for
`rest`. -/
def RestsOn (K : Kfuncs Inode Policy Keyring) (g : Gate Inode Policy)
    (threads : ι → Thread Inode Policy) (ino : Inode) (before rest : List ι) (r : Int) : Prop :=
  (r = answer true ∧ ∃ pre, pre <+: before ++ rest ∧
    increments K g threads before ≤ increments K g threads pre ∧
      AnswerAt K g threads ino true pre) ∨
  (r = answer false ∧ ∃ pre, pre <+: rest ∧ AnswerAt K g threads ino false (before ++ pre))

namespace ApprovalsLemmas

open ExecGateLemmas

variable {K : Kfuncs Inode Policy Keyring} {g : Gate Inode Policy}
  {threads : ι → Thread Inode Policy}

/-! ## What verdicts rest on -/

/-- The epoch `e` was current after some number of increments, and the signature was
accepted no earlier than that. -/
def Backed (K : Kfuncs Inode Policy Keyring) (g : Gate Inode Policy)
    (threads : ι → Thread Inode Policy) (sched : List ι) (ino : Inode) (e : UInt32) : Prop :=
  ∃ m, e = g.epoch + UInt32.ofNat m ∧ ∃ pre, pre <+: sched ∧ m ≤ increments K g threads pre ∧
    AnswerAt K g threads ino true pre

theorem Backed.mono {sched sched' : List ι} {ino : Inode} {e : UInt32}
    (h : Backed K g threads sched ino e) (hle : sched <+: sched') :
    Backed K g threads sched' ino e := by
  obtain ⟨m, he, pre, hpre, hm, hok⟩ := h
  exact ⟨m, he, pre, hpre.trans hle, hm, hok⟩

theorem increments_mono {pre sched : List ι} (h : pre <+: sched) :
    increments K g threads pre ≤ increments K g threads sched := by
  obtain ⟨post, rfl⟩ := h
  exact tally_le_append _ _ _

/-- What is stored, and what is about to be, rests on a verification. -/
structure Rests (K : Kfuncs Inode Policy Keyring) (g : Gate Inode Policy)
    (threads : ι → Thread Inode Policy) (sched : List ι) : Prop where
  held : ∀ i ino mem pc e, (after K g threads sched).locals i = .call ino mem pc →
    storeEpoch pc = some e → Backed K g threads sched ino e
  stored : ∀ ino v, (after K g threads sched).shared.verdictMap ino = some v →
    Backed K g threads sched ino v.epoch

theorem rests_after (hempty : ∀ ino, g.verdictMap ino = none) (hfresh : ∀ i, (threads i).Fresh)
    (sched : List ι) : Rests K g threads sched := by
  induction sched using List.reverseRecOn with
  | nil =>
    refine ⟨fun i ino mem pc e hi he => ?_, fun ino v hv => ?_⟩
    · have hstart := hfresh i
      rw [show threads i = .call ino mem pc from hi] at hstart
      rw [show pc = .start from hstart] at he
      cases he
    · cases (hempty ino).symm.trans hv
  | append_singleton sched j ih =>
    have hle : sched <+: sched ++ [j] := List.prefix_append _ _
    refine ⟨fun i ino mem pc' e hi he => ?_, fun ino v hv => ?_⟩
    · rw [after_snoc] at hi
      obtain ⟨pc, hpc, rfl | rfl⟩ := call_of_tick hi
      · exact (ih.held i ino mem pc' e hpc he).mono hle
      · rcases storeEpoch_verifyFile he with hold | ⟨hread, hok⟩
        · exact (ih.held i ino mem pc e hpc hold).mono hle
        · -- the call has just verified, after it had read the epoch
          obtain ⟨m, hm, rfl⟩ := (sound_after hempty hfresh sched).held i ino mem pc e hpc hread
          exact ⟨m, rfl, sched, hle, hm, hok⟩
    · rw [after_snoc] at hv
      rcases verdict_of_tick hv with ⟨u, hu, he⟩ | ⟨mem, pc, hpc, hst⟩
      · rw [he]
        exact (ih.stored ino u hu).mono hle
      · exact (ih.held j ino mem pc _ hpc hst).mono hle

/-! ## One call -/

/-- How a call comes to its return value. -/
theorem returned_cases {ino : Inode} {mem : Bool} {g : Gate Inode Policy} {pc : Pc} {r : Int}
    (h : (verifyFile K ino mem g pc).2 = .returned r) :
    pc = .returned r ∨ (r = 0 ∧ ∃ v, g.verdictMap ino = some v ∧ readEpoch pc = some v.epoch) ∨
      (r = 0 ∧ ∃ e, storeEpoch pc = some e) ∨ (r = -EPERM ∧ K.accepts g.policy ino = false) := by
  cases pc with
  | start => cases h
  | cached e =>
    simp only [verifyFile] at h
    split at h <;> cases h
  | approved e =>
    simp only [verifyFile] at h
    split at h <;> cases h
  | current e =>
    cases hv : g.verdictMap ino with
    | none => simp [verifyFile, hv] at h
    | some v =>
      rcases eq_or_ne v.epoch e with rfl | hne
      · simp only [verifyFile, hv, Option.any_some, decide_true, if_true] at h
        cases h
        exact .inr (.inl ⟨rfl, v, rfl, rfl⟩)
      · simp [verifyFile, hv, hne] at h
  | verify e =>
    simp only [verifyFile] at h
    split at h
    next => cases h
    next hbad =>
      cases h
      exact .inr (.inr (.inr ⟨rfl, Bool.eq_false_iff.mpr hbad⟩))
  | create e =>
    simp only [verifyFile] at h
    split at h
    · cases h
    · split at h
      · cases h
      · cases h
        exact .inr (.inr (.inl ⟨rfl, e, rfl⟩))
  | setApproved e => cases h
  | setEpoch e =>
    cases h
    exact .inr (.inr (.inl ⟨rfl, e, rfl⟩))
  | returned r' => exact .inl h

theorem restsOn_mono {ino : Inode} {before rest rest' : List ι} {r : Int}
    (h : RestsOn K g threads ino before rest r) (hle : rest <+: rest') :
    RestsOn K g threads ino before rest' r := by
  rcases h with ⟨hr, pre, hpre, hm, hok⟩ | ⟨hr, pre, hpre, hbad⟩
  · exact .inl ⟨hr, pre, hpre.trans (List.prefix_append_right_inj before |>.mpr hle), hm, hok⟩
  · exact .inr ⟨hr, pre, hpre.trans hle, hbad⟩

/-- The epoch `e` was current at some time after `before`. -/
def ReadSince (K : Kfuncs Inode Policy Keyring) (g : Gate Inode Policy)
    (threads : ι → Thread Inode Policy) (before sched : List ι) (e : UInt32) : Prop :=
  ∃ m, increments K g threads before ≤ m ∧ m ≤ increments K g threads sched ∧
    e = g.epoch + UInt32.ofNat m

/-- A verdict whose epoch a call has read was given no earlier than that. -/
theorem Backed.since {before sched : List ι} {ino : Inode} {e : UInt32}
    (h : Backed K g threads sched ino e) (hread : ReadSince K g threads before sched e)
    (hfew : increments K g threads sched < 2 ^ 32) :
    ∃ pre, pre <+: sched ∧ increments K g threads before ≤ increments K g threads pre ∧
      AnswerAt K g threads ino true pre := by
  obtain ⟨m, rfl, pre, hpre, hm, hok⟩ := h
  obtain ⟨m', hle, hlt, heq⟩ := hread
  have hcast : UInt32.ofNat m = UInt32.ofNat m' := (UInt32.add_right_inj g.epoch).mp heq
  have hnat := congrArg UInt32.toNat hcast
  rw [UInt32.toNat_ofNat_of_lt' (Nat.lt_of_le_of_lt (hm.trans (increments_mono hpre)) hfew),
    UInt32.toNat_ofNat_of_lt' (Nat.lt_of_le_of_lt hlt hfew)] at hnat
  exact ⟨pre, hpre, (hnat ▸ hle).trans hm, hok⟩

/-- A call that began after `before`, after `rest`. -/
def Ran (K : Kfuncs Inode Policy Keyring) (g : Gate Inode Policy)
    (threads : ι → Thread Inode Policy) (i : ι) (ino : Inode) (mem : Bool)
    (before rest : List ι) : Prop :=
  ∃ pc, (after K g threads (before ++ rest)).locals i = .call ino mem pc ∧
    (∀ e, readEpoch pc = some e → ReadSince K g threads before (before ++ rest) e) ∧
    ∀ r, pc = .returned r → RestsOn K g threads ino before rest r

theorem ran_after (hempty : ∀ ino, g.verdictMap ino = none) (hfresh : ∀ i, (threads i).Fresh)
    {i : ι} {ino : Inode} {mem : Bool} {before rest : List ι}
    (hbegin : (after K g threads before).locals i = .call ino mem .start)
    (hfew : increments K g threads (before ++ rest) < 2 ^ 32) :
    Ran K g threads i ino mem before rest := by
  refine prefix_history (P := fun rest => Ran K g threads i ino mem before rest) ?_
    fun pre j post he ih => ?_
  · refine ⟨.start, ?_, fun e he => (nomatch he), fun r hr => (nomatch hr)⟩
    rwa [List.append_nil]
  obtain ⟨pc, hpc, hread, hret⟩ := ih
  have hle : pre <+: pre ++ [j] := List.prefix_append _ _
  have hstep : increments K g threads (before ++ pre) ≤
      increments K g threads (before ++ (pre ++ [j])) :=
    increments_mono (by rw [← List.append_assoc]; exact List.prefix_append _ _)
  have hlt : increments K g threads (before ++ pre) < 2 ^ 32 := by
    refine Nat.lt_of_le_of_lt (increments_mono ?_) hfew
    rw [he, ← List.append_assoc]
    exact List.prefix_append _ _
  have hread' : ∀ e, ReadSince K g threads before (before ++ pre) e →
      ReadSince K g threads before (before ++ (pre ++ [j])) e := fun e ⟨m, hm, hm', h⟩ =>
    ⟨m, hm, hm'.trans hstep, h⟩
  rcases eq_or_ne i j with rfl | hij
  · refine ⟨(verifyFile K ino mem (after K g threads (before ++ pre)).shared pc).2, ?_,
      fun e he => ?_,
      fun r hr => ?_⟩
    · rw [← List.append_assoc, after_snoc]
      simp only [Threads.tick, Function.update_self, hpc, step]
    · rcases readEpoch_verifyFile he with hold | rfl
      · exact hread' e (hread e hold)
      · exact ⟨_, increments_mono (List.prefix_append _ _), hstep,
          (sound_after hempty hfresh (before ++ pre)).epoch⟩
    · have hrests : Rests K g threads (before ++ pre) := rests_after hempty hfresh _
      -- an approval: a verdict, found or about to be stored, of the epoch that was read
      have happroved : ∀ e, readEpoch pc = some e → Backed K g threads (before ++ pre) ino e →
          RestsOn K g threads ino before pre (answer true) := fun e hr hb =>
        .inl ⟨rfl, hb.since (hread e hr) hlt⟩
      rcases returned_cases hr with hold | ⟨rfl, v, hv, hve⟩ | ⟨rfl, e, hst⟩ | ⟨rfl, hbad⟩
      · exact restsOn_mono (hret r hold) hle
      · exact restsOn_mono (happroved _ hve (hrests.stored ino v hv)) hle
      · exact restsOn_mono
          (happroved _ (readEpoch_of_storeEpoch hst) (hrests.held i ino mem pc e hpc hst)) hle
      · exact .inr ⟨rfl, pre, hle, hbad⟩
  · refine ⟨pc, ?_, fun e he => hread' e (hread e he), fun r hr => restsOn_mono (hret r hr) hle⟩
    rw [← List.append_assoc, after_snoc]
    simpa only [Threads.tick, Function.update_of_ne hij] using hpc

/-! ## Termination -/

/-- The steps that a call has left. -/
def stepsLeft : Thread Inode Policy → Nat
  | .call _ _ .start => 8
  | .call _ _ (.cached _) => 7
  | .call _ _ (.approved _) => 6
  | .call _ _ (.current _) => 5
  | .call _ _ (.verify _) => 4
  | .call _ _ (.create _) => 3
  | .call _ _ (.setApproved _) => 2
  | .call _ _ (.setEpoch _) => 1
  | _ => 0

theorem stepsLeft_step (g : Gate Inode Policy) (t : Thread Inode Policy) :
    stepsLeft (step K g t).2 ≤ stepsLeft t - 1 := by
  cases t with
  | call ino mem pc =>
    cases pc <;> simp only [step, verifyFile] <;> (repeat' split) <;> simp [stepsLeft]
  | _ => exact Nat.le_refl 0

/-- After eight steps of its own a call has returned. -/
theorem returned_of_count {i : ι} {ino : Inode} {mem : Bool} {before rest : List ι} {pc : Pc}
    (hbegin : (after K g threads before).locals i = .call ino mem .start)
    (hsteps : 8 ≤ rest.count i)
    (hpc : (after K g threads (before ++ rest)).locals i = .call ino mem pc) :
    ∃ r, pc = .returned r := by
  have hrank : stepsLeft ((after K g threads (before ++ rest)).locals i) ≤
      stepsLeft ((after K g threads before).locals i) - rest.count i := by
    rw [after, Threads.after_append]
    refine Threads.after_rank ?_ _ rest
    exact fun g t => stepsLeft_step g t
  rw [hpc, hbegin] at hrank
  have hzero : stepsLeft (.call ino mem pc : Thread Inode Policy) = 0 :=
    Nat.eq_zero_of_le_zero (hrank.trans (Nat.le_of_eq (Nat.sub_eq_zero_of_le hsteps)))
  cases pc with
  | returned r => exact ⟨r, rfl⟩
  | _ => cases hzero

end ApprovalsLemmas

open ApprovalsLemmas

/-! ## 1. What an answer rests on -/

/-- For every number of calls, changes and increments, fewer than 2^32 of the latter, and
every interleaving of them. -/
theorem answer_of_some_moment (K : Kfuncs Inode Policy Keyring) (g : Gate Inode Policy)
    (hempty : ∀ ino, g.verdictMap ino = none) (threads : ι → Thread Inode Policy)
    (hfresh : ∀ i, (threads i).Fresh) {i : ι} {ino : Inode} {mem : Bool} {before rest : List ι}
    (hbegin : (after K g threads before).locals i = .call ino mem .start)
    (hfew : increments K g threads (before ++ rest) < 2 ^ 32) {r : Int}
    (hret : (after K g threads (before ++ rest)).locals i = .call ino mem (.returned r)) :
    RestsOn K g threads ino before rest r := by
  obtain ⟨pc, hpc, -, hrests⟩ := ran_after hempty hfresh hbegin hfew
  rw [hret] at hpc
  cases hpc
  exact hrests r rfl

theorem exThreads_fresh (i : Fin 3) : (exThreads i).Fresh := by
  unfold exThreads
  split
  · exact trivial
  · exact rfl

/-- The second call finds the verdict of the first. -/
theorem exThreads_answer :
    RestsOn exKfuncs exGate exThreads 5 [0, 0, 0, 0, 0, 0] [2, 2, 2, 2] 0 :=
  answer_of_some_moment exKfuncs exGate (fun _ => rfl) exThreads exThreads_fresh (i := 2) (by rfl)
    (by decide +kernel) (by rfl)

/-! ## 2. The cache is not seen -/

/-- Let a verification of the file give the answer `ok` at every moment at which the epoch
is at least as recent as when the call began. Then that is the answer of the call. -/
theorem cache_transparent (K : Kfuncs Inode Policy Keyring) (g : Gate Inode Policy)
    (hempty : ∀ ino, g.verdictMap ino = none) (threads : ι → Thread Inode Policy)
    (hfresh : ∀ i, (threads i).Fresh) {i : ι} {ino : Inode} {mem : Bool} {before rest : List ι}
    (hbegin : (after K g threads before).locals i = .call ino mem .start)
    (hsteps : 8 ≤ rest.count i) (hfew : increments K g threads (before ++ rest) < 2 ^ 32)
    {ok : Bool} (hok : ∀ pre, pre <+: before ++ rest →
      increments K g threads before ≤ increments K g threads pre →
      AnswerAt K g threads ino ok pre) :
    (after K g threads (before ++ rest)).locals i = .call ino mem (.returned (answer ok)) := by
  obtain ⟨pc, hpc, -, hrests⟩ := ran_after hempty hfresh hbegin hfew
  obtain ⟨r, rfl⟩ := returned_of_count hbegin hsteps hpc
  rw [hpc]
  rcases hrests r rfl with ⟨rfl, pre, hpre, hle, htrue⟩ | ⟨rfl, pre, hpre, hfalse⟩
  · cases (hok pre hpre hle).symm.trans htrue
    rfl
  · have hmoment := hok (before ++ pre) ((List.prefix_append_right_inj before).mpr hpre)
      (increments_mono (List.prefix_append _ _))
    cases hmoment.symm.trans hfalse
    rfl

theorem exThreads_transparent :
    (after exKfuncs exGate exThreads ([0, 0, 0, 0, 0, 0] ++ [2, 2, 2, 2, 2, 2, 2, 2])).locals 2 =
      .call 5 true (.returned 0) := by
  have hok : ∀ pre ∈ ([0, 0, 0, 0, 0, 0] ++ [2, 2, 2, 2, 2, 2, 2, 2] : List (Fin 3)).inits,
      exKfuncs.accepts (after exKfuncs exGate exThreads pre).shared.policy 5 = true := by
    decide +kernel
  exact cache_transparent exKfuncs exGate (fun _ => rfl) exThreads exThreads_fresh
    (by rfl) (by decide)
    (by decide +kernel) fun pre hpre _ => hok pre ((List.mem_inits _ _).mpr hpre)

/-- The key is revoked, but the epoch not incremented yet: the verdict still counts. -/
theorem unmarked_change_unseen :
    AnswerAt exKfuncs exGate exThreads 5 false [0, 0, 0, 0, 0, 0, 1] ∧
    (after exKfuncs exGate exThreads [0, 0, 0, 0, 0, 0, 1, 2, 2, 2, 2]).locals 2 =
      .call 5 true (.returned 0) :=
  ⟨by rfl, by rfl⟩

end Ebpf101.ExecGate
