import Ebpf101.Basic
import Ebpf101.Lib.Threads

/-!
# The exec gate and its verdict cache

Chapter 25, `25-fileless-lab/gate/exec_gate.bpf.c.fragment`. `verify_file` checks
the signature of a file against the trusted keys and keeps the verdict with the
inode, stamped with the policy epoch it read before it looked at anything else. A
change to the keys or to the policy is followed by an increment of the epoch, so
a verdict from before the change is not taken for a current one.

Calls and changes are threads. A call that verified under the old policy may store
its verdict long after the change.

Results:
1. `revoked_not_approved`: a call that begins after the increment that follows a
   change, while the change has the file's signature refused, does not return 0.
2. `gates_refuse`: neither do the two hooks for such a call.
-/

namespace Ebpf101.ExecGate

open Runs

/-! ## verify_file -/

def EPERM : Int := 1

/-- `KEYRING_SEL`: the builtin and the secondary keyring. -/
def KEYRING_SEL : Nat := 1

/-- `FSV_MAGIC`, "FSVerity". -/
def FSV_MAGIC : List UInt8 := [70, 83, 86, 101, 114, 105, 116, 121]

/-- `struct verdict`. -/
structure Verdict where
  approved : Bool
  epoch : UInt32
deriving DecidableEq, Repr

/-- The kernel functions that `verify_file` calls; `none` and `false` are their
errors. The digest and the signature are those of the inode; which keys are found
depends on the policy of the moment. -/
structure Kfuncs (Inode Policy Keyring : Type) where
  getFsverityDigest : Inode → Option (List UInt8)
  getFileXattr : Inode → Option (List UInt8)
  lookupSystemKey : Policy → Nat → Option Keyring
  verifyPkcs7Signature : List UInt8 → List UInt8 → Keyring → Bool

variable {Inode Policy Keyring : Type}

/-- The signature of the file is accepted under the policy. -/
def Kfuncs.accepts (K : Kfuncs Inode Policy Keyring) (policy : Policy) (ino : Inode) : Bool :=
  match K.getFsverityDigest ino, K.getFileXattr ino, K.lookupSystemKey policy KEYRING_SEL with
  | some digest, some sig, some kr => K.verifyPkcs7Signature (FSV_MAGIC ++ digest) sig kr
  | _, _, _ => false

/-- What calls and changes share: the trusted keys and the rest of the policy, the
epoch in the one-entry map `policy`, and the verdicts in the inodes' storage. -/
structure Gate (Inode Policy : Type) where
  policy : Policy
  epoch : UInt32
  verdictMap : Inode → Option Verdict

/-- The next step of a call of `verify_file`, with the epoch it has read. -/
inductive Pc where
  | start
  | cached (epoch : UInt32)
  | approved (epoch : UInt32)
  | current (epoch : UInt32)
  | verify (epoch : UInt32)
  | create (epoch : UInt32)
  | setApproved (epoch : UInt32)
  | setEpoch (epoch : UInt32)
  | returned (ret : Int)
deriving DecidableEq, Repr

/-- A call of `verify_file`, or a change of the policy. Storage for a new verdict
may not be had: `mem`. -/
inductive Thread (Inode Policy : Type) where
  | call (ino : Inode) (mem : Bool) (pc : Pc)
  | change (f : Policy → Policy)
  | increment
  | idle

/-- The thread has not begun. -/
def Thread.Fresh : Thread Inode Policy → Prop
  | .call _ _ pc => pc = .start
  | .change _ => True
  | .increment | .idle => False

variable [DecidableEq Inode]

/-- A write through the pointer to the verdict of the inode. -/
def Gate.writeVerdict (g : Gate Inode Policy) (ino : Inode) (f : Verdict → Verdict) :
    Gate Inode Policy :=
  { g with verdictMap := Function.update g.verdictMap ino ((g.verdictMap ino).map f) }

/-- `verify_file`, one read or write of what is shared at a time. -/
def verifyFile (K : Kfuncs Inode Policy Keyring) (ino : Inode) (mem : Bool)
    (g : Gate Inode Policy) :
    Pc → Gate Inode Policy × Pc
  | .start => (g, .cached g.epoch)
  | .cached epoch =>
    match g.verdictMap ino with
    | some _ => (g, .approved epoch)
    | none => (g, .verify epoch)
  | .approved epoch =>
    if (g.verdictMap ino).any Verdict.approved then (g, .current epoch) else (g, .verify epoch)
  | .current epoch =>
    if (g.verdictMap ino).any (·.epoch = epoch) then (g, .returned 0) else (g, .verify epoch)
  | .verify epoch => if K.accepts g.policy ino then (g, .create epoch) else (g, .returned (-EPERM))
  | .create epoch =>
    match g.verdictMap ino with
    | some _ => (g, .setApproved epoch)
    | none =>
      if mem then
        ({ g with verdictMap := Function.update g.verdictMap ino (some ⟨true, epoch⟩) },
          .setApproved epoch)
      else (g, .returned 0)
  | .setApproved epoch => (g.writeVerdict ino fun v => { v with approved := true }, .setEpoch epoch)
  | .setEpoch epoch => (g.writeVerdict ino fun v => { v with epoch := epoch }, .returned 0)
  | .returned ret => (g, .returned ret)

/-- The next step of a thread. -/
def step (K : Kfuncs Inode Policy Keyring) (g : Gate Inode Policy) :
    Thread Inode Policy → Gate Inode Policy × Thread Inode Policy
  | .call ino mem pc => ((verifyFile K ino mem g pc).1, .call ino mem (verifyFile K ino mem g pc).2)
  | .change f => ({ g with policy := f g.policy }, .increment)
  | .increment => ({ g with epoch := g.epoch + 1 }, .idle)
  | .idle => (g, .idle)

/-! ## The hooks -/

def TMPFS_MAGIC : Nat := 0x01021994

def HUGETLBFS_MAGIC : Nat := 0x958458f6

def PROT_EXEC : Nat := 4

/-- What `is_anon_exec_inode` reads of an inode. -/
structure InodeView where
  nlink : Nat
  magic : Nat

def isAnonExecInode (ino : InodeView) : Bool :=
  ino.nlink = 0 && (ino.magic = TMPFS_MAGIC || ino.magic = HUGETLBFS_MAGIC)

/-- `exec_gate`, given what its call of `verify_file` returns. -/
def execGate (ino : InodeView) (verify : Int) : Int :=
  if isAnonExecInode ino then -EPERM else verify

/-- `mmap_gate`, given what its call of `verify_file` returns, if it makes one. -/
def mmapGate (denyAnonExec : Bool) (f : Option InodeView) (prot : Nat) (verify : Int) : Int :=
  if prot &&& PROT_EXEC = 0 then 0
  else match f with
    | none => if denyAnonExec then -EPERM else 0
    | some ino => if isAnonExecInode ino then -EPERM else verify

/-! ## Statements -/

section Schedules

variable {ι : Type} [DecidableEq ι]

/-- The gate and its threads. -/
abbrev System (ι Inode Policy : Type) := Threads.Sys ι (Gate Inode Policy) (Thread Inode Policy)

/-- The gate and its threads after a schedule. -/
def after (K : Kfuncs Inode Policy Keyring) (g : Gate Inode Policy)
    (threads : ι → Thread Inode Policy) (sched : List ι) : System ι Inode Policy :=
  Threads.after (fun _ => step K) ⟨g, threads⟩ sched

/-- The thread is about to increment the epoch. -/
def Thread.increments : Thread Inode Policy → Nat
  | .increment => 1
  | _ => 0

/-- The number of increments of a schedule. -/
def increments (K : Kfuncs Inode Policy Keyring) (g : Gate Inode Policy)
    (threads : ι → Thread Inode Policy) : List ι → Nat :=
  tally fun pre i => ((after K g threads pre).locals i).increments

end Schedules

namespace ExecGateLemmas

/-! ## One step -/

/-- The epoch a call has read. -/
def readEpoch : Pc → Option UInt32
  | .cached e | .approved e | .current e | .verify e | .create e | .setApproved e | .setEpoch e =>
    some e
  | .start | .returned _ => none

/-- The epoch of a call that has verified and may write its verdict. -/
def storeEpoch : Pc → Option UInt32
  | .create e | .setApproved e | .setEpoch e => some e
  | _ => none

theorem readEpoch_of_storeEpoch {pc : Pc} {e : UInt32} (h : storeEpoch pc = some e) :
    readEpoch pc = some e := by
  cases pc <;> first | exact h | cases h

section Step

variable {K : Kfuncs Inode Policy Keyring} {ino : Inode} {mem : Bool}
  {g : Gate Inode Policy} {pc : Pc}
  {e : UInt32}

theorem epoch_verifyFile : (verifyFile K ino mem g pc).1.epoch = g.epoch := by
  cases pc <;> simp only [verifyFile] <;> (repeat' split) <;> rfl

/-- An epoch that a call holds was read before, or is read now. -/
theorem readEpoch_verifyFile (h : readEpoch (verifyFile K ino mem g pc).2 = some e) :
    readEpoch pc = some e ∨ e = g.epoch := by
  cases pc <;> simp only [verifyFile] at h <;> (repeat' split at h) <;>
    first | exact Or.inl h | exact Or.inr (Option.some.inj h).symm | cases h

/-- A call comes to write its verdict only when the signature is accepted. -/
theorem storeEpoch_verifyFile (h : storeEpoch (verifyFile K ino mem g pc).2 = some e) :
    storeEpoch pc = some e ∨ readEpoch pc = some e ∧ K.accepts g.policy ino = true := by
  cases pc with
  | verify e' =>
    simp only [verifyFile] at h
    split at h
    · next hok => exact Or.inr ⟨h, hok⟩
    · cases h
  | start => cases h
  | cached e' =>
    simp only [verifyFile] at h
    split at h <;> cases h
  | approved e' =>
    simp only [verifyFile] at h
    split at h <;> cases h
  | current e' =>
    simp only [verifyFile] at h
    split at h <;> cases h
  | create e' =>
    simp only [verifyFile] at h
    split at h
    · exact Or.inl h
    · split at h
      · exact Or.inl h
      · cases h
  | setApproved e' => exact Or.inl h
  | setEpoch e' => cases h
  | returned r => cases h

theorem verdict_writeVerdict {f : Verdict → Verdict} {ino' : Inode} {v : Verdict}
    (h : (g.writeVerdict ino f).verdictMap ino' = some v) :
    g.verdictMap ino' = some v ∨ ino = ino' ∧ ∃ u, g.verdictMap ino' = some u ∧ v = f u := by
  rcases eq_or_ne ino' ino with rfl | hne
  · simp only [Gate.writeVerdict, Function.update_self] at h
    obtain ⟨u, hu, hv⟩ := Option.map_eq_some_iff.mp h
    exact Or.inr ⟨rfl, u, hu, hv.symm⟩
  · simp only [Gate.writeVerdict, Function.update_of_ne hne] at h
    exact Or.inl h

/-- A verdict is from before, or written by a call on the inode that has verified. -/
theorem verdict_verifyFile {ino' : Inode} {v : Verdict}
    (h : (verifyFile K ino mem g pc).1.verdictMap ino' = some v) :
    (∃ u, g.verdictMap ino' = some u ∧ v.epoch = u.epoch) ∨
      ino = ino' ∧ storeEpoch pc = some v.epoch := by
  have hsame : g.verdictMap ino' = some v → (∃ u, g.verdictMap ino' = some u ∧ v.epoch = u.epoch) ∨
      ino = ino' ∧ storeEpoch pc = some v.epoch := fun hv => Or.inl ⟨v, hv, rfl⟩
  cases pc with
  | start => exact hsame h
  | cached e => exact hsame (by simp only [verifyFile] at h; split at h <;> exact h)
  | approved e => exact hsame (by simp only [verifyFile] at h; split at h <;> exact h)
  | current e => exact hsame (by simp only [verifyFile] at h; split at h <;> exact h)
  | verify e => exact hsame (by simp only [verifyFile] at h; split at h <;> exact h)
  | returned r => exact hsame h
  | create e =>
    simp only [verifyFile] at h
    split at h
    · exact hsame h
    · split at h
      · rcases eq_or_ne ino' ino with rfl | hne
        · simp only [Function.update_self] at h
          cases h
          exact Or.inr ⟨rfl, rfl⟩
        · simp only [Function.update_of_ne hne] at h
          exact hsame h
      · exact hsame h
  | setApproved e =>
    rcases verdict_writeVerdict h with hold | ⟨-, u, hu, rfl⟩
    · exact hsame hold
    · exact Or.inl ⟨u, hu, rfl⟩
  | setEpoch e =>
    rcases verdict_writeVerdict h with hold | ⟨rfl, u, -, rfl⟩
    · exact hsame hold
    · exact Or.inr ⟨rfl, rfl⟩

/-- A call returns from a verdict of its epoch, after it has verified, or with an
error. -/
theorem returned_verifyFile {r : Int} (h : (verifyFile K ino mem g pc).2 = .returned r) :
    pc = .returned r ∨ (∃ v, g.verdictMap ino = some v ∧ pc = .current v.epoch) ∨
      (∃ e, storeEpoch pc = some e) ∨ r = -EPERM := by
  cases pc with
  | returned r' => exact Or.inl h
  | current e =>
    cases hv : g.verdictMap ino with
    | none => simp [verifyFile, hv] at h
    | some v =>
      rcases eq_or_ne v.epoch e with rfl | hne
      · exact Or.inr (Or.inl ⟨v, rfl, rfl⟩)
      · simp [verifyFile, hv, hne] at h
  | verify e =>
    simp only [verifyFile] at h
    split at h
    · cases h
    · cases h
      exact Or.inr (Or.inr (Or.inr rfl))
  | create e => exact Or.inr (Or.inr (Or.inl ⟨e, rfl⟩))
  | setEpoch e => exact Or.inr (Or.inr (Or.inl ⟨e, rfl⟩))
  | setApproved e => cases h
  | start => cases h
  | cached e =>
    simp only [verifyFile] at h
    split at h <;> cases h
  | approved e =>
    simp only [verifyFile] at h
    split at h <;> cases h

end Step

/-! ## Epochs and the increments before them -/

/-- `e` is the epoch after at most `n` increments from `e0`. -/
def Seen (e0 : UInt32) (n : Nat) (e : UInt32) : Prop := ∃ m ≤ n, e = e0 + UInt32.ofNat m

theorem Seen.mono {e0 e : UInt32} {n n' : Nat} (h : Seen e0 n e) (hn : n ≤ n') : Seen e0 n' e := by
  obtain ⟨m, hm, rfl⟩ := h
  exact ⟨m, Nat.le_trans hm hn, rfl⟩

/-- An epoch from before is not the epoch now. -/
theorem Seen.ne {e0 e : UInt32} {n m : Nat} (h : Seen e0 n e) (hnm : n < m) (hm : m < 2 ^ 32) :
    e ≠ e0 + UInt32.ofNat m := by
  obtain ⟨k, hk, rfl⟩ := h
  intro heq
  have hcast : UInt32.ofNat k = UInt32.ofNat m := (UInt32.add_right_inj e0).mp heq
  have hnat := congrArg UInt32.toNat hcast
  rw [UInt32.toNat_ofNat_of_lt' (Nat.lt_trans (Nat.lt_of_le_of_lt hk hnm) hm),
    UInt32.toNat_ofNat_of_lt' hm] at hnat
  exact Nat.ne_of_lt (Nat.lt_of_le_of_lt hk hnm) hnat

section System

variable {ι : Type} [DecidableEq ι] {K : Kfuncs Inode Policy Keyring}

/-- After `n` increments: the epochs that calls hold and verdicts carry are from
before. -/
structure Sound (e0 : UInt32) (n : Nat) (s : System ι Inode Policy) :
    Prop where
  epoch : s.shared.epoch = e0 + UInt32.ofNat n
  held : ∀ i ino mem pc e, s.locals i = .call ino mem pc → readEpoch pc = some e → Seen e0 n e
  stored : ∀ ino v, s.shared.verdictMap ino = some v → Seen e0 n v.epoch

/-- The calls that have verified the file, and its verdict, are from before the
increment `n + 1`. -/
structure Stale (e0 : UInt32) (n : Nat) (ino : Inode)
    (s : System ι Inode Policy) : Prop where
  held : ∀ i mem pc e, s.locals i = .call ino mem pc → storeEpoch pc = some e → Seen e0 n e
  stored : ∀ v, s.shared.verdictMap ino = some v → Seen e0 n v.epoch

omit [DecidableEq Inode] [DecidableEq ι] in
theorem Sound.stale {e0 : UInt32} {n : Nat} {s : System ι Inode Policy}
    (h : Sound e0 n s) (ino : Inode) : Stale e0 n ino s :=
  ⟨fun i mem pc e hi he => h.held i ino mem pc e hi (readEpoch_of_storeEpoch he), h.stored ino⟩

/-- A call after a step of thread `j` was a call before it, in the same place or
one step back. -/
theorem call_of_tick {s : System ι Inode Policy} {i j : ι} {ino : Inode}
    {mem : Bool} {pc' : Pc}
    (h : (Threads.tick (fun _ => step K) s j).1.locals i = .call ino mem pc') :
    ∃ pc, s.locals i = .call ino mem pc ∧
      (pc' = pc ∨ pc' = (verifyFile K ino mem s.shared pc).2) := by
  rcases eq_or_ne i j with rfl | hne
  · have hstep : (step K s.shared (s.locals i)).2 = .call ino mem pc' := by
      simpa only [Threads.tick, Function.update_self] using h
    cases ht : s.locals i with
    | call ino' mem' pc =>
      rw [ht] at hstep
      cases hstep
      exact ⟨pc, rfl, Or.inr rfl⟩
    | change f =>
      rw [ht] at hstep
      cases hstep
    | increment =>
      rw [ht] at hstep
      cases hstep
    | idle =>
      rw [ht] at hstep
      cases hstep
  · have hi : s.locals i = .call ino mem pc' := by
      simpa only [Threads.tick, Function.update_of_ne hne] using h
    exact ⟨pc', hi, Or.inl rfl⟩

/-- A verdict after a step of thread `j`. -/
theorem verdict_of_tick {s : System ι Inode Policy} {j : ι} {ino : Inode}
    {v : Verdict} (h : (Threads.tick (fun _ => step K) s j).1.shared.verdictMap ino = some v) :
    (∃ u, s.shared.verdictMap ino = some u ∧ v.epoch = u.epoch) ∨
      ∃ mem pc, s.locals j = .call ino mem pc ∧ storeEpoch pc = some v.epoch := by
  have hstep : (step K s.shared (s.locals j)).1.verdictMap ino = some v := h
  cases ht : s.locals j with
  | call ino' mem pc =>
    rw [ht] at hstep
    rcases verdict_verifyFile hstep with hold | ⟨rfl, hst⟩
    · exact Or.inl hold
    · exact Or.inr ⟨mem, pc, rfl, hst⟩
  | change f =>
    rw [ht] at hstep
    exact Or.inl ⟨v, hstep, rfl⟩
  | increment =>
    rw [ht] at hstep
    exact Or.inl ⟨v, hstep, rfl⟩
  | idle =>
    rw [ht] at hstep
    exact Or.inl ⟨v, hstep, rfl⟩

theorem epoch_of_tick (s : System ι Inode Policy) (j : ι) :
    (Threads.tick (fun _ => step K) s j).1.shared.epoch =
      s.shared.epoch + UInt32.ofNat (s.locals j).increments := by
  show (step K s.shared (s.locals j)).1.epoch = _
  cases s.locals j with
  | call ino mem pc => exact epoch_verifyFile.trans (UInt32.add_zero _).symm
  | change f => exact (UInt32.add_zero _).symm
  | increment => rfl
  | idle => exact (UInt32.add_zero _).symm

theorem sound_tick {e0 : UInt32} {n : Nat} {s : System ι Inode Policy}
    (h : Sound e0 n s) (j : ι) :
    Sound e0 (n + (s.locals j).increments) (Threads.tick (fun _ => step K) s j).1 := by
  have hle : n ≤ n + (s.locals j).increments := Nat.le_add_right _ _
  refine ⟨?_, fun i ino mem pc' e hi he => ?_, fun ino v hv => ?_⟩
  · rw [epoch_of_tick, h.epoch, UInt32.ofNat_add, UInt32.add_assoc]
  · obtain ⟨pc, hpc, rfl | rfl⟩ := call_of_tick hi
    · exact (h.held i ino mem pc' e hpc he).mono hle
    · rcases readEpoch_verifyFile he with hold | rfl
      · exact (h.held i ino mem pc e hpc hold).mono hle
      · exact ⟨n, hle, h.epoch⟩
  · rcases verdict_of_tick hv with ⟨u, hu, he⟩ | ⟨mem, pc, hpc, hst⟩
    · rw [he]
      exact (h.stored ino u hu).mono hle
    · exact (h.held j ino mem pc _ hpc (readEpoch_of_storeEpoch hst)).mono hle

/-- While the signature is refused, nothing new is stored. -/
theorem stale_tick {e0 : UInt32} {n : Nat} {ino : Inode}
    {s : System ι Inode Policy} (h : Stale e0 n ino s)
    (hbad : K.accepts s.shared.policy ino = false) (j : ι) :
    Stale e0 n ino (Threads.tick (fun _ => step K) s j).1 := by
  refine ⟨fun i mem pc' e hi he => ?_, fun v hv => ?_⟩
  · obtain ⟨pc, hpc, rfl | rfl⟩ := call_of_tick hi
    · exact h.held i mem pc' e hpc he
    · rcases storeEpoch_verifyFile he with hold | ⟨-, hok⟩
      · exact h.held i mem pc e hpc hold
      · rw [hbad] at hok
        cases hok
  · rcases verdict_of_tick hv with ⟨u, hu, he⟩ | ⟨mem, pc, hpc, hst⟩
    · rw [he]
      exact h.stored u hu
    · exact h.held j mem pc _ hpc hst

/-- A call on `ino` that began after the increment `n + 1`: the epoch it holds is not
one from before, and it is not going to be approved. -/
def Late (e0 : UInt32) (n : Nat) (ino : Inode) (t : Thread Inode Policy) : Prop :=
  ∃ mem pc, t = .call ino mem pc ∧ storeEpoch pc = none ∧
    (∀ e, readEpoch pc = some e → ¬ Seen e0 n e) ∧
    ∀ r, pc = .returned r → r = -EPERM

theorem late_verifyFile {e0 : UInt32} {n : Nat} {ino : Inode} {mem : Bool}
    {g : Gate Inode Policy} {pc : Pc}
    (hnow : ¬ Seen e0 n g.epoch) (hstale : ∀ v, g.verdictMap ino = some v → Seen e0 n v.epoch)
    (hbad : K.accepts g.policy ino = false)
    (h : Late e0 n ino (.call ino mem pc : Thread Inode Policy)) :
    Late e0 n ino (.call ino mem (verifyFile K ino mem g pc).2 : Thread Inode Policy) := by
  obtain ⟨_, _, hcall, hstore, hread, hret⟩ := h
  cases hcall
  refine ⟨mem, _, rfl, ?_, fun e he => ?_, fun r hr => ?_⟩
  · cases hst : storeEpoch (verifyFile K ino mem g pc).2 with
    | none => rfl
    | some e =>
      rcases storeEpoch_verifyFile hst with hold | ⟨-, hok⟩
      · rw [hstore] at hold
        cases hold
      · rw [hbad] at hok
        cases hok
  · rcases readEpoch_verifyFile he with hold | rfl
    · exact hread e hold
    · exact hnow
  · rcases returned_verifyFile hr with hold | ⟨v, hv, rfl⟩ | ⟨e, he⟩ | herr
    · exact hret r hold
    · exact absurd (hstale v hv) (hread _ rfl)
    · rw [hstore] at he
      cases he
    · exact herr

theorem late_tick {e0 : UInt32} {n : Nat} {ino : Inode} {s : System ι Inode Policy} {i : ι}
    (hnow : ¬ Seen e0 n s.shared.epoch) (hstale : Stale e0 n ino s)
    (hbad : K.accepts s.shared.policy ino = false) (h : Late e0 n ino (s.locals i)) (j : ι) :
    Late e0 n ino ((Threads.tick (fun _ => step K) s j).1.locals i) := by
  rcases eq_or_ne i j with rfl | hne
  · simp only [Threads.tick, Function.update_self]
    obtain ⟨mem, pc, hcall, hrest⟩ := h
    rw [hcall]
    exact late_verifyFile hnow hstale.stored hbad ⟨mem, pc, rfl, hrest⟩
  · simpa only [Threads.tick, Function.update_of_ne hne] using h

/-! ## Runs -/

variable {g : Gate Inode Policy} {threads : ι → Thread Inode Policy}

theorem after_snoc (sched : List ι) (j : ι) : after K g threads (sched ++ [j]) =
    (Threads.tick (fun _ => step K) (after K g threads sched) j).1 :=
  Threads.after_snoc sched j

theorem increments_snoc (sched : List ι) (j : ι) : increments K g threads (sched ++ [j]) =
    increments K g threads sched + ((after K g threads sched).locals j).increments :=
  tally_snoc _ sched j

theorem sound_after (hempty : ∀ ino, g.verdictMap ino = none) (hfresh : ∀ i, (threads i).Fresh)
    (sched : List ι) :
    Sound g.epoch (increments K g threads sched)
      (after K g threads sched) := by
  induction sched using List.reverseRecOn with
  | nil =>
    refine ⟨(UInt32.add_zero _).symm, fun i ino mem pc e hi he => ?_, fun ino v hv => ?_⟩
    · have hstart := hfresh i
      rw [show threads i = .call ino mem pc from hi] at hstart
      rw [show pc = .start from hstart] at he
      cases he
    · cases (hempty ino).symm.trans hv
  | append_singleton sched j ih =>
    rw [increments_snoc, after_snoc]
    exact sound_tick ih j

/-- A thread that is to increment the epoch and has done so. -/
theorem increments_lt {j : ι} {before : List ι}
    (hchanged : (after K g threads before).locals j = .increment) (mid : List ι)
    (hdone : (after K g threads (before ++ mid)).locals j = .idle) :
    increments K g threads before < increments K g threads (before ++ mid) := by
  -- until it has, it is still to do so
  have hwait : (after K g threads (before ++ mid)).locals j = .increment ∨
      increments K g threads before < increments K g threads (before ++ mid) := by
    clear hdone
    induction mid using List.reverseRecOn with
    | nil => exact Or.inl (by rwa [List.append_nil])
    | append_singleton mid i ih =>
      rw [← List.append_assoc, increments_snoc]
      rcases ih with hj | hlt
      · rcases eq_or_ne i j with rfl | hne
        · rw [hj]
          exact Or.inr (Nat.lt_succ_of_le (tally_le_append _ _ _))
        · refine Or.inl ?_
          rw [after_snoc, ← hj]
          exact Function.update_of_ne hne.symm _ _
      · exact Or.inr (Nat.lt_add_right _ hlt)
  rcases hwait with hj | hlt
  · rw [hj] at hdone
    cases hdone
  · exact hlt

/-- While the signature is refused after `before`, what is stored is stale. -/
theorem stale_after (hempty : ∀ ino, g.verdictMap ino = none)
    (hfresh : ∀ i, (threads i).Fresh) {ino : Inode} {before later : List ι}
    (hbad : ∀ pre, pre <+: later →
      K.accepts (after K g threads (before ++ pre)).shared.policy ino = false) :
    Stale g.epoch (increments K g threads before) ino
      (after K g threads (before ++ later)) := by
  refine prefix_history (P := fun later => Stale g.epoch (increments K g threads before) ino
    (after K g threads (before ++ later))) ?_ ?_
  · rw [List.append_nil]
    exact (sound_after hempty hfresh before).stale ino
  · intro pre j post he ih
    rw [← List.append_assoc, after_snoc]
    exact stale_tick ih (hbad pre ⟨j :: post, he.symm⟩) j

/-- A call that begins after the increment, while the signature is refused. -/
theorem late_after (hempty : ∀ ino, g.verdictMap ino = none) (hfresh : ∀ i, (threads i).Fresh)
    {i j : ι} {ino : Inode} {mem : Bool} {before mid rest : List ι}
    (hchanged : (after K g threads before).locals j = .increment)
    (hdone : (after K g threads (before ++ mid)).locals j = .idle)
    (hbegin : (after K g threads (before ++ mid)).locals i = .call ino mem .start)
    (hbad : ∀ pre, pre <+: mid ++ rest →
      K.accepts (after K g threads (before ++ pre)).shared.policy ino = false)
    (hfew : increments K g threads (before ++ mid ++ rest) < 2 ^ 32) :
    Late g.epoch (increments K g threads before) ino
      ((after K g threads (before ++ mid ++ rest)).locals i) := by
  refine prefix_history (P := fun rest => Late g.epoch (increments K g threads before) ino
    ((after K g threads (before ++ mid ++ rest)).locals i)) ?_ ?_
  · rw [List.append_nil, hbegin]
    exact ⟨mem, .start, rfl, rfl, (fun e he => by cases he), fun r hr => by cases hr⟩
  · intro pre k post he ih
    have hsplit : before ++ mid ++ rest = (before ++ mid ++ pre) ++ (k :: post) := by
      rw [he, List.append_assoc (before ++ mid)]
    have hlt : increments K g threads before <
        increments K g threads (before ++ mid ++ pre) :=
      Nat.lt_of_lt_of_le (increments_lt hchanged mid hdone) (tally_le_append _ _ _)
    have hbound : increments K g threads (before ++ mid ++ pre) < 2 ^ 32 := by
      rw [hsplit] at hfew
      exact Nat.lt_of_le_of_lt (tally_le_append _ _ _) hfew
    have hnow : ¬ Seen g.epoch (increments K g threads before)
        (after K g threads (before ++ mid ++ pre)).shared.epoch := by
      rw [(sound_after hempty hfresh _).epoch]
      exact fun hseen => hseen.ne hlt hbound rfl
    have hstale : Stale g.epoch (increments K g threads before) ino
        (after K g threads (before ++ mid ++ pre)) := by
      rw [List.append_assoc]
      refine stale_after hempty hfresh fun pre' hpre' => hbad pre' (hpre'.trans ?_)
      exact ⟨k :: post, by rw [he, List.append_assoc]⟩
    have hrefused := hbad (mid ++ pre) ⟨k :: post, by rw [he, List.append_assoc]⟩
    rw [← List.append_assoc] at hrefused
    rw [← List.append_assoc, after_snoc]
    exact late_tick hnow hstale hrefused ih k

end System

end ExecGateLemmas

open ExecGateLemmas

/-! ## 1. A revoked signature is not approved -/

section Main

variable {ι : Type} [DecidableEq ι]

/-- Thread `j` has made its change after `before` and the increment that follows it
after `mid`; there the call `i` on `ino` begins. From the change on, the signature
of the file is refused. Then, after any `rest` of fewer than 2^32 increments in
all, the call has not returned 0. -/
theorem revoked_not_approved (K : Kfuncs Inode Policy Keyring) (g : Gate Inode Policy)
    (hempty : ∀ ino, g.verdictMap ino = none) (threads : ι → Thread Inode Policy)
    (hfresh : ∀ i, (threads i).Fresh) {i j : ι} {ino : Inode} {mem : Bool}
    {before mid rest : List ι}
    (hchanged : (after K g threads before).locals j = .increment)
    (hdone : (after K g threads (before ++ mid)).locals j = .idle)
    (hbegin : (after K g threads (before ++ mid)).locals i = .call ino mem .start)
    (hbad : ∀ pre, pre <+: mid ++ rest →
      K.accepts (after K g threads (before ++ pre)).shared.policy ino = false)
    (hfew : increments K g threads (before ++ mid ++ rest) < 2 ^ 32) :
    (after K g threads (before ++ mid ++ rest)).locals i ≠
      .call ino mem (.returned 0) := by
  intro hzero
  obtain ⟨_, _, hcall, -, -, hret⟩ := late_after hempty hfresh hchanged hdone hbegin hbad hfew
  rw [hzero] at hcall
  cases hcall
  cases hret 0 rfl

/-- The policy is whether the signer's key is trusted. -/
def exKfuncs : Kfuncs Nat Bool Bool where
  getFsverityDigest _ := some []
  getFileXattr _ := some []
  lookupSystemKey trusted _ := some trusted
  verifyPkcs7Signature _ _ kr := kr

/-- Two calls on one inode, and a revocation of the key. -/
def exThreads (i : Fin 3) : Thread Nat Bool :=
  if i.val = 1 then .change fun _ => false else .call 5 true .start

def exGate : Gate Nat Bool := ⟨true, 0, fun _ => none⟩

/-- The first call verifies before the revocation and stores its verdict after the
increment. The second then finds it and is refused. -/
theorem exThreads_refused :
    (after exKfuncs exGate exThreads
      ([0, 0, 0, 1] ++ [1] ++ [0, 0, 0, 2, 2, 2, 2, 2])).shared.verdictMap 5 =
      some ⟨true, 0⟩ ∧
    (after exKfuncs exGate exThreads ([0, 0, 0, 1] ++ [1] ++ [0, 0, 0, 2, 2, 2, 2, 2])).locals 2 ≠
      .call 5 true (.returned 0) := by
  have hfresh : ∀ i, (exThreads i).Fresh := by
    intro i
    unfold exThreads
    split
    · exact trivial
    · exact rfl
  have hbad : ∀ pre ∈ ([1] ++ [0, 0, 0, 2, 2, 2, 2, 2] : List (Fin 3)).inits,
      exKfuncs.accepts (after exKfuncs exGate exThreads ([0, 0, 0, 1] ++ pre)).shared.policy 5 =
        false := by
    decide +kernel
  refine ⟨by decide +kernel, ?_⟩
  exact revoked_not_approved exKfuncs exGate (fun _ => rfl) exThreads hfresh (j := 1) rfl rfl rfl
    (fun pre hpre => hbad pre ((List.mem_inits _ _).mpr hpre)) (by decide +kernel)

/-! ## 2. The hooks -/

/-- The verdict of such a call keeps both gates shut. -/
theorem gates_refuse {K : Kfuncs Inode Policy Keyring} {g : Gate Inode Policy}
    (hempty : ∀ ino, g.verdictMap ino = none) {threads : ι → Thread Inode Policy}
    (hfresh : ∀ i, (threads i).Fresh) {i j : ι} {ino : Inode} {mem : Bool}
    {before mid rest : List ι} (hchanged : (after K g threads before).locals j = .increment)
    (hdone : (after K g threads (before ++ mid)).locals j = .idle)
    (hbegin : (after K g threads (before ++ mid)).locals i = .call ino mem .start)
    (hbad : ∀ pre, pre <+: mid ++ rest →
      K.accepts (after K g threads (before ++ pre)).shared.policy ino = false)
    (hfew : increments K g threads (before ++ mid ++ rest) < 2 ^ 32) {r : Int}
    (hret : (after K g threads (before ++ mid ++ rest)).locals i = .call ino mem (.returned r))
    (view : InodeView) (denyAnonExec : Bool) {prot : Nat} (hexec : prot &&& PROT_EXEC ≠ 0) :
    execGate view r = -EPERM ∧ mmapGate denyAnonExec (some view) prot r = -EPERM := by
  obtain ⟨_, _, hcall, -, -, herr⟩ := late_after hempty hfresh hchanged hdone hbegin hbad hfew
  rw [hret] at hcall
  cases hcall
  rw [herr r rfl, execGate, mmapGate, if_neg hexec]
  exact ⟨ite_self _, ite_self _⟩

end Main

end Ebpf101.ExecGate
