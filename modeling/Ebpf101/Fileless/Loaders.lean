import Ebpf101.Lib.CopyLoop

/-!
# The loaders of the fileless lab

Chapter 25, `25-fileless-lab/src`: `memfd_exec.c`, `memfd_execveat.c`, `tmpfile_exec.c`
and `deleted_exec.c` copy an ELF file to a descriptor without a name and execute it from
there. Each is a copy loop between two opens and an exec call; the loops are four texts
of one loop, what follows them is not the same.

Results:
1. `loaders_complete_iff`: every loop ends, and every loader that comes to its exec call
   has the whole file in the target, if and only if it does not happen to
   `tmpfile_exec` that a read fails while bytes of the file are unread.
   `tmpfileExec_execs_part`: a read that fails there, and the part that is executed.
-/

namespace Ebpf101.Fileless

open CopyLoop

/-! ## The programs -/

/-- `sizeof buf`. -/
def BUF : Nat := 65536

/-- What a loader meets: its arguments, the file that they name and the outcomes of its
system calls. A copy is opened again under its name, so the target is the same file. -/
structure Env where
  argv0 : String
  args : List String
  content : List UInt8
  opens : Bool
  -- The descriptor of the target, if it can be created.
  target : Option Nat
  calls : Calls
  reopens : Bool
  unlinks : Bool

/-- How far a loader comes: it returns, or it makes its exec call on a descriptor with
that content, and returns 1 with the text `failed` if that fails. `stderr` are the lines
it has written, an error of the system being shown as the argument of `perror`. -/
inductive Outcome where
  | returns (code : Nat) (stderr : List String)
  | execs (stderr : List String) (target : List UInt8) (failed : String)
deriving DecidableEq, Repr

def usage (env : Env) : String := "usage: " ++ env.argv0 ++ " <elf>\n"

/-- The copy loop of every loader. -/
def copyLoop (fuel : Nat) (env : Env) : Option (Ended × Copy UInt8) :=
  run BUF env.calls fuel (Copy.start env.content)

/-- The texts of the errors before the end of the loop. -/
structure Texts where
  opens : String
  target : String
  write : String
  read : String

/-- A loader that checks the last result of `read`. `created` is printed when the target
is there, `last` is what comes behind the loop. -/
def checkedLoader (texts : Texts) (created : Nat → List String)
    (last : Nat → List String → Copy UInt8 → Outcome) (fuel : Nat) (env : Env) : Option Outcome :=
  if env.args = [] then some (.returns 2 [usage env])
  else if !env.opens then some (.returns 1 [texts.opens])
  else
    match env.target with
    | none => some (.returns 1 [texts.target])
    | some fd =>
      match copyLoop fuel env with
      | none => none
      | some (.writeFailed, _) => some (.returns 1 (created fd ++ [texts.write]))
      | some (.readFailed, _) => some (.returns 1 (created fd ++ [texts.read]))
      | some (.eof, c) => some (last fd (created fd) c)

/-- `memfd_exec`. Its `total` is the number of the bytes written. -/
def memfdExec : Nat → Env → Option Outcome :=
  checkedLoader ⟨"open payload", "memfd_create", "write memfd", "read payload"⟩
    (fun fd => ["[loader] memfd_create() -> fd " ++ toString fd ++ "\n"])
    fun fd stderr c =>
      .execs
        (stderr ++
          ["[loader] wrote " ++
            toString c.target.length ++ " ELF bytes into the memfd (nothing on disk)\n",
            "[loader] execve(\"/proc/self/fd/" ++ toString fd ++ "\", ...)\n"])
        c.target "execve"

/-- `memfd_execveat`. -/
def memfdExecveat : Nat → Env → Option Outcome :=
  checkedLoader ⟨"open payload", "memfd_create", "write memfd", "read payload"⟩ (fun _ => [])
    fun _ stderr c => .execs stderr c.target "execveat"

/-- `deleted_exec`. -/
def deletedExec (fuel : Nat) (env : Env) : Option Outcome :=
  checkedLoader ⟨"open", "open copy", "write copy", "read"⟩ (fun _ => [])
    (fun _ stderr c =>
      if !env.reopens then .returns 1 (stderr ++ ["reopen copy"])
      else if !env.unlinks then .returns 1 (stderr ++ ["unlink"])
      else .execs stderr c.target "fexecve")
    fuel env

/-- `tmpfile_exec`. A write that fails is not reported, and a read that fails ends the
loop as the end of the file does. -/
def tmpfileExec (fuel : Nat) (env : Env) : Option Outcome :=
  if env.args = [] then some (.returns 2 [usage env])
  else if !env.opens then some (.returns 1 ["open src"])
  else
    match env.target with
    | none => some (.returns 1 ["open O_TMPFILE"])
    | some _ =>
      match copyLoop fuel env with
      | none => none
      | some (.writeFailed, _) => some (.returns 1 [])
      | some (_, c) =>
        if !env.reopens then some (.returns 1 ["reopen ro"])
        else some (.execs [] c.target "fexecve")

/-- The four programs. -/
inductive Loader where
  | memfdExec
  | memfdExecveat
  | tmpfileExec
  | deletedExec
deriving DecidableEq, Repr

def Loader.main : Loader → Nat → Env → Option Outcome
  | .memfdExec => Fileless.memfdExec
  | .memfdExecveat => Fileless.memfdExecveat
  | .tmpfileExec => Fileless.tmpfileExec
  | .deletedExec => Fileless.deletedExec

/-! ## Statements -/

/-- A loader ends its loop, and executes nothing but a complete copy. -/
structure CompleteCopy (env : Env) (loader : Loader) : Prop where
  ends : ∃ enough, ∀ fuel, enough ≤ fuel → ∃ o, loader.main fuel env = some o
  complete : ∀ fuel stderr target failed,
    loader.main fuel env = some (.execs stderr target failed) → target = env.content

/-- A read of the loop fails although the file has bytes that were not read. -/
def ReadFailsEarly (env : Env) : Prop :=
  ∃ c, Reaches BUF env.calls (Copy.start env.content) c ∧ ¬ c.o < c.buf.length ∧
    env.calls.read c.reads = none ∧ c.rest ≠ []

/-- Every other call of `tmpfile_exec` up to its exec call succeeds. -/
def TmpfileOpens (env : Env) : Prop :=
  env.args ≠ [] ∧ env.opens = true ∧ env.target.isSome = true ∧ env.reopens = true

namespace LoadersLemmas

theorem BUF_pos : 0 < BUF := by decide

/-! ## The loop -/

theorem copyLoop_ends {fuel : Nat} {env : Env} {e : Ended} {c : Copy UInt8}
    (h : copyLoop fuel env = some (e, c)) : Ends BUF env.calls (Copy.start env.content) e c :=
  run_some h

/-- The calls that the loop can need. -/
theorem copyLoop_some {fuel : Nat} {env : Env} (h : 2 * env.content.length + 1 ≤ fuel) :
    ∃ e c, copyLoop fuel env = some (e, c) :=
  run_ends BUF env.calls h

theorem eof_complete {fuel : Nat} {env : Env} {c : Copy UInt8}
    (h : copyLoop fuel env = some (.eof, c)) :
    c.target = env.content :=
  (copyLoop_ends h).eof_target BUF_pos

/-! ## Loaders that check -/

section Checked

variable {texts : Texts} {created : Nat → List String}
  {last : Nat → List String → Copy UInt8 → Outcome}
  {env : Env}

theorem checkedLoader_ends {fuel : Nat} (h : 2 * env.content.length + 1 ≤ fuel) :
    ∃ o, checkedLoader texts created last fuel env = some o := by
  obtain ⟨e, c, hloop⟩ := copyLoop_some h
  unfold checkedLoader
  rw [hloop]
  split
  · exact ⟨_, rfl⟩
  · split
    · exact ⟨_, rfl⟩
    · cases env.target with
      | none => exact ⟨_, rfl⟩
      | some fd => cases e <;> exact ⟨_, rfl⟩

/-- An exec call comes behind the loop, and the loop ended at the end of the file. -/
theorem checkedLoader_execs {fuel : Nat} {stderr : List String} {target : List UInt8}
    {failed : String}
    (h : checkedLoader texts created last fuel env = some (.execs stderr target failed)) :
    ∃ fd c, copyLoop fuel env = some (.eof, c) ∧
      last fd (created fd) c = .execs stderr target failed := by
  unfold checkedLoader at h
  split at h
  · cases h
  · split at h
    · cases h
    · cases ht : env.target with
      | none => rw [ht] at h; cases h
      | some fd =>
        rw [ht] at h
        dsimp only at h
        split at h
        · cases h
        · cases h
        · cases h
        · next c hloop => exact ⟨fd, c, hloop, Option.some.inj h⟩

/-- A loader that checks and executes what it has copied. -/
theorem complete_of_checked {loader : Loader}
    (hmain : ∀ fuel, loader.main fuel env = checkedLoader texts created last fuel env)
    (hlast : ∀ fd lines c stderr target failed, last fd lines c = .execs stderr target failed →
      c.target = target) :
    CompleteCopy env loader := by
  constructor
  · refine ⟨2 * env.content.length + 1, fun fuel hfuel => ?_⟩
    rw [hmain]
    exact checkedLoader_ends hfuel
  · intro fuel stderr target failed h
    rw [hmain] at h
    obtain ⟨fd, c, hloop, hexec⟩ := checkedLoader_execs h
    rw [← hlast _ _ _ _ _ _ hexec, eof_complete hloop]

end Checked

theorem memfdExec_complete (env : Env) : CompleteCopy env .memfdExec := by
  refine complete_of_checked (fun _ => by rw [Loader.main, memfdExec])
    fun fd lines c stderr target failed h => ?_
  cases h
  rfl

theorem memfdExecveat_complete (env : Env) : CompleteCopy env .memfdExecveat := by
  refine complete_of_checked (fun _ => by rw [Loader.main, memfdExecveat])
    fun fd lines c stderr target failed h => ?_
  cases h
  rfl

theorem deletedExec_complete (env : Env) : CompleteCopy env .deletedExec := by
  refine complete_of_checked (fun _ => by rw [Loader.main, deletedExec])
    fun fd lines c stderr target failed h => ?_
  split at h
  · cases h
  · split at h
    · cases h
    · cases h
      rfl

/-! ## The one that does not -/

theorem tmpfileExec_ends {env : Env} {fuel : Nat} (h : 2 * env.content.length + 1 ≤ fuel) :
    ∃ o, tmpfileExec fuel env = some o := by
  obtain ⟨e, c, hloop⟩ := copyLoop_some h
  unfold tmpfileExec
  rw [hloop]
  split
  · exact ⟨_, rfl⟩
  · split
    · exact ⟨_, rfl⟩
    · cases env.target with
      | none => exact ⟨_, rfl⟩
      | some fd => cases e <;> cases env.reopens <;> exact ⟨_, rfl⟩

/-- An exec call comes behind the loop, however the reading ended. -/
theorem tmpfileExec_execs {env : Env} {fuel : Nat} {stderr : List String} {target : List UInt8}
    {failed : String} (h : tmpfileExec fuel env = some (.execs stderr target failed)) :
    TmpfileOpens env ∧
      ∃ c, (copyLoop fuel env = some (.eof, c) ∨ copyLoop fuel env = some (.readFailed, c)) ∧
        c.target = target := by
  unfold tmpfileExec at h
  split at h
  · cases h
  · next hargs =>
    split at h
    · cases h
    · next hopens =>
      rw [Bool.not_eq_true', Bool.not_eq_false] at hopens
      cases ht : env.target with
      | none => rw [ht] at h; cases h
      | some fd =>
        rw [ht] at h
        dsimp only at h
        cases hr : env.reopens with
        | false =>
          rw [hr] at h
          split at h <;> cases h
        | true =>
          rw [hr] at h
          have hopened : TmpfileOpens env := ⟨hargs, hopens, by rw [ht]; rfl, hr⟩
          match hloop : copyLoop fuel env with
          | none => rw [hloop] at h; cases h
          | some (.writeFailed, c) => rw [hloop] at h; cases h
          | some (.eof, c) =>
            rw [hloop] at h
            cases h
            exact ⟨hopened, c, Or.inl rfl, rfl⟩
          | some (.readFailed, c) =>
            rw [hloop] at h
            cases h
            exact ⟨hopened, c, Or.inr rfl, rfl⟩

/-- A read that fails leads to the exec call. -/
theorem tmpfileExec_of_readFailed {env : Env} {fuel : Nat} {c : Copy UInt8}
    (hopened : TmpfileOpens env) (hloop : copyLoop fuel env = some (.readFailed, c)) :
    tmpfileExec fuel env = some (.execs [] c.target "fexecve") := by
  obtain ⟨hargs, hopens, htarget, hreopens⟩ := hopened
  obtain ⟨fd, ht⟩ := Option.isSome_iff_exists.mp htarget
  rw [tmpfileExec, if_neg hargs, hopens, ht, hloop, hreopens]
  rfl

theorem tmpfileExec_complete_iff (env : Env) :
    CompleteCopy env .tmpfileExec ↔ ¬ (TmpfileOpens env ∧ ReadFailsEarly env) := by
  constructor
  · rintro hcomplete ⟨hopened, c, hreach, ho, hread, hrest⟩
    have hend : Ends BUF env.calls (Copy.start env.content) .readFailed c :=
      ⟨hreach, step_readFailed ho hread⟩
    obtain ⟨e, c', hloop⟩ := copyLoop_some (Nat.le_refl (2 * env.content.length + 1))
    obtain ⟨rfl, rfl⟩ := (copyLoop_ends hloop).unique hend
    have htarget := hcomplete.complete _ _ _ _ (tmpfileExec_of_readFailed hopened hloop)
    exact hrest ((hend.readFailed_target BUF_pos).mp htarget)
  · intro hnot
    refine ⟨⟨2 * env.content.length + 1, fun fuel hfuel => tmpfileExec_ends hfuel⟩, ?_⟩
    intro fuel stderr target failed h
    obtain ⟨hopened, c, hloop | hloop, rfl⟩ := tmpfileExec_execs h
    · exact eof_complete hloop
    · have hend := copyLoop_ends hloop
      rw [hend.readFailed_target BUF_pos]
      rcases step_error_cases BUF_pos hend.ends with ⟨he, -⟩ | ⟨-, ho, hread⟩ | ⟨he, -⟩
      · cases he
      · exact Classical.byContradiction fun hrest =>
          hnot ⟨hopened, c, hend.reaches, ho, hread, hrest⟩
      · cases he

end LoadersLemmas

open LoadersLemmas

/-! ## 1. Complete copies -/

/-- For every file, and whatever the calls return. -/
theorem loaders_complete_iff (env : Env) :
    (∀ loader, CompleteCopy env loader) ↔ ¬ (TmpfileOpens env ∧ ReadFailsEarly env) := by
  rw [← tmpfileExec_complete_iff]
  constructor
  · exact fun h => h .tmpfileExec
  · intro h loader
    cases loader with
    | memfdExec => exact memfdExec_complete env
    | memfdExecveat => exact memfdExecveat_complete env
    | tmpfileExec => exact h
    | deletedExec => exact deletedExec_complete env

/-- A file of four bytes: the first read returns two of them, the second one fails. -/
def exHalfRead : Env where
  argv0 := "tmpfile_exec"
  args := ["hello"]
  content := [0x7F, 0x45, 0x4C, 0x46]
  opens := true
  target := some 4
  calls := ⟨fun i => if i = 0 then some 2 else none, fun _ => some 2⟩
  reopens := true
  unlinks := true

/-- Half of the file is executed; the other loaders report the error. -/
theorem tmpfileExec_execs_part :
    tmpfileExec 9 exHalfRead = some (.execs [] [0x7F, 0x45] "fexecve") ∧
    deletedExec 9 exHalfRead = some (.returns 1 ["read"]) ∧
    ¬ CompleteCopy exHalfRead .tmpfileExec := by
  have hexec : tmpfileExec 9 exHalfRead = some (.execs [] [0x7F, 0x45] "fexecve") := by
    decide +kernel
  refine ⟨hexec, by decide +kernel, fun h => ?_⟩
  exact absurd (h.complete 9 _ _ _ hexec) (by decide)

end Ebpf101.Fileless
