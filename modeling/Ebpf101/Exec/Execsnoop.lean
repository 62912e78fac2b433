import Mathlib.Logic.Function.Basic
import Mathlib.Data.List.ReduceOption
import Ebpf101.UserMemory
import Ebpf101.Lib.Runs

/-!
# execsnoop

Chapter 8, `08-argv-libbpf`. The probe splits the argument list of an `execve`
call over fixed-size records, one for each argument and an end marker; user
space puts them together again in a table of slots indexed by `pid % TABLE_SIZE`
and prints a line at the end marker.
-/

namespace Ebpf101.Exec

def MAXARGS : Nat := 20
def ARGSIZE : Nat := 128
def TABLE_SIZE : Nat := 4096

/-! ## The calls -/

/-- What the probe sees of an `execve` call: who calls, and the strings that
`argv` points to, up to its NULL; `none` is one that cannot be read. -/
structure Call where
  pid : Pid
  uid : Nat
  comm : Comm
  argv : List (Option CString)
deriving DecidableEq

/-- The text of an argument that goes into a record. -/
def text (a : Option CString) : List UInt8 := cut ARGSIZE a

/-! ## Kernel side -/

inductive EventType where
  | arg
  | ret
deriving DecidableEq, Repr

/-- `struct event`. -/
structure Event where
  pid : Pid
  uid : Nat
  comm : Comm
  type : EventType
  arg : List UInt8
deriving DecidableEq

/-- The record of an argument; `stale` is what the record's buffer held. -/
def argEvent (c : Call) (stale : List UInt8) (a : Option CString) : Event :=
  ⟨c.pid, c.uid, c.comm, .arg, probeReadUserStr ARGSIZE stale a⟩

def retEvent (c : Call) (stale : List UInt8) : Event :=
  ⟨c.pid, c.uid, c.comm, .ret, 0 :: stale.drop 1⟩

/-- The end of `trace_execve`. `reserve i` is what the `i`-th call of
`bpf_ringbuf_reserve` returns: the bytes of the record as they were, or `none`
when the ring is full. -/
def endMarker (c : Call) (reserve : Nat → Option (List UInt8)) (i : Nat) : List Event :=
  match reserve i with
  | none => []
  | some stale => [retEvent c stale]

/-- The loop of `trace_execve`, with `room` turns left and the `i`-th reservation
next. -/
def emit (c : Call) (reserve : Nat → Option (List UInt8)) :
    Nat → Nat → List (Option CString) → List Event
  | room + 1, i, a :: as =>
    match reserve i with
    | none => []
    | some stale => argEvent c stale a :: emit c reserve room (i + 1) as
  | _, i, _ => endMarker c reserve i

/-- The records of one call, in order. -/
def traceExecve (c : Call) (reserve : Nat → Option (List UInt8)) : List Event :=
  emit c reserve MAXARGS 0 c.argv

/-! ## User space -/

/-- `strncpy(dst, src, ARGSIZE - 1)` and a NUL in the last byte. -/
def strncpyArg (src : List UInt8) : List UInt8 :=
  let s := (cstr src).take (ARGSIZE - 1)
  s ++ List.replicate (ARGSIZE - s.length) 0

/-- `struct pending`; `argv` are its first `argc` buffers. -/
structure Pending where
  active : Bool
  pid : Pid
  uid : Nat
  comm : Comm
  argv : List (List UInt8)
  argc_le : argv.length ≤ MAXARGS

/-- A slot of the zeroed table. -/
def Pending.zero : Pending := ⟨false, 0, 0, Comm.ofBytes [], [], Nat.zero_le _⟩

/-- A printed line. -/
structure Line where
  pid : Pid
  uid : Nat
  comm : Comm
  args : List (List UInt8)
deriving DecidableEq

abbrev Table := Fin TABLE_SIZE → Pending

def getSlot (pid : Pid) : Fin TABLE_SIZE := ⟨pid % TABLE_SIZE, Nat.mod_lt _ (by decide)⟩

/-- The slot is in use by the process of the record. -/
def Pending.isFor (p : Pending) (e : Event) : Bool := !(!p.active || p.pid != e.pid)

/-- `memset` and the identity of the record. -/
def Pending.start (e : Event) : Pending := ⟨true, e.pid, e.uid, e.comm, [], Nat.zero_le _⟩

/-- Appends the argument of the record, unless there are `MAXARGS` already. -/
def Pending.push (p : Pending) (e : Event) : Pending :=
  if h : p.argv.length < MAXARGS then
    { p with
      argv := p.argv ++ [strncpyArg e.arg]
      argc_le := by rw [List.length_append]; exact h }
  else p

/-- `handle_event` on the slot of the record. -/
def handleSlot (p : Pending) (e : Event) : Pending × Option Line :=
  match e.type with
  | .arg => ((if p.isFor e then p else Pending.start e).push e, none)
  | .ret =>
    if p.isFor e then
      ({ p with active := false }, some ⟨p.pid, p.uid, p.comm, p.argv.map cstr⟩)
    else (p, none)

def handleEvent (t : Table) (e : Event) : Table × Option Line :=
  (Function.update t (getSlot e.pid) (handleSlot (t (getSlot e.pid)) e).1,
    (handleSlot (t (getSlot e.pid)) e).2)

/-- The table after the records `es`. -/
def after (es : List Event) : Table := Runs.exec handleEvent (fun _ => Pending.zero) es

/-- The lines printed for the records `es`. -/
def printed (es : List Event) : List Line :=
  (Runs.outs handleEvent (fun _ => Pending.zero) es).reduceOption

/-! ## The shape of a call's records -/

/-- `e` carries the `j`-th argument of the call. -/
structure IsArg (c : Call) (j : Nat) (e : Event) : Prop where
  pid : e.pid = c.pid
  uid : e.uid = c.uid
  comm : e.comm = c.comm
  type : e.type = .arg
  arg : ∃ a, c.argv[j]? = some a ∧ cstr e.arg = text a

/-- `e` is the end marker of the call. -/
structure IsRet (c : Call) (e : Event) : Prop where
  pid : e.pid = c.pid
  type : e.type = .ret

/-- The line of a call: its first `MAXARGS` arguments. -/
def lineOf (c : Call) : Line := ⟨c.pid, c.uid, c.comm, (c.argv.take MAXARGS).map text⟩

/-- The slot holds the first `m` arguments of the call. -/
structure Holds (c : Call) (m : Nat) (p : Pending) : Prop where
  active : p.active = true
  pid : p.pid = c.pid
  uid : p.uid = c.uid
  comm : p.comm = c.comm
  argc : p.argv.length = m
  args : p.argv.map cstr = (c.argv.take m).map text

namespace ExecsnoopLemmas

/-! ## Strings -/

/-- The string that a slot holds. -/
theorem cstr_strncpyArg {buf : List UInt8} {a : Option CString} (h : cstr buf = text a) :
    cstr (strncpyArg buf) = text a := by
  have hlen : (text a).length ≤ ARGSIZE - 1 := length_cut_le ARGSIZE a
  have hpos : 0 < ARGSIZE - (text a).length := by
    have : ARGSIZE - 1 < ARGSIZE := by decide
    omega
  obtain ⟨n, hn⟩ := Nat.exists_eq_succ_of_ne_zero (Nat.ne_of_gt hpos)
  simp only [strncpyArg, h, List.take_of_length_le hlen, hn, List.replicate_succ]
  exact cstr_append_zero (zero_not_mem_cut ARGSIZE a) _

/-! ## The records of a call -/

theorem endMarker_cases {c : Call} {reserve : Nat → Option (List UInt8)} {i j : Nat} {e : Event}
    (h : (endMarker c reserve i)[j]? = some e) : j = 0 ∧ ∃ stale, e = retEvent c stale := by
  unfold endMarker at h
  split at h
  · cases h
  · next stale _ =>
    cases j with
    | zero => exact ⟨rfl, stale, by simpa using h.symm⟩
    | succ j => simp at h

theorem emit_cases {c : Call} {reserve : Nat → Option (List UInt8)} {room i : Nat}
    {as : List (Option CString)} {j : Nat} {e : Event}
    (h : (emit c reserve room i as)[j]? = some e) :
    (j < min room as.length ∧ ∃ a stale, as[j]? = some a ∧ e = argEvent c stale a) ∨
    (j = min room as.length ∧ ∃ stale, e = retEvent c stale) := by
  induction as generalizing room i j with
  | nil =>
    obtain ⟨rfl, hr⟩ : j = 0 ∧ ∃ stale, e = retEvent c stale := by
      cases room <;> exact endMarker_cases h
    exact Or.inr ⟨by simp, hr⟩
  | cons a as ih =>
    cases room with
    | zero =>
      obtain ⟨rfl, hr⟩ := endMarker_cases h
      exact Or.inr ⟨by simp, hr⟩
    | succ room =>
      simp only [emit] at h
      split at h
      · cases h
      · next stale _ =>
        cases j with
        | zero => exact Or.inl ⟨by simp, a, stale, rfl, by simpa using h.symm⟩
        | succ j =>
          rw [List.getElem?_cons_succ] at h
          rw [List.length_cons]
          rcases ih h with ⟨hlt, b, st, hb, he⟩ | ⟨hj, hr⟩
          · exact Or.inl ⟨by omega, b, st, by simpa using hb, he⟩
          · exact Or.inr ⟨by omega, hr⟩

/-- A record of a call is one of its first arguments or, after all of them, the
end marker. -/
theorem record_cases {c : Call} {reserve : Nat → Option (List UInt8)} {j : Nat} {e : Event}
    (h : (traceExecve c reserve)[j]? = some e) :
    (j < min MAXARGS c.argv.length ∧ IsArg c j e) ∨
    (j = min MAXARGS c.argv.length ∧ IsRet c e) := by
  rcases emit_cases h with ⟨hlt, a, stale, ha, rfl⟩ | ⟨hj, stale, rfl⟩
  · exact Or.inl ⟨hlt, rfl, rfl, rfl, rfl, a, ha, cstr_probeReadUserStr ARGSIZE stale a⟩
  · exact Or.inr ⟨hj, rfl, rfl⟩

theorem length_traceExecve_le (c : Call) (reserve : Nat → Option (List UInt8)) :
    (traceExecve c reserve).length ≤ min MAXARGS c.argv.length + 1 := by
  by_contra hlt
  rcases record_cases (List.getElem?_eq_getElem (Nat.not_le.mp hlt)) with ⟨h, -⟩ | ⟨h, -⟩ <;> omega

/-- While the ring has room, a call sends all its records. -/
theorem length_traceExecve {c : Call} {reserve : Nat → Option (List UInt8)}
    (hroom : ∀ i, reserve i ≠ none) :
    (traceExecve c reserve).length = min MAXARGS c.argv.length + 1 := by
  have hend : ∀ i, (endMarker c reserve i).length = 1 := by
    intro i
    unfold endMarker
    split
    · next h => exact absurd h (hroom i)
    · rfl
  have hemit : ∀ (as : List (Option CString)) (room i : Nat),
      (emit c reserve room i as).length = min room as.length + 1 := by
    intro as
    induction as with
    | nil =>
      intro room i
      cases room <;> simpa [emit] using hend i
    | cons a as ih =>
      intro room i
      cases room with
      | zero => simpa [emit] using hend i
      | succ room =>
        simp only [emit]
        split
        · next h => exact absurd h (hroom i)
        · rw [List.length_cons, ih, List.length_cons]
          omega
  exact hemit c.argv MAXARGS 0

/-! ## One record in its slot -/

theorem isFor_iff {p : Pending} {e : Event} :
    p.isFor e = true ↔ p.active = true ∧ p.pid = e.pid := by
  simp [Pending.isFor]

theorem isFor_of_holds {c : Call} {m : Nat} {p : Pending} (h : Holds c m p) {e : Event}
    (he : e.pid = c.pid) : p.isFor e = true :=
  isFor_iff.mpr ⟨h.active, h.pid.trans he.symm⟩

theorem holds_push {c : Call} {m : Nat} {p : Pending} {e : Event} (h : Holds c m p)
    (hm : m < MAXARGS) (he : IsArg c m e) : Holds c (m + 1) (p.push e) := by
  obtain ⟨a, ha, hcstr⟩ := he.arg
  unfold Pending.push
  rw [dif_pos (h.argc.symm ▸ hm)]
  refine ⟨h.active, h.pid, h.uid, h.comm, ?_, ?_⟩
  · show (p.argv ++ [strncpyArg e.arg]).length = _
    rw [List.length_append, h.argc, List.length_singleton]
  · show (p.argv ++ [strncpyArg e.arg]).map cstr = _
    rw [List.map_append, h.args, List.take_add_one, ha, List.map_append]
    simp [cstr_strncpyArg hcstr]

/-- The first argument of a call, in a slot that is free or another process's. -/
theorem handleSlot_first {c : Call} {p : Pending} {e : Event} (hp : p.isFor e = false)
    (he : IsArg c 0 e) : Holds c 1 (handleSlot p e).1 ∧ (handleSlot p e).2 = none := by
  have hstart : Holds c 0 (Pending.start e) := ⟨rfl, he.pid, he.uid, he.comm, rfl, rfl⟩
  simp only [handleSlot, he.type, hp]
  exact ⟨holds_push hstart (by decide) he, trivial⟩

/-- The next argument of a call. -/
theorem handleSlot_next {c : Call} {m : Nat} {p : Pending} {e : Event} (h : Holds c m p)
    (hm : m < MAXARGS) (he : IsArg c m e) :
    Holds c (m + 1) (handleSlot p e).1 ∧ (handleSlot p e).2 = none := by
  simp only [handleSlot, he.type, isFor_of_holds h he.pid]
  exact ⟨holds_push h hm he, trivial⟩

/-- An argument beyond `MAXARGS` is ignored. -/
theorem handleSlot_full {c : Call} {p : Pending} {e : Event} (h : Holds c MAXARGS p)
    (he : e.pid = c.pid) (ht : e.type = .arg) : handleSlot p e = (p, none) := by
  have hpush : p.push e = p := by
    rw [Pending.push, dif_neg (by rw [h.argc]; exact Nat.lt_irrefl _)]
  simp only [handleSlot, ht, isFor_of_holds h he, if_true, hpush]

/-- An end marker of the process prints what the slot holds and frees it. -/
theorem handleSlot_ret {c : Call} {m : Nat} {p : Pending} {e : Event} (h : Holds c m p)
    (he : e.pid = c.pid) (ht : e.type = .ret) :
    (handleSlot p e).1.active = false ∧
    (handleSlot p e).2 = some ⟨c.pid, c.uid, c.comm, (c.argv.take m).map text⟩ := by
  simp only [handleSlot, ht, isFor_of_holds h he, if_true]
  exact ⟨trivial, by rw [h.pid, h.uid, h.comm, h.args]⟩

theorem getSlot_ne {a b : Pid} (h : a % TABLE_SIZE ≠ b % TABLE_SIZE) : getSlot a ≠ getSlot b :=
  fun he => h (congrArg Fin.val he)

/-- A record touches its own slot only. -/
theorem after_snoc_self (es : List Event) (e : Event) :
    after (es ++ [e]) (getSlot e.pid) = (handleSlot (after es (getSlot e.pid)) e).1 := by
  rw [after, Runs.exec_snoc]
  exact Function.update_self _ _ _

theorem after_snoc_ne {k : Fin TABLE_SIZE} {e : Event} (h : k ≠ getSlot e.pid) (es : List Event) :
    after (es ++ [e]) k = after es k := by
  rw [after, Runs.exec_snoc]
  exact Function.update_of_ne h _ _

theorem printed_snoc (es : List Event) (e : Event) :
    printed (es ++ [e]) =
      printed es ++ (handleSlot (after es (getSlot e.pid)) e).2.toList := by
  rw [printed, Runs.outs_snoc, List.reduceOption_append, List.reduceOption_singleton]
  rfl

end ExecsnoopLemmas

end Ebpf101.Exec
