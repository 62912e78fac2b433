import Ebpf101.Exec.Execsnoop
import Ebpf101.Lib.Interleave

/-!
# execsnoop: back-pressure

When the ring is full, `trace_execve` gives up: the remaining arguments and the
end marker of the call are lost. User space then keeps what it has of the call in
its slot.

Results:
1. `lines_of_single_calls`: as long as no argument arrives while arguments of
   another call of the process are still pending, every line consists of
   arguments of one call, a prefix of its list.
   `lost_marker_joins`: a lost end marker joins the arguments of two calls.
-/

namespace Ebpf101.Exec

open Runs Interleave

variable {n : Nat}

/-- The records of call `i` that found room in the ring. -/
def delivered (calls : Fin n → Call) (reserve : Fin n → Nat → Option (List UInt8)) (i : Fin n) :
    List Event :=
  traceExecve (calls i) (reserve i)

/-- A call of a process delivers a record only when the other calls of the same
process have delivered all or none of theirs. -/
def SequentialAt (calls : Fin n → Call) (recs : Fin n → List Event)
    (pre : List (Fin n × Event)) (x : Fin n × Event) : Prop :=
  ∀ j, j ≠ x.1 → (calls j).pid = (calls x.1).pid → ¬ InFlight recs pre j

/-- The calls whose arguments user space has received for a process since its
last end marker, one entry for each argument. -/
def pendingOf (pid : Pid) (pre : List (Fin n × Event)) : List (Fin n) :=
  pre.foldl (fun P x =>
    if x.2.pid ≠ pid then P else if x.2.type = .ret then [] else P ++ [x.1]) []

/-- An argument arrives while the pending ones of its process are of the same
call, or fill the slot. -/
def UnmixedAt (pre : List (Fin n × Event)) (x : Fin n × Event) : Prop :=
  x.2.type = .arg →
    (∀ j ∈ pendingOf x.2.pid pre, j = x.1) ∨ MAXARGS ≤ (pendingOf x.2.pid pre).length

/-- The line has the identity of one call and a prefix of its arguments. -/
def OneCall (calls : Fin n → Call) (l : Line) : Prop :=
  ∃ i, l.pid = (calls i).pid ∧ l.uid = (calls i).uid ∧ l.comm = (calls i).comm ∧
    l.args <+: (calls i).argv.map text

instance (calls : Fin n → Call) (recs : Fin n → List Event) (pre : List (Fin n × Event))
    (x : Fin n × Event) : Decidable (SequentialAt calls recs pre x) :=
  inferInstanceAs (Decidable (∀ _, _ → _ → ¬ _))

instance (pre : List (Fin n × Event)) (x : Fin n × Event) : Decidable (UnmixedAt pre x) :=
  inferInstanceAs (Decidable (_ → _))

instance (calls : Fin n → Call) (l : Line) : Decidable (OneCall calls l) :=
  inferInstanceAs (Decidable (∃ _, _))

namespace BackPressureLemmas

open ExecsnoopLemmas

/-! ## Pending arguments -/

theorem pendingOf_snoc (pid : Pid) (pre : List (Fin n × Event)) (x : Fin n × Event) :
    pendingOf pid (pre ++ [x]) =
      if x.2.pid ≠ pid then pendingOf pid pre
      else if x.2.type = .ret then [] else pendingOf pid pre ++ [x.1] := by
  simp [pendingOf]

/-- A call with a pending argument has delivered a record. -/
theorem own_ne_nil_of_pending {pid : Pid} {pre : List (Fin n × Event)} {j : Fin n}
    (h : j ∈ pendingOf pid pre) : own j pre ≠ [] := by
  induction pre using List.reverseRecOn with
  | nil => exact absurd h List.not_mem_nil
  | append_singleton pre x ih =>
    have hmono : j ∈ pendingOf pid pre → own j (pre ++ [x]) ≠ [] := by
      intro hj
      rw [own_append]
      exact List.append_ne_nil_of_left_ne_nil (ih hj) _
    rw [pendingOf_snoc] at h
    split at h
    · exact hmono h
    · split at h
      · exact absurd h List.not_mem_nil
      · rcases List.mem_append.mp h with h | h
        · exact hmono h
        · rw [List.mem_singleton.mp h, own_snoc_self]
          simp

/-! ## The invariant -/

/-- The slot of a process against its pending arguments: it is free when there
are none, and otherwise holds the first ones of the call they begin with. -/
def SlotOf (calls : Fin n → Call) (pid : Pid) (P : List (Fin n)) (p : Pending) : Prop :=
  (P = [] → p.active = false) ∧
  (∀ j, P.head? = some j → (calls j).pid = pid ∧ Holds (calls j) (min MAXARGS P.length) p)

/-- A call in flight has all its arguments pending, and no other call has any,
unless the slot is full. -/
def Alone (P : List (Fin n)) (i : Fin n) (m : Nat) : Prop :=
  (P.length = m ∧ ∀ j ∈ P, j = i) ∨ MAXARGS ≤ P.length

structure PressInv (calls : Fin n → Call) (recs : Fin n → List Event)
    (pre : List (Fin n × Event)) : Prop where
  slots : ∀ i, SlotOf calls (calls i).pid (pendingOf (calls i).pid pre)
    (after (pre.map Prod.snd) (getSlot (calls i).pid))
  flying : ∀ i, InFlight recs pre i →
    Alone (pendingOf (calls i).pid pre) i (own i pre).length
  lines : ∀ l ∈ printed (pre.map Prod.snd), OneCall calls l

theorem oneCall_of_holds {calls : Fin n → Call} {i : Fin n} {m : Nat} :
    OneCall calls ⟨(calls i).pid, (calls i).uid, (calls i).comm,
      ((calls i).argv.take m).map text⟩ :=
  ⟨i, rfl, rfl, rfl, (List.take_prefix _ _).map text⟩

/-- An argument of a call that is alone in the slot, or finds it full. -/
theorem slotOf_arg {calls : Fin n → Call} {i : Fin n} {P : List (Fin n)} {p : Pending} {m : Nat}
    {e : Event} (hslot : SlotOf calls (calls i).pid P p) (halone : Alone P i m)
    (harg : IsArg (calls i) m e) :
    SlotOf calls (calls i).pid (P ++ [i]) (handleSlot p e).1 ∧ (handleSlot p e).2 = none ∧
      Alone (P ++ [i]) i (m + 1) := by
  have hlen : (P ++ [i]).length = P.length + 1 := by simp
  have hnil : P ++ [i] ≠ [] := by simp
  obtain ⟨hfree, hheld⟩ := hslot
  by_cases hfull : MAXARGS ≤ P.length
  · -- the argument is ignored
    obtain ⟨j, hj⟩ : ∃ j, P.head? = some j := by
      cases P with
      | nil => exact absurd hfull (by simp [MAXARGS])
      | cons j P => exact ⟨j, rfl⟩
    obtain ⟨hpid, hh⟩ := hheld j hj
    rw [Nat.min_eq_left hfull] at hh
    rw [handleSlot_full hh (harg.pid.trans hpid.symm) harg.type]
    refine ⟨⟨fun he => absurd he hnil, fun k hk => ?_⟩, rfl, Or.inr (by omega)⟩
    have hkj : k = j := by
      rw [List.head?_append, hj] at hk
      exact (Option.some_inj.mp hk).symm
    rw [hkj, hlen, Nat.min_eq_left (by omega)]
    exact ⟨hpid, hh⟩
  · obtain ⟨hm, hall⟩ := halone.resolve_right hfull
    have hhead : (P ++ [i]).head? = some i := by
      cases P with
      | nil => rfl
      | cons j P => rw [List.cons_append, List.head?_cons, hall j (by simp)]
    have hnext : Holds (calls i) (m + 1) (handleSlot p e).1 ∧ (handleSlot p e).2 = none := by
      cases P with
      | nil =>
        cases hm
        exact handleSlot_first (by simp [Pending.isFor, hfree rfl]) harg
      | cons j P =>
        obtain ⟨-, hh⟩ := hheld j rfl
        rw [hm, Nat.min_eq_right (by omega), hall j (by simp)] at hh
        exact handleSlot_next hh (by omega) harg
    refine ⟨⟨fun he => absurd he hnil, fun k hk => ?_⟩, hnext.2, Or.inl ⟨by omega, ?_⟩⟩
    · rw [hhead] at hk
      cases hk
      rw [hlen, hm, Nat.min_eq_right (by omega)]
      exact ⟨rfl, hnext.1⟩
    · intro j hj
      rcases List.mem_append.mp hj with hj | hj
      · exact hall j hj
      · exact List.mem_singleton.mp hj

/-- An end marker of the process frees the slot; a line is one call's. -/
theorem slotOf_ret {calls : Fin n → Call} {pid : Pid} {P : List (Fin n)} {p : Pending} {e : Event}
    (hslot : SlotOf calls pid P p) (hpid : e.pid = pid) (ht : e.type = .ret) :
    (handleSlot p e).1.active = false ∧ ∀ l ∈ (handleSlot p e).2, OneCall calls l := by
  obtain ⟨hfree, hheld⟩ := hslot
  cases P with
  | nil =>
    have hno : handleSlot p e = (p, none) := by
      simp [handleSlot, ht, Pending.isFor, hfree rfl]
    rw [hno]
    exact ⟨hfree rfl, by simp⟩
  | cons j P =>
    obtain ⟨hj, hh⟩ := hheld j rfl
    obtain ⟨hact, hline⟩ := handleSlot_ret hh (hpid.trans hj.symm) ht
    refine ⟨hact, fun l hl => ?_⟩
    rw [hline, Option.mem_def, Option.some_inj] at hl
    rw [← hl]
    exact oneCall_of_holds

/-- Before the first record nothing is pending. -/
theorem pressInv_nil {calls : Fin n → Call} {recs : Fin n → List Event} :
    PressInv calls recs [] :=
  ⟨fun i => ⟨fun _ => rfl, fun j hj => by cases hj⟩, fun i hi => absurd rfl hi.1,
    fun l hl => absurd hl List.not_mem_nil⟩

section Step

variable {calls : Fin n → Call} {recs : Fin n → List Event} {pre : List (Fin n × Event)}
  {x : Fin n × Event}

/-- A record of call `x.1` that leaves the slot of its process, and what is
pending there, as they should be keeps the invariant. -/
theorem PressInv.step (h : PressInv calls recs pre)
    (hmod : ∀ i j, (calls i).pid % TABLE_SIZE = (calls j).pid % TABLE_SIZE →
      (calls i).pid = (calls j).pid)
    (hpid : x.2.pid = (calls x.1).pid) (hseq : SequentialAt calls recs pre x)
    (hslot : SlotOf calls (calls x.1).pid (pendingOf (calls x.1).pid (pre ++ [x]))
      (handleSlot (after (pre.map Prod.snd) (getSlot (calls x.1).pid)) x.2).1)
    (hfly : InFlight recs (pre ++ [x]) x.1 →
      Alone (pendingOf (calls x.1).pid (pre ++ [x])) x.1 (own x.1 (pre ++ [x])).length)
    (hout : ∀ l ∈ (handleSlot (after (pre.map Prod.snd) (getSlot (calls x.1).pid)) x.2).2,
      OneCall calls l) : PressInv calls recs (pre ++ [x]) := by
  have hmap : (pre ++ [x]).map Prod.snd = pre.map Prod.snd ++ [x.2] := by simp
  have hself := after_snoc_self (pre.map Prod.snd) x.2
  rw [hpid] at hself
  refine ⟨fun i => ?_, fun i hi => ?_, ?_⟩
  · by_cases hp : (calls i).pid = (calls x.1).pid
    · rw [hp, hmap, hself]
      exact hslot
    · have hne : getSlot (calls i).pid ≠ getSlot x.2.pid := by
        rw [hpid]
        exact getSlot_ne fun he => hp (hmod i x.1 he)
      rw [pendingOf_snoc, if_pos (by rw [hpid]; exact Ne.symm hp), hmap, after_snoc_ne hne]
      exact h.slots i
  · by_cases hix : i = x.1
    · subst hix
      exact hfly hi
    · have hi' : InFlight recs pre i := by
        unfold InFlight at hi ⊢
        rwa [own_snoc_ne hix] at hi
      have hp : (calls i).pid ≠ (calls x.1).pid := fun he => hseq i hix he hi'
      rw [pendingOf_snoc, if_pos (by rw [hpid]; exact Ne.symm hp), own_snoc_ne hix]
      exact h.flying i hi'
  · rw [hmap, printed_snoc, hpid]
    intro l hl
    rcases List.mem_append.mp hl with hl | hl
    · exact h.lines l hl
    · exact hout l (by simpa using hl)

/-- An argument of call `x.1`. -/
theorem pressInv_arg {post : List (Fin n × Event)} (h : PressInv calls recs pre)
    (hmod : ∀ i j, (calls i).pid % TABLE_SIZE = (calls j).pid % TABLE_SIZE →
      (calls i).pid = (calls j).pid)
    (hmerge : Merges recs (pre ++ x :: post)) (hseq : SequentialAt calls recs pre x)
    (hun : UnmixedAt pre x) (harg : IsArg (calls x.1) (own x.1 pre).length x.2) :
    PressInv calls recs (pre ++ [x]) := by
  have hP : pendingOf (calls x.1).pid (pre ++ [x]) =
      pendingOf (calls x.1).pid pre ++ [x.1] := by
    rw [pendingOf_snoc, if_neg (by simp [harg.pid]), if_neg (by simp [harg.type])]
  have hlen := length_own_snoc x pre
  have halone : Alone (pendingOf (calls x.1).pid pre) x.1 (own x.1 pre).length := by
    by_cases hown : own x.1 pre = []
    · -- the first argument of the call: nothing of it is pending
      rcases harg.pid ▸ hun harg.type with hall | hfull
      · have hnil : pendingOf (calls x.1).pid pre = [] := by
          rw [List.eq_nil_iff_forall_not_mem]
          intro j hj
          exact own_ne_nil_of_pending hj (hall j hj ▸ hown)
        exact Or.inl ⟨by rw [hnil, hown]; rfl, hall⟩
      · exact Or.inr hfull
    · exact h.flying x.1 ⟨hown, hmerge.not_ended⟩
  obtain ⟨hslot, hnone, hfly⟩ := slotOf_arg (h.slots x.1) halone harg
  rw [← hP] at hslot hfly
  exact h.step hmod harg.pid hseq hslot (fun _ => hlen ▸ hfly) (by simp [hnone])

/-- The end marker of call `x.1`. -/
theorem pressInv_ret (h : PressInv calls recs pre)
    (hmod : ∀ i j, (calls i).pid % TABLE_SIZE = (calls j).pid % TABLE_SIZE →
      (calls i).pid = (calls j).pid)
    (hseq : SequentialAt calls recs pre x) (hret : IsRet (calls x.1) x.2)
    (hended : own x.1 (pre ++ [x]) = recs x.1) : PressInv calls recs (pre ++ [x]) := by
  have hP : pendingOf (calls x.1).pid (pre ++ [x]) = [] := by
    rw [pendingOf_snoc, if_neg (by simp [hret.pid]), if_pos hret.type]
  obtain ⟨hfree, hline⟩ := slotOf_ret (h.slots x.1) hret.pid hret.type
  refine h.step hmod hret.pid hseq ?_ (fun hfly => absurd hended hfly.2) hline
  rw [hP]
  exact ⟨fun _ => hfree, fun j hj => by cases hj⟩

end Step

end BackPressureLemmas

open BackPressureLemmas ExecsnoopLemmas

/-! ## 1. Lines of single calls -/

/-- For any calls, any pattern of ring-full failures and any interleaving of the
records that were delivered, where pids that share a slot are equal and the
calls of one process follow one another: if no argument arrives while fewer than
`MAXARGS` arguments of another call of its process are pending, every printed
line consists of a prefix of the arguments of one call. -/
theorem lines_of_single_calls (calls : Fin n → Call)
    (reserve : Fin n → Nat → Option (List UInt8))
    (hmod : ∀ i j, (calls i).pid % TABLE_SIZE = (calls j).pid % TABLE_SIZE →
      (calls i).pid = (calls j).pid)
    {es : List (Fin n × Event)} (hmerge : Merges (delivered calls reserve) es)
    (hseq : Along (SequentialAt calls (delivered calls reserve)) es)
    (hun : Along UnmixedAt es) : ∀ l ∈ printed (es.map Prod.snd), OneCall calls l := by
  refine (prefix_history (P := PressInv calls (delivered calls reserve)) pressInv_nil ?_).lines
  intro pre x post he hpre
  have hmerge' : Merges (delivered calls reserve) (pre ++ x :: post) := he ▸ hmerge
  rcases record_cases hmerge'.next with ⟨-, harg⟩ | ⟨hlast, hret⟩
  · exact pressInv_arg hpre hmod hmerge' (hseq pre x post he) (hun pre x post he) harg
  · refine pressInv_ret hpre hmod (hseq pre x post he) hret ?_
    -- the marker is the last record of its call
    have hsnoc : Merges (delivered calls reserve) ((pre ++ [x]) ++ post) := by
      rwa [← List.append_cons]
    rw [hsnoc.take x.1, length_own_snoc, hlast]
    exact List.take_of_length_le (length_traceExecve_le _ _)

/-- Pid 7 runs `a b`, whose end marker finds the ring full, and then `c`. -/
def exTwice : Fin 2 → Call
  | 0 => ⟨7, 0, Comm.ofBytes [120], [some (CString.ofBytes [97]), some (CString.ofBytes [98])]⟩
  | 1 => ⟨7, 0, Comm.ofBytes [120], [some (CString.ofBytes [99])]⟩

/-- The third reservation of the first call fails. -/
def exFull (i : Fin 2) (r : Nat) : Option (List UInt8) := if i = 0 ∧ r = 2 then none else some []

/-- The records that are delivered, in order. -/
def exLost : List (Fin 2 × Event) :=
  (delivered exTwice exFull 0).map (Prod.mk 0) ++ (delivered exTwice exFull 1).map (Prod.mk 1)

/-- User space prints one line, `a b c`, which is no call's. -/
theorem lost_marker_joins :
    Merges (delivered exTwice exFull) exLost ∧
    Along (SequentialAt exTwice (delivered exTwice exFull)) exLost ∧
    (printed (exLost.map Prod.snd)).map Line.args = [[[97], [98], [99]]] ∧
    ¬ ∀ l ∈ printed (exLost.map Prod.snd), OneCall exTwice l := by
  refine ⟨fun i => ?_, by decide +kernel, by decide +kernel, by decide +kernel⟩
  match i with
  | 0 => decide +kernel
  | 1 => decide +kernel

/-- The same calls while the ring has room. -/
def exKept : List (Fin 2 × Event) :=
  (delivered exTwice (fun _ _ => some []) 0).map (Prod.mk 0) ++
  (delivered exTwice (fun _ _ => some []) 1).map (Prod.mk 1)

/-- Each call gets its own line. -/
theorem exKept_single :
    (printed (exKept.map Prod.snd)).map Line.args = [[[97], [98]], [[99]]] ∧
    ∀ l ∈ printed (exKept.map Prod.snd), OneCall exTwice l := by
  refine ⟨by decide +kernel, lines_of_single_calls exTwice (fun _ _ => some []) (by decide)
    (fun i => ?_) (by decide +kernel) (by decide +kernel)⟩
  match i with
  | 0 => decide +kernel
  | 1 => decide +kernel

end Ebpf101.Exec
