import Ebpf101.Exec.RoundTrip
import Ebpf101.Exec.BackPressure

/-!
# execsnoop: collisions

Calls whose pids are equal modulo `TABLE_SIZE` use one slot. `handle_event` resets
the slot when an argument of another process arrives, so the call that held it
loses the arguments it had there.

Results:
1. `collisions_lose_older`: as long as a call that has lost its slot sends no
   further argument, every line is the complete line of a call, and a call without
   a line lost its slot to one that began later.
   `partial_line`: otherwise a line may lack its first arguments, and the call that
   began later is the one that is lost.
-/

namespace Ebpf101.Exec

open Runs Interleave

variable {n : Nat}

/-- The call whose argument came last into the slot. -/
def holder (k : Fin TABLE_SIZE) (pre : List (Fin n × Event)) : Option (Fin n) :=
  pre.foldl (fun h x => if x.2.type = .arg ∧ getSlot x.2.pid = k then some x.1 else h) none

/-- An argument after the first of its call arrives while the call still has its
slot. -/
def KeepsSlotAt (pre : List (Fin n × Event)) (x : Fin n × Event) : Prop :=
  x.2.type = .arg → own x.1 pre ≠ [] → holder (getSlot x.2.pid) pre = some x.1

/-- Call `i` had begun when the first record of call `j` arrived. -/
def BeganAfter (pre : List (Fin n × Event)) (j i : Fin n) : Prop :=
  ∃ p q, pre = p ++ q ∧ own i p ≠ [] ∧ own j p = [] ∧ own j q ≠ []

/-- A call of another process that shares the slot of call `i` began after it. -/
def Overtaken (calls : Fin n → Call) (pre : List (Fin n × Event)) (i : Fin n) : Prop :=
  ∃ j, (calls j).pid ≠ (calls i).pid ∧
    (calls j).pid % TABLE_SIZE = (calls i).pid % TABLE_SIZE ∧ BeganAfter pre j i

/-- At the end marker of a call with arguments its line is printed, or the call
was overtaken. -/
def PrintsAt (calls : Fin n → Call) (pre : List (Fin n × Event)) (x : Fin n × Event) : Prop :=
  x.2.type = .ret → (calls x.1).argv ≠ [] →
    (handleEvent (after (pre.map Prod.snd)) x.2).2 = some (lineOf (calls x.1)) ∨
    Overtaken calls pre x.1

namespace CollisionLemmas

open ExecsnoopLemmas RoundTripLemmas

/-! ## Holders -/

theorem holder_snoc (k : Fin TABLE_SIZE) (pre : List (Fin n × Event)) (x : Fin n × Event) :
    holder k (pre ++ [x]) =
      if x.2.type = .arg ∧ getSlot x.2.pid = k then some x.1 else holder k pre := by
  simp [holder]

theorem holder_snoc_arg {x : Fin n × Event} (ht : x.2.type = .arg) (pre : List (Fin n × Event)) :
    holder (getSlot x.2.pid) (pre ++ [x]) = some x.1 := by
  rw [holder_snoc, if_pos ⟨ht, rfl⟩]

theorem holder_snoc_ne {k : Fin TABLE_SIZE} {x : Fin n × Event} (h : k ≠ getSlot x.2.pid)
    (pre : List (Fin n × Event)) : holder k (pre ++ [x]) = holder k pre := by
  rw [holder_snoc, if_neg fun he => h he.2.symm]

theorem holder_snoc_ret {k : Fin TABLE_SIZE} {x : Fin n × Event} (ht : x.2.type = .ret)
    (pre : List (Fin n × Event)) : holder k (pre ++ [x]) = holder k pre := by
  rw [holder_snoc, ht, if_neg fun he => by cases he.1]

theorem overtaken_snoc {calls : Fin n → Call} {pre : List (Fin n × Event)} {i : Fin n}
    (h : Overtaken calls pre i) (x : Fin n × Event) : Overtaken calls (pre ++ [x]) i := by
  obtain ⟨j, hpid, hmod, p, q, rfl, hi, hj, hq⟩ := h
  refine ⟨j, hpid, hmod, p, q ++ [x], List.append_assoc _ _ _, hi, hj, ?_⟩
  rw [own_append]
  exact List.append_ne_nil_of_left_ne_nil hq _

/-- The first record of a call comes after those of the calls in flight. -/
theorem beganAfter_first {pre : List (Fin n × Event)} {x : Fin n × Event} {i : Fin n}
    (hi : own i pre ≠ []) (hx : own x.1 pre = []) : BeganAfter (pre ++ [x]) x.1 i :=
  ⟨pre, [x], rfl, hi, hx, by simp [own]⟩

/-! ## The invariant -/

/-- A slot is active exactly while its holder is in flight, and then holds the
arguments of that call so far. -/
structure HeldInv (calls : Fin n → Call) (recs : Fin n → List Event)
    (pre : List (Fin n × Event)) : Prop where
  place : ∀ k i, holder k pre = some i → getSlot (calls i).pid = k ∧ own i pre ≠ []
  held : ∀ k i, holder k pre = some i → InFlight recs pre i →
    Holds (calls i) (own i pre).length (after (pre.map Prod.snd) k)
  idle : ∀ k, (∀ i, holder k pre = some i → ¬ InFlight recs pre i) →
    (after (pre.map Prod.snd) k).active = false
  lost : ∀ i, InFlight recs pre i →
    holder (getSlot (calls i).pid) pre = some i ∨ Overtaken calls pre i
  lines : ∀ l ∈ printed (pre.map Prod.snd), ∃ i, l = lineOf (calls i)

theorem heldInv_nil (calls : Fin n → Call) (recs : Fin n → List Event) :
    HeldInv calls recs [] := by
  refine ⟨fun k i h => ?_, fun k i h => ?_, fun _ _ => rfl, fun i hi => absurd rfl hi.1,
    fun l hl => ?_⟩
  · cases h
  · cases h
  · cases hl

section Step

variable {calls : Fin n → Call} {recs : Fin n → List Event} {pre post : List (Fin n × Event)}
  {x : Fin n × Event}

/-- A record of a call that does not hold the slot finds it free or another
process's. -/
theorem HeldInv.not_isFor (h : HeldInv calls recs pre) (hpid : x.2.pid = (calls x.1).pid)
    (hseq : SequentialAt calls recs pre x) (hne : holder (getSlot x.2.pid) pre ≠ some x.1) :
    (after (pre.map Prod.snd) (getSlot x.2.pid)).isFor x.2 = false := by
  by_contra hfor
  obtain ⟨hact, hown⟩ := isFor_iff.mp (Bool.eq_true_of_not_eq_false hfor)
  refine Bool.false_ne_true ((h.idle _ fun i hi hfly => ?_).symm.trans hact)
  have hix : i ≠ x.1 := fun he => hne (he ▸ hi)
  refine hseq i hix ?_ hfly
  rw [← (h.held _ i hi hfly).pid, hown, hpid]

/-- A record that leaves its own slot as it should keeps the invariant: it touches
no other slot. -/
theorem HeldInv.step (h : HeldInv calls recs pre) (hpid : x.2.pid = (calls x.1).pid)
    (hheld : ∀ i, holder (getSlot x.2.pid) (pre ++ [x]) = some i →
      InFlight recs (pre ++ [x]) i → Holds (calls i) (own i (pre ++ [x])).length
        (handleSlot (after (pre.map Prod.snd) (getSlot x.2.pid)) x.2).1)
    (hidle : (∀ i, holder (getSlot x.2.pid) (pre ++ [x]) = some i →
      ¬ InFlight recs (pre ++ [x]) i) →
        (handleSlot (after (pre.map Prod.snd) (getSlot x.2.pid)) x.2).1.active = false)
    (hlost : ∀ i, InFlight recs (pre ++ [x]) i →
      holder (getSlot (calls i).pid) (pre ++ [x]) = some i ∨ Overtaken calls (pre ++ [x]) i)
    (hout : ∀ l ∈ (handleSlot (after (pre.map Prod.snd) (getSlot x.2.pid)) x.2).2,
      ∃ i, l = lineOf (calls i)) : HeldInv calls recs (pre ++ [x]) := by
  have hmap : (pre ++ [x]).map Prod.snd = pre.map Prod.snd ++ [x.2] := by simp
  -- the holder of another slot is another call
  have hother : ∀ {k i}, k ≠ getSlot x.2.pid → holder k pre = some i → i ≠ x.1 := by
    rintro k i hk hi rfl
    rw [hpid] at hk
    exact hk (h.place k x.1 hi).1.symm
  refine ⟨fun k i hi => ?_, fun k i hi hfly => ?_, fun k hk => ?_, hlost, fun l hl => ?_⟩
  · rw [holder_snoc] at hi
    split at hi
    · next harg =>
      cases hi
      rw [← hpid, own_snoc_self]
      exact ⟨harg.2, List.append_ne_nil_of_right_ne_nil _ (List.cons_ne_nil _ _)⟩
    · obtain ⟨hslot, hown⟩ := h.place k i hi
      rw [own_append]
      exact ⟨hslot, List.append_ne_nil_of_left_ne_nil hown _⟩
  · rw [hmap]
    rcases eq_or_ne k (getSlot x.2.pid) with rfl | hk
    · rw [after_snoc_self]
      exact hheld i hi hfly
    · rw [holder_snoc_ne hk] at hi
      have hix := hother hk hi
      rw [after_snoc_ne hk, own_snoc_ne hix]
      exact h.held k i hi ((inFlight_snoc_ne hix).mp hfly)
  · rw [hmap]
    rcases eq_or_ne k (getSlot x.2.pid) with rfl | hne
    · rw [after_snoc_self]
      exact hidle hk
    · rw [after_snoc_ne hne]
      refine h.idle k fun i hi hfly => ?_
      refine hk i (by rwa [holder_snoc_ne hne]) ?_
      exact (inFlight_snoc_ne (hother hne hi)).mpr hfly
  · rw [hmap, printed_snoc] at hl
    rcases List.mem_append.mp hl with hl | hl
    · exact h.lines l hl
    · exact hout l (Option.mem_toList.mp hl)

/-- An argument: the call has the slot from here on, with all its arguments. -/
theorem heldInv_arg (h : HeldInv calls recs pre) (hseq : SequentialAt calls recs pre x)
    (hkeep : KeepsSlotAt pre x) (hroom : (own x.1 pre).length < MAXARGS)
    (harg : IsArg (calls x.1) (own x.1 pre).length x.2) (hnot : own x.1 pre ≠ recs x.1)
    (hmore : own x.1 (pre ++ [x]) ≠ recs x.1) : HeldInv calls recs (pre ++ [x]) := by
  have hlen := length_own_snoc x pre
  have hslot : Holds (calls x.1) ((own x.1 pre).length + 1)
        (handleSlot (after (pre.map Prod.snd) (getSlot x.2.pid)) x.2).1 ∧
      (handleSlot (after (pre.map Prod.snd) (getSlot x.2.pid)) x.2).2 = none := by
    rcases eq_or_ne (own x.1 pre) [] with hfirst | hnext
    · have hfree := h.not_isFor harg.pid hseq fun hh => (h.place _ _ hh).2 hfirst
      rw [hfirst] at harg ⊢
      exact handleSlot_first hfree harg
    · have hheld := h.held _ x.1 (hkeep harg.type hnext) ⟨hnext, hnot⟩
      exact handleSlot_next hheld hroom harg
  have hholder := holder_snoc_arg harg.type pre
  have hfly : InFlight recs (pre ++ [x]) x.1 :=
    ⟨List.ne_nil_of_length_pos (by rw [hlen]; exact Nat.succ_pos _), hmore⟩
  refine h.step harg.pid (fun i hi _ => ?_) (fun hidle => absurd hfly (hidle x.1 hholder))
    (fun i hi => ?_) (fun l hl => by rw [hslot.2] at hl; cases hl)
  · obtain rfl : x.1 = i := Option.some.inj (hholder.symm.trans hi)
    rw [hlen]
    exact hslot.1
  · rcases eq_or_ne i x.1 with rfl | hix
    · rw [← harg.pid]
      exact Or.inl hholder
    rw [inFlight_snoc_ne hix] at hi
    rcases h.lost i hi with hold | hover
    · rcases eq_or_ne (getSlot (calls i).pid) (getSlot x.2.pid) with hk | hk
      · -- the call loses its slot to one that begins here
        have hfirst : own x.1 pre = [] := by
          by_contra hnext
          rw [hk, hkeep harg.type hnext] at hold
          exact hix (Option.some.inj hold).symm
        refine Or.inr ⟨x.1, fun he => hseq i hix he.symm hi, ?_, beganAfter_first hi.1 hfirst⟩
        rw [← harg.pid]
        exact (congrArg Fin.val hk).symm
      · exact Or.inl (by rw [holder_snoc_ne hk]; exact hold)
    · exact Or.inr (overtaken_snoc hover x)

/-- The end marker of the call that has the slot prints its line. -/
theorem HeldInv.ret_holder (h : HeldInv calls recs pre) (hret : IsRet (calls x.1) x.2)
    (hlast : (own x.1 pre).length = min MAXARGS (calls x.1).argv.length)
    (hnot : own x.1 pre ≠ recs x.1) (hh : holder (getSlot x.2.pid) pre = some x.1) :
    (handleSlot (after (pre.map Prod.snd) (getSlot x.2.pid)) x.2).1.active = false ∧
    (handleSlot (after (pre.map Prod.snd) (getSlot x.2.pid)) x.2).2 =
      some (lineOf (calls x.1)) := by
  have hheld := h.held _ x.1 hh ⟨(h.place _ _ hh).2, hnot⟩
  obtain ⟨hfree, hline⟩ := handleSlot_ret hheld hret.pid hret.type
  refine ⟨hfree, ?_⟩
  rw [hline, hlast, lineOf, ← List.take_take, List.take_length]

/-- The end marker of a call that has lost its slot is ignored. -/
theorem HeldInv.ret_other (h : HeldInv calls recs pre) (hseq : SequentialAt calls recs pre x)
    (hret : IsRet (calls x.1) x.2) (hh : holder (getSlot x.2.pid) pre ≠ some x.1) :
    handleSlot (after (pre.map Prod.snd) (getSlot x.2.pid)) x.2 =
      (after (pre.map Prod.snd) (getSlot x.2.pid), none) := by
  have hfor := h.not_isFor hret.pid hseq hh
  simp only [handleSlot, hret.type, hfor]
  rfl

theorem heldInv_ret (h : HeldInv calls recs pre) (hseq : SequentialAt calls recs pre x)
    (hret : IsRet (calls x.1) x.2)
    (hlast : (own x.1 pre).length = min MAXARGS (calls x.1).argv.length)
    (hnot : own x.1 pre ≠ recs x.1) (hend : own x.1 (pre ++ [x]) = recs x.1) :
    HeldInv calls recs (pre ++ [x]) := by
  have hlanded : ∀ {i}, InFlight recs (pre ++ [x]) i → i ≠ x.1 := fun hi he => hi.2 (he ▸ hend)
  have hlost : ∀ i, InFlight recs (pre ++ [x]) i →
      holder (getSlot (calls i).pid) (pre ++ [x]) = some i ∨ Overtaken calls (pre ++ [x]) i := by
    intro i hi
    rw [holder_snoc_ret hret.type]
    exact (h.lost i ((inFlight_snoc_ne (hlanded hi)).mp hi)).imp_right (overtaken_snoc · x)
  rcases eq_or_ne (holder (getSlot x.2.pid) pre) (some x.1) with hh | hh
  · obtain ⟨hfree, hline⟩ := h.ret_holder hret hlast hnot hh
    refine h.step hret.pid (fun i hi hfly => ?_) (fun _ => hfree) hlost (fun l hl => ?_)
    · rw [holder_snoc_ret hret.type, hh] at hi
      exact absurd (Option.some.inj hi).symm (hlanded hfly)
    · rw [hline] at hl
      exact ⟨x.1, (Option.some.inj hl).symm⟩
  · have hsame := h.ret_other hseq hret hh
    refine h.step hret.pid (fun i hi hfly => ?_) (fun hidle => ?_) hlost (fun l hl => ?_)
    · rw [holder_snoc_ret hret.type] at hi
      rw [hsame, own_snoc_ne (hlanded hfly)]
      exact h.held _ i hi ((inFlight_snoc_ne (hlanded hfly)).mp hfly)
    · rw [hsame]
      refine h.idle _ fun i hi hfly => ?_
      have hix : i ≠ x.1 := fun he => hh (he ▸ hi)
      exact hidle i (by rwa [holder_snoc_ret hret.type]) ((inFlight_snoc_ne hix).mpr hfly)
    · rw [hsame] at hl
      cases hl

end Step

/-! ## The streams -/

theorem length_streams (calls : Fin n → Call) (stale : Fin n → Nat → List UInt8) (i : Fin n) :
    (streams calls stale i).length = min MAXARGS (calls i).argv.length + 1 :=
  length_traceExecve fun _ => Option.some_ne_none _

theorem heldInv_run {calls : Fin n → Call} {stale : Fin n → Nat → List UInt8}
    {es : List (Fin n × Event)} (hmerge : Merges (streams calls stale) es)
    (hseq : Along (SequentialAt calls (streams calls stale)) es) (hkeep : Along KeepsSlotAt es) :
    ∀ pre post, es = pre ++ post → HeldInv calls (streams calls stale) pre := by
  refine prefixes_history (heldInv_nil _ _) fun pre x post he h => ?_
  have hmerge' : Merges (streams calls stale) (pre ++ x :: post) := he ▸ hmerge
  have hend := hmerge'.ended_iff
  rw [length_streams] at hend
  rcases record_cases hmerge'.next with ⟨hlt, harg⟩ | ⟨hlast, hret⟩
  · refine heldInv_arg h (hseq pre x post he) (hkeep pre x post he)
      (Nat.lt_of_lt_of_le hlt (Nat.min_le_left _ _)) harg hmerge'.not_ended fun hx => ?_
    exact Nat.ne_of_lt hlt (Nat.succ.inj (hend.mp hx))
  · exact heldInv_ret h (hseq pre x post he) hret hlast hmerge'.not_ended
      (hend.mpr (congrArg Nat.succ hlast))

end CollisionLemmas

open CollisionLemmas ExecsnoopLemmas

/-! ## 1. Collisions lose the older line -/

/-- For any calls, any stale contents of the reserved records, and any interleaving
of their records in which the calls of one process follow one another: if every
argument after the first of its call finds the slot as the call left it, every
printed line is the line of a call of its process, and a call with arguments whose
line is not printed was overtaken. -/
theorem collisions_lose_older (calls : Fin n → Call) (stale : Fin n → Nat → List UInt8)
    {es : List (Fin n × Event)} (hmerge : Merges (streams calls stale) es)
    (hseq : Along (SequentialAt calls (streams calls stale)) es) (hkeep : Along KeepsSlotAt es) :
    (∀ l ∈ printed (es.map Prod.snd), ∃ i, l = lineOf (calls i)) ∧
    Along (PrintsAt calls) es := by
  have hrun := heldInv_run hmerge hseq hkeep
  refine ⟨(hrun es [] (List.append_nil es).symm).lines, ?_⟩
  intro pre x post he ht hargs
  have h := hrun pre (x :: post) he
  have hmerge' : Merges (streams calls stale) (pre ++ x :: post) := he ▸ hmerge
  rcases record_cases hmerge'.next with ⟨-, harg⟩ | ⟨hlast, hret⟩
  · rw [harg.type] at ht
    cases ht
  · have hbegun : own x.1 pre ≠ [] := by
      refine List.ne_nil_of_length_pos ?_
      rw [hlast]
      exact Nat.lt_min.mpr ⟨by decide, List.length_pos_iff.mpr hargs⟩
    refine (h.lost x.1 ⟨hbegun, hmerge'.not_ended⟩).imp_left fun hh => ?_
    rw [← hret.pid] at hh
    exact (h.ret_holder hret hlast hmerge'.not_ended hh).2

instance (pre : List (Fin n × Event)) (x : Fin n × Event) : Decidable (KeepsSlotAt pre x) :=
  inferInstanceAs (Decidable (_ → _ → _))

/-- Pid 7 runs `a b` and pid 4103, in the same slot, runs `c`. -/
def exShared (i : Fin 2) : Call :=
  if i.val = 0 then
    ⟨7, 0, Comm.ofBytes [120], [some (CString.ofBytes [97]), some (CString.ofBytes [98])]⟩
  else ⟨4103, 0, Comm.ofBytes [121], [some (CString.ofBytes [99])]⟩

/-- The records of the two calls in the order in which their calls are given. -/
def exMerge (order : List (Fin 2)) : List (Fin 2 × Event) :=
  (order.zip (order.inits)).filterMap fun (i, before) =>
    ((streams exShared (fun _ _ => []) i)[before.count i]?).map (Prod.mk i)

/-- `c` arrives after `a b`: pid 7 has lost its slot and gets no line. -/
theorem exShared_overtaken :
    (printed ((exMerge [0, 0, 1, 0, 1]).map Prod.snd)) = [lineOf (exShared 1)] ∧
    (∀ l ∈ printed ((exMerge [0, 0, 1, 0, 1]).map Prod.snd), ∃ i, l = lineOf (exShared i)) ∧
    Along (PrintsAt exShared) (exMerge [0, 0, 1, 0, 1]) := by
  refine ⟨by decide +kernel, collisions_lose_older exShared (fun _ _ => []) (fun i => ?_)
    (by decide +kernel) (by decide +kernel)⟩
  match i with
  | 0 => decide +kernel
  | 1 => decide +kernel

/-- `c` arrives between `a` and `b`, which takes the slot back: the line of pid 7 is
`b` alone, and pid 4103, which began later, has none. -/
theorem partial_line :
    Merges (streams exShared fun _ _ => []) (exMerge [0, 1, 0, 0, 1]) ∧
    Along (SequentialAt exShared (streams exShared fun _ _ => [])) (exMerge [0, 1, 0, 0, 1]) ∧
    printed ((exMerge [0, 1, 0, 0, 1]).map Prod.snd) =
      [⟨7, 0, Comm.ofBytes [120], [[98]]⟩] ∧
    ∀ i, lineOf (exShared i) ∉ printed ((exMerge [0, 1, 0, 0, 1]).map Prod.snd) := by
  refine ⟨fun i => ?_, by decide +kernel, by decide +kernel, by decide +kernel⟩
  match i with
  | 0 => decide +kernel
  | 1 => decide +kernel

end Ebpf101.Exec
