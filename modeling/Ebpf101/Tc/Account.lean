import Mathlib.Algebra.Order.BigOperators.Group.Finset
import Ebpf101.Basic
import Ebpf101.Lib.Threads
import Ebpf101.Tc.Tcstat

/-!
# tcstat: counters for each CPU

Chapter 18, `18-tc/tcstat.bpf.c` and the loop of `tcstat.c`. `account` adds to the packets
and the bytes of its direction with plain loads and stores, in a slot that only its CPU
uses, and a CPU finishes with a slot before it comes to it again. User space copies the
slots of all CPUs word by word while packets keep coming, and prints the sums.

Results:
1. `sums_between`: for every interleaving of the CPUs, and wherever user space reads each
   word between two moments, a sum it prints is no less than what had been counted by the
   first and no more than what had come by the second. So nothing is lost, and the sums
   are exact when no run is on its way.
   `shared_slot_loses`: two runs that overlap in one slot lose a packet.
-/

namespace Ebpf101.Tc

open Runs

/-! ## account -/

/-- `struct datarec`. -/
structure Datarec where
  packets : Nat
  bytes : Nat
deriving DecidableEq, Repr

/-- One run of `tc_ingress` or `tc_egress`: the CPU, the direction and `skb->len`. -/
structure Run where
  cpu : Nat
  dir : AttachPoint
  len : Nat
deriving DecidableEq

/-- `stats`, a `BPF_MAP_TYPE_PERCPU_ARRAY`. -/
abbrev Stats := Nat → AttachPoint → Datarec

/-- The next step of a run; `v` is what it has loaded. -/
inductive Pc where
  | start
  | loadedPackets (v : Nat)
  | storedPackets
  | loadedBytes (v : Nat)
  | done
deriving DecidableEq, Repr

/-- A store to the slot of the run. -/
def Stats.store (st : Stats) (r : Run) (f : Datarec → Datarec) : Stats :=
  Function.update st r.cpu (Function.update (st r.cpu) r.dir (f (st r.cpu r.dir)))

/-- `account`, one load or store at a time. -/
def account (r : Run) (st : Stats) : Pc → Stats × Pc
  | .start => (st, .loadedPackets (st r.cpu r.dir).packets)
  | .loadedPackets v => (st.store r fun d => { d with packets := u64Add v 1 }, .storedPackets)
  | .storedPackets => (st, .loadedBytes (st r.cpu r.dir).bytes)
  | .loadedBytes v => (st.store r fun d => { d with bytes := u64Add v r.len }, .done)
  | .done => (st, .done)

variable {n : Nat}

/-- The slots and the runs after a schedule. -/
def afterRuns (runs : Fin n → Run) (sched : List (Fin n)) : Threads.Sys (Fin n) Stats Pc :=
  Threads.after (fun i => account (runs i)) ⟨fun _ _ => ⟨0, 0⟩, fun _ => .start⟩ sched

/-! ## The loop of main -/

/-- The two words of a slot. -/
inductive Word where
  | packets
  | bytes
deriving DecidableEq, Repr

def Datarec.get (d : Datarec) : Word → Nat
  | .packets => d.packets
  | .bytes => d.bytes

/-- `pkts` or `bytes` of `main`: `recs` has the word of each possible CPU. -/
def sumRecs (ncpu : Nat) (recs : Nat → Nat) : Nat :=
  (List.range ncpu).foldl (fun sum i => u64Add sum (recs i)) 0

/-- The word of each CPU as user space copies it: that of CPU `c` after `readAt c` steps. -/
def recsAt (runs : Fin n → Run) (sched : List (Fin n)) (dir : AttachPoint) (w : Word)
    (readAt : Nat → Nat) (c : Nat) : Nat :=
  ((afterRuns runs (sched.take (readAt c))).shared c dir).get w

/-! ## Statements -/

/-- The run is on its way. -/
def Pc.inFlight : Pc → Bool
  | .start | .done => false
  | _ => true

/-- A run begins only when those before it in its slot have finished. -/
def SerialAt (runs : Fin n → Run) (pre : List (Fin n)) (i : Fin n) : Prop :=
  (afterRuns runs pre).locals i = .start → ∀ j, (runs j).cpu = (runs i).cpu →
    (runs j).dir = (runs i).dir → ((afterRuns runs pre).locals j).inFlight = false

instance (runs : Fin n → Run) (pre : List (Fin n)) (i : Fin n) : Decidable (SerialAt runs pre i) :=
  inferInstanceAs (Decidable (_ → _))

/-- What a run is to add to a word. -/
def Run.adds (r : Run) : Word → Nat
  | .packets => 1
  | .bytes => r.len

/-- What the runs of a direction add that are in a state `p`. -/
def totalOf (runs : Fin n → Run) (dir : AttachPoint) (w : Word) (p : Pc → Bool)
    (locals : Fin n → Pc) : Nat :=
  ∑ i, if (runs i).dir = dir ∧ p (locals i) = true then (runs i).adds w else 0

/-- What had come after `t` steps. -/
def begunBy (runs : Fin n → Run) (sched : List (Fin n)) (dir : AttachPoint) (w : Word)
    (t : Nat) : Nat :=
  totalOf runs dir w (· != .start) (afterRuns runs (sched.take t)).locals

/-- What had been counted after `t` steps. -/
def finishedBy (runs : Fin n → Run) (sched : List (Fin n)) (dir : AttachPoint)
    (w : Word) (t : Nat) :
    Nat :=
  totalOf runs dir w (· == .done) (afterRuns runs (sched.take t)).locals

namespace AccountLemmas

/-! ## One run at a time in a slot -/

/-- The value that a run has loaded is the one in its slot. -/
def Loaded (r : Run) (st : Stats) : Pc → Prop
  | .loadedPackets v => v = (st r.cpu r.dir).packets
  | .loadedBytes v => v = (st r.cpu r.dir).bytes
  | _ => True

/-- Each slot has at most one run on its way, and that has loaded what is there. -/
structure Inv (runs : Fin n → Run) (s : Threads.Sys (Fin n) Stats Pc) : Prop where
  alone : ∀ i j, (runs i).cpu = (runs j).cpu → (runs i).dir = (runs j).dir →
    (s.locals i).inFlight = true → (s.locals j).inFlight = true → i = j
  loaded : ∀ i, Loaded (runs i) s.shared (s.locals i)

section Step

variable {r : Run} {st : Stats} {pc : Pc} {c : Nat} {d : AttachPoint}

@[simp] theorem store_same (f : Datarec → Datarec) :
    st.store r f r.cpu r.dir = f (st r.cpu r.dir) := by
  simp [Stats.store]

theorem store_other (f : Datarec → Datarec) (h : ¬(r.cpu = c ∧ r.dir = d)) :
    st.store r f c d = st c d := by
  unfold Stats.store
  by_cases hc : c = r.cpu
  · subst hc
    rw [Function.update_self, Function.update_of_ne fun hd => h ⟨rfl, hd.symm⟩]
  · rw [Function.update_of_ne hc]

/-- A run only touches its own slot. -/
theorem account_other (h : ¬(r.cpu = c ∧ r.dir = d)) : (account r st pc).1 c d = st c d := by
  cases pc with
  | loadedPackets v =>
    simp only [account]
    exact store_other _ h
  | loadedBytes v =>
    simp only [account]
    exact store_other _ h
  | _ => rfl

/-- A run that has not begun, or is done, stores nothing. -/
theorem account_idle (h : pc.inFlight = false) : (account r st pc).1 = st := by
  cases pc <;> first | rfl | cases h

theorem loaded_account (pc : Pc) : Loaded r (account r st pc).1 (account r st pc).2 := by
  cases pc with
  | start => exact rfl
  | storedPackets => exact rfl
  | _ => trivial

/-- Only the slot matters. -/
theorem loaded_congr {st' : Stats} (h : st' r.cpu r.dir = st r.cpu r.dir) (hl : Loaded r st pc) :
    Loaded r st' pc := by
  unfold Loaded at *
  rwa [h]

theorem loaded_idle (h : pc.inFlight = false) : Loaded r st pc := by
  cases pc <;> trivial

/-- A run comes to be on its way only by beginning. -/
theorem inFlight_account (h : (account r st pc).2.inFlight = true) :
    pc = .start ∨ pc.inFlight = true := by
  cases pc with
  | done => cases h
  | start => exact .inl rfl
  | _ => exact .inr rfl

end Step

variable {runs : Fin n → Run}

theorem inv_snoc {pre : List (Fin n)} {i : Fin n} (h : Inv runs (afterRuns runs pre))
    (hserial : SerialAt runs pre i) : Inv runs (afterRuns runs (pre ++ [i])) := by
  have hself : (afterRuns runs (pre ++ [i])).locals i = _ := Threads.locals_snoc_self pre i
  have hne : ∀ j, j ≠ i → (afterRuns runs (pre ++ [i])).locals j = (afterRuns runs pre).locals j :=
    fun j hj => Threads.locals_snoc_ne hj pre
  have hsh : (afterRuns runs (pre ++ [i])).shared = _ := Threads.shared_snoc pre i
  -- while the run that steps is on its way, no other one of its slot is
  have hclear : ∀ j, j ≠ i → (runs j).cpu = (runs i).cpu → (runs j).dir = (runs i).dir →
      ((afterRuns runs pre).locals i = .start ∨ ((afterRuns runs pre).locals i).inFlight = true) →
      ((afterRuns runs pre).locals j).inFlight = false := by
    rintro j hj hc hd (hstart | hfly)
    · exact hserial hstart j hc hd
    · exact Bool.eq_false_iff.mpr fun hjf => hj (h.alone j i hc hd hjf hfly)
  refine ⟨fun a b hc hd ha hb => ?_, fun j => ?_⟩
  · rcases eq_or_ne a i with rfl | hai <;> rcases eq_or_ne b a with hba | hba
    · exact hba.symm
    · rw [hne b hba] at hb
      exact absurd hb (Bool.eq_false_iff.mp
        (hclear b hba hc.symm hd.symm (inFlight_account (hself ▸ ha))))
    · exact hba.symm
    · rcases eq_or_ne b i with rfl | hbi
      · rw [hne a hai] at ha
        exact absurd ha (Bool.eq_false_iff.mp (hclear a hai hc hd (inFlight_account (hself ▸ hb))))
      · rw [hne a hai] at ha
        rw [hne b hbi] at hb
        exact h.alone a b hc hd ha hb
  · rcases eq_or_ne j i with rfl | hj
    · rw [hsh]
      exact hself ▸ loaded_account _
    · rw [hne j hj, hsh]
      by_cases hslot : (runs i).cpu = (runs j).cpu ∧ (runs i).dir = (runs j).dir
      · cases hfly : ((afterRuns runs pre).locals i).inFlight with
        | false => exact loaded_congr (congrFun₂ (account_idle hfly) _ _) (h.loaded j)
        | true => exact loaded_idle (hclear j hj hslot.1.symm hslot.2.symm (.inr hfly))
      · exact loaded_congr (account_other hslot) (h.loaded j)

theorem inv_after {sched : List (Fin n)} (hserial : Along (SerialAt runs) sched) :
    Inv runs (afterRuns runs sched) := by
  refine prefix_history (P := fun pre => Inv runs (afterRuns runs pre)) ?_
    fun pre i post he ih => inv_snoc ih (hserial pre i post he)
  exact ⟨fun i j _ _ hi => (nomatch hi), fun i => trivial⟩

/-! ## What a word has -/

/-- The run has stored the word. -/
def stored : Word → Pc → Bool
  | .packets, .storedPackets | .packets, .loadedBytes _ => true
  | _, .done => true
  | _, _ => false

/-- What a run has added to the word of a slot. -/
def share (w : Word) (c : Nat) (d : AttachPoint) (r : Run) (pc : Pc) : Nat :=
  if (r.cpu = c ∧ r.dir = d) ∧ stored w pc = true then r.adds w else 0

/-- A step adds to the word what it adds to the share of the run. -/
theorem account_adds {r : Run} {st : Stats} {pc : Pc} (hl : Loaded r st pc) (w : Word) (c : Nat)
    (d : AttachPoint) :
    ∃ δ, share w c d r (account r st pc).2 = share w c d r pc + δ ∧
      ∀ total, (st c d).get w = total % 2 ^ 64 →
        ((account r st pc).1 c d).get w = (total + δ) % 2 ^ 64 := by
  by_cases hslot : r.cpu = c ∧ r.dir = d
  · obtain ⟨rfl, rfl⟩ := hslot
    cases pc with
    | start => exact ⟨0, by cases w <;> rfl, fun total h => h⟩
    | storedPackets => exact ⟨0, by cases w <;> simp [share, stored, account], fun total h => h⟩
    | done => exact ⟨0, rfl, fun total h => h⟩
    | loadedPackets v =>
      subst hl
      cases w with
      | packets =>
        refine ⟨1, by simp [share, stored, account, Run.adds], fun total h => ?_⟩
        simp only [account, store_same]
        show u64Add ((st r.cpu r.dir).get .packets) 1 = _
        rw [h, u64Add, Nat.mod_add_mod]
      | bytes =>
        refine ⟨0, by simp [share, stored, account], fun total h => ?_⟩
        simp only [account, store_same]
        exact h
    | loadedBytes v =>
      subst hl
      cases w with
      | packets =>
        refine ⟨0, by simp [share, stored, account], fun total h => ?_⟩
        simp only [account, store_same]
        exact h
      | bytes =>
        refine ⟨r.len, by simp [share, stored, account, Run.adds], fun total h => ?_⟩
        simp only [account, store_same]
        show u64Add ((st r.cpu r.dir).get .bytes) r.len = _
        rw [h, u64Add, Nat.mod_add_mod]
  · refine ⟨0, by simp [share, hslot], fun total h => ?_⟩
    rw [account_other hslot]
    exact h

/-- The words are the sums of the shares, in 64 bits. -/
theorem get_after {sched : List (Fin n)} (hserial : Along (SerialAt runs) sched)
    (w : Word) (c : Nat) (d : AttachPoint) :
    ((afterRuns runs sched).shared c d).get w =
      (∑ i, share w c d (runs i) ((afterRuns runs sched).locals i)) % 2 ^ 64 := by
  refine Threads.after_sum (f := fun total => total % 2 ^ 64)
    (S := fun i => share w c d (runs i))
    (V := fun sched => ((afterRuns runs sched).shared c d).get w) ?_ fun pre i post he => ?_
  · have hzero : ∀ i, share w c d (runs i) .start = 0 :=
      fun i => by cases w <;> simp [share, stored]
    simp only [hzero, Finset.sum_const_zero]
    cases w <;> rfl
  · have hinv := inv_after (he ▸ hserial).left
    obtain ⟨δ, hδ, hval⟩ := account_adds (hinv.loaded i) w c d
    refine ⟨δ, hδ, fun hv => ?_⟩
    rw [afterRuns, Threads.shared_snoc]
    exact hval _ hv

/-! ## Earlier and later -/

/-- How far a run has come. -/
def rank : Pc → Nat
  | .start => 0
  | .loadedPackets _ => 1
  | .storedPackets => 2
  | .loadedBytes _ => 3
  | .done => 4

theorem rank_account (r : Run) (st : Stats) (pc : Pc) : rank pc ≤ rank (account r st pc).2 := by
  cases pc <;> simp [rank, account]

theorem rank_append (runs : Fin n → Run) (pre post : List (Fin n)) (i : Fin n) :
    rank ((afterRuns runs pre).locals i) ≤ rank ((afterRuns runs (pre ++ post)).locals i) := by
  induction post using List.reverseRecOn with
  | nil => rw [List.append_nil]
  | append_singleton post j ih =>
    refine ih.trans ?_
    rw [← List.append_assoc, afterRuns, afterRuns]
    rcases eq_or_ne i j with rfl | hij
    · rw [Threads.locals_snoc_self]
      exact rank_account _ _ _
    · rw [Threads.locals_snoc_ne hij]

theorem rank_take (runs : Fin n → Run) {a b : Nat} (hab : a ≤ b)
    (sched : List (Fin n)) (i : Fin n) :
    rank ((afterRuns runs (sched.take a)).locals i) ≤
      rank ((afterRuns runs (sched.take b)).locals i) := by
  have hsplit : sched.take b = sched.take a ++ (sched.drop a).take (b - a) := by
    rw [← List.take_add, Nat.add_sub_cancel' hab]
  rw [hsplit]
  exact rank_append runs _ _ i

theorem done_iff (pc : Pc) : (pc == .done) = true ↔ rank pc = 4 := by
  cases pc <;> simp [rank]

theorem begun_iff (pc : Pc) : (pc != .start) = true ↔ 1 ≤ rank pc := by
  cases pc <;> simp [rank]

theorem stored_of_done {pc : Pc} (h : 4 ≤ rank pc) (w : Word) : stored w pc = true := by
  cases pc <;> cases w <;> first | rfl | simp [rank] at h

theorem begun_of_stored {pc : Pc} {w : Word} (h : stored w pc = true) : 1 ≤ rank pc := by
  cases pc with
  | start => cases w <;> cases h
  | _ => simp [rank]

/-! ## The sum over the CPUs -/

theorem sumRecs_eq (ncpu : Nat) (recs : Nat → Nat) :
    sumRecs ncpu recs = (∑ c ∈ Finset.range ncpu, recs c) % 2 ^ 64 := by
  induction ncpu with
  | zero => rfl
  | succ ncpu ih =>
    rw [sumRecs, List.range_succ, List.foldl_append, Finset.sum_range_succ]
    show u64Add (sumRecs ncpu recs) (recs ncpu) = _
    rw [ih, u64Add, Nat.mod_add_mod]

/-- Shares in the slots of the CPUs, each read at its own time, are shares of the runs, each
read at the time of its CPU. -/
theorem sum_shares {ncpu : Nat} (hcpu : ∀ i, (runs i).cpu < ncpu) (w : Word) (d : AttachPoint)
    (locals : Nat → Fin n → Pc) :
    ∑ c ∈ Finset.range ncpu, ∑ i, share w c d (runs i) (locals c i) =
      ∑ i, share w (runs i).cpu d (runs i) (locals (runs i).cpu i) := by
  rw [Finset.sum_comm]
  refine Finset.sum_congr rfl fun i _ => Finset.sum_eq_single_of_mem _ ?_ fun c _ hc => ?_
  · exact Finset.mem_range.mpr (hcpu i)
  · exact if_neg fun h => hc h.1.1.symm

end AccountLemmas

open AccountLemmas

/-- For every interleaving in which no two runs overlap in a slot: let user space read the
words of the CPUs in any order between the moments `a` and `b`. What it prints for a
direction is at least what the runs finished by `a` add, and at most what those begun by `b`
add, as long as the runs together add fewer than 2^64. -/
theorem sums_between {runs : Fin n → Run} {sched : List (Fin n)}
    (hserial : Along (SerialAt runs) sched) {ncpu : Nat}
    (hcpu : ∀ i, (runs i).cpu < ncpu) (dir : AttachPoint) {w : Word}
    (hbits : ∑ i, (runs i).adds w < 2 ^ 64) {a b : Nat} {readAt : Nat → Nat}
    (hread : ∀ c < ncpu, a ≤ readAt c ∧ readAt c ≤ b) :
    finishedBy runs sched dir w a ≤ sumRecs ncpu (recsAt runs sched dir w readAt) ∧
    sumRecs ncpu (recsAt runs sched dir w readAt) ≤ begunBy runs sched dir w b := by
  have hle : ∀ c (locals : Fin n → Pc),
      ∑ i, share w c dir (runs i) (locals i) ≤ ∑ i, (runs i).adds w := fun c locals =>
    Finset.sum_le_sum fun i _ => by unfold share; split <;> simp
  have hword : ∀ c, recsAt runs sched dir w readAt c =
      ∑ i, share w c dir (runs i) ((afterRuns runs (sched.take (readAt c))).locals i) := by
    intro c
    have htake : Along (SerialAt runs) (sched.take (readAt c)) := by
      rw [← List.take_append_drop (readAt c) sched] at hserial
      exact hserial.left
    rw [recsAt, get_after htake]
    exact Nat.mod_eq_of_lt ((hle c _).trans_lt hbits)
  -- no run has a share in two slots, so the sum over the CPUs does not wrap either
  have hsum : sumRecs ncpu (recsAt runs sched dir w readAt) =
      ∑ i, share w (runs i).cpu dir (runs i)
        ((afterRuns runs (sched.take (readAt (runs i).cpu))).locals i) := by
    rw [sumRecs_eq, Finset.sum_congr rfl fun c _ => hword c,
      sum_shares hcpu w dir fun c => (afterRuns runs (sched.take (readAt c))).locals]
    refine Nat.mod_eq_of_lt (Nat.lt_of_le_of_lt (Finset.sum_le_sum fun i _ => ?_) hbits)
    unfold share
    split <;> simp
  rw [hsum, finishedBy, begunBy, totalOf, totalOf]
  refine ⟨Finset.sum_le_sum fun i _ => ?_, Finset.sum_le_sum fun i _ => ?_⟩
  · split
    next h =>
      have hdone := (done_iff _).mp h.2
      have hlater := rank_take runs (hread _ (hcpu i)).1 sched i
      rw [share, if_pos ⟨⟨rfl, h.1⟩, stored_of_done (hdone ▸ hlater) w⟩]
    next => exact Nat.zero_le _
  · unfold share
    split
    next h =>
      have hlater := rank_take runs (hread _ (hcpu i)).2 sched i
      rw [if_pos ⟨h.1.2, (begun_iff _).mpr ((begun_of_stored h.2).trans hlater)⟩]
    next => exact Nat.zero_le _

/-- Two frames come in and a third goes out, on two CPUs. -/
def exFrames : Fin 3 → Run
  | 0 => ⟨0, .ingress, 60⟩
  | 1 => ⟨1, .ingress, 1500⟩
  | 2 => ⟨0, .egress, 40⟩

/-- CPU 0 is interrupted on the way in to send, and CPU 1 runs beside it. -/
def exSched : List (Fin 3) := [0, 1, 0, 2, 2, 1, 1, 2, 2, 0, 0, 1]

/-- Slot 1 is read just before its run stores the bytes, slot 0 just after. -/
def exReads (c : Nat) : Nat := if c = 0 then 12 else 11

theorem exFrames_between :
    finishedBy exFrames exSched .ingress .bytes 11 = 60 ∧
    begunBy exFrames exSched .ingress .bytes 12 = 1560 ∧
    finishedBy exFrames exSched .ingress .bytes 11 ≤
      sumRecs 2 (recsAt exFrames exSched .ingress .bytes exReads) ∧
    sumRecs 2 (recsAt exFrames exSched .ingress .bytes exReads) ≤
      begunBy exFrames exSched .ingress .bytes 12 :=
  ⟨by decide +kernel, by decide +kernel,
    sums_between (by decide +kernel) (by decide) .ingress (by decide) (by decide)⟩

/-- Two runs in one slot: both load 0. -/
theorem shared_slot_loses :
    ∃ (runs : Fin 2 → Run) (sched : List (Fin 2)), (∀ i, (afterRuns runs sched).locals i = .done) ∧
      ((afterRuns runs sched).shared 0 .ingress).packets = 1 :=
  ⟨fun _ => ⟨0, .ingress, 60⟩, [0, 1, 0, 1, 0, 0, 1, 1], by decide +kernel⟩

end Ebpf101.Tc
