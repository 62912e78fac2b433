import Mathlib.Algebra.Order.BigOperators.Group.Finset
import Mathlib.Data.Fintype.Basic
import Ebpf101.Lib.Runs

/-!
# Interleaved threads

Threads `i : ι` run over one shared state `s : σ`. What a thread has to itself,
its place in its program included, is a local state `t : τ`, and `prog i s t` is
its next atomic step. A schedule is the list of the threads that step, in order.

* `after prog s sched` is the system after a schedule;
* `after_local`: assertions about one thread and the shared state hold throughout
  when the thread's own steps keep them and what the others may do to the shared
  state cannot break them;
* `after_rank`: a thread that comes nearer to its end with each of its steps gets
  there;
* `after_sum`: a quantity to which every step adds what it adds to the thread's
  own share is, at any time, the sum of the shares.
-/

namespace Threads

open Runs

variable {ι σ τ : Type} [DecidableEq ι]

/-- The shared state and the local state of every thread. -/
structure Sys (ι σ τ : Type) where
  shared : σ
  locals : ι → τ

/-- Thread `i` takes its next step. -/
def tick (prog : ι → σ → τ → σ × τ) (s : Sys ι σ τ) (i : ι) : Sys ι σ τ × Unit :=
  (⟨(prog i s.shared (s.locals i)).1,
    Function.update s.locals i (prog i s.shared (s.locals i)).2⟩, ())

/-- The system after a schedule. -/
def after (prog : ι → σ → τ → σ × τ) (s : Sys ι σ τ) (sched : List ι) : Sys ι σ τ :=
  exec (tick prog) s sched

variable {prog : ι → σ → τ → σ × τ} {s : Sys ι σ τ}

@[simp] theorem after_nil : after prog s [] = s := rfl

theorem after_snoc (sched : List ι) (i : ι) :
    after prog s (sched ++ [i]) = (tick prog (after prog s sched) i).1 :=
  exec_snoc sched i

theorem after_append (sched sched' : List ι) :
    after prog s (sched ++ sched') = after prog (after prog s sched) sched' :=
  List.foldl_append

/-- The shared state after one more step. -/
theorem shared_snoc (sched : List ι) (i : ι) :
    (after prog s (sched ++ [i])).shared =
      (prog i (after prog s sched).shared ((after prog s sched).locals i)).1 := by
  rw [after_snoc]
  rfl

theorem locals_snoc_self (sched : List ι) (i : ι) :
    (after prog s (sched ++ [i])).locals i =
      (prog i (after prog s sched).shared ((after prog s sched).locals i)).2 := by
  rw [after_snoc]
  exact Function.update_self _ _ _

theorem locals_snoc_ne {i j : ι} (h : j ≠ i) (sched : List ι) :
    (after prog s (sched ++ [i])).locals j = (after prog s sched).locals j := by
  rw [after_snoc]
  exact Function.update_of_ne h _ _

/-! ## Assertions about one thread -/

/-- `J i` is about thread `i` and the shared state, `R` is what any step may do to
the shared state. -/
theorem after_local {J : ι → σ → τ → Prop} {R : σ → σ → Prop}
    (hown : ∀ i s t, J i s t → J i (prog i s t).1 (prog i s t).2)
    (hguarantee : ∀ i s t, J i s t → R s (prog i s t).1)
    (hstable : ∀ i s s' t, R s s' → J i s t → J i s' t)
    (h0 : ∀ i, J i s.shared (s.locals i)) (sched : List ι) :
    ∀ i, J i (after prog s sched).shared ((after prog s sched).locals i) := by
  induction sched using List.reverseRecOn with
  | nil => exact h0
  | append_singleton sched j ih =>
    intro i
    rw [shared_snoc]
    rcases eq_or_ne i j with rfl | hij
    · rw [locals_snoc_self]
      exact hown i _ _ (ih i)
    · rw [locals_snoc_ne hij]
      exact hstable i _ _ _ (hguarantee j _ _ (ih j)) (ih i)

/-- A thread whose own steps come nearer to its end is there after enough of them,
whatever the others do. -/
theorem after_rank {i : ι} {rank : τ → Nat} (h : ∀ s t, rank (prog i s t).2 ≤ rank t - 1)
    (s : Sys ι σ τ) (sched : List ι) :
    rank ((after prog s sched).locals i) ≤ rank (s.locals i) - sched.count i := by
  induction sched using List.reverseRecOn with
  | nil => exact Nat.le_refl _
  | append_singleton sched j ih =>
    rw [List.count_append]
    rcases eq_or_ne j i with rfl | hij
    · rw [locals_snoc_self, List.count_singleton_self, ← Nat.sub_sub]
      exact (h _ _).trans (Nat.sub_le_sub_right ih 1)
    · rw [locals_snoc_ne hij.symm, List.count_singleton, if_neg (by simpa using hij), Nat.add_zero]
      exact ih

/-! ## Sums of shares -/

section Sums

variable [Fintype ι]

/-- The sum of the shares when one thread's local state changes. -/
theorem sum_update (share : ι → τ → Nat) (locals : ι → τ) (j : ι) (t : τ) :
    ∑ i, share i (Function.update locals j t i) + share j (locals j) =
      ∑ i, share i (locals i) + share j t := by
  have hold := Finset.add_sum_erase Finset.univ (fun i => share i (locals i)) (Finset.mem_univ j)
  have hnew := Finset.add_sum_erase Finset.univ
    (fun i => share i (Function.update locals j t i)) (Finset.mem_univ j)
  have hrest : ∑ i ∈ Finset.univ.erase j, share i (Function.update locals j t i) =
      ∑ i ∈ Finset.univ.erase j, share i (locals i) :=
    Finset.sum_congr rfl fun i hi => by rw [Function.update_of_ne (Finset.ne_of_mem_erase hi)]
  rw [← hold, ← hnew, hrest, Function.update_self]
  omega

/-- `V` is a quantity that depends on the schedule so far, read off a total
through `f`. If every step of a schedule adds to it what it adds to the share of
the thread that steps, it is the total of the shares. -/
theorem after_sum {V : List ι → Nat} {f : Nat → Nat} {S : ι → τ → Nat}
    (h0 : V [] = f (∑ i, S i (s.locals i))) {sched : List ι}
    (hstep : ∀ pre i post, sched = pre ++ i :: post → ∃ d,
      S i (prog i (after prog s pre).shared ((after prog s pre).locals i)).2 =
        S i ((after prog s pre).locals i) + d ∧
      (V pre = f (∑ j, S j ((after prog s pre).locals j)) →
        V (pre ++ [i]) = f (∑ j, S j ((after prog s pre).locals j) + d))) :
    V sched = f (∑ i, S i ((after prog s sched).locals i)) := by
  refine prefix_history (P := fun pre => V pre = f (∑ i, S i ((after prog s pre).locals i)))
    h0 fun pre j post he ih => ?_
  obtain ⟨d, hd, hval⟩ := hstep pre j post he
  have hsum := sum_update S (after prog s pre).locals j
    (prog j (after prog s pre).shared ((after prog s pre).locals j)).2
  rw [hd] at hsum
  have htotal : ∑ i, S i ((after prog s (pre ++ [j])).locals i) =
      ∑ i, S i ((after prog s pre).locals i) + d := by
    rw [after_snoc]
    show ∑ i, S i (Function.update (after prog s pre).locals j _ i) = _
    omega
  rw [htotal]
  exact hval ih

end Sums

/-! ## Threads that count a key -/

section Keys

variable [Fintype ι] {κ : Type*} [DecidableEq κ] [DecidableEq τ]

/-- The number of threads of the key. -/
def runsOf (key : ι → κ) (k : κ) : Nat := ∑ i, if key i = k then 1 else 0

/-- One for a thread of key `k` that has come to its last state. -/
def share (last : τ) (k k' : κ) (t : τ) : Nat := if k' = k ∧ t = last then 1 else 0

omit [DecidableEq ι] in
theorem sum_share_le (last : τ) (key : ι → κ) (k : κ) (locals : ι → τ) :
    ∑ i, share last k (key i) (locals i) ≤ runsOf key k := by
  refine Finset.sum_le_sum fun i _ => ?_
  unfold share
  split
  · next h => rw [if_pos h.1]
  · exact Nat.zero_le _

omit [DecidableEq ι] in
theorem sum_share_of_last {last : τ} {locals : ι → τ} (h : ∀ i, locals i = last) (key : ι → κ)
    (k : κ) : ∑ i, share last k (key i) (locals i) = runsOf key k :=
  Finset.sum_congr rfl fun i _ => by simp [share, h i]

end Keys

end Threads
