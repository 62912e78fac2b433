import Mathlib.Algebra.GroupWithZero.Nat
import Mathlib.Data.List.Induction
import Mathlib.Data.List.Basic

/-!
# Runs of a machine

A machine is a function `step : σ → ι → σ × ω`: one input moves the state and
emits one output. A run is the list of its inputs, in order.

* `exec` is the state after a run and `outs` its outputs, one for each input;
* `Along P is` says that `P` holds at every step of the run `is`, where `P`
  sees the inputs before that step and the input of the step itself;
* `tally w is` is the sum of `w` over the steps of the run, in the same sense;
* `LastWrite writes x is` says that `x` was written last; `register_eq_iff`: a
  register that only such steps change holds it;
* `exec_history` is the induction over a run: an invariant that relates the
  inputs consumed so far to the state is enough, step by step.
-/

namespace Runs

variable {σ ι ω : Type}

/-! ## Definitions -/

/-- The state after the inputs `is`. -/
def exec (step : σ → ι → σ × ω) (s : σ) (is : List ι) : σ :=
  is.foldl (fun s i => (step s i).1) s

/-- The outputs of the inputs `is`, one for each. -/
def outs (step : σ → ι → σ × ω) (s : σ) : List ι → List ω
  | [] => []
  | i :: is => (step s i).2 :: outs step (step s i).1 is

/-- `P pre i` holds at every step `i` of the run `is`, `pre` being the inputs
before it. -/
def Along (P : List ι → ι → Prop) (is : List ι) : Prop :=
  ∀ pre i post, is = pre ++ i :: post → P pre i

/-! ## States and outputs -/

section States

variable {step : σ → ι → σ × ω} {s : σ}

@[simp] theorem exec_nil : exec step s [] = s := rfl

@[simp] theorem exec_cons (i : ι) (is : List ι) :
    exec step s (i :: is) = exec step (step s i).1 is := rfl

@[simp] theorem exec_snoc (is : List ι) (i : ι) :
    exec step s (is ++ [i]) = (step (exec step s is) i).1 := by
  simp [exec]

/-- A fold that carries notes along with the state. -/
theorem fst_foldl {β : Type} {f : σ × β → ι → σ × β} (hf : ∀ a i, (f a i).1 = (step a.1 i).1)
    (a : σ × β) (is : List ι) : (is.foldl f a).1 = exec step a.1 is := by
  induction is generalizing a with
  | nil => rfl
  | cons i is ih => rw [List.foldl_cons, ih, hf, exec_cons]

@[simp] theorem outs_nil : outs step s [] = [] := rfl

theorem outs_append (is js : List ι) :
    outs step s (is ++ js) = outs step s is ++ outs step (exec step s is) js := by
  induction is generalizing s with
  | nil => rfl
  | cons i is ih => simp [outs, ih]

@[simp] theorem outs_snoc (is : List ι) (i : ι) :
    outs step s (is ++ [i]) = outs step s is ++ [(step (exec step s is) i).2] := by
  rw [outs_append]
  rfl

theorem length_outs (is : List ι) : (outs step s is).length = is.length := by
  induction is generalizing s with
  | nil => rfl
  | cons i is ih => rw [outs, List.length_cons, List.length_cons, ih]

/-- A run that pays for its outputs from a budget. -/
theorem sum_outs_le {w : ω → Nat} (budget : σ → Nat)
    (h : ∀ s i, w (step s i).2 + budget (step s i).1 ≤ budget s) (is : List ι) :
    ((outs step s is).map w).sum ≤ budget s := by
  induction is generalizing s with
  | nil => exact Nat.zero_le _
  | cons i is ih =>
    rw [outs, List.map_cons, List.sum_cons]
    exact Nat.le_trans (Nat.add_le_add_left ih _) (h s i)

end States

/-! ## Properties of every step -/

@[simp] theorem along_nil (P : List ι → ι → Prop) : Along P [] := by
  intro pre i post h
  simp at h

/-- The steps of a run that is one longer: those before, and the last one. -/
theorem along_snoc {P : List ι → ι → Prop} {is : List ι} {i : ι} :
    Along P (is ++ [i]) ↔ Along P is ∧ P is i := by
  constructor
  · intro h
    refine ⟨fun pre j post he => h pre j (post ++ [i]) (by simp [he]), h is i [] rfl⟩
  · rintro ⟨h, hi⟩ pre j post he
    rcases List.eq_nil_or_concat post with rfl | ⟨post', k, rfl⟩
    · obtain ⟨rfl, hj⟩ := List.append_inj' he rfl
      cases hj
      exact hi
    · rw [List.concat_eq_append, ← List.cons_append, ← List.append_assoc] at he
      obtain ⟨rfl, -⟩ := List.append_inj' he rfl
      exact h pre j post' rfl

theorem along_cons {P : List ι → ι → Prop} {i : ι} {is : List ι} :
    Along P (i :: is) ↔ P [] i ∧ Along (fun pre => P (i :: pre)) is := by
  constructor
  · intro h
    exact ⟨h [] i is rfl, fun pre j post he => h (i :: pre) j post (by rw [he]; rfl)⟩
  · rintro ⟨h0, h⟩ pre j post he
    cases pre with
    | nil => cases he; exact h0
    | cons k pre => cases he; exact h pre j post rfl

instance decidableAlong : (P : List ι → ι → Prop) → [∀ pre i, Decidable (P pre i)] →
    (is : List ι) → Decidable (Along P is)
  | P, _, [] => isTrue (along_nil P)
  | P, _, i :: is =>
    have := decidableAlong (fun pre => P (i :: pre)) is
    decidable_of_iff _ along_cons.symm

theorem Along.left {P : List ι → ι → Prop} {is js : List ι} (h : Along P (is ++ js)) :
    Along P is :=
  fun pre i post he => h pre i (post ++ js) (by simp [he])

theorem Along.last {P : List ι → ι → Prop} {is : List ι} {i : ι}
    (h : Along P (is ++ [i])) : P is i :=
  (along_snoc.mp h).2

/-- The step at place `j` of the run. -/
theorem Along.at {P : List ι → ι → Prop} {is : List ι} (h : Along P is) {j : Nat} {i : ι}
    (hj : is[j]? = some i) : P (is.take j) i := by
  obtain ⟨hlt, hget⟩ := List.getElem?_eq_some_iff.mp hj
  refine h _ _ (is.drop (j + 1)) ?_
  rw [← hget, ← List.drop_eq_getElem_cons, List.take_append_drop]

theorem Along.mono {P Q : List ι → ι → Prop} {is : List ι} (h : Along P is)
    (hpq : ∀ pre i, P pre i → Q pre i) : Along Q is :=
  fun pre i post he => hpq pre i (h pre i post he)

/-- Two machines whose outputs look alike at every step of a run. -/
theorem map_outs_congr {σ ω σ' ω' β : Type} {step : σ → ι → σ × ω} {s : σ}
    {step' : σ' → ι → σ' × ω'} {s' : σ'} {g : ω → β} {g' : ω' → β} {is : List ι}
    (h : Along (fun pre i =>
      g (step (exec step s pre) i).2 = g' (step' (exec step' s' pre) i).2) is) :
    (outs step s is).map g = (outs step' s' is).map g' := by
  induction is using List.reverseRecOn with
  | nil => rfl
  | append_singleton is i ih =>
    rw [outs_snoc, outs_snoc, List.map_append, List.map_append, ih h.left, List.map_singleton,
      List.map_singleton, h.last]

/-! ## Sums over the steps -/

/-- The sum of `w pre i` over the steps `i` of the run, `pre` being the inputs
before it. -/
def tally (w : List ι → ι → Nat) : List ι → Nat
  | [] => 0
  | i :: is => w [] i + tally (fun pre => w (i :: pre)) is

@[simp] theorem tally_nil (w : List ι → ι → Nat) : tally w [] = 0 := rfl

theorem tally_snoc (w : List ι → ι → Nat) (is : List ι) (i : ι) :
    tally w (is ++ [i]) = tally w is + w is i := by
  induction is generalizing w with
  | nil => exact Nat.add_comm _ _
  | cons j is ih =>
    show w [] j + tally _ (is ++ [i]) = w [] j + tally _ is + w (j :: is) i
    rw [ih, Nat.add_assoc]

theorem tally_le_append (w : List ι → ι → Nat) (is js : List ι) :
    tally w is ≤ tally w (is ++ js) := by
  induction js using List.reverseRecOn with
  | nil => exact Nat.le_of_eq (congrArg (tally w) (List.append_nil is).symm)
  | append_singleton js j ih =>
    rw [← List.append_assoc, tally_snoc]
    exact Nat.le_add_right_of_le ih

theorem tally_eq_zero_iff {w : List ι → ι → Nat} {is : List ι} :
    tally w is = 0 ↔ Along (fun pre i => w pre i = 0) is := by
  induction is using List.reverseRecOn with
  | nil => simp
  | append_singleton is i ih => rw [tally_snoc, along_snoc, Nat.add_eq_zero_iff, ih]

/-! ## The last write -/

/-- The last of the steps that write at all wrote `x`; `writes pre i` is what the step `i` writes,
`pre` being the inputs before it. -/
def LastWrite {α : Type} (writes : List ι → ι → Option α) (x : α) (is : List ι) : Prop :=
  ∃ pre i post, is = pre ++ i :: post ∧ writes pre i = some x ∧
    Along (fun mid j => writes (pre ++ i :: mid) j = none) post

theorem lastWrite_snoc {α : Type} {writes : List ι → ι → Option α} {x : α} {is : List ι} {i : ι} :
    LastWrite writes x (is ++ [i]) ↔
      writes is i = some x ∨ writes is i = none ∧ LastWrite writes x is := by
  constructor
  · rintro ⟨pre, j, post, he, hj, hpost⟩
    rcases List.eq_nil_or_concat post with rfl | ⟨post', k, rfl⟩
    · obtain ⟨rfl, hij⟩ := List.append_inj' he rfl
      cases hij
      exact .inl hj
    · rw [List.concat_eq_append] at he hpost
      rw [← List.cons_append, ← List.append_assoc] at he
      obtain ⟨rfl, hik⟩ := List.append_inj' he rfl
      cases hik
      exact .inr ⟨hpost.last, pre, j, post', rfl, hj, hpost.left⟩
  · rintro (hi | ⟨hi, pre, j, post, rfl, hj, hpost⟩)
    · exact ⟨is, i, [], rfl, hi, along_nil _⟩
    · refine ⟨pre, j, post ++ [i], by simp, hj, along_snoc.mpr ⟨hpost, hi⟩⟩

/-- A register holds what was last written to it. -/
theorem register_eq_iff {α : Type} {step : σ → ι → σ × ω} {s : σ} (reg : σ → α)
    {writes : σ → ι → Option α}
    (hstep : ∀ s i, reg (step s i).1 = (writes s i).getD (reg s)) {x : α} (h0 : reg s ≠ x)
    (is : List ι) :
    reg (exec step s is) = x ↔ LastWrite (fun pre => writes (exec step s pre)) x is := by
  induction is using List.reverseRecOn with
  | nil =>
    refine iff_of_false h0 ?_
    rintro ⟨pre, i, post, he, -⟩
    simp at he
  | append_singleton is i ih =>
    rw [exec_snoc, hstep, lastWrite_snoc, ← ih]
    cases writes (exec step s is) i with
    | none => simp
    | some y => simp

/-! ## Induction over a run -/

/-- Induction over the prefixes of a run, each step knowing where it stands. -/
theorem prefixes_history {is : List ι} {P : List ι → Prop} (h0 : P [])
    (hstep : ∀ pre i post, is = pre ++ i :: post → P pre → P (pre ++ [i])) :
    ∀ pre post, is = pre ++ post → P pre := by
  intro pre
  induction pre using List.reverseRecOn with
  | nil => exact fun _ _ => h0
  | append_singleton pre i ih =>
    intro post he
    rw [List.append_assoc, List.singleton_append] at he
    exact hstep pre i post he (ih (i :: post) he)

theorem prefix_history {is : List ι} {P : List ι → Prop} (h0 : P [])
    (hstep : ∀ pre i post, is = pre ++ i :: post → P pre → P (pre ++ [i])) : P is :=
  prefixes_history h0 hstep is [] (List.append_nil is).symm

/-- Induction over a run: `I` relates the inputs consumed so far to the state,
`Q` is what every step of the run is known to satisfy. -/
theorem exec_history {step : σ → ι → σ × ω} {s : σ} {Q : List ι → ι → Prop}
    (I : List ι → σ → Prop) (h0 : I [] s)
    (hstep : ∀ pre i, Along Q pre → Q pre i → I pre (exec step s pre) →
      I (pre ++ [i]) (step (exec step s pre) i).1) :
    ∀ is, Along Q is → I is (exec step s is) := by
  intro is hq
  refine prefix_history (P := fun pre => I pre (exec step s pre)) h0 fun pre i post he ih => ?_
  rw [exec_snoc]
  exact hstep pre i (he ▸ hq).left (hq pre i post he) ih

end Runs
