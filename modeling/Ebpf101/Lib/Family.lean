import Mathlib.Data.List.ReduceOption
import Mathlib.Logic.Function.Basic
import Ebpf101.Lib.SlotRuns

/-!
# A family of machines, one for each key

A state that is a function of a key, and inputs each of which moves the value of its own
key: a dictionary that never runs full.

* `lift key f` is the whole family;
* `exec_lift`, `outsOf_lift`: each member sees the inputs of its own key only;
* `filter_lift`: the same for outputs that name the key themselves.
-/

namespace Family

open Runs SlotTable

variable {κ ν ω ι : Type} [DecidableEq κ]

/-- The machine `f` at the key of the input. -/
def lift (key : ι → κ) (f : ν → ι → ν × ω) (t : κ → ν) (i : ι) : (κ → ν) × ω :=
  (Function.update t (key i) (f (t (key i)) i).1, (f (t (key i)) i).2)

variable {key : ι → κ} {f : ν → ι → ν × ω}

theorem exec_lift (t : κ → ν) (is : List ι) (k : κ) :
    exec (lift key f) t is k = exec f (t k) (own key k is) := by
  induction is using List.reverseRecOn with
  | nil => rfl
  | append_singleton is i ih =>
    rw [exec_snoc, own_snoc]
    rcases eq_or_ne (key i) k with rfl | hne
    · rw [if_pos rfl, exec_snoc, ← ih]
      exact Function.update_self _ _ _
    · rw [if_neg hne, ← ih]
      exact Function.update_of_ne hne.symm _ _

theorem outsOf_lift (t : κ → ν) (is : List ι) (k : κ) :
    outsOf key k is (outs (lift key f) t is) = outs f (t k) (own key k is) := by
  induction is using List.reverseRecOn with
  | nil => rfl
  | append_singleton is i ih =>
    rw [outs_snoc, outsOf_snoc key k (length_outs is).symm, own_snoc, ih]
    rcases eq_or_ne (key i) k with rfl | hne
    · rw [if_pos rfl, if_pos rfl, outs_snoc, ← exec_lift]
      rfl
    · rw [if_neg hne, if_neg hne, List.append_nil]

theorem mem_zip_outs {σ : Type} {step : σ → ι → σ × ω} {s : σ} {is : List ι} {x : ι × ω}
    (h : x ∈ is.zip (outs step s is)) : ∃ s', x.2 = (step s' x.1).2 := by
  induction is generalizing s with
  | nil => cases h
  | cons i is ih =>
    rcases List.mem_cons.mp h with rfl | hx
    · exact ⟨s, rfl⟩
    · exact ih hx

/-- Outputs that carry the key of their input are sorted by what they carry. -/
theorem filter_reduceOption {o : Type} {tag : o → κ} (k : κ) {is : List ι} {os : List (Option o)}
    (h : ∀ x ∈ is.zip os, ∀ l ∈ x.2, tag l = key x.1) (hlen : is.length = os.length) :
    os.reduceOption.filter (fun l => tag l = k) = (outsOf key k is os).reduceOption := by
  induction is generalizing os with
  | nil =>
    rw [List.length_eq_zero_iff.mp hlen.symm]
    rfl
  | cons i is ih =>
    cases os with
    | nil => cases hlen
    | cons x os =>
      have htail := ih (fun y hy => h y (List.mem_cons_of_mem _ hy)) (Nat.succ.inj hlen)
      have hcons : outsOf key k (i :: is) (x :: os) =
          if key i = k then x :: outsOf key k is os else outsOf key k is os := by
        unfold outsOf
        rw [List.zip_cons_cons, List.filter_cons]
        by_cases hk : key i = k <;> simp [hk]
      rw [hcons]
      cases x with
      | none =>
        rw [List.reduceOption_cons_of_none, htail]
        split <;> rfl
      | some l =>
        have hl : tag l = key i := h (i, some l) List.mem_cons_self l rfl
        rw [List.reduceOption_cons_of_some, List.filter_cons, htail, hl]
        by_cases hk : key i = k <;> simp [hk]

/-- The outputs of a family that carry the key `k`. -/
theorem filter_lift {o : Type} {g : ν → ι → ν × Option o} {tag : o → κ}
    (h : ∀ v i, ∀ l ∈ (g v i).2, tag l = key i) (t : κ → ν) (is : List ι) (k : κ) :
    (outs (lift key g) t is).reduceOption.filter (fun l => tag l = k) =
      (outs g (t k) (own key k is)).reduceOption := by
  rw [filter_reduceOption k (fun x hx l hl => ?_) (length_outs is).symm, outsOf_lift]
  obtain ⟨t', ht'⟩ := mem_zip_outs hx
  rw [ht'] at hl
  exact h _ _ l hl

end Family
