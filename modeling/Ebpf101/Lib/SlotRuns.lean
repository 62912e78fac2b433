import Mathlib.Algebra.BigOperators.Ring.Finset
import Mathlib.Algebra.BigOperators.Group.List.Basic
import Mathlib.Algebra.Order.BigOperators.Group.Finset
import Ebpf101.Lib.SlotTable

/-!
# What a run over a slot table emits

`SlotTable.visitStep` runs one machine for each key that found a slot. Here are the
outputs of a whole run, sorted by their keys.

* `outsOf key k is os` are the outputs at the inputs of key `k`;
* `outsOf_visits`: for a key that has a slot they are the outputs of a machine that
  sees the inputs of this key only; for any other key there are none;
* `sum_visits_le`: what one machine can emit bounds what the table can emit.
-/

namespace SlotTable

open Runs

variable {κ ν ω ι : Type} [DecidableEq κ] {cap : Nat}

/-! ## Outputs by key -/

/-- The outputs `os`, one for each of the inputs `is`, at the inputs of key `k`. -/
def outsOf {o : Type} (key : ι → κ) (k : κ) (is : List ι) (os : List o) : List o :=
  ((is.zip os).filter fun x => key x.1 = k).map Prod.snd

theorem outsOf_snoc {o : Type} (key : ι → κ) (k : κ) {is : List ι} {os : List o}
    (h : is.length = os.length) (i : ι) (x : o) :
    outsOf key k (is ++ [i]) (os ++ [x]) =
      outsOf key k is os ++ if key i = k then [x] else [] := by
  unfold outsOf
  rw [List.zip_append h, List.filter_append, List.map_append]
  refine congrArg _ ?_
  rw [List.zip_cons_cons, List.zip_nil_left, List.filter_cons, List.filter_nil]
  simp only [decide_eq_true_eq]
  exact apply_ite _ _ _ _

theorem outsOf_map {o o' : Type} (key : ι → κ) (k : κ) (g : o → o') (is : List ι) (os : List o) :
    outsOf key k is (os.map g) = (outsOf key k is os).map g := by
  unfold outsOf
  rw [List.zip_map_right, List.filter_map, List.map_map, List.map_map]
  rfl

theorem outsOf_eq_nil {o : Type} {key : ι → κ} {k : κ} {is : List ι} (h : k ∉ is.map key)
    (os : List o) : outsOf key k is os = [] := by
  unfold outsOf
  rw [List.map_eq_nil_iff, List.filter_eq_nil_iff]
  intro x hx hk
  exact h (List.mem_map.mpr ⟨x.1, (List.of_mem_zip hx).1, of_decide_eq_true hk⟩)

variable {key : ι → κ} {init : ν} {f : ν → ι → ν × ω}

/-- A key is admitted at an input of its own exactly if it was admitted before, or
is new and there is room; what was emitted before is in line with either. -/
theorem outsOf_visits (is : List ι) (k : κ) :
    outsOf key k is (outs (visitStep key init f) (empty κ ν cap) is) =
      if k ∈ admitted cap (is.map key) then (outs f init (own key k is)).map some
      else List.replicate (own key k is).length none := by
  induction is using List.reverseRecOn with
  | nil => simp [outsOf, own, admitted]
  | append_singleton is i ih =>
    rw [outs_snoc, outsOf_snoc key k (length_outs is).symm, own_snoc, visits_out]
    rcases eq_or_ne (key i) k with rfl | hne
    · rw [if_pos rfl, if_pos rfl, List.map_append, List.map_singleton]
      by_cases hmem : key i ∈ is.map key
      · -- the key is admitted, or turned away, as it was before
        simp only [mem_admitted_snoc_of_mem hmem, ih]
        split
        · rw [outs_snoc, List.map_append, List.map_singleton]
        · rw [List.length_append, List.length_singleton, List.replicate_succ']
      · rw [outsOf_eq_nil hmem, own_eq_nil hmem]
        split <;> rfl
    · rw [if_neg hne, if_neg hne, List.append_nil, ih, List.map_append, List.map_singleton,
        if_congr (mem_admitted_snoc_of_ne hne.symm).symm rfl rfl]

/-! ## Totals -/

/-- A sum over a list, sorted by keys. -/
theorem sum_by_key {α : Type} (g : α → κ) (w : α → Nat) (xs : List α) (S : Finset κ)
    (hS : ∀ x ∈ xs, g x ∈ S) :
    (xs.map w).sum = ∑ k ∈ S, ((xs.filter fun x => g x = k).map w).sum := by
  induction xs with
  | nil => simp
  | cons x xs ih =>
    have hx : ∑ k ∈ S, (if g x = k then w x else 0) = w x := by
      rw [Finset.sum_ite_eq, if_pos (hS x List.mem_cons_self)]
    rw [List.map_cons, List.sum_cons, ih fun y hy => hS y (List.mem_cons_of_mem x hy), ← hx,
      ← Finset.sum_add_distrib]
    refine Finset.sum_congr rfl fun k _ => ?_
    rw [List.filter_cons]
    by_cases hk : g x = k <;> simp [hk]

/-- If the machine of each key emits at most `B`, the table emits at most `B` for each
of its slots. -/
theorem sum_visits_le (w : ω → Nat) (B : Nat) (is : List ι)
    (hB : ∀ k, ((outs f init (own key k is)).map w).sum ≤ B) :
    ((outs (visitStep key init f) (empty κ ν cap) is).map fun o => o.elim 0 w).sum ≤ cap * B := by
  have hzip : (outs (visitStep key init f) (empty κ ν cap) is).map (fun o => o.elim 0 w) =
      (is.zip (outs (visitStep key init f) (empty κ ν cap) is)).map fun x => x.2.elim 0 w := by
    have hlen : (outs (visitStep key init f) (empty κ ν cap) is).length ≤ is.length :=
      Nat.le_of_eq (length_outs is)
    conv_lhs => rw [← List.map_snd_zip hlen, List.map_map]
    rfl
  have hkey : ∀ k, (((is.zip (outs (visitStep key init f) (empty κ ν cap) is)).filter
      fun x => key x.1 = k).map fun x => x.2.elim 0 w).sum ≤
      if k ∈ admitted cap (is.map key) then B else 0 := by
    intro k
    have hown : outsOf key k is (outs (visitStep key init f) (empty κ ν cap) is) = _ :=
      outsOf_visits is k
    have h := congrArg (List.map fun o : Option ω => o.elim 0 w) hown
    rw [outsOf, List.map_map] at h
    refine Nat.le_trans (Nat.le_of_eq (congrArg List.sum h)) ?_
    split
    · rw [List.map_map]
      exact hB k
    · simp
  rw [hzip, sum_by_key (fun x => key x.1) _ _ (is.map key).toFinset fun x hx =>
    List.mem_toFinset.mpr (List.mem_map_of_mem (List.of_mem_zip hx).1)]
  refine Nat.le_trans (Finset.sum_le_sum fun k _ => hkey k) ?_
  rw [← Finset.sum_filter, Finset.sum_const_nat fun _ _ => rfl]
  refine Nat.mul_le_mul_right B (Nat.le_trans (Finset.card_le_card (t :=
    (admitted cap (is.map key)).toFinset) fun k hk => ?_)
      (Nat.le_trans (List.toFinset_card_le _) ?_))
  · exact List.mem_toFinset.mpr (Finset.mem_filter.mp hk).2
  · exact List.length_take_le _ _

end SlotTable
