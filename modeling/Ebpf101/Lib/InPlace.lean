import Mathlib.Data.List.Basic
import Mathlib.Data.List.Perm.Basic

/-!
# Arrays updated in place

Two idioms of static C arrays, over lists of a fixed length.

Results:
1. `compact_spec`: the loop that moves the entries to keep to the front, in one
   pass over one array, leaves exactly those entries there, in order.
2. `Window.push`: writing the `m`-th value at index `m % cap` keeps the last
   `cap` values, in some order.
-/

namespace InPlace

variable {α : Type}

/-! ## Compaction -/

/-- One turn of the loop: entry `i` moves to `w` if it is kept. -/
def compactStep (keep : α → Bool) (s : List α × Nat) (i : Nat) : List α × Nat :=
  match s.1[i]? with
  | some x => if keep x then (s.1.set s.2 x, s.2 + 1) else s
  | none => s

/-- Compacts the first `n` entries; returns the array and their new number. -/
def compact (keep : α → Bool) (xs : List α) (n : Nat) : List α × Nat :=
  (List.range n).foldl (compactStep keep) (xs, 0)

/-- The array after `i` turns: what was kept is in front, what is still to be
read is untouched. -/
structure Compacted (keep : α → Bool) (xs : List α) (i : Nat) (s : List α × Nat) : Prop where
  length : s.1.length = xs.length
  count : s.2 = ((xs.take i).filter keep).length
  front : s.1.take s.2 = (xs.take i).filter keep
  rest : s.1.drop i = xs.drop i

theorem take_succ_set {xs : List α} {w : Nat} (h : w < xs.length) (x : α) :
    (xs.set w x).take (w + 1) = xs.take w ++ [x] := by
  rw [List.take_add_one, List.take_set_of_le (Nat.le_refl w), List.getElem?_set_self h]
  rfl

theorem Compacted.step {keep : α → Bool} {xs : List α} {i : Nat} {s : List α × Nat}
    (h : Compacted keep xs i s) (hi : i < xs.length) :
    Compacted keep xs (i + 1) (compactStep keep s i) := by
  have hget : s.1[i]? = some xs[i] := by
    have hd := congrArg (fun l => l[0]?) h.rest
    simpa [List.getElem?_drop, hi] using hd
  have hfilter : (xs.take (i + 1)).filter keep =
      (xs.take i).filter keep ++ if keep xs[i] then [xs[i]] else [] := by
    rw [List.take_add_one, List.getElem?_eq_getElem hi, List.filter_append]
    cases hk : keep xs[i] <;> simp [hk]
  have hrest : ∀ w, w ≤ i → ∀ x, (s.1.set w x).drop (i + 1) = xs.drop (i + 1) := by
    intro w hw x
    rw [List.drop_set_of_lt (by omega), ← List.drop_drop, h.rest, List.drop_drop]
  have hw : s.2 ≤ i := by
    rw [h.count]
    exact Nat.le_trans (List.length_filter_le _ _) (List.length_take_le _ _)
  unfold compactStep
  rw [hget]
  dsimp only
  cases hk : keep xs[i] with
  | true =>
    rw [hk, if_pos rfl] at hfilter
    rw [if_pos rfl]
    refine ⟨by rw [List.length_set, h.length], ?_, ?_, hrest s.2 hw _⟩
    · rw [hfilter, List.length_append, h.count, List.length_singleton]
    · have hlt : s.2 < s.1.length := by rw [h.length]; omega
      rw [take_succ_set hlt, h.front, hfilter]
  | false =>
    rw [hk, if_neg Bool.false_ne_true, List.append_nil] at hfilter
    rw [if_neg Bool.false_ne_true]
    refine ⟨h.length, ?_, ?_, ?_⟩
    · rw [hfilter, h.count]
    · rw [hfilter, h.front]
    · rw [← List.drop_drop, h.rest, List.drop_drop]

theorem compacted_range (keep : α → Bool) {xs : List α} {n : Nat} (h : n ≤ xs.length) :
    Compacted keep xs n (compact keep xs n) := by
  unfold compact
  induction n with
  | zero => exact ⟨rfl, rfl, rfl, rfl⟩
  | succ n ih =>
    rw [List.range_succ, List.foldl_append]
    exact (ih (by omega)).step (by omega)

/-- Compaction in place is a filter. -/
theorem compact_spec (keep : α → Bool) {xs : List α} {n : Nat} (h : n ≤ xs.length) :
    (compact keep xs n).1.take (compact keep xs n).2 = (xs.take n).filter keep ∧
    (compact keep xs n).2 ≤ n ∧ (compact keep xs n).1.length = xs.length := by
  have hc := compacted_range keep h
  refine ⟨hc.front, ?_, hc.length⟩
  rw [hc.count]
  exact Nat.le_trans (List.length_filter_le _ _) (List.length_take_le _ _)

/-! ## The last values -/

/-- `ring` holds the last `ring.length` values of `hist`, the `j`-th at index
`j % ring.length`. -/
structure Window (hist ring : List α) : Prop where
  at_mod : ∀ j, j < hist.length → hist.length ≤ j + ring.length →
    ring[j % ring.length]? = hist[j]?
  perm : (ring.take (min hist.length ring.length)).Perm (hist.drop (hist.length - ring.length))

theorem window_nil (ring : List α) : Window [] ring :=
  ⟨fun j hj => absurd hj (Nat.not_lt_zero j), by simp⟩

theorem mod_ne {j m c : Nat} (hj : j < m) (hm : m < j + c) : j % c ≠ m % c := by
  intro he
  have hd : c ∣ m - j := Nat.dvd_of_mod_eq_zero (Nat.sub_mod_eq_zero_of_mod_eq he.symm)
  have := Nat.le_of_dvd (by omega) hd
  omega

theorem Window.push_at_mod {hist ring : List α} (h : Window hist ring) (hpos : 0 < ring.length)
    (x : α) {j : Nat} (hj : j < hist.length + 1) (hm : hist.length + 1 ≤ j + ring.length) :
    (ring.set (hist.length % ring.length) x)[j % ring.length]? = (hist ++ [x])[j]? := by
  rcases Nat.lt_succ_iff_lt_or_eq.mp hj with hlt | rfl
  · rw [List.getElem?_set_ne (Ne.symm (mod_ne hlt hm)), List.getElem?_append_left hlt]
    exact h.at_mod j hlt (Nat.le_of_succ_le hm)
  · rw [List.getElem?_set_self (Nat.mod_lt _ hpos), List.getElem?_append_right (Nat.le_refl _)]
    simp

/-- The ring is not full yet: the value goes behind the others. -/
theorem Window.push_filling {hist ring : List α} (h : Window hist ring)
    (hroom : hist.length < ring.length) (x : α) :
    ((ring.set (hist.length % ring.length) x).take (hist.length + 1)).Perm (hist ++ [x]) := by
  have hp := h.perm
  rw [Nat.min_eq_left (Nat.le_of_lt hroom), Nat.sub_eq_zero_of_le (Nat.le_of_lt hroom),
    List.drop_zero] at hp
  rw [Nat.mod_eq_of_lt hroom, take_succ_set hroom]
  exact hp.append_right [x]

/-- The ring is full: the value that is overwritten is the oldest of the window. -/
theorem Window.push_full {hist ring : List α} (h : Window hist ring) (hpos : 0 < ring.length)
    (hfull : ring.length ≤ hist.length) (x : α) :
    (ring.set (hist.length % ring.length) x).Perm
      (hist.drop (hist.length - ring.length + 1) ++ [x]) := by
  have hlt : hist.length % ring.length < ring.length := Nat.mod_lt _ hpos
  have hsub : hist.length - ring.length < hist.length :=
    Nat.sub_lt (Nat.lt_of_lt_of_le hpos hfull) hpos
  have hold : ring[hist.length % ring.length]? = hist[hist.length - ring.length]? := by
    rw [← h.at_mod (hist.length - ring.length) hsub (by omega), ← Nat.mod_eq_sub_mod hfull]
  have hp := h.perm
  rw [Nat.min_eq_right hfull, List.take_of_length_le (Nat.le_refl _),
    List.drop_eq_getElem_cons hsub] at hp
  rw [List.getElem?_eq_getElem hlt, List.getElem?_eq_getElem hsub, Option.some_inj] at hold
  have herase : (ring.eraseIdx (hist.length % ring.length)).Perm
      (hist.drop (hist.length - ring.length + 1)) := by
    have hcons := (List.getElem_cons_eraseIdx_perm hlt).trans hp
    rw [hold] at hcons
    exact hcons.cons_inv
  exact (List.set_perm_cons_eraseIdx hlt x).trans
    ((herase.cons x).trans (List.perm_append_singleton x _).symm)

theorem Window.push {hist ring : List α} (h : Window hist ring) (hpos : 0 < ring.length) (x : α) :
    Window (hist ++ [x]) (ring.set (hist.length % ring.length) x) := by
  constructor
  · intro j hj hm
    rw [List.length_append, List.length_singleton] at hj hm
    rw [List.length_set] at hm ⊢
    exact h.push_at_mod hpos x hj hm
  · rw [List.length_append, List.length_singleton, List.length_set]
    rcases Nat.lt_or_ge hist.length ring.length with hroom | hfull
    · rw [Nat.min_eq_left hroom, Nat.sub_eq_zero_of_le hroom]
      exact h.push_filling hroom x
    · rw [Nat.min_eq_right (Nat.le_succ_of_le hfull), List.take_of_length_le (by simp),
        Nat.succ_sub hfull, List.drop_append_of_le_length (by omega)]
      exact h.push_full hpos hfull x

end InPlace
