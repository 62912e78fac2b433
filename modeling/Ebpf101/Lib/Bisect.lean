import Mathlib.Algebra.GroupWithZero.Nat
import Mathlib.Tactic.Common

/-!
# Searching a ceiling

Sizes are tried one after the other. `grow` doubles the size until a try fails, or succeeds
beyond a cap; `bisect` closes in on the boundary between a size that was fine and one that
was not. What answers the tries has a state and need not answer alike twice.

* `Tells`: what a success and a failure tell, as long as later tries do not take it back;
* `grow_tells`, `bisect_tells`: what is then known of the two ends of the interval;
* `grow_capped`, `bisect_within`: where the ends can be;
* `grow_tries`, `bisect_tries`: how many tries it takes.
-/

namespace Bisect

variable {σ ε : Type}

/-- Tries a size; `none` is a success. -/
abbrev Probe (σ ε : Type) := σ → Nat → σ × Option ε

/-- How the first loop ends: `lo` was fine and `hi` failed, or `lo` was fine and beyond the
cap. -/
inductive Grown (ε : Type) where
  | failed (lo hi : Nat) (e : ε)
  | capped (lo : Nat)
deriving DecidableEq, Repr

/-- Double the size until a try fails. -/
def grow (probe : Probe σ ε) (cap : Nat) (s : σ) (lo hi : Nat) (hpos : 0 < hi) : σ × Grown ε :=
  match probe s hi with
  | (s, some e) => (s, .failed lo hi e)
  | (s, none) =>
    if cap < hi then (s, .capped hi)
    else grow probe cap s hi (hi * 2) (Nat.mul_pos hpos Nat.two_pos)
termination_by cap + 1 - hi

/-- Halve the interval until its ends are next to each other. -/
def bisect (probe : Probe σ ε) (s : σ) (lo hi : Nat) (e : ε) : σ × Nat × Nat × ε :=
  if lo + 1 < hi then
    match probe s (lo + (hi - lo) / 2) with
    | (s, none) => bisect probe s (lo + (hi - lo) / 2) hi e
    | (s, some e') => bisect probe s lo (lo + (hi - lo) / 2) e'
  else (s, lo, hi, e)
termination_by hi - lo

/-! ## What is known -/

/-- `Good s n` and `Bad s n e` are what a success and a failure at the size `n` tell. -/
structure Tells (probe : Probe σ ε) (Good : σ → Nat → Prop) (Bad : σ → Nat → ε → Prop) : Prop where
  good : ∀ s n, (probe s n).2 = none → Good (probe s n).1 n
  bad : ∀ s n e, (probe s n).2 = some e → Bad (probe s n).1 n e
  good_stays : ∀ s n m, Good s n → Good (probe s m).1 n
  bad_stays : ∀ s n e m, Bad s n e → Bad (probe s m).1 n e

theorem tells_nothing (probe : Probe σ ε) : Tells probe (fun _ _ => True) (fun _ _ _ => True) :=
  ⟨fun _ _ _ => trivial, fun _ _ _ _ => trivial, fun _ _ _ _ => trivial, fun _ _ _ _ _ => trivial⟩

/-- What is known of the ends after the first loop. -/
def Grown.Known (Good : σ → Nat → Prop) (Bad : σ → Nat → ε → Prop) (cap : Nat) (s : σ) :
    Grown ε → Prop
  | .failed lo hi e => lo < hi ∧ hi ≤ 2 * cap ∧ Good s lo ∧ Bad s hi e
  | .capped lo => cap < lo ∧ lo ≤ 2 * cap ∧ Good s lo

variable {probe : Probe σ ε} {Good : σ → Nat → Prop} {Bad : σ → Nat → ε → Prop}

theorem grow_tells (h : Tells probe Good Bad) (cap : Nat) (s : σ) (lo hi : Nat) (hpos : 0 < hi)
    (hlt : lo < hi) (hcap : hi ≤ 2 * cap) (hlo : Good s lo) :
    (grow probe cap s lo hi hpos).2.Known Good Bad cap (grow probe cap s lo hi hpos).1 := by
  fun_induction grow probe cap s lo hi hpos with
  | case1 s lo hi hpos s' e hp =>
    have hgood := h.good_stays s lo hi hlo
    have hbad := h.bad s hi e (by rw [hp])
    rw [hp] at hgood hbad
    exact ⟨hlt, hcap, hgood, hbad⟩
  | case2 s lo hi hpos s' hp hover =>
    have hgood := h.good s hi (by rw [hp])
    rw [hp] at hgood
    exact ⟨hover, hcap, hgood⟩
  | case3 s lo hi hpos s' hp hover ih =>
    have hgood := h.good s hi (by rw [hp])
    rw [hp] at hgood
    exact ih (by omega) (by omega) hgood

/-- The cap is passed at a power of two times the first size. -/
theorem grow_capped {cap : Nat} (s : σ) (lo hi : Nat) (hpos : 0 < hi) {n : Nat}
    (hn : (grow probe cap s lo hi hpos).2 = .capped n) : ∃ k, n = hi * 2 ^ k := by
  fun_induction grow probe cap s lo hi hpos with
  | case1 s lo hi hpos s' e hp => cases hn
  | case2 s lo hi hpos s' hp hover =>
    cases hn
    exact ⟨0, (Nat.mul_one _).symm⟩
  | case3 s lo hi hpos s' hp hover ih =>
    obtain ⟨k, rfl⟩ := ih hn
    exact ⟨k + 1, by rw [Nat.mul_assoc, ← Nat.pow_succ']⟩

theorem bisect_tells (h : Tells probe Good Bad) (s : σ) (lo hi : Nat) (e : ε) (hlt : lo < hi)
    (hlo : Good s lo) (hhi : Bad s hi e) :
    (bisect probe s lo hi e).2.2.1 = (bisect probe s lo hi e).2.1 + 1 ∧
    Good (bisect probe s lo hi e).1 (bisect probe s lo hi e).2.1 ∧
    Bad (bisect probe s lo hi e).1 (bisect probe s lo hi e).2.2.1
      (bisect probe s lo hi e).2.2.2 := by
  fun_induction bisect probe s lo hi e with
  | case1 s lo hi e hgap s' hp ih =>
    have hgood := h.good s _ (by rw [hp])
    have hbad := h.bad_stays s hi e (lo + (hi - lo) / 2) hhi
    rw [hp] at hgood hbad
    exact ih (by omega) hgood hbad
  | case2 s lo hi e hgap s' e' hp ih =>
    have hgood := h.good_stays s lo (lo + (hi - lo) / 2) hlo
    have hbad := h.bad s _ e' (by rw [hp])
    rw [hp] at hgood hbad
    exact ih (by omega) hgood hbad
  | case3 s lo hi e hgap =>
    have hnext : hi = lo + 1 := by omega
    exact ⟨hnext, hlo, hhi⟩

/-- The interval only shrinks. -/
theorem bisect_within (probe : Probe σ ε) (s : σ) (lo hi : Nat) (e : ε) :
    lo ≤ (bisect probe s lo hi e).2.1 ∧ (bisect probe s lo hi e).2.2.1 ≤ hi := by
  fun_induction bisect probe s lo hi e with
  | case1 s lo hi e hgap s' hp ih => exact ⟨Nat.le_trans (by omega) ih.1, ih.2⟩
  | case2 s lo hi e hgap s' e' hp ih => exact ⟨ih.1, Nat.le_trans ih.2 (by omega)⟩
  | case3 s lo hi e hgap => exact ⟨Nat.le_refl _, Nat.le_refl _⟩

/-! ## How many tries -/

/-- A try is counted. -/
theorem tries_of_eq {tries : σ → Nat} (h : ∀ s n, tries (probe s n).1 ≤ tries s + 1) {s s' : σ}
    {n : Nat} {r : Option ε} (hp : probe s n = (s', r)) : tries s' ≤ tries s + 1 := by
  have htry := h s n
  rwa [hp] at htry

/-- With `k` doublings to the cap there are at most `k + 1` tries. -/
theorem grow_tries (tries : σ → Nat) (h : ∀ s n, tries (probe s n).1 ≤ tries s + 1) (cap k : Nat)
    (s : σ) (lo hi : Nat) (hpos : 0 < hi) (hk : cap < hi * 2 ^ k) :
    tries (grow probe cap s lo hi hpos).1 ≤ tries s + (k + 1) := by
  induction k generalizing s lo hi with
  | zero =>
    rw [grow]
    split
    next s' e hp => exact tries_of_eq h hp
    next s' hp =>
      rw [if_pos (by simpa using hk)]
      exact tries_of_eq h hp
  | succ k ih =>
    rw [grow]
    split
    next s' e hp => exact Nat.le_trans (tries_of_eq h hp) (by omega)
    next s' hp =>
      have htry := tries_of_eq h hp
      split
      · exact Nat.le_trans htry (by omega)
      · have hk' : cap < hi * 2 * 2 ^ k := by rwa [Nat.mul_assoc, ← Nat.pow_succ']
        exact Nat.le_trans (ih s' hi (hi * 2) _ hk') (by omega)

theorem bisect_tries (tries : σ → Nat) (h : ∀ s n, tries (probe s n).1 ≤ tries s + 1) (k : Nat)
    (s : σ) (lo hi : Nat) (e : ε) (hk : hi - lo ≤ 2 ^ k) :
    tries (bisect probe s lo hi e).1 ≤ tries s + k := by
  induction k generalizing s lo hi e with
  | zero =>
    rw [bisect, if_neg (by rw [Nat.pow_zero] at hk; omega)]
    exact Nat.le_refl _
  | succ k ih =>
    rw [Nat.pow_succ] at hk
    have hupper : hi - (lo + (hi - lo) / 2) ≤ 2 ^ k := by omega
    have hlower : lo + (hi - lo) / 2 - lo ≤ 2 ^ k := by omega
    rw [bisect]
    split
    next hgap =>
      split
      next s' hp => exact Nat.le_trans (ih s' _ _ e hupper) (by have := tries_of_eq h hp; omega)
      next s' e' hp => exact Nat.le_trans (ih s' _ _ e' hlower) (by have := tries_of_eq h hp; omega)
    next => exact Nat.le_add_right _ _

end Bisect
