import Mathlib.Data.List.Basic
import Mathlib.Data.List.Infix
import Mathlib.Data.List.TakeWhile
import Mathlib.Tactic.Common

/-!
# The leftmost keyword

`sed 's/\bKEY[run]*/WANT/'` on one line: the leftmost occurrence of a keyword at a word
boundary, with the run of characters behind it, is replaced.

* `find_eq_some`, `find_of_first` and `find_eq_none`: where the occurrence is, and that
  there is none before it;
* `find_append`: text in which no keyword begins;
* `replace_replace`: a second replacement finds what the first one wrote;
* `replace_eq_self_iff`: when nothing changes.
-/

namespace Keyword

variable {α : Type} [DecidableEq α]

/-! ## Definitions -/

/-- `\b` in front of a word: the beginning of the line, or a character of no word. -/
def boundary (word : α → Bool) (prev : Option α) : Bool := prev.all fun c => !word c

/-- The leftmost occurrence of `key` at a boundary, `prev` being the character before the
text: what stands before it and what stands behind it. -/
def find (word : α → Bool) (key : List α) : Option α → List α → Option (List α × List α)
  | _, [] => none
  | prev, c :: s =>
    if boundary word prev ∧ key <+: c :: s then some ([], (c :: s).drop key.length)
    else (find word key (some c) s).map fun r => (c :: r.1, r.2)

/-- The replacement of the leftmost occurrence and the run behind it. -/
def replace (word run : α → Bool) (key want : List α) (prev : Option α) (s : List α) : List α :=
  match find word key prev s with
  | none => s
  | some (a, b) => a ++ want ++ b.dropWhile run

/-- The character before what follows `x`. -/
def lastOf (prev : Option α) (x : List α) : Option α := x.getLast?.or prev

/-- Behind `a` there is a boundary, and no occurrence begins in `a` if the keyword follows. -/
structure First (word : α → Bool) (key : List α) (prev : Option α) (a : List α) : Prop where
  here : boundary word (lastOf prev a) = true
  before : ∀ x y, a = x ++ y → y ≠ [] → boundary word (lastOf prev x) = true → ¬ key <+: y ++ key

/-! ## Where it is found -/

section Find

variable {word : α → Bool} {key : List α} {prev : Option α}

omit [DecidableEq α] in
theorem lastOf_cons (c : α) (x : List α) : lastOf prev (c :: x) = lastOf (some c) x := by
  rw [lastOf, lastOf, List.getLast?_cons]
  cases x.getLast? <;> rfl

omit [DecidableEq α] in
/-- Whether the keyword begins in front of it does not depend on what follows it. -/
theorem prefix_append_iff (y b : List α) : key <+: y ++ (key ++ b) ↔ key <+: y ++ key := by
  constructor
  · intro h
    rw [← List.append_assoc] at h
    refine List.prefix_of_prefix_length_le h (List.prefix_append _ b) ?_
    rw [List.length_append]
    exact Nat.le_add_left _ _
  · intro h
    rw [← List.append_assoc]
    exact h.trans (List.prefix_append _ b)

omit [DecidableEq α] in
/-- A character that is not in the keyword ends what could begin it. -/
theorem prefix_of_not_mem {d : α} (hd : d ∉ key) {y z : List α} (h : key <+: y ++ d :: z) :
    key <+: y := by
  refine List.prefix_of_prefix_length_le h (List.prefix_append _ _) (Nat.not_lt.mp fun hlt => hd ?_)
  obtain ⟨t, ht⟩ := h
  have hget : key[y.length]? = some d := by
    have hleft := @List.getElem?_append_left _ key t _ hlt
    rw [ht, List.getElem?_append_right (Nat.le_refl _), Nat.sub_self] at hleft
    exact hleft.symm
  exact List.mem_of_getElem? hget

theorem find_eq_some {s a b : List α} (h : find word key prev s = some (a, b)) :
    s = a ++ (key ++ b) ∧ First word key prev a := by
  induction s generalizing prev a b with
  | nil => cases h
  | cons c s ih =>
    rw [find] at h
    split at h
    · next hhere =>
      cases h
      refine ⟨?_, hhere.1, ?_⟩
      · rw [List.nil_append, List.prefix_iff_eq_append.mp hhere.2]
      · intro x y hxy hy
        exact absurd (List.append_eq_nil_iff.mp hxy.symm).2 hy
    · next hnot =>
      rw [Option.map_eq_some_iff] at h
      obtain ⟨⟨a', b'⟩, hfind, hr⟩ := h
      cases hr
      obtain ⟨rfl, hfirst⟩ := ih hfind
      refine ⟨rfl, by rw [lastOf_cons]; exact hfirst.here, ?_⟩
      intro x y hxy hy hb hkey
      cases x with
      | nil =>
        rw [List.nil_append] at hxy
        subst hxy
        exact hnot ⟨hb, (prefix_append_iff (c :: a') b').mpr hkey⟩
      | cons d x =>
        obtain ⟨rfl, htail⟩ := List.cons.inj hxy
        rw [lastOf_cons] at hb
        exact hfirst.before x y htail hy hb hkey

omit [DecidableEq α] in
theorem First.tail {c : α} {a : List α} (h : First word key prev (c :: a)) :
    First word key (some c) a := by
  refine ⟨by rw [← lastOf_cons]; exact h.here, fun x y hxy hy hb => ?_⟩
  exact h.before (c :: x) y (by rw [hxy]; rfl) hy (by rw [lastOf_cons]; exact hb)

theorem find_of_first (hkey : key ≠ []) (b : List α) : ∀ {prev : Option α} {a : List α},
    First word key prev a → find word key prev (a ++ (key ++ b)) = some (a, b) := by
  intro prev a
  induction a generalizing prev with
  | nil =>
    intro h
    obtain ⟨k, ks, rfl⟩ := List.exists_cons_of_ne_nil hkey
    rw [List.nil_append, List.cons_append, find, if_pos ⟨h.here, List.prefix_append (k :: ks) b⟩]
    simp
  | cons c a ih =>
    intro h
    have hnot : ¬ (boundary word prev = true ∧ key <+: c :: (a ++ (key ++ b))) := by
      rintro ⟨hb, hstarts⟩
      exact h.before [] (c :: a) rfl (List.cons_ne_nil _ _) hb
        ((prefix_append_iff (c :: a) b).mp hstarts)
    rw [List.cons_append, find, if_neg hnot, ih h.tail]
    rfl

/-- Without an occurrence the keyword stands nowhere behind a boundary. -/
theorem find_eq_none {s : List α} (hkey : key ≠ []) (h : find word key prev s = none) :
    ∀ x y, s = x ++ y → boundary word (lastOf prev x) = true → ¬ key <+: y := by
  induction s generalizing prev with
  | nil =>
    intro x y hxy _ hstarts
    rw [(List.append_eq_nil_iff.mp hxy.symm).2] at hstarts
    exact hkey (List.prefix_nil.mp hstarts)
  | cons c s ih =>
    rw [find] at h
    split at h
    · cases h
    · next hnot =>
      rw [Option.map_eq_none_iff] at h
      intro x y hxy hb hstarts
      cases x with
      | nil =>
        rw [List.nil_append] at hxy
        subst hxy
        exact hnot ⟨hb, hstarts⟩
      | cons d x =>
        obtain ⟨rfl, htail⟩ := List.cons.inj hxy
        rw [lastOf_cons] at hb
        exact ih h x y htail hb hstarts

/-- Only the boundary counts of what stands before. -/
theorem find_prev {prev' : Option α} (h : boundary word prev = boundary word prev') (s : List α) :
    find word key prev s = find word key prev' s := by
  cases s with
  | nil => rfl
  | cons c s => rw [find, find, h]

/-- Text in which the first character of the keyword does not occur. -/
theorem find_append {k : α} {ks x : List α} (hx : k ∉ x) (s : List α) :
    find word (k :: ks) prev (x ++ s) =
      (find word (k :: ks) (lastOf prev x) s).map fun r => (x ++ r.1, r.2) := by
  induction x generalizing prev with
  | nil => cases h : find word (k :: ks) prev s <;> simp [lastOf, h]
  | cons c x ih =>
    rw [List.mem_cons, not_or] at hx
    have hnot : ¬ (boundary word prev = true ∧ k :: ks <+: c :: (x ++ s)) := by
      rintro ⟨-, hstarts⟩
      exact hx.1 (List.cons_prefix_cons.mp hstarts).1
    rw [List.cons_append, find, if_neg hnot, ih hx.2, lastOf_cons, Option.map_map]
    rfl

end Find

/-! ## Replacements -/

section Replace

variable {word run : α → Bool} {key want : List α} {prev : Option α}

omit [DecidableEq α] in
theorem dropWhile_dropWhile (s : List α) : (s.dropWhile run).dropWhile run = s.dropWhile run := by
  induction s with
  | nil => rfl
  | cons c s ih =>
    cases hc : run c with
    | true => rw [List.dropWhile_cons_of_pos hc, ih]
    | false =>
      have hn : ¬ run c = true := by rw [hc]; exact Bool.false_ne_true
      rw [List.dropWhile_cons_of_neg hn, List.dropWhile_cons_of_neg hn]

/-- What is found where something was replaced: the keyword that was written. -/
theorem find_replaced (hkey : key ≠ []) {v : List α} (hwant : want = key ++ v) {s a b : List α}
    (h : find word key prev s = some (a, b)) :
    find word key prev (a ++ want ++ b.dropWhile run) = some (a, v ++ b.dropWhile run) := by
  rw [hwant, List.append_assoc, List.append_assoc]
  exact find_of_first hkey _ (find_eq_some h).2

/-- A second replacement changes nothing. -/
theorem replace_replace (hkey : key ≠ []) {v : List α} (hwant : want = key ++ v)
    (hv : ∀ c ∈ v, run c = true) (s : List α) :
    replace word run key want prev (replace word run key want prev s) =
      replace word run key want prev s := by
  cases h : find word key prev s with
  | none =>
    have hs : replace word run key want prev s = s := by rw [replace, h]
    rw [hs, hs]
  | some r =>
    obtain ⟨a, b⟩ := r
    have hs : replace word run key want prev s = a ++ want ++ b.dropWhile run := by rw [replace, h]
    rw [hs, replace, find_replaced hkey hwant h]
    dsimp only
    rw [List.dropWhile_append_of_pos hv, dropWhile_dropWhile]

theorem replace_eq_self_iff {s : List α} :
    replace word run key want prev s = s ↔
      ∀ a b, find word key prev s = some (a, b) → key ++ b.takeWhile run = want := by
  cases h : find word key prev s with
  | none => simp [replace, h]
  | some r =>
    obtain ⟨a, b⟩ := r
    have hs : s = a ++ (key ++ b.takeWhile run) ++ b.dropWhile run := by
      rw [List.append_assoc, List.append_assoc, List.takeWhile_append_dropWhile]
      exact (find_eq_some h).1
    have hreplace : replace word run key want prev s = a ++ want ++ b.dropWhile run := by
      rw [replace, h]
    rw [hreplace]
    constructor
    · intro heq a' b' hab
      cases hab
      conv_rhs at heq => rw [hs]
      exact (List.append_cancel_left (List.append_cancel_right heq)).symm
    · intro hall
      rw [hs, hall a b rfl]

end Replace

end Keyword
