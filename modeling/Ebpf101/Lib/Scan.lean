import Mathlib.Data.List.Basic
import Mathlib.Data.List.Infix
import Mathlib.Data.List.TakeWhile
import Mathlib.Tactic.Common

/-!
# Scanning a text from left to right

What `re.sub`, `re.findall` and `str.replace` have in common: where a pattern fires, it takes
part of the text and gives something for it, and the scan goes on behind that part; where it
does not, one symbol is passed over.

* `Rule`: a pattern, which takes at least one symbol when it fires;
* `subst` and `findAll`: the text with every match replaced, and the list of the matches;
* `subst_fire`, `subst_pass`, `findAll_fire`, `findAll_pass`: one step, and a stretch of text in
  which the pattern does not fire;
* `upTo`: the text before the first occurrence of a word, which is what `.*?` takes.
-/

namespace Scan

variable {α β : Type}

/-- A pattern: what it gives for the front of a text, and what is left of the text. -/
structure Rule (α β : Type) where
  fire : List α → Option (β × List α)
  takes : ∀ s b rest, fire s = some (b, rest) → rest.length < s.length

/-- The symbols that are passed over, and what the pattern gives, in order. -/
def scan (r : Rule α β) : List α → List (α ⊕ β)
  | [] => []
  | c :: cs =>
    match hfire : r.fire (c :: cs) with
    | some (b, rest) =>
      have := r.takes _ _ _ hfire
      .inr b :: scan r rest
    | none => .inl c :: scan r cs
termination_by s => s.length
decreasing_by
  · exact this
  · exact Nat.lt_succ_self cs.length

/-- `re.sub` and `str.replace`. -/
def subst (r : Rule α (List α)) (s : List α) : List α :=
  (scan r s).flatMap fun x => match x with
    | .inl c => [c]
    | .inr out => out

/-- `re.findall`. -/
def findAll (r : Rule α β) (s : List α) : List β :=
  (scan r s).filterMap Sum.getRight?

variable {r : Rule α β}

theorem scan_fire {s rest : List α} {b : β} (h : r.fire s = some (b, rest)) :
    scan r s = .inr b :: scan r rest := by
  cases s with
  | nil => exact absurd (r.takes _ _ _ h) (Nat.not_lt_zero _)
  | cons c cs =>
    rw [scan]
    split
    next b' rest' h' =>
      rw [h] at h'
      cases h'
      rfl
    next h' => cases h.symm.trans h'

theorem scan_skip {c : α} {cs : List α} (h : r.fire (c :: cs) = none) :
    scan r (c :: cs) = .inl c :: scan r cs := by
  rw [scan]
  split
  next b' rest' h' => cases h'.symm.trans h
  next => rfl

@[simp] theorem scan_nil : scan r [] = [] := by rw [scan]

/-- Nowhere in `t` does the pattern fire if `s` follows. -/
def Quiet (r : Rule α β) (t s : List α) : Prop :=
  ∀ x y, t = x ++ y → y ≠ [] → r.fire (y ++ s) = none

theorem Quiet.tail {c : α} {t s : List α} (h : Quiet r (c :: t) s) : Quiet r t s :=
  fun x y hxy hy => h (c :: x) y (by rw [hxy, List.cons_append]) hy

theorem scan_pass {t s : List α} (h : Quiet r t s) : scan r (t ++ s) = t.map .inl ++ scan r s := by
  induction t with
  | nil => rfl
  | cons c t ih =>
    have hc : r.fire (c :: (t ++ s)) = none := h [] (c :: t) rfl (List.cons_ne_nil c t)
    rw [List.cons_append, scan_skip hc, ih h.tail]
    rfl

/-- A pattern that fires at the symbol `k` only is quiet where there is none. -/
theorem quiet_of_notMem {k : α} (hk : ∀ c s, c ≠ k → r.fire (c :: s) = none)
    {t : List α} (ht : k ∉ t) (s : List α) : Quiet r t s := by
  rintro x y rfl hy
  cases y with
  | nil => exact absurd rfl hy
  | cons c y =>
    refine hk c _ fun hc => ht ?_
    rw [hc]
    exact List.mem_append_right x List.mem_cons_self

/-! ## Substitution -/

section Subst

variable {r : Rule α (List α)}

theorem subst_nil : subst r [] = [] := by simp [subst]

theorem subst_fire {s rest out : List α} (h : r.fire s = some (out, rest)) :
    subst r s = out ++ subst r rest := by
  rw [subst, scan_fire h, List.flatMap_cons]
  rfl

theorem subst_pass {t s : List α} (h : Quiet r t s) : subst r (t ++ s) = t ++ subst r s := by
  rw [subst, scan_pass h, List.flatMap_append, List.flatMap_map]
  simp [subst]

end Subst

/-! ## Matches -/

theorem findAll_fire {s rest : List α} {b : β} (h : r.fire s = some (b, rest)) :
    findAll r s = b :: findAll r rest := by
  rw [findAll, scan_fire h]
  rfl

theorem findAll_pass {t s : List α} (h : Quiet r t s) : findAll r (t ++ s) = findAll r s := by
  rw [findAll, scan_pass h, List.filterMap_append, List.filterMap_map]
  simp [findAll]

/-! ## Up to a word -/

variable [DecidableEq α]

/-- What stands before the first occurrence of `word`, and what stands behind it. -/
def upTo (word : List α) : List α → Option (List α × List α)
  | [] => none
  | c :: cs =>
    if word <+: c :: cs then some ([], (c :: cs).drop word.length)
    else (upTo word cs).map fun r => (c :: r.1, r.2)

theorem upTo_length {word s a b : List α} (hw : word ≠ []) (h : upTo word s = some (a, b)) :
    b.length < s.length := by
  induction s generalizing a b with
  | nil => cases h
  | cons c cs ih =>
    rw [upTo] at h
    split at h
    next hp =>
      cases h
      rw [List.length_drop]
      have hpos := List.length_pos_iff.mpr hw
      have hle := hp.length_le
      omega
    next =>
      obtain ⟨⟨a', b'⟩, hfound, hr⟩ := Option.map_eq_some_iff.mp h
      cases hr
      exact Nat.lt_succ_of_lt (ih hfound)

/-- `word` begins nowhere in `t` if `s` follows. -/
def Absent (word t s : List α) : Prop := ∀ x y, t = x ++ y → y ≠ [] → ¬ word <+: y ++ s

omit [DecidableEq α] in
theorem Absent.tail {word : List α} {c : α} {t s : List α} (h : Absent word (c :: t) s) :
    Absent word t s :=
  fun x y hxy hy => h (c :: x) y (by rw [hxy, List.cons_append]) hy

omit [DecidableEq α] in
theorem Absent.append {word t t' s : List α} (h : Absent word t (t' ++ s)) (h' : Absent word t' s) :
    Absent word (t ++ t') s := by
  intro x y hxy hy
  rcases List.append_eq_append_iff.mp hxy with ⟨z, hz, ht'⟩ | ⟨z, ht, hz⟩
  · exact h' z y ht' hy
  · rw [hz, List.append_assoc]
    rcases eq_or_ne z [] with rfl | hne
    · rw [List.nil_append] at hz
      exact h' [] t' rfl (hz ▸ hy)
    · exact h x z ht hne

omit [DecidableEq α] in
theorem absent_nil (word s : List α) : Absent word [] s := fun _ _ hxy hy =>
  absurd (List.append_eq_nil_iff.mp hxy.symm).2 hy

omit [DecidableEq α] in
theorem absent_of_notMem {k : α} {ks t : List α} (ht : k ∉ t) (s : List α) :
    Absent (k :: ks) t s := by
  rintro x y rfl hy hp
  cases y with
  | nil => exact hy rfl
  | cons c y =>
    refine ht (List.mem_append_right x ?_)
    rw [(List.cons_prefix_cons.mp hp).1]
    exact List.mem_cons_self

theorem upTo_eq {word t s : List α} (hw : word ≠ []) (h : Absent word t (word ++ s)) :
    upTo word (t ++ (word ++ s)) = some (t, s) := by
  induction t with
  | nil =>
    cases word with
    | nil => exact absurd rfl hw
    | cons k ks =>
      have hp : k :: ks <+: k :: (ks ++ s) := List.prefix_append (k :: ks) s
      rw [List.nil_append, List.cons_append, upTo, if_pos hp]
      simp
  | cons c t ih =>
    have hc : ¬ word <+: c :: (t ++ (word ++ s)) := h [] (c :: t) rfl (List.cons_ne_nil c t)
    rw [List.cons_append, upTo, if_neg hc, ih h.tail]
    rfl

end Scan
