import Mathlib.Data.List.Basic
import Mathlib.Data.List.Infix
import Mathlib.Data.List.TakeWhile
import Mathlib.Tactic.Common

/-!
# Words of a text

A text is cut into words at separators. `words` are the pieces that are not empty;
`tokens` is the loop over `strtok` that finds them one by one.

* `words_append_sep`, `words_cons`, `words_of_clean`: words from left to right;
* `tokens_eq_words`: the loop finds the words;
* `mem_words`: where a word stands in the text;
* `infix_split_iff`: a text without separators is part of a list if and only if it is part
  of one of its pieces;
* `splitOn_translate`: another separator.
-/

namespace Text

variable {α : Type}

/-! ## Definitions -/

/-- The pieces between separators that are not empty. -/
def words (sep : α → Bool) (s : List α) : List (List α) :=
  (s.splitOnP sep).filter fun w => !w.isEmpty

/-- `strtok`: the first word, and what is left behind the separator that ends it. -/
def strtok (sep : α → Bool) (s : List α) : Option (List α × List α) :=
  match s.dropWhile sep with
  | [] => none
  | c :: t => some ((c :: t).takeWhile fun d => !sep d, ((c :: t).dropWhile fun d => !sep d).tail)

/-- The loop over `strtok`, for `fuel` turns at most. -/
def tokens (sep : α → Bool) : Nat → List α → List (List α)
  | 0, _ => []
  | fuel + 1, s =>
    match strtok sep s with
    | none => []
    | some (tok, rest) => tok :: tokens sep fuel rest

/-- A text is empty or begins with a separator. -/
def Ended (sep : α → Bool) (s : List α) : Prop := ∀ c ∈ s.head?, sep c = true

/-! ## Words, from left to right -/

section Words

variable {sep : α → Bool}

@[simp] theorem words_nil : words sep [] = [] := by
  rw [words, List.splitOnP_nil]
  rfl

theorem words_append_sep {c : α} (hc : sep c = true) (a b : List α) :
    words sep (a ++ c :: b) = words sep a ++ words sep b := by
  rw [words, List.splitOnP_append_cons _ _ hc, List.filter_append]
  rfl

theorem words_sep_cons {c : α} (hc : sep c = true) (s : List α) :
    words sep (c :: s) = words sep s := by
  rw [← List.nil_append (c :: s), words_append_sep hc, words_nil, List.nil_append]

theorem words_of_clean {w : List α} (hw : ∀ c ∈ w, sep c = false) (hne : w ≠ []) :
    words sep w = [w] := by
  obtain ⟨c, t, rfl⟩ := List.exists_cons_of_ne_nil hne
  rw [words, List.splitOnP_eq_singleton hw]
  rfl

theorem words_cons {w rest : List α} (hw : ∀ c ∈ w, sep c = false) (hne : w ≠ [])
    (hrest : Ended sep rest) :
    words sep (w ++ rest) = w :: words sep rest := by
  cases rest with
  | nil => rw [List.append_nil, words_of_clean hw hne, words_nil]
  | cons c rest =>
    have hc : sep c = true := hrest c rfl
    rw [words_append_sep hc, words_of_clean hw hne, words_sep_cons hc]
    rfl

/-- What ends with a separator ends a word. -/
theorem words_append_of_ends {a : List α} (ha : ∀ c ∈ a.getLast?, sep c = true) (b : List α) :
    words sep (a ++ b) = words sep a ++ words sep b := by
  rcases List.eq_nil_or_concat a with rfl | ⟨a', c, rfl⟩
  · rw [words_nil]
    rfl
  · rw [List.concat_eq_append] at ha ⊢
    have hc : sep c = true := ha c List.getLast?_concat
    rw [List.append_assoc, List.singleton_append, words_append_sep hc, words_append_sep hc,
      words_nil, List.append_nil]

theorem words_of_seps {s : List α} (h : ∀ c ∈ s, sep c = true) : words sep s = [] := by
  induction s with
  | nil => exact words_nil
  | cons c s ih =>
    rw [words_sep_cons (h c List.mem_cons_self)]
    exact ih fun d hd => h d (List.mem_cons_of_mem _ hd)

theorem ended_dropWhile (s : List α) : Ended sep (s.dropWhile fun c => !sep c) := by
  intro c hc
  have hnot := List.head?_dropWhile_not (fun c => !sep c) s
  rw [Option.mem_def] at hc
  rw [hc] at hnot
  simpa using hnot

theorem takeWhile_clean (s : List α) : ∀ c ∈ s.takeWhile (fun c => !sep c), sep c = false := by
  intro c hc
  simpa using List.mem_takeWhile_imp hc

end Words

/-- The last word of a text, empty if the text ends with a separator. -/
theorem exists_last_word (sep : α → Bool) (s : List α) :
    ∃ x u, s = x ++ u ∧ (∀ c ∈ x.getLast?, sep c = true) ∧ ∀ c ∈ u, sep c = false := by
  induction s using List.reverseRecOn with
  | nil => exact ⟨[], [], rfl, fun c hc => (nomatch hc), fun c hc => absurd hc List.not_mem_nil⟩
  | append_singleton s c ih =>
    cases hc : sep c with
    | true =>
      refine ⟨s ++ [c], [], (List.append_nil _).symm, fun d hd => ?_,
        fun d hd => absurd hd List.not_mem_nil⟩
      rw [List.getLast?_concat, Option.mem_some_iff] at hd
      rw [← hd, hc]
    | false =>
      obtain ⟨x, u, rfl, hx, hu⟩ := ih
      refine ⟨x, u ++ [c], List.append_assoc .., hx, fun d hd => ?_⟩
      rcases List.mem_append.mp hd with hd | hd
      · exact hu d hd
      · rw [List.mem_singleton.mp hd, hc]

/-! ## Tokens -/

section Tokens

variable {sep : α → Bool}

/-- What a call of `strtok` leaves to be done. -/
theorem strtok_eq_some {s tok rest : List α} (h : strtok sep s = some (tok, rest)) :
    ∃ front behind, s = front ++ (tok ++ behind) ∧ (∀ c ∈ front, sep c = true) ∧
      (∀ c ∈ tok, sep c = false) ∧ tok ≠ [] ∧ Ended sep behind ∧ rest = behind.tail := by
  unfold strtok at h
  cases hd : s.dropWhile sep with
  | nil => rw [hd] at h; cases h
  | cons c t =>
    rw [hd] at h
    cases h
    have hc : (!sep c) = true := by
      have hnot := List.head?_dropWhile_not sep s
      rw [hd] at hnot
      simpa using hnot
    refine ⟨s.takeWhile sep, (c :: t).dropWhile fun d => !sep d, ?_,
      fun d hd' => List.mem_takeWhile_imp hd',
      takeWhile_clean _, ?_, ended_dropWhile _, rfl⟩
    · rw [List.takeWhile_append_dropWhile, ← hd, List.takeWhile_append_dropWhile]
    · rw [List.takeWhile_cons, hc]
      exact List.cons_ne_nil _ _

theorem strtok_eq_none {s : List α} (h : strtok sep s = none) : ∀ c ∈ s, sep c = true := by
  unfold strtok at h
  cases hd : s.dropWhile sep with
  | nil => exact List.dropWhile_eq_nil_iff.mp hd
  | cons c t => rw [hd] at h; cases h

/-- The words of a text with separators in front. -/
theorem words_seps_append {front : List α} (h : ∀ c ∈ front, sep c = true) (s : List α) :
    words sep (front ++ s) = words sep s := by
  have hends : ∀ c ∈ front.getLast?, sep c = true := fun c hc => h c (List.mem_of_getLast? hc)
  rw [words_append_of_ends hends, words_of_seps h, List.nil_append]

theorem words_tail {s : List α} (h : Ended sep s) : words sep s.tail = words sep s := by
  cases s with
  | nil => rfl
  | cons c s => rw [words_sep_cons (h c rfl), List.tail_cons]

theorem tokens_eq_words {fuel : Nat} :
    ∀ {s : List α}, s.length < fuel → tokens sep fuel s = words sep s := by
  induction fuel with
  | zero => exact fun h => absurd h (Nat.not_lt_zero _)
  | succ fuel ih =>
    intro s h
    rw [tokens]
    cases hs : strtok sep s with
    | none => rw [words_of_seps (strtok_eq_none hs)]
    | some r =>
      obtain ⟨tok, rest⟩ := r
      obtain ⟨front, behind, rfl, hfront, htok, hne, hended, rfl⟩ := strtok_eq_some hs
      have hlen : behind.tail.length < fuel := by
        have hpos := List.length_pos_iff.mpr hne
        rw [List.length_append, List.length_append] at h
        rw [List.length_tail]
        omega
      dsimp only
      rw [ih hlen, words_tail hended, words_seps_append hfront, words_cons htok hne hended]

theorem mem_tokens {w : List α} {fuel : Nat} : ∀ {s : List α}, w ∈ tokens sep fuel s →
    w ≠ [] ∧ ∃ x y, s = x ++ (w ++ y) ∧ ∀ c ∈ x.getLast?, sep c = true := by
  induction fuel with
  | zero => exact fun h => absurd h List.not_mem_nil
  | succ fuel ih =>
    intro s h
    rw [tokens] at h
    cases hs : strtok sep s with
    | none => rw [hs] at h; cases h
    | some r =>
      obtain ⟨tok, rest⟩ := r
      rw [hs] at h
      obtain ⟨front, behind, rfl, hfront, -, hne, hended, rfl⟩ := strtok_eq_some hs
      rcases List.mem_cons.mp h with rfl | hrest
      · exact ⟨hne, front, behind, rfl, fun c hc => hfront c (List.mem_of_getLast? hc)⟩
      · obtain ⟨hw, x, y, hxy, hx⟩ := ih hrest
        cases behind with
        | nil =>
          exact absurd (List.append_eq_nil_iff.mp (List.append_eq_nil_iff.mp hxy.symm).2).1 hw
        | cons c behind =>
          rw [List.tail_cons] at hxy
          refine ⟨hw, front ++ tok ++ c :: x, y, by simp [hxy], fun d hd => ?_⟩
          rw [List.getLast?_append, List.getLast?_cons, Option.some_or, Option.mem_some_iff] at hd
          rw [← hd]
          cases hx' : x.getLast? with
          | none => exact hended c rfl
          | some e => exact hx e hx'

/-- A word stands at the beginning or behind a separator. -/
theorem mem_words {w s : List α} (h : w ∈ words sep s) :
    w ≠ [] ∧ ∃ x y, s = x ++ (w ++ y) ∧ ∀ c ∈ x.getLast?, sep c = true := by
  rw [← tokens_eq_words (Nat.lt_succ_self s.length)] at h
  exact mem_tokens h

end Tokens

/-! ## Pieces -/

section Pieces

/-- Without the separator in it, a part of `y ++ a :: z` is one of `y` or of `z`. -/
theorem infix_append_cons_iff {a : α} {x y z : List α} (ha : a ∉ x) :
    x <:+: y ++ a :: z ↔ x <:+: y ∨ x <:+: z := by
  constructor
  · rintro ⟨p, s, h⟩
    rcases List.append_eq_append_iff.mp h with ⟨t, hy, -⟩ | ⟨t, hpx, hz⟩
    · exact Or.inl ⟨p, t, hy.symm⟩
    · -- What `p ++ x` has behind `y` begins with the separator, which lies in `p`.
      cases t with
      | nil =>
        rw [List.append_nil] at hpx
        exact Or.inl ⟨p, [], by rw [List.append_nil, hpx]⟩
      | cons b t =>
        obtain ⟨hab, hzt⟩ := List.cons.inj hz
        subst hab
        rcases List.append_eq_append_iff.mp hpx with ⟨u, hy, hx⟩ | ⟨u, hp, hu⟩
        · exact absurd (hx ▸ List.mem_append_right u List.mem_cons_self) ha
        · cases u with
          | nil =>
            rw [List.nil_append] at hu
            exact absurd (hu ▸ List.mem_cons_self) ha
          | cons b u =>
            have htu := (List.cons.inj hu).2
            exact Or.inr ⟨u, s, by rw [hzt, htu]; rfl⟩
  · rintro (h | h)
    · exact h.trans (List.prefix_append y _).isInfix
    · exact h.trans ((List.suffix_cons a z).trans (List.suffix_append y _)).isInfix

theorem infix_intercalate_iff {a : α} {x : List α} (ha : a ∉ x) (hx : x ≠ []) (ls : List (List α)) :
    x <:+: [a].intercalate ls ↔ ∃ l ∈ ls, x <:+: l := by
  induction ls with
  | nil => simp [List.intercalate, hx]
  | cons l ls ih =>
    cases ls with
    | nil => simp [List.intercalate]
    | cons l' ls =>
      have hcons : [a].intercalate (l :: l' :: ls) = l ++ a :: [a].intercalate (l' :: ls) := by
        simp [List.intercalate]
      rw [hcons, infix_append_cons_iff ha, ih]
      exact (List.exists_mem_cons_iff _ _ _).symm

variable [DecidableEq α]

/-- What has no separator in it lies in one piece. -/
theorem infix_split_iff {a : α} {x : List α} (ha : a ∉ x) (hx : x ≠ []) (s : List α) :
    x <:+: s ↔ ∃ l ∈ s.splitOn a, x <:+: l := by
  rw [← infix_intercalate_iff ha hx, List.intercalate_splitOn]

/-- `tr a b`. -/
def translate (a b : α) (s : List α) : List α := s.map fun c => if c = a then b else c

theorem splitOn_translate {a b : α} {s : List α} (hb : b ∉ s) :
    (translate a b s).splitOn b = s.splitOn a := by
  induction s with
  | nil => rfl
  | cons c s ih =>
    rw [List.mem_cons, not_or] at hb
    have ih := ih hb.2
    simp only [List.splitOn, translate, List.map_cons, List.splitOnP_cons_eq_if_modifyHead] at ih ⊢
    rw [ih]
    rcases eq_or_ne c a with rfl | hc
    · simp
    · rw [if_neg hc]
      simp [hc, Ne.symm hb.1]

omit [DecidableEq α] in
/-- Where no member tells two separators apart. -/
theorem splitOnP_congr {p q : α → Bool} {s : List α} (h : ∀ c ∈ s, p c = q c) :
    s.splitOnP p = s.splitOnP q := by
  induction s with
  | nil => rfl
  | cons c s ih =>
    rw [List.splitOnP_cons_eq_if_modifyHead, List.splitOnP_cons_eq_if_modifyHead,
      h c List.mem_cons_self, ih fun d hd => h d (List.mem_cons_of_mem _ hd)]

end Pieces

end Text
