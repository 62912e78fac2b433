import Mathlib.Algebra.Group.Nat.Defs
import Mathlib.Algebra.Group.Int.Defs
import Mathlib.Data.List.Basic
import Mathlib.Data.List.TakeWhile
import Mathlib.Tactic.Common

/-!
# Numbers on a command line

`strtoull` with base 0 and `atoi`, as the C standard defines them in the C locale: blanks,
a sign, the longest run of digits. Base 0 means the constants of C: decimal ones, octal
ones that begin with `0` and hexadecimal ones that begin with `0x`.

* `IsConstant` is the grammar of the constants, with their values; `Written s ws sg t`
  says that `s` is the blanks `ws`, the sign `sg` and `t`;
* `strtoull_spec`: what `strtoull` converts to its end without a range error is a
  constant, behind blanks and a sign;
* `atoi_written`: `atoi` of digits behind a sign.
-/

namespace Numeral

/-! ## Characters -/

/-- `isspace`. -/
def isSpace (c : Char) : Bool := [' ', '\t', '\n', '\x0b', '\x0c', '\r'].contains c

/-- The digits of the bases up to 36. -/
def digit (c : Char) : Option Nat :=
  if '0' ≤ c ∧ c ≤ '9' then some (c.toNat - '0'.toNat)
  else if 'a' ≤ c ∧ c ≤ 'z' then some (c.toNat - 'a'.toNat + 10)
  else if 'A' ≤ c ∧ c ≤ 'Z' then some (c.toNat - 'A'.toNat + 10)
  else none

def isDigit (base : Nat) (c : Char) : Bool := (digit c).any (· < base)

/-- The number that digits stand for. -/
def value (base : Nat) (ds : List Char) : Nat :=
  ds.foldl (fun acc c => acc * base + (digit c).getD 0) 0

inductive Sign where
  | absent
  | plus
  | minus
deriving DecidableEq, Repr

def Sign.text : Sign → List Char
  | .absent => []
  | .plus => ['+']
  | .minus => ['-']

/-! ## The functions -/

/-- The sign at the beginning, and what follows it. -/
def sign (s : List Char) : Sign × List Char :=
  if s.head? = some '+' then (.plus, s.tail)
  else if s.head? = some '-' then (.minus, s.tail)
  else (.absent, s)

/-- The sign behind the blanks, and what follows it. -/
def signed (s : List Char) : Sign × List Char := sign (s.dropWhile isSpace)

/-- Whether `x` or `X` and a hexadecimal digit follow. -/
def hexFollows (s : List Char) : Bool :=
  (s.head? = some 'x' ∨ s.head? = some 'X') && s.tail.head?.any (isDigit 16)

/-- The base of the constant that begins here, and its digits. -/
def based (s : List Char) : Nat × List Char :=
  if s.head? ≠ some '0' then (10, s)
  else if hexFollows s.tail then (16, s.tail.tail)
  else (8, s)

/-- The longest run of digits, with its value and what follows it. -/
def run (base : Nat) (s : List Char) : Option (Nat × List Char) :=
  if s.takeWhile (isDigit base) = [] then none
  else some (value base (s.takeWhile (isDigit base)), s.dropWhile (isDigit base))

/-- The constant at the beginning. -/
def constant (s : List Char) : Option (Nat × List Char) := run (based s).1 (based s).2

/-- What `strtoull` returns, where `endptr` points to, and whether `errno` is `ERANGE`. -/
structure Converted where
  value : Nat
  rest : List Char
  erange : Bool
deriving DecidableEq

/-- `strtoull(s, &end, 0)`. -/
def strtoull (s : List Char) : Converted :=
  match constant (signed s).2 with
  | none => ⟨0, s, false⟩
  | some (n, rest) =>
    if n < 2 ^ 64 then ⟨if (signed s).1 = .minus then (2 ^ 64 - n) % 2 ^ 64 else n, rest, false⟩
    else ⟨2 ^ 64 - 1, rest, true⟩

/-- A number with its sign. -/
def Sign.number (sg : Sign) (n : Nat) : Int := if sg = .minus then -n else n

/-- The number that decimal digits behind blanks and a sign stand for; 0 without digits. -/
def decimal (s : List Char) : Int :=
  (signed s).1.number (value 10 ((signed s).2.takeWhile (isDigit 10)))

/-- `atoi`. For a number that is no `int` its behaviour is undefined; it returns `ub`. -/
def atoi (ub : List Char → Int) (s : List Char) : Int :=
  if -2 ^ 31 ≤ decimal s ∧ decimal s < 2 ^ 31 then decimal s else ub s

/-! ## The grammar -/

/-- The integer constants of C, without their suffixes. -/
inductive IsConstant : List Char → Nat → Prop
  | decimal {s : List Char} : s ≠ [] → s.head? ≠ some '0' → (∀ c ∈ s, isDigit 10 c = true) →
      IsConstant s (value 10 s)
  | octal {t : List Char} : (∀ c ∈ t, isDigit 8 c = true) → IsConstant ('0' :: t) (value 8 t)
  | hex {x : Char} {t : List Char} : x = 'x' ∨ x = 'X' → t ≠ [] → (∀ c ∈ t, isDigit 16 c = true) →
      IsConstant ('0' :: x :: t) (value 16 t)

/-- `s` is blanks, a sign and `t`. -/
structure Written (s ws : List Char) (sg : Sign) (t : List Char) : Prop where
  eq : s = ws ++ sg.text ++ t
  blank : ∀ c ∈ ws, isSpace c = true

/-! ## Digits -/

theorem not_isDigit_of_digit {base : Nat} {c : Char} (h : digit c = none) :
    ¬ isDigit base c = true := by
  rw [isDigit, h]
  exact Bool.false_ne_true

theorem digit_of_isSpace {c : Char} (h : isSpace c = true) : digit c = none := by
  simp only [isSpace, List.contains_iff_mem, List.mem_cons, List.not_mem_nil, or_false] at h
  rcases h with rfl | rfl | rfl | rfl | rfl | rfl <;> decide

/-- A text that begins with a digit has no blanks and no sign in front. -/
theorem signed_of_digit {s : List Char} {base : Nat} (h : s.head?.any (isDigit base) = true) :
    signed s = (.absent, s) := by
  rw [Option.any_eq_true] at h
  obtain ⟨c, hc, hd⟩ := h
  have hdrop : s.dropWhile isSpace = s := by
    obtain ⟨t, rfl⟩ := List.head?_eq_some_iff.mp hc
    exact List.dropWhile_cons_of_neg fun hs => not_isDigit_of_digit (digit_of_isSpace hs) hd
  have hplus : s.head? ≠ some '+' := by
    rintro he
    rw [hc, Option.some_inj] at he
    exact not_isDigit_of_digit (by rw [he]; decide) hd
  have hminus : s.head? ≠ some '-' := by
    rintro he
    rw [hc, Option.some_inj] at he
    exact not_isDigit_of_digit (by rw [he]; decide) hd
  rw [signed, hdrop, sign, if_neg hplus, if_neg hminus]

/-- Blanks and a sign in front of a digit are read as such. -/
theorem Written.signed_eq {s ws t : List Char} {sg : Sign} {base : Nat} (h : Written s ws sg t)
    (ht : t.head?.any (isDigit base) = true) : signed s = (sg, t) := by
  rw [h.eq, signed, List.append_assoc, List.dropWhile_append_of_pos h.blank]
  cases sg with
  | absent => exact signed_of_digit ht
  | plus => rfl
  | minus => rfl

/-- Every text is blanks, a sign and the rest. -/
theorem written_signed (s : List Char) :
    Written s (s.takeWhile isSpace) (signed s).1 (signed s).2 := by
  have hsign : ∀ t, t = (sign t).1.text ++ (sign t).2 := by
    intro t
    unfold sign
    split
    · next hplus =>
      obtain ⟨u, rfl⟩ := List.head?_eq_some_iff.mp hplus
      rfl
    · split
      · next hminus =>
        obtain ⟨u, rfl⟩ := List.head?_eq_some_iff.mp hminus
        rfl
      · rfl
  refine ⟨?_, fun c hc => List.mem_takeWhile_imp hc⟩
  rw [signed, List.append_assoc, ← hsign, List.takeWhile_append_dropWhile]

/-! ## Runs of digits -/

/-- A run to the end of the text. -/
theorem run_eq_some_nil {base n : Nat} {s : List Char} :
    run base s = some (n, []) ↔ s ≠ [] ∧ (∀ c ∈ s, isDigit base c = true) ∧ value base s = n := by
  constructor
  · intro h
    unfold run at h
    split at h
    · cases h
    · next hne =>
      rw [Option.some_inj, Prod.mk.injEq] at h
      have hall := List.dropWhile_eq_nil_iff.mp h.2
      have htake := List.takeWhile_eq_self_iff.mpr hall
      rw [htake] at hne h
      exact ⟨hne, hall, h.1⟩
  · rintro ⟨hne, hall, rfl⟩
    rw [run, List.takeWhile_eq_self_iff.mpr hall, if_neg hne, List.dropWhile_eq_nil_iff.mpr hall]

theorem head_isDigit {base : Nat} {s : List Char} (hne : s ≠ [])
    (h : ∀ c ∈ s, isDigit base c = true) :
    s.head?.any (isDigit base) = true := by
  obtain ⟨c, t, rfl⟩ := List.exists_cons_of_ne_nil hne
  exact h c List.mem_cons_self

theorem value_zero_cons (base : Nat) (t : List Char) : value base ('0' :: t) = value base t := by
  rw [value, List.foldl_cons, Nat.zero_mul]
  rfl

/-! ## Constants -/

theorem IsConstant.head {s : List Char} {n : Nat} (h : IsConstant s n) :
    s.head?.any (isDigit 10) = true := by
  cases h with
  | decimal hne _ hall => exact head_isDigit hne hall
  | octal _ => rfl
  | hex _ _ _ => rfl

theorem hexFollows_iff {s : List Char} :
    hexFollows s = true ↔ ∃ x c t, s = x :: c :: t ∧ (x = 'x' ∨ x = 'X') ∧ isDigit 16 c = true := by
  constructor
  · intro h
    rw [hexFollows, Bool.and_eq_true, decide_eq_true_eq, Option.any_eq_true] at h
    obtain ⟨hx, c, hc, hd⟩ := h
    cases s with
    | nil => cases hc
    | cons x t =>
      obtain ⟨u, rfl⟩ := List.head?_eq_some_iff.mp hc
      exact ⟨x, c, u, rfl, hx.imp Option.some.inj Option.some.inj, hd⟩
  · rintro ⟨x, c, t, rfl, hx, hd⟩
    rw [hexFollows, Bool.and_eq_true, decide_eq_true_eq]
    exact ⟨hx.imp (congrArg some) (congrArg some), hd⟩

/-! What a constant is, by the base that its beginning tells. -/

theorem isConstant_decimal_iff {s : List Char} {n : Nat} (hzero : s.head? ≠ some '0') :
    IsConstant s n ↔ s ≠ [] ∧ (∀ c ∈ s, isDigit 10 c = true) ∧ value 10 s = n := by
  constructor
  · intro h
    cases h with
    | decimal hne _ hall => exact ⟨hne, hall, rfl⟩
    | octal _ => exact absurd rfl hzero
    | hex _ _ _ => exact absurd rfl hzero
  · rintro ⟨hne, hall, rfl⟩
    exact .decimal hne hzero hall

theorem isConstant_octal_iff {t : List Char} {n : Nat} (hhex : hexFollows t = false) :
    IsConstant ('0' :: t) n ↔ (∀ c ∈ t, isDigit 8 c = true) ∧ value 8 t = n := by
  constructor
  · intro h
    cases h with
    | decimal _ hne _ => exact absurd rfl hne
    | octal hall => exact ⟨hall, rfl⟩
    | @hex x u hx hne hall =>
      obtain ⟨c, u, rfl⟩ := List.exists_cons_of_ne_nil hne
      have hfollows := hexFollows_iff.mpr ⟨x, c, u, rfl, hx, hall c List.mem_cons_self⟩
      rw [hfollows] at hhex
      cases hhex
  · rintro ⟨hall, rfl⟩
    exact .octal hall

theorem isConstant_hex_iff {x : Char} {t : List Char} {n : Nat} (hx : x = 'x' ∨ x = 'X') :
    IsConstant ('0' :: x :: t) n ↔ t ≠ [] ∧ (∀ c ∈ t, isDigit 16 c = true) ∧ value 16 t = n := by
  constructor
  · intro h
    cases h with
    | decimal _ hne _ => exact absurd rfl hne
    | octal hall =>
      rcases hx with rfl | rfl
      · exact absurd (hall 'x' List.mem_cons_self) (by decide)
      · exact absurd (hall 'X' List.mem_cons_self) (by decide)
    | hex _ hne hall => exact ⟨hne, hall, rfl⟩
  · rintro ⟨hne, hall, rfl⟩
    exact .hex hx hne hall

/-- The constants are the texts that are read to their end. -/
theorem constant_eq_some_nil {s : List Char} {n : Nat} :
    constant s = some (n, []) ↔ IsConstant s n := by
  unfold constant based
  rcases Classical.em (s.head? = some '0') with hzero | hzero
  · obtain ⟨t, rfl⟩ := List.head?_eq_some_iff.mp hzero
    rw [if_neg (not_not_intro hzero), List.tail_cons]
    cases hhex : hexFollows t with
    | true =>
      obtain ⟨x, c, u, rfl, hx, -⟩ := hexFollows_iff.mp hhex
      rw [if_pos rfl, List.tail_cons]
      exact run_eq_some_nil.trans (isConstant_hex_iff hx).symm
    | false =>
      -- the leading zero is itself read as an octal digit
      have hdigit : isDigit 8 '0' = true := by decide
      rw [if_neg Bool.false_ne_true, run_eq_some_nil, isConstant_octal_iff hhex, value_zero_cons,
        and_iff_right (List.cons_ne_nil _ _), List.forall_mem_cons, and_iff_right hdigit]
  · rw [if_pos hzero]
    exact run_eq_some_nil.trans (isConstant_decimal_iff hzero).symm

/-! ## strtoull -/

/-- A text that is no constant behind blanks and a sign is not read to its end, or not
read at all. -/
theorem strtoull_other {s : List Char} (h : ∀ n, ¬ IsConstant (signed s).2 n) :
    (strtoull s).rest = s ∨ (strtoull s).rest ≠ [] := by
  unfold strtoull
  cases hc : constant (signed s).2 with
  | none => exact Or.inl rfl
  | some r =>
    obtain ⟨n, rest⟩ := r
    refine Or.inr fun hrest => h n (constant_eq_some_nil.mp ?_)
    have hnil : rest = [] := by
      dsimp only at hrest
      split at hrest <;> exact hrest
    rw [hc, hnil]

/-- A constant behind blanks and a sign is read to its end. -/
theorem strtoull_written {s ws t : List Char} {sg : Sign} {n : Nat} (h : Written s ws sg t)
    (ht : IsConstant t n) :
    strtoull s =
      if n < 2 ^ 64 then ⟨if sg = .minus then (2 ^ 64 - n) % 2 ^ 64 else n, [], false⟩
      else ⟨2 ^ 64 - 1, [], true⟩ := by
  rw [strtoull, h.signed_eq ht.head, constant_eq_some_nil.mpr ht]

/-- What is read to its end, and is not empty, without a range error. -/
theorem strtoull_spec {s : List Char} :
    ((strtoull s).rest ≠ s ∧ (strtoull s).rest = [] ∧ (strtoull s).erange = false) ↔
      ∃ ws sg t n, Written s ws sg t ∧ IsConstant t n ∧ n < 2 ^ 64 := by
  constructor
  · rintro ⟨hsome, hend, hrange⟩
    have hwritten := written_signed s
    obtain ⟨n, hn⟩ : ∃ n, IsConstant (signed s).2 n := by
      refine Classical.byContradiction fun hno => ?_
      rcases strtoull_other (not_exists.mp hno) with h | h
      · exact hsome h
      · exact h hend
    refine ⟨_, _, _, n, hwritten, hn, ?_⟩
    rw [strtoull_written hwritten hn] at hrange
    split at hrange
    · next hlt => exact hlt
    · cases hrange
  · rintro ⟨ws, sg, t, n, hwritten, ht, hlt⟩
    rw [strtoull_written hwritten ht, if_pos hlt]
    refine ⟨fun he => ?_, rfl, rfl⟩
    have hhead := ht.head
    have hnil : t = [] := (List.append_eq_nil_iff.mp (hwritten.eq.symm.trans he.symm)).2
    rw [hnil] at hhead
    cases hhead

/-- A constant has no blanks and no sign in front of it. -/
theorem Written.plain {s ws t : List Char} {sg : Sign} {n m : Nat} (h : Written s ws sg t)
    (ht : IsConstant t n) (hs : IsConstant s m) : ws = [] ∧ sg = .absent ∧ t = s := by
  have hsigned := h.signed_eq ht.head
  rw [signed_of_digit hs.head, Prod.mk.injEq] at hsigned
  obtain ⟨rfl, rfl⟩ := hsigned
  refine ⟨?_, rfl, rfl⟩
  have heq := h.eq
  rw [Sign.text, List.append_nil] at heq
  exact List.self_eq_append_left.mp heq

/-- The value of a constant is unique. -/
theorem IsConstant.unique {s : List Char} {n m : Nat} (hn : IsConstant s n)
    (hm : IsConstant s m) : n = m := by
  rw [← constant_eq_some_nil] at hn hm
  rw [hn, Option.some_inj, Prod.mk.injEq] at hm
  exact hm.1

/-! ## atoi -/

theorem atoi_written {s ws t : List Char} {sg : Sign} (ub : List Char → Int) (h : Written s ws sg t)
    (hne : t ≠ []) (ht : ∀ c ∈ t, isDigit 10 c = true) (hlo : -2 ^ 31 ≤ sg.number (value 10 t))
    (hhi : sg.number (value 10 t) < 2 ^ 31) : atoi ub s = sg.number (value 10 t) := by
  have hdecimal : decimal s = sg.number (value 10 t) := by
    rw [decimal, h.signed_eq (head_isDigit hne ht), List.takeWhile_eq_self_iff.mpr ht]
  rw [atoi, hdecimal, if_pos ⟨hlo, hhi⟩]

end Numeral
