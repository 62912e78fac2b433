import Ebpf101.Lib.Printed
import Ebpf101.Nettop.Sample
import Ebpf101.UserMemory

/-!
# nettop: the frame on the screen

`print_sample` and `fmt_rate` of `27-nettop/nettop.c`. A rate is scaled by 1024 and printed
with one place, into a buffer of 16 bytes. The bytes of a name are taken for characters.

`readFrame` is a reader of the screen: behind the header, every line whose first word is a
number is a row, with the rates and the retransmits in its last three words.

Results:
1. `frame_reads_back`: the reader finds the rows that are shown, with their pids and
   retransmits, and with rates that are off by a twentieth or by half a byte at most and
   ordered as the rates are, as long as no name has a newline in it.
   `forged_row`: a name with a newline prints a row for a process that has none.
-/

namespace Ebpf101.Nettop

open Printed

/-! ## The source -/

/-- `struct env`. -/
structure Args where
  interval : ℚ
  count : Int
  top : Int
  clear : Bool

/-- The loop of `fmt_rate`. -/
def scaleRate (bps : ℚ) (u : Nat) : ℚ × Nat :=
  if bps ≥ 1024 ∧ u < 4 then scaleRate (bps / 1024) (u + 1) else (bps, u)
termination_by 4 - u

/-- `unit[u]`. -/
def unit : Nat → Char
  | 0 => 'B'
  | 1 => 'K'
  | 2 => 'M'
  | 3 => 'G'
  | _ => 'T'

/-- The places of the two formats. -/
def places (u : Nat) : Nat := if u = 0 then 0 else 1

/-- `fmt_rate`: `snprintf` leaves room for the NUL. -/
def fmtRate (bps : ℚ) (len : Nat) : List Char :=
  let (bps, u) := scaleRate bps 0
  (fixed (places u) bps ++ [unit u]).take (len - 1)

/-- The bytes that `%s` prints of a name. -/
def commText (c : Comm) : List Char := (cstr c.bytes).map fun b => Char.ofNat b.toNat

/-- The line of a row. -/
def rowLine (r : Row) : List Char :=
  (decimal r.pid).rightpad 8 ' ' ++ ' ' :: (commText r.comm).rightpad 16 ' ' ++
  ' ' :: (fmtRate r.txBps 16).leftpad 10 ' ' ++ ' ' :: (fmtRate r.rxBps 16).leftpad 10 ' ' ++
  ' ' :: (decimal r.retrans).leftpad 10 ' '

/-- `\033[H\033[J`. -/
def CLEAR : List Char := ['\x1b', '[', 'H', '\x1b', '[', 'J']

/-- The title: the time of day and the number of processes. -/
def titleLine (env : Args) (clock : List Char) (n : Nat) : List Char :=
  (if env.clear then CLEAR else []) ++ clock ++ "   ".toList ++ decimal n ++ " process".toList ++
  (if n = 1 then [] else "es".toList) ++ " with traffic".toList

def headerLine : List Char :=
  "PID".toList.rightpad 8 ' ' ++ ' ' :: "COMM".toList.rightpad 16 ' ' ++
    ' ' :: "TX/s".toList.leftpad 10 ' ' ++
  ' ' :: "RX/s".toList.leftpad 10 ' ' ++ ' ' :: "RETRANS".toList.leftpad 10 ' '

/-- The `int` `shown`. -/
def shownCount (env : Args) (n : Nat) : Int := if (n : Int) < env.top then n else env.top

/-- `n - shown`, which is positive where it is printed. -/
def moreLine (k : Nat) : List Char := "... ".toList ++ decimal k ++ " more".toList

/-- `print_sample`, line by line. -/
def frameLines (env : Args) (clock : List Char) (rows : List Row) : List (List Char) :=
  [titleLine env clock rows.length, [], headerLine] ++
  (rows.take (shownCount env rows.length).toNat).map rowLine ++
  if (rows.length : Int) > shownCount env rows.length then
    [moreLine (rows.length - shownCount env rows.length).toNat]
  else []

/-- `print_sample`. -/
def printSample (env : Args) (clock : List Char) (rows : List Row) : List Char :=
  (frameLines env clock rows).flatMap (· ++ ['\n'])

/-! ## The reader -/

/-- A unit. -/
def unitOf (c : Char) : Option Nat := [0, 1, 2, 3, 4].find? fun u => unit u = c

/-- A rate, in bytes. -/
def readRate (s : List Char) : Option ℚ := do
  let u ← s.getLast?.bind unitOf
  let x ← readFixed s.dropLast
  return x * 1024 ^ u

/-- What a line says. -/
structure ReadRow where
  pid : Nat
  tx : ℚ
  rx : ℚ
  retrans : Nat
deriving DecidableEq

def readRow (line : List Char) : Option ReadRow :=
  match Text.words (· == ' ') line with
  | [] => none
  | first :: words =>
    match words.reverse with
    | re :: rx :: tx :: _ => do
      let pid ← readDecimal first
      let tx ← readRate tx
      let rx ← readRate rx
      let re ← readDecimal re
      return ⟨pid, tx, rx, re⟩
    | _ => none

/-- The rows behind the title, the empty line and the header. -/
def readFrame (text : List Char) : List ReadRow := ((text.splitOn '\n').drop 3).filterMap readRow

/-! ## Statements -/

/-- The rate that is printed. -/
def rateShown (bps : ℚ) : ℚ :=
  let (x, u) := scaleRate bps 0
  (nearestEven (x * 10 ^ places u) : ℚ) / 10 ^ places u * 1024 ^ u

/-- What the line of a row says. -/
def readOf (r : Row) : ReadRow := ⟨r.pid, rateShown r.txBps, rateShown r.rxBps, r.retrans⟩

/-- Room for the text of a rate in 15 characters. -/
def RateFits (bps : ℚ) : Prop := 0 ≤ bps ∧ bps ≤ (10 ^ 12 - 1) * 1024 ^ 4

/-- The rates fit, and the name has no newline. -/
structure Displayable (r : Row) : Prop where
  tx : RateFits r.txBps
  rx : RateFits r.rxBps
  name : '\n' ∉ commText r.comm

/-- Half a byte, or a twentieth of the rate. -/
def tolerance (bps : ℚ) : ℚ := max (1 / 2) (bps / 20)

namespace DisplayLemmas

/-! ## Scaling -/

/-- The rate is `x` times the unit, and `x` is at least 1 behind a division and below 1024 where
there is a larger unit. -/
structure Scaled (bps x : ℚ) (u : Nat) : Prop where
  eq : bps = x * 1024 ^ u
  unit_le : u ≤ 4
  one_le : u ≠ 0 → 1 ≤ x
  lt : u < 4 → x < 1024

theorem scaled_loop {bps x : ℚ} {u : Nat} (heq : bps = x * 1024 ^ u) (hu : u ≤ 4)
    (hone : u ≠ 0 → 1 ≤ x) :
    Scaled bps (scaleRate x u).1 (scaleRate x u).2 := by
  fun_induction scaleRate x u with
  | case1 x u h ih =>
    refine ih ?_ (Nat.succ_le_of_lt h.2) fun _ => ?_
    · rw [heq, pow_succ]
      ring
    · rw [le_div_iff₀ (by norm_num), one_mul]
      exact h.1
  | case2 x u h =>
    refine ⟨heq, hu, hone, fun hlt => ?_⟩
    by_contra hge
    exact h ⟨le_of_not_gt hge, hlt⟩

theorem scaled (bps : ℚ) : Scaled bps (scaleRate bps 0).1 (scaleRate bps 0).2 :=
  scaled_loop (by rw [pow_zero, mul_one]) (Nat.zero_le 4) fun h => absurd rfl h

theorem Scaled.nonneg {bps x : ℚ} {u : Nat} (h : Scaled bps x u) (hbps : 0 ≤ bps) : 0 ≤ x := by
  have hpow : (0 : ℚ) < 1024 ^ u := by positivity
  rw [h.eq] at hbps
  exact nonneg_of_mul_nonneg_left hbps hpow

/-- A larger rate has a unit that is no smaller. -/
theorem Scaled.unit_mono {a b x y : ℚ} {u v : Nat} (ha : Scaled a x u) (hb : Scaled b y v)
    (hle : a ≤ b) : u ≤ v := by
  by_contra hlt
  have hvu := Nat.lt_of_not_le hlt
  have hx := ha.one_le (Nat.ne_of_gt (Nat.zero_lt_of_lt hvu))
  have hy := hb.lt (Nat.lt_of_lt_of_le hvu ha.unit_le)
  have hbelow : b < 1024 ^ (v + 1) := by
    rw [hb.eq, pow_succ, mul_comm]
    exact mul_lt_mul_of_pos_left hy (by positivity)
  have habove : (1024 : ℚ) ^ u ≤ a := by
    rw [ha.eq]
    exact le_mul_of_one_le_left (by positivity) hx
  have hpow : (1024 : ℚ) ^ (v + 1) ≤ 1024 ^ u := pow_le_pow_right₀ (by norm_num) hvu
  linarith

/-! ## The printed rate -/

/-- `x` with its places. -/
def rounded (x : ℚ) (d : Nat) : ℚ := (nearestEven (x * 10 ^ d) : ℚ) / 10 ^ d

theorem rounded_error {x : ℚ} (hx : 0 ≤ x) (d : Nat) : |rounded x d - x| ≤ 1 / 2 / 10 ^ d := by
  have hpow : (0 : ℚ) < 10 ^ d := by positivity
  have hsplit : rounded x d - x = ((nearestEven (x * 10 ^ d) : ℚ) - x * 10 ^ d) / 10 ^ d := by
    rw [rounded, sub_div, mul_div_cancel_right₀ x hpow.ne']
  rw [hsplit, abs_div, abs_of_pos hpow]
  exact div_le_div_of_nonneg_right (nearestEven_error (by positivity)) hpow.le

theorem rounded_mono {x y : ℚ} (hx : 0 ≤ x) (h : x ≤ y) (d : Nat) : rounded x d ≤ rounded y d := by
  have hpow : (0 : ℚ) < 10 ^ d := by positivity
  refine div_le_div_of_nonneg_right ?_ hpow.le
  exact_mod_cast nearestEven_mono (by positivity) (mul_le_mul_of_nonneg_right h hpow.le)

theorem rounded_natCast (n d : Nat) : rounded n d = n := by
  have hpow : (10 : ℚ) ^ d ≠ 0 := by positivity
  have hcast : (n : ℚ) * 10 ^ d = ((n * 10 ^ d : Nat) : ℚ) := by push_cast; rfl
  rw [rounded, hcast, nearestEven_natCast, ← hcast, mul_div_cancel_right₀ _ hpow]

theorem rateShown_eq (bps : ℚ) :
    rateShown bps = rounded (scaleRate bps 0).1 (places (scaleRate bps 0).2) *
      1024 ^ (scaleRate bps 0).2 := rfl

theorem rateShown_error {bps : ℚ} (hbps : 0 ≤ bps) : |rateShown bps - bps| ≤ tolerance bps := by
  have h := scaled bps
  rw [rateShown_eq]
  generalize (scaleRate bps 0).1 = x at h ⊢
  generalize (scaleRate bps 0).2 = u at h ⊢
  have hpow : (0 : ℚ) < 1024 ^ u := by positivity
  have herror := rounded_error (h.nonneg hbps) (places u)
  have hscale : |rounded x (places u) * 1024 ^ u - bps| =
      |rounded x (places u) - x| * 1024 ^ u := by
    rw [h.eq, ← sub_mul, abs_mul, abs_of_pos hpow]
  rw [hscale, tolerance]
  rcases Nat.eq_zero_or_pos u with hzero | hpos
  · subst hzero
    rw [pow_zero, mul_one]
    exact le_max_of_le_left (by simpa [places] using herror)
  · have hone := h.one_le hpos.ne'
    have hplaces : places u = 1 := if_neg hpos.ne'
    rw [hplaces] at herror ⊢
    refine le_max_of_le_right ?_
    calc |rounded x 1 - x| * 1024 ^ u
      _ ≤ 1 / 2 / 10 ^ 1 * 1024 ^ u := mul_le_mul_of_nonneg_right herror hpow.le
      _ ≤ x * 1024 ^ u / 20 := by
        rw [mul_div_right_comm]
        exact mul_le_mul_of_nonneg_right (by linarith) hpow.le
      _ = bps / 20 := by rw [h.eq]

theorem rateShown_mono {a b : ℚ} (ha : 0 ≤ a) (hab : a ≤ b) : rateShown a ≤ rateShown b := by
  have hA := scaled a
  have hB := scaled b
  rw [rateShown_eq, rateShown_eq]
  generalize (scaleRate a 0).1 = x at hA ⊢
  generalize (scaleRate a 0).2 = u at hA ⊢
  generalize (scaleRate b 0).1 = y at hB ⊢
  generalize (scaleRate b 0).2 = v at hB ⊢
  have hx := hA.nonneg ha
  rcases (hA.unit_mono hB hab).lt_or_eq with hlt | heq
  · -- One of the larger unit lies between them.
    have hbelow : rounded x (places u) ≤ 1024 := by
      have h1024 := rounded_natCast 1024 (places u)
      push_cast at h1024
      rw [← h1024]
      exact rounded_mono hx (hA.lt (Nat.lt_of_lt_of_le hlt hB.unit_le)).le _
    have habove : 1 ≤ rounded y (places v) := by
      have hone := rounded_natCast 1 (places v)
      push_cast at hone
      rw [← hone]
      exact rounded_mono zero_le_one (hB.one_le (Nat.ne_of_gt (Nat.zero_lt_of_lt hlt))) _
    calc rounded x (places u) * 1024 ^ u
      _ ≤ 1024 * 1024 ^ u := mul_le_mul_of_nonneg_right hbelow (by positivity)
      _ = 1024 ^ (u + 1) := (pow_succ' 1024 u).symm
      _ ≤ 1024 ^ v := pow_le_pow_right₀ (by norm_num) hlt
      _ ≤ rounded y (places v) * 1024 ^ v := le_mul_of_one_le_left (by positivity) habove
  · subst heq
    have hpow : (0 : ℚ) < 1024 ^ u := by positivity
    have hxy : x ≤ y := by
      rw [hA.eq, hB.eq] at hab
      exact le_of_mul_le_mul_right hab hpow
    exact mul_le_mul_of_nonneg_right (rounded_mono hx hxy _) hpow.le

/-! ## The text of a rate -/

theorem length_rate {bps : ℚ} (h : RateFits bps) :
    (fixed (places (scaleRate bps 0).2) (scaleRate bps 0).1 ++ [unit (scaleRate bps 0).2]).length ≤
      15 := by
  have hs := scaled bps
  generalize (scaleRate bps 0).1 = x at hs ⊢
  generalize (scaleRate bps 0).2 = u at hs ⊢
  have hx := hs.nonneg h.1
  have hplaces : places u ≤ 1 := by
    rw [places]
    split <;> omega
  have hbound : x + 1 ≤ 10 ^ 12 := by
    rcases Nat.lt_or_ge u 4 with hlt | hge
    · linarith [hs.lt hlt]
    · have hu : u = 4 := Nat.le_antisymm hs.unit_le hge
      have hle := h.2
      rw [hs.eq, hu] at hle
      linarith [le_of_mul_le_mul_right hle (by positivity)]
  have hlen := length_fixed_le (places u) hx (k := 12) (by decide) hbound
  rw [List.length_append, List.length_singleton]
  omega

theorem fmtRate_eq {bps : ℚ} (h : RateFits bps) :
    fmtRate bps 16 = fixed (places (scaleRate bps 0).2) (scaleRate bps 0).1 ++
      [unit (scaleRate bps 0).2] :=
  List.take_of_length_le (length_rate h)

theorem unitOf_unit {u : Nat} (h : u ≤ 4) : unitOf (unit u) = some u := by
  have hall : ∀ v ≤ 4, unitOf (unit v) = some v := by decide
  exact hall u h

theorem readRate_fmtRate {bps : ℚ} (h : RateFits bps) :
    readRate (fmtRate bps 16) = some (rateShown bps) := by
  rw [fmtRate_eq h, readRate, List.getLast?_concat, Option.bind_some,
    unitOf_unit (scaled bps).unit_le, List.dropLast_concat, readFixed_fixed]
  rfl

theorem unit_ne {c : Char} (hc : c ∉ ['B', 'K', 'M', 'G', 'T']) (u : Nat) : c ≠ unit u := by
  rintro rfl
  refine hc ?_
  unfold unit
  split <;> decide

/-- A blank or a newline is not printed for a rate. -/
theorem notMem_fmtRate {c : Char} (hdigit : c.isDigit = false) (hdot : c ≠ '.')
    (hunit : c ∉ ['B', 'K', 'M', 'G', 'T']) (bps : ℚ) (len : Nat) : c ∉ fmtRate bps len := by
  intro h
  have hmem := List.mem_of_mem_take h
  rcases List.mem_append.mp hmem with hfixed | hlast
  · rcases mem_fixed hfixed with hd | rfl
    · rw [hd] at hdigit
      cases hdigit
    · exact hdot rfl
  · exact unit_ne hunit _ (List.mem_singleton.mp hlast)

theorem words_fmtRate {bps : ℚ} (h : RateFits bps) :
    Text.words (· == ' ') (fmtRate bps 16) = [fmtRate bps 16] := by
  refine Text.words_of_clean (fun c hc => beq_false_of_ne fun he => ?_) ?_
  · rw [he] at hc
    exact notMem_fmtRate (by decide) (by decide) (by decide) bps 16 hc
  · rw [fmtRate_eq h]
    exact List.append_ne_nil_of_right_ne_nil _ (List.cons_ne_nil _ _)

theorem words_decimal (n : Nat) : Text.words (· == ' ') (decimal n) = [decimal n] := by
  refine Text.words_of_clean (fun c hc => beq_false_of_ne fun he => ?_) (decimal_ne_nil n)
  rw [he] at hc
  exact notMem_decimal (by decide) n hc

/-! ## The lines -/

theorem words_rowLine {r : Row} (h : Displayable r) :
    Text.words (· == ' ') (rowLine r) =
      decimal r.pid :: (Text.words (· == ' ') (commText r.comm) ++
        [fmtRate r.txBps 16, fmtRate r.rxBps 16, decimal r.retrans]) := by
  simp only [rowLine, List.append_assoc, List.cons_append]
  rw [Text.words_append_sep rfl, Text.words_append_sep rfl, Text.words_append_sep rfl,
    Text.words_append_sep rfl, words_rightpad, words_rightpad, words_leftpad, words_leftpad,
    words_leftpad, words_decimal, words_decimal, words_fmtRate h.tx, words_fmtRate h.rx]
  rfl

theorem readRow_rowLine {r : Row} (h : Displayable r) : readRow (rowLine r) = some (readOf r) := by
  rw [readRow, words_rowLine h]
  simp [readRate_fmtRate h.tx, readRate_fmtRate h.rx, readDecimal_decimal, readOf]

/-- A newline in a line comes from the name. -/
theorem newline_notMem_rowLine {r : Row} (h : '\n' ∉ commText r.comm) : '\n' ∉ rowLine r := by
  have hpid := notMem_decimal (c := '\n') (by decide) r.pid
  have hre := notMem_decimal (c := '\n') (by decide) r.retrans
  have htx := notMem_fmtRate (c := '\n') (by decide) (by decide) (by decide) r.txBps 16
  have hrx := notMem_fmtRate (c := '\n') (by decide) (by decide) (by decide) r.rxBps 16
  simp [rowLine, List.leftpad, List.rightpad, List.mem_replicate, hpid, hre, htx, hrx, h]

theorem newline_notMem_titleLine (env : Args) {clock : List Char} (h : '\n' ∉ clock) (n : Nat) :
    '\n' ∉ titleLine env clock n := by
  have hn := notMem_decimal (c := '\n') (by decide) n
  have hclear : '\n' ∉ (if env.clear then CLEAR else []) := by
    split <;> decide
  have hes : '\n' ∉ (if n = 1 then [] else "es".toList) := by
    split <;> decide
  have htexts : '\n' ∉ "   ".toList ∧ '\n' ∉ " process".toList ∧
      '\n' ∉ " with traffic".toList := by decide
  simp only [titleLine, List.mem_append, hclear, h, htexts.1, hn, htexts.2.1, hes, htexts.2.2,
    or_self, not_false_eq_true]

theorem newline_notMem_moreLine (k : Nat) : '\n' ∉ moreLine k := by
  have hk := notMem_decimal (c := '\n') (by decide) k
  have htexts : '\n' ∉ "... ".toList ∧ '\n' ∉ " more".toList := by decide
  simp only [moreLine, List.mem_append, htexts.1, hk, htexts.2, or_self, not_false_eq_true]

theorem readRow_moreLine (k : Nat) : readRow (moreLine k) = none := by
  have hwords : Text.words (· == ' ') (moreLine k) =
      [['.', '.', '.'], decimal k, "more".toList] := by
    have hfront : moreLine k = ['.', '.', '.'] ++ ' ' :: (decimal k ++ ' ' :: "more".toList) := by
      rw [moreLine, List.append_assoc]
      rfl
    rw [hfront, Text.words_append_sep rfl, Text.words_append_sep rfl, words_decimal]
    rfl
  rw [readRow, hwords]
  rfl

/-- Splitting undoes the newlines behind the lines. -/
theorem splitOn_lines {ls : List (List Char)} (h : ∀ l ∈ ls, '\n' ∉ l) :
    (ls.flatMap (· ++ ['\n'])).splitOn '\n' = ls ++ [[]] := by
  induction ls with
  | nil => rfl
  | cons l ls ih =>
    have hline : l.splitOnP (· == '\n') = [l] :=
      List.splitOnP_eq_singleton fun c hc => beq_false_of_ne fun he =>
        h l List.mem_cons_self (he ▸ hc)
    have ih := ih fun l hl => h l (List.mem_cons_of_mem _ hl)
    rw [List.splitOn] at ih ⊢
    rw [List.flatMap_cons, List.append_assoc, List.singleton_append,
      List.splitOnP_append_cons _ _ (by decide), hline, ih]
    rfl

theorem newline_notMem_frameLines (env : Args) {clock : List Char} (hclock : '\n' ∉ clock)
    {rows : List Row}
    (hrows : ∀ r ∈ rows, Displayable r) : ∀ l ∈ frameLines env clock rows, '\n' ∉ l := by
  intro l hl
  rw [frameLines, List.append_assoc, List.mem_append, List.mem_append] at hl
  rcases hl with hhead | hrow | hmore
  · rw [List.mem_cons, List.mem_pair] at hhead
    rcases hhead with rfl | rfl | rfl
    · exact newline_notMem_titleLine env hclock _
    · exact List.not_mem_nil
    · decide
  · obtain ⟨r, hr, rfl⟩ := List.mem_map.mp hrow
    exact newline_notMem_rowLine (hrows r (List.mem_of_mem_take hr)).name
  · split at hmore
    · rw [List.mem_singleton.mp hmore]
      exact newline_notMem_moreLine _
    · cases hmore

theorem readFrame_printSample (env : Args) {clock : List Char} (hclock : '\n' ∉ clock)
    {rows : List Row} (hrows : ∀ r ∈ rows, Displayable r) :
    readFrame (printSample env clock rows) =
      (rows.take (shownCount env rows.length).toNat).map readOf := by
  have hread : ∀ rs : List Row, (∀ r ∈ rs, Displayable r) →
      (rs.map rowLine).filterMap readRow = rs.map readOf := by
    intro rs hrs
    rw [List.filterMap_map, ← List.filterMap_eq_map]
    exact List.filterMap_congr fun r hr => readRow_rowLine (hrs r hr)
  have hend : readRow [] = none := rfl
  rw [readFrame, printSample, splitOn_lines (newline_notMem_frameLines env hclock hrows),
    frameLines, List.append_assoc, List.append_assoc]
  rw [show 3 = [titleLine env clock rows.length, [], headerLine].length from rfl, List.drop_left,
    List.filterMap_append, hread _ fun r hr => hrows r (List.mem_of_mem_take hr),
    List.filterMap_append]
  split
  · simp [readRow_moreLine, hend]
  · simp [hend]

end DisplayLemmas

open DisplayLemmas

/-! ## 1. The frame -/

/-- For every frame, and every setting of `--top`. -/
theorem frame_reads_back (env : Args) {clock : List Char} (hclock : '\n' ∉ clock) {rows : List Row}
    (hrows : ∀ r ∈ rows, Displayable r) :
    readFrame (printSample env clock rows) =
      (rows.take (shownCount env rows.length).toNat).map readOf ∧
    (∀ r ∈ rows, |(readOf r).tx - r.txBps| ≤ tolerance r.txBps ∧
      |(readOf r).rx - r.rxBps| ≤ tolerance r.rxBps) ∧
    ∀ r ∈ rows, ∀ r' ∈ rows, (r.txBps ≤ r'.txBps → (readOf r).tx ≤ (readOf r').tx) ∧
      (r.rxBps ≤ r'.rxBps → (readOf r).rx ≤ (readOf r').rx) := by
  refine ⟨readFrame_printSample env hclock hrows, fun r hr => ?_, fun r hr r' _ => ?_⟩
  · exact ⟨rateShown_error (hrows r hr).tx.1, rateShown_error (hrows r hr).rx.1⟩
  · exact ⟨rateShown_mono (hrows r hr).tx.1, rateShown_mono (hrows r hr).rx.1⟩

/-- A process `nc` that sends 1.5 KiB a second. -/
def exSender : Row := ⟨4242, Comm.ofBytes [110, 99], 1536, 3, 1536, 3, 1536, 3, 0⟩

/-- And one that receives a little. -/
def exReceiver : Row := ⟨17, Comm.ofBytes [115, 115, 104], 0, 700, 0, 700, 0, 700, 0⟩

/-- `--top 1`. -/
def exScreen : Args := ⟨1, 0, 1, true⟩

def exClock : List Char := "12:00:00".toList

/-- Two rows, of which one is shown. -/
theorem exSender_reads_back :
    (Displayable exSender ∧ Displayable exReceiver) ∧
    readFrame (printSample exScreen exClock [exSender, exReceiver]) = [⟨4242, 1536, 3, 0⟩] := by
  have hsender : Displayable exSender := by
    refine ⟨⟨?_, ?_⟩, ⟨?_, ?_⟩, by decide +kernel⟩ <;> norm_num [exSender]
  have hreceiver : Displayable exReceiver := by
    refine ⟨⟨?_, ?_⟩, ⟨?_, ?_⟩, by decide +kernel⟩ <;> norm_num [exReceiver]
  have hrows : ∀ r ∈ [exSender, exReceiver], Displayable r :=
    List.forall_mem_cons.mpr ⟨hsender, List.forall_mem_singleton.mpr hreceiver⟩
  have hread := (frame_reads_back exScreen (show '\n' ∉ exClock by decide) hrows).1
  exact ⟨⟨hsender, hreceiver⟩, hread.trans (by decide +kernel)⟩

/-- The same process under the name `\n7 nc`. -/
def exForger : Row := { exSender with comm := Comm.ofBytes [10, 55, 32, 110, 99] }

/-- Its traffic stands in the row of process 7. -/
theorem forged_row : readFrame (printSample exScreen exClock [exForger]) = [⟨7, 1536, 3, 0⟩] := by
  decide +kernel

end Ebpf101.Nettop
