import Ebpf101.Lib.Keyword
import Ebpf101.Lsm.ActiveCheck

/-!
# enable-bpf-lsm.sh

Chapter 20, `20-lsm/enable-bpf-lsm.sh`: unless `bpf` is active, the script writes
`lsm=CUR,bpf` into `GRUB_CMDLINE_LINUX_DEFAULT` of `/etc/default/grub`, where `CUR` is the
current list. If that line has an `lsm=` already, a `sed` without an address replaces the
first `lsm=` of every line; if not, one appends the parameter to a line that ends with a
double quote.

The parameters are what blanks separate in the word that the line assigns. The word is in
double quotes, in single quotes or in none, has no character that the shell, the boot loader
or the kernel would read again (`literal`), and nothing or a comment is behind it. A line
of another form, before or after the edit, is not one that the script edits right.

Results:
1. `script_holds_iff`: the script does what it says, and nothing when it is run again, if
   and only if every other line has no `lsm=`, or reads `lsm=CUR,bpf` at the first one, and
   the default line assigns a word that can be edited in that way (`WordFits`).
   `otherLine_edited`: an `lsm=` on the line for every boot, and a line in single quotes
   that gets nothing.
-/

namespace Ebpf101.Lsm

open Text Keyword

/-! ## The script -/

def DEFAULT : List Char := "GRUB_CMDLINE_LINUX_DEFAULT=".toList

def LSM : List Char := "lsm=".toList

/-- The characters of words, for `\b`. Letters are, blanks, quotes and `=` are not. -/
structure Locale where
  word : Char → Bool
  letter : ∀ c, c.isAlpha = true → word c = true
  space : word ' ' = false
  tab : word '\t' = false
  doubleQuote : word '"' = false
  singleQuote : word '\'' = false
  equals : word '=' = false

/-- `[^" ]`. -/
def inRun (c : Char) : Bool := c ≠ '"' && c ≠ ' '

/-- `WANT`. -/
def want (cur : List Char) : List Char := LSM ++ (cur ++ ",bpf".toList)

/-- `grep -qE '^GRUB_CMDLINE_LINUX_DEFAULT=.*\blsm='`, on a line. -/
def grepDefault (loc : Locale) (line : List Char) : Bool :=
  DEFAULT <+: line && (find loc.word LSM (some '=') (line.drop DEFAULT.length)).isSome

/-- `s/\blsm=[^" ]*/WANT/`. -/
def sedReplace (loc : Locale) (want line : List Char) : List Char :=
  replace loc.word inRun LSM want none line

/-- `s/^(GRUB_CMDLINE_LINUX_DEFAULT=")(.*)(")$/\1\2 WANT\3/`. -/
def sedAppend (want line : List Char) : List Char :=
  if DEFAULT ++ ['"'] <+: line ∧ DEFAULT.length + 2 ≤ line.length ∧ line.getLast? = some '"' then
    line.dropLast ++ ' ' :: want ++ ['"']
  else line

/-- The edit of the file, line by line. -/
def edit (loc : Locale) (want : List Char) (lines : List (List Char)) : List (List Char) :=
  if lines.any (grepDefault loc) then lines.map (sedReplace loc want)
  else lines.map (sedAppend want)

/-- The script, up to `update-grub`. -/
def enableBpfLsm (loc : Locale) (cur : List Char) (lines : List (List Char)) : List (List Char) :=
  if alreadyActive cur then lines else edit loc (want cur) lines

/-! ## The default line -/

def blank (c : Char) : Bool := c = ' ' || c = '\t'

/-- What stands for itself, in quotes or not: no quote, no escape, no expansion, none of
what separates commands, and of the white space only blanks. -/
def literal (c : Char) : Bool := !"\"'\\$`;&|<>()\x7b\x7d~\n\r\x0b\x0c".toList.contains c

inductive Quote where
  | double
  | single
  | bare
deriving DecidableEq, Repr

def Quote.chars : Quote → List Char
  | .double => ['"']
  | .single => ['\'']
  | .bare => []

/-- What ends the word. -/
def Quote.ends : Quote → Char → Bool
  | .double, c => c = '"'
  | .single, c => c = '\''
  | .bare, c => blank c

/-- What follows the word, from its end on. -/
def Quote.tailOf : Quote → List Char → Option (List Char)
  | .bare, r => some r
  | _, r => r.tail?

/-- Nothing, blanks, or a comment behind blanks. -/
def isTail (s : List Char) : Bool := s.head?.all blank && (s.dropWhile blank).head?.all (· = '#')

/-- The word that begins here, with its tail. -/
def closing (q : Quote) (s : List Char) : Option (List Char × List Char) :=
  match q.tailOf (s.dropWhile fun c => !q.ends c) with
  | none => none
  | some tail =>
    if (s.takeWhile fun c => !q.ends c).all literal && isTail tail then
      some (s.takeWhile fun c => !q.ends c, tail)
    else none

def opening (s : List Char) : Quote × List Char :=
  if s.head? = some '"' then (.double, s.tail)
  else if s.head? = some '\'' then (.single, s.tail)
  else (.bare, s)

/-- The word that a line assigns to `GRUB_CMDLINE_LINUX_DEFAULT`. -/
def valueOf (line : List Char) : Option (List Char) :=
  if DEFAULT <+: line then
    (closing (opening (line.drop DEFAULT.length)).1 (opening (line.drop DEFAULT.length)).2).map
      Prod.fst
  else none

/-- The parameters of a command line. -/
def params (v : List Char) : List (List Char) := words blank v

def isLsm (p : List Char) : Bool := LSM <+: p

def lsmParams (v : List Char) : List (List Char) := (params v).filter isLsm

def otherParams (v : List Char) : List (List Char) := (params v).filter fun p => !isLsm p

/-- A word that a line assigns, with the rest of the line. -/
structure Word where
  quote : Quote
  body : List Char
  value : List Char
  tail : List Char
  reads : closing quote body = some (value, tail)

def Word.text (w : Word) : List Char := w.quote.chars ++ w.body

/-- A file with one default line. `text` is what stands behind `GRUB_CMDLINE_LINUX_DEFAULT=`. -/
structure GrubFile where
  before : List (List Char)
  text : List Char
  behind : List (List Char)
  one_default : ∀ l ∈ before ++ behind, ¬ DEFAULT <+: l

def GrubFile.line (f : GrubFile) : List Char := DEFAULT ++ f.text

def GrubFile.lines (f : GrubFile) : List (List Char) := f.before ++ f.line :: f.behind

/-- The current list: names of characters that the script, the shell and the kernel take as
they are. -/
structure CurList where
  line : List Char
  plain : ∀ c ∈ line, c ≠ '/' ∧ blank c = false ∧ literal c = true
  no_bpf : BPF ∉ line.splitOn ','

/-! ## Statements -/

/-- The other lines are as before. The default line assigned a word and assigns one, with
one `lsm=` parameter, which is the wanted one, and the other parameters as before. -/
def EditedRight (want : List Char) (f : GrubFile) (after : List (List Char)) : Prop :=
  ∃ line, after = f.before ++ line :: f.behind ∧
    ∃ v v', valueOf f.line = some v ∧ valueOf line = some v' ∧
      lsmParams v' = [want] ∧ otherParams v' = otherParams v

structure ScriptHolds (loc : Locale) (cur : CurList) (f : GrubFile) : Prop where
  once : EditedRight (want cur.line) f (enableBpfLsm loc cur.line f.lines)
  twice : enableBpfLsm loc cur.line (enableBpfLsm loc cur.line f.lines) =
    enableBpfLsm loc cur.line f.lines

/-- The first `lsm=` of the line, if any, is the wanted one. -/
def Untouched (loc : Locale) (want line : List Char) : Prop :=
  ∀ a b, find loc.word LSM none line = some (a, b) → LSM ++ b.takeWhile inRun = want

/-- What a replacement needs of the value `t1 ++ "lsm=" ++ t2`, of which `c` is left behind
what is replaced. Either a parameter begins there, the replaced run ends with a parameter,
and behind it are the same parameters as before, none of them an `lsm=`; or it is in the
middle of a parameter that reads the same afterwards, and the wanted one follows. -/
inductive Fits (want t1 t2 c : List Char) : Prop
  | begins : (∀ d ∈ t1.getLast?, blank d = true) → Ended blank c → lsmParams c = [] →
      otherParams c = otherParams (t2.dropWhile fun d => !blank d) → Fits want t1 t2 c
  | inside : ¬ (∀ d ∈ t1.getLast?, blank d = true) →
      want ++ (c.takeWhile fun d => !blank d) = LSM ++ (t2.takeWhile fun d => !blank d) →
      lsmParams (c.dropWhile fun d => !blank d) = [want] →
      otherParams (c.dropWhile fun d => !blank d) = otherParams (t2.dropWhile fun d => !blank d) →
      Fits want t1 t2 c

/-- The word can be edited: it has no `lsm=` and its double quote ends the line, or the
first `lsm=` is in its value, the value still ends when the run behind that is replaced,
and the parameters are the right ones. -/
def WordFits (loc : Locale) (want : List Char) (w : Word) : Prop :=
  match find loc.word LSM none w.body with
  | none => w.quote = .double ∧ w.tail = []
  | some (t1, b) => t1.length < w.value.length ∧
      ∃ c tail, closing w.quote (b.dropWhile inRun) = some (c, tail) ∧
        Fits want t1 (w.value.drop (t1.length + LSM.length)) c

namespace GrubLemmas

theorem LSM_ne : LSM ≠ [] := by decide

/-! ## Words that the script writes -/

/-- To check a fixed text. -/
theorem plain_of_all {s : List Char} (h : (s.all fun c => !blank c && literal c) = true) :
    ∀ c ∈ s, blank c = false ∧ literal c = true := by
  intro c hc
  have hboth := List.all_eq_true.mp h c hc
  rwa [Bool.and_eq_true, Bool.not_eq_true'] at hboth

theorem LSM_plain : ∀ c ∈ LSM, blank c = false ∧ literal c = true := plain_of_all (by decide)

theorem not_quote_of_literal {c : Char} (h : literal c = true) : c ≠ '"' ∧ c ≠ '\'' := by
  constructor <;> rintro rfl <;> exact absurd h (by decide)

section Want

variable (cur : CurList)

/-- What is wanted has no blanks and stands for itself. -/
theorem want_plain : ∀ c ∈ want cur.line, blank c = false ∧ literal c = true := by
  intro c hc
  rw [want, List.mem_append, List.mem_append] at hc
  rcases hc with hc | hc | hc
  · exact LSM_plain c hc
  · exact (cur.plain c hc).2
  · exact plain_of_all (by decide) c hc

theorem inRun_of_plain {c : Char} (h : blank c = false ∧ literal c = true) : inRun c = true := by
  obtain ⟨hblank, hliteral⟩ := h
  simp only [blank, Bool.or_eq_false_iff, decide_eq_false_iff_not] at hblank
  simp [inRun, hblank.1, (not_quote_of_literal hliteral).1]

theorem value_inRun : ∀ c ∈ cur.line ++ ",bpf".toList, inRun c = true := fun c hc =>
  inRun_of_plain (want_plain cur c (List.mem_append_right LSM hc))

theorem not_alreadyActive : alreadyActive cur.line = false := by
  have hone : '\n' ∉ cur.line := fun h => absurd (cur.plain _ h).2.2 (by decide)
  rw [Bool.eq_false_iff, Ne, ActiveCheckLemmas.alreadyActive_iff hone]
  exact cur.no_bpf

theorem enableBpfLsm_eq (loc : Locale) (lines : List (List Char)) :
    enableBpfLsm loc cur.line lines = edit loc (want cur.line) lines := by
  rw [enableBpfLsm, not_alreadyActive, if_neg Bool.false_ne_true]

end Want

/-! ## Values -/

section Closing

variable {q : Quote}

/-- Text that neither ends the word nor is forbidden in it. -/
def Clean (q : Quote) (x : List Char) : Prop := ∀ c ∈ x, q.ends c = false ∧ literal c = true

theorem clean_of_plain {x : List Char} (h : ∀ c ∈ x, blank c = false ∧ literal c = true) :
    Clean q x := by
  intro c hc
  obtain ⟨hb, hl⟩ := h c hc
  obtain ⟨hdouble, hsingle⟩ := not_quote_of_literal hl
  cases q with
  | double => exact ⟨decide_eq_false hdouble, hl⟩
  | single => exact ⟨decide_eq_false hsingle, hl⟩
  | bare => exact ⟨hb, hl⟩

theorem Clean.not_ends {x : List Char} (h : Clean q x) : ∀ c ∈ x, (!q.ends c) = true := by
  intro c hc
  rw [(h c hc).1]
  rfl

theorem closing_append {x : List Char} (hx : Clean q x) (s : List Char) :
    closing q (x ++ s) = (closing q s).map fun r => (x ++ r.1, r.2) := by
  have hall : x.all literal = true := List.all_eq_true.mpr fun c hc => (hx c hc).2
  unfold closing
  rw [List.takeWhile_append_of_pos hx.not_ends, List.dropWhile_append_of_pos hx.not_ends,
    List.all_append, hall, Bool.true_and]
  cases q.tailOf (s.dropWhile fun c => !q.ends c) with
  | none => rfl
  | some tail =>
    dsimp only
    split <;> rfl

/-- A word that is read is clean, and what follows it ends it. -/
theorem closing_eq_some {s v t : List Char} (h : closing q s = some (v, t)) :
    Clean q v ∧ ∃ r, s = v ++ r ∧ q.tailOf r = some t ∧ isTail t = true ∧ Ended q.ends r := by
  unfold closing at h
  cases ht : q.tailOf (s.dropWhile fun c => !q.ends c) with
  | none => rw [ht] at h; cases h
  | some tail =>
    rw [ht] at h
    dsimp only at h
    split at h
    · next hok =>
      cases h
      rw [Bool.and_eq_true, List.all_eq_true] at hok
      refine ⟨fun c hc => ⟨takeWhile_clean s c hc, hok.1 c hc⟩, _,
        (List.takeWhile_append_dropWhile).symm, ht, hok.2,
        ended_dropWhile s⟩
    · cases h

/-- Whatever follows, a word ends at its end. -/
theorem closing_ended {x s v t : List Char} (hx : Clean q x) (hs : Ended q.ends s)
    (h : closing q (x ++ s) = some (v, t)) : v = x := by
  rw [closing_append hx, Option.map_eq_some_iff] at h
  obtain ⟨⟨v', t'⟩, hr, he⟩ := h
  cases he
  obtain ⟨hclean, r, rfl, -⟩ := closing_eq_some hr
  cases v' with
  | nil => exact List.append_nil x
  | cons c v' =>
    have hends : q.ends c = true := hs c rfl
    rw [(hclean c List.mem_cons_self).1] at hends
    cases hends

theorem opening_eq {s : List Char} (h : q = .bare → ∀ c ∈ s.head?, literal c = true) :
    opening (q.chars ++ s) = (q, s) := by
  cases q with
  | double => rfl
  | single => rfl
  | bare =>
    have hhead := h rfl
    have hdouble : s.head? ≠ some '"' := fun he => absurd (hhead '"' he) (by decide)
    have hsingle : s.head? ≠ some '\'' := fun he => absurd (hhead '\'' he) (by decide)
    rw [Quote.chars, List.nil_append, opening, if_neg hdouble, if_neg hsingle]

theorem valueOf_default {s : List Char} (h : q = .bare → ∀ c ∈ s.head?, literal c = true) :
    valueOf (DEFAULT ++ (q.chars ++ s)) = (closing q s).map Prod.fst := by
  rw [valueOf, if_pos (List.prefix_append _ _), List.drop_left, opening_eq h]

theorem valueOf_double (s : List Char) :
    valueOf (DEFAULT ++ (Quote.double.chars ++ s)) = (closing .double s).map Prod.fst :=
  valueOf_default fun h => Quote.noConfusion h

/-- Text that is clean, or ends at once, begins with no quote. -/
theorem head_literal {x s : List Char} (hx : Clean q x) (hs : Ended q.ends s ∨ x ≠ []) :
    q = .bare → ∀ c ∈ (x ++ s).head?, literal c = true := by
  rintro rfl c hc
  cases x with
  | nil =>
    have hblank : blank c = true := (hs.resolve_right (absurd rfl)) c hc
    simp only [blank, Bool.or_eq_true, decide_eq_true_eq] at hblank
    rcases hblank with rfl | rfl <;> decide
  | cons d x =>
    cases hc
    exact (hx c List.mem_cons_self).2

end Closing

/-! ## Parameters -/

section Params

variable (loc : Locale)

theorem boundary_of_blank {x : List Char} (hx : ∀ c ∈ x.getLast?, blank c = true) :
    boundary loc.word (lastOf none x) = true := by
  rw [lastOf, Option.or_none, boundary]
  cases hlast : x.getLast? with
  | none => rfl
  | some c =>
    have hblank := hx c hlast
    simp only [blank, Bool.or_eq_true, decide_eq_true_eq] at hblank
    rcases hblank with rfl | rfl
    · rw [Option.all_some, loc.space]
      rfl
    · rw [Option.all_some, loc.tab]
      rfl

/-- Where no `lsm=` stands behind a boundary, no parameter begins with it. -/
theorem lsmParams_eq_nil {s : List Char}
    (h : ∀ x y, s = x ++ y → y ≠ [] → boundary loc.word (lastOf none x) = true → ¬ LSM <+: y) :
    lsmParams s = [] := by
  rw [lsmParams, List.filter_eq_nil_iff]
  intro w hw hlsm
  obtain ⟨hne, x, y, hs, hx⟩ := mem_words hw
  have hstarts : LSM <+: w ++ y := (of_decide_eq_true hlsm).trans (List.prefix_append w y)
  exact h x (w ++ y) hs (List.append_ne_nil_of_left_ne_nil hne y) (boundary_of_blank loc hx) hstarts

variable {loc}

theorem lsmParams_of_none {s r : List Char} (h : find loc.word LSM none (s ++ r) = none) :
    lsmParams s = [] := by
  refine lsmParams_eq_nil loc fun x y hxy _ hb hstarts => ?_
  refine find_eq_none LSM_ne h x (y ++ r) ?_ hb (hstarts.trans (List.prefix_append y r))
  rw [hxy, List.append_assoc]

theorem lsmParams_of_first {s z : List Char} (h : First loc.word LSM none (s ++ z)) :
    lsmParams s = [] := by
  refine lsmParams_eq_nil loc fun x y hxy hy hb hstarts => ?_
  refine h.before x (y ++ z) (by rw [hxy, List.append_assoc])
    (List.append_ne_nil_of_left_ne_nil hy z) hb ?_
  rw [List.append_assoc]
  exact hstarts.trans (List.prefix_append y _)

/-- The parameters around an `lsm=`: `u` is what stands before it in its parameter. -/
theorem params_match {x u : List Char} (hx : ∀ c ∈ x.getLast?, blank c = true)
    (hu : ∀ c ∈ u, blank c = false) (rest : List Char) :
    params (x ++ u ++ (LSM ++ rest)) =
      params x ++ (u ++ (LSM ++ rest.takeWhile fun d => !blank d)) ::
        params (rest.dropWhile fun d => !blank d) := by
  have hclean : ∀ c ∈ u ++ (LSM ++ rest.takeWhile fun d => !blank d), blank c = false := by
    intro c hc
    rw [List.mem_append, List.mem_append] at hc
    rcases hc with hc | hc | hc
    · exact hu c hc
    · exact (LSM_plain c hc).1
    · exact takeWhile_clean rest c hc
  have hne : u ++ (LSM ++ rest.takeWhile fun d => !blank d) ≠ [] :=
    List.append_ne_nil_of_right_ne_nil u (List.append_ne_nil_of_left_ne_nil LSM_ne _)
  have hsplit : x ++ u ++ (LSM ++ rest) =
      x ++ ((u ++ (LSM ++ rest.takeWhile fun d => !blank d)) ++
        rest.dropWhile fun d => !blank d) := by
    simp only [List.append_assoc, List.takeWhile_append_dropWhile]
  rw [params, hsplit, words_append_of_ends hx, words_cons hclean hne (ended_dropWhile rest)]
  rfl

section Match

variable {x u : List Char} (hfirst : First loc.word LSM none (x ++ u))
  (hx : ∀ c ∈ x.getLast?, blank c = true)
  (hu : ∀ c ∈ u, blank c = false)
include hfirst hx

/-- The parameter with the first `lsm=` begins with it, or is not an `lsm=` parameter. -/
theorem isLsm_match (z : List Char) : isLsm (u ++ (LSM ++ z)) = decide (u = []) := by
  rw [isLsm, decide_eq_decide]
  constructor
  · intro hstarts
    refine Classical.byContradiction fun hne => ?_
    exact hfirst.before x u rfl hne (boundary_of_blank loc hx) ((prefix_append_iff u z).mp hstarts)
  · rintro rfl
    exact List.prefix_append LSM z

include hu

theorem lsmParams_match (rest : List Char) :
    lsmParams (x ++ u ++ (LSM ++ rest)) =
      (if u = [] then [LSM ++ rest.takeWhile fun d => !blank d] else []) ++
        lsmParams (rest.dropWhile fun d => !blank d) := by
  have hnone : (params x).filter isLsm = [] := lsmParams_of_first hfirst
  rw [lsmParams, params_match hx hu, List.filter_append, List.filter_cons, isLsm_match hfirst hx,
    hnone]
  rcases eq_or_ne u [] with rfl | hne
  · rfl
  · rw [decide_eq_false hne, if_neg hne]
    rfl

theorem otherParams_match (rest : List Char) :
    otherParams (x ++ u ++ (LSM ++ rest)) =
      otherParams x ++ ((if u = [] then [] else [u ++ (LSM ++ rest.takeWhile fun d => !blank d)]) ++
        otherParams (rest.dropWhile fun d => !blank d)) := by
  rw [otherParams, params_match hx hu, List.filter_append, List.filter_cons, isLsm_match hfirst hx]
  rcases eq_or_ne u [] with rfl | hne
  · rfl
  · rw [decide_eq_false hne, if_neg hne]
    rfl

end Match

theorem takeWhile_eq_nil_iff {c : List Char} :
    (c.takeWhile fun d => !blank d) = [] ↔ Ended blank c := by
  cases c with
  | nil => exact iff_of_true rfl fun d hd => nomatch hd
  | cons d c =>
    cases hd : blank d with
    | true =>
      refine iff_of_true (by rw [List.takeWhile_cons, hd]; rfl) fun e he => ?_
      cases he
      exact hd
    | false =>
      refine iff_of_false (by rw [List.takeWhile_cons, hd]; exact List.cons_ne_nil _ _) fun h => ?_
      have htrue := h d rfl
      rw [hd] at htrue
      cases htrue

theorem dropWhile_of_ended {c : List Char} (h : Ended blank c) :
    (c.dropWhile fun d => !blank d) = c := by
  conv_rhs => rw [← @List.takeWhile_append_dropWhile _ (fun d => !blank d) c,
    takeWhile_eq_nil_iff.mpr h]
  rfl

/-- The edited value has the right parameters. -/
theorem fits_iff {w w' t1 : List Char} (hfirst : First loc.word LSM none t1) (hw : w = LSM ++ w')
    (hplain : ∀ c ∈ w', blank c = false) (t2 c : List Char) :
    (lsmParams (t1 ++ (w ++ c)) = [w] ∧
      otherParams (t1 ++ (w ++ c)) = otherParams (t1 ++ (LSM ++ t2))) ↔
      Fits w t1 t2 c := by
  obtain ⟨x, u, rfl, hx, hu⟩ := exists_last_word blank t1
  have hnot : ∀ d ∈ w', (!blank d) = true := fun d hd => by rw [hplain d hd]; rfl
  have hnew : w ++ c = LSM ++ (w' ++ c) := by rw [hw, List.append_assoc]
  rw [hnew, lsmParams_match hfirst hx hu, otherParams_match hfirst hx hu,
    otherParams_match hfirst hx hu, List.takeWhile_append_of_pos hnot,
    List.dropWhile_append_of_pos hnot, ← List.append_assoc LSM, ← hw]
  rcases eq_or_ne u [] with rfl | hne
  · have hends : ∀ d ∈ (x ++ []).getLast?, blank d = true := by rwa [List.append_nil]
    simp only [if_true, List.nil_append, List.append_cancel_left_eq]
    constructor
    · rintro ⟨hlsm, hother⟩
      obtain ⟨hhead, htail⟩ := List.cons.inj hlsm
      have hended := takeWhile_eq_nil_iff.mp (List.append_right_eq_self.mp hhead)
      rw [dropWhile_of_ended hended] at htail hother
      exact .begins hends hended htail hother
    · intro h
      cases h with
      | begins _ hended hlsm hother =>
        rw [dropWhile_of_ended hended, takeWhile_eq_nil_iff.mpr hended, hlsm, List.append_nil,
          List.append_nil]
        exact ⟨rfl, hother⟩
      | inside hno _ _ _ => exact absurd hends hno
  · have hends : ¬ ∀ d ∈ (x ++ u).getLast?, blank d = true := by
      intro h
      obtain ⟨u', d, rfl⟩ := (List.eq_nil_or_concat u).resolve_left hne
      rw [List.concat_eq_append] at h hu
      have hblank := h d (by rw [← List.append_assoc, List.getLast?_concat]; rfl)
      rw [hu d (by simp)] at hblank
      cases hblank
    simp only [if_neg hne, List.nil_append, List.append_cancel_left_eq, List.singleton_append,
      List.cons.injEq]
    constructor
    · rintro ⟨hlsm, hhead, hother⟩
      exact .inside hends hhead hlsm hother
    · intro h
      cases h with
      | begins hb _ _ _ => exact absurd hb hends
      | inside _ hhead hlsm hother => exact ⟨hlsm, hhead, hother⟩

end Params

/-! ## Lines -/

section Lines

variable (loc : Locale)

/-- Behind `=` a word can begin, as at the beginning of a line. -/
theorem find_default (s : List Char) :
    find loc.word LSM none (DEFAULT ++ s) =
      (find loc.word LSM none s).map fun r => (DEFAULT ++ r.1, r.2) := by
  have hequals : boundary loc.word (some '=') = boundary loc.word none := congrArg (! ·) loc.equals
  rw [← find_prev hequals s]
  exact find_append (show 'l' ∉ DEFAULT by decide) s

/-- And so it can behind the opening quote. -/
theorem find_chars (q : Quote) (s : List Char) :
    find loc.word LSM none (q.chars ++ s) =
      (find loc.word LSM none s).map fun r => (q.chars ++ r.1, r.2) := by
  have hnot : 'l' ∉ q.chars := by cases q <;> decide
  have hquote : boundary loc.word (lastOf none q.chars) = boundary loc.word none := by
    cases q with
    | double => exact congrArg (! ·) loc.doubleQuote
    | single => exact congrArg (! ·) loc.singleQuote
    | bare => rfl
  rw [← find_prev hquote s]
  exact find_append hnot s

theorem grepDefault_default (s : List Char) :
    grepDefault loc (DEFAULT ++ s) = (find loc.word LSM none s).isSome := by
  have hequals : boundary loc.word (some '=') = boundary loc.word none := congrArg (! ·) loc.equals
  rw [grepDefault, decide_eq_true (List.prefix_append _ _), Bool.true_and, List.drop_left,
    find_prev hequals]

theorem sedReplace_default {s a b : List Char} (w : List Char)
    (h : find loc.word LSM none s = some (a, b)) :
    sedReplace loc w (DEFAULT ++ s) = DEFAULT ++ (a ++ (w ++ b.dropWhile inRun)) := by
  rw [sedReplace, replace, find_default, h]
  simp only [Option.map_some, List.append_assoc]

/-- The lines that the second expression matches. -/
theorem append_matches_iff {s : List Char} :
    (DEFAULT ++ ['"'] <+: DEFAULT ++ s ∧ DEFAULT.length + 2 ≤ (DEFAULT ++ s).length ∧
      (DEFAULT ++ s).getLast? = some '"') ↔ ∃ t, s = '"' :: (t ++ ['"']) := by
  rw [List.prefix_append_right_inj, List.length_append, Nat.add_le_add_iff_left]
  constructor
  · rintro ⟨⟨u, rfl⟩, hlen, hlast⟩
    obtain ⟨t, d, rfl⟩ := (List.eq_nil_or_concat u).resolve_left fun hu => by
      rw [hu] at hlen
      exact absurd hlen (by decide)
    rw [List.concat_eq_append, ← List.append_assoc, ← List.append_assoc,
      List.getLast?_concat] at hlast
    exact ⟨t, by rw [Option.some.inj hlast, List.concat_eq_append]; rfl⟩
  · rintro ⟨t, rfl⟩
    refine ⟨⟨t ++ ['"'], rfl⟩, ?_, ?_⟩
    · rw [List.length_cons, List.length_append]
      exact Nat.succ_le_succ (Nat.le_add_left _ _)
    · rw [← List.cons_append, ← List.append_assoc, List.getLast?_concat]

theorem sedAppend_quoted (w t : List Char) :
    sedAppend w (DEFAULT ++ '"' :: (t ++ ['"'])) =
      DEFAULT ++ '"' :: (t ++ ' ' :: (w ++ ['"'])) := by
  rw [sedAppend, if_pos (append_matches_iff.mpr ⟨t, rfl⟩), ← List.cons_append, ← List.append_assoc,
    List.dropLast_concat]
  simp

theorem sedAppend_of_not {w s : List Char} (h : ¬ ∃ t, s = '"' :: (t ++ ['"'])) :
    sedAppend w (DEFAULT ++ s) = DEFAULT ++ s :=
  if_neg fun hm => h (append_matches_iff.mp hm)

theorem sedAppend_other {w l : List Char} (h : ¬ DEFAULT <+: l) : sedAppend w l = l :=
  if_neg fun hl => h ((List.prefix_append DEFAULT _).trans hl.1)

theorem sedReplace_eq_self_iff {w l : List Char} : sedReplace loc w l = l ↔ Untouched loc w l :=
  replace_eq_self_iff

/-- The branch is chosen by the default line. -/
theorem any_grepDefault {before behind : List (List Char)}
    (h : ∀ l ∈ before ++ behind, ¬ DEFAULT <+: l) (s : List Char) :
    (before ++ (DEFAULT ++ s) :: behind).any (grepDefault loc) =
      (find loc.word LSM none s).isSome := by
  have hother : ∀ ls : List (List Char), (∀ l ∈ ls, ¬ DEFAULT <+: l) →
      ls.any (grepDefault loc) = false := by
    intro ls hls
    rw [List.any_eq_false]
    intro l hl
    rw [grepDefault, decide_eq_false (hls l hl), Bool.false_and]
    exact Bool.false_ne_true
  rw [List.any_append, List.any_cons, grepDefault_default,
    hother before fun l hl => h l (List.mem_append_left _ hl),
    hother behind fun l hl => h l (List.mem_append_right _ hl), Bool.false_or, Bool.or_false]

theorem map_eq_self_iff {g : List Char → List Char} {ls : List (List Char)} :
    ls.map g = ls ↔ ∀ l ∈ ls, g l = l := by
  conv_lhs => rhs; rw [← List.map_id ls]
  exact List.map_inj_left

theorem editedRight_iff {w v : List Char} {f : GrubFile} {before behind : List (List Char)}
    {line : List Char} (hlen : before.length = f.before.length) (hv : valueOf f.line = some v) :
    EditedRight w f (before ++ line :: behind) ↔ (before = f.before ∧ behind = f.behind) ∧
      ∃ v', valueOf line = some v' ∧ lsmParams v' = [w] ∧ otherParams v' = otherParams v := by
  constructor
  · rintro ⟨line', heq, u, v', hu, hread⟩
    obtain ⟨hbefore, hrest⟩ := List.append_inj heq hlen
    obtain ⟨rfl, hbehind⟩ := List.cons.inj hrest
    obtain rfl : v = u := Option.some.inj (hv.symm.trans hu)
    exact ⟨⟨hbefore, hbehind⟩, v', hread⟩
  · rintro ⟨⟨rfl, rfl⟩, v', hread⟩
    exact ⟨line, rfl, v, v', hv, hread⟩

end Lines

/-! ## Words -/

section Words

variable (w : Word)

theorem valueOf_word : valueOf (DEFAULT ++ w.text) = some w.value := by
  obtain ⟨hclean, r, hbody, -, -, hended⟩ := closing_eq_some w.reads
  have hhead := head_literal hclean (Or.inl hended)
  rw [← hbody] at hhead
  rw [Word.text, valueOf_default hhead, w.reads]
  rfl

theorem exists_word {s v : List Char} (h : valueOf (DEFAULT ++ s) = some v) :
    ∃ w : Word, w.text = s := by
  have hopening : (opening s).1.chars ++ (opening s).2 = s := by
    unfold opening
    split
    · next hs => exact List.cons_head?_tail hs
    · split
      · next hs => exact List.cons_head?_tail hs
      · rfl
  rw [valueOf, if_pos (List.prefix_append _ _), List.drop_left, Option.map_eq_some_iff] at h
  obtain ⟨⟨v', tail⟩, hreads, -⟩ := h
  exact ⟨⟨_, _, v', tail, hreads⟩, hopening⟩

/-- The word, its closing quote and its tail. -/
theorem body_of_double (h : w.quote = .double) : w.body = w.value ++ '"' :: w.tail := by
  obtain ⟨-, r, hbody, htail, -, hended⟩ := closing_eq_some w.reads
  rw [h] at htail hended
  cases r with
  | nil => cases htail
  | cons d r =>
    have hd : d = '"' := of_decide_eq_true (hended d rfl)
    rw [hbody, hd, Option.some.inj htail]

theorem text_of_double (h : w.quote = .double) : w.text = '"' :: (w.value ++ '"' :: w.tail) := by
  rw [Word.text, body_of_double w h, h]
  rfl

theorem quote_of_text {s : List Char} (h : w.text = '"' :: s) : w.quote = .double := by
  obtain ⟨hclean, r, hbody, -, -, hended⟩ := closing_eq_some w.reads
  have hhead := head_literal hclean (Or.inl hended)
  rw [← hbody] at hhead
  rw [Word.text] at h
  cases hq : w.quote with
  | double => rfl
  | single =>
    rw [hq] at h
    exact absurd (List.cons.inj h).1 (by decide)
  | bare =>
    rw [hq] at h
    exact absurd (hhead hq '"' (List.head?_eq_some_iff.mpr ⟨s, h⟩)) (by decide)

end Words

/-! ## The default line, appended to -/

section Append

variable (cur : CurList) (w : Word)

/-- The line that is appended to reads the new parameter behind the others. -/
theorem appended_right (hquote : w.quote = .double) (htail : w.tail = [])
    (hnone : lsmParams w.value = []) :
    ∃ v, valueOf (sedAppend (want cur.line) (DEFAULT ++ w.text)) = some v ∧
      lsmParams v = [want cur.line] ∧
      otherParams v = otherParams w.value := by
  have hwant : words blank (want cur.line) = [want cur.line] :=
    words_of_clean (fun c hc => (want_plain cur c hc).1)
      (List.append_ne_nil_of_left_ne_nil LSM_ne _)
  have hparams : params (w.value ++ ' ' :: want cur.line) = params w.value ++ [want cur.line] := by
    rw [params, words_append_sep (by decide), hwant]
    rfl
  have hlsm : isLsm (want cur.line) = true := decide_eq_true (List.prefix_append LSM _)
  refine ⟨w.value ++ ' ' :: want cur.line, ?_, ?_, ?_⟩
  · have hclean : Clean .double (w.value ++ ' ' :: want cur.line) := by
      obtain ⟨hvalue, -⟩ := closing_eq_some w.reads
      rw [hquote] at hvalue
      intro c hc
      rw [List.mem_append, List.mem_cons] at hc
      rcases hc with hc | rfl | hc
      · exact hvalue c hc
      · decide
      · exact clean_of_plain (want_plain cur) c hc
    have hclose : closing .double ['"'] = some ([], []) := by decide
    have hline : sedAppend (want cur.line) (DEFAULT ++ w.text) =
        DEFAULT ++ (Quote.double.chars ++ ((w.value ++ ' ' :: want cur.line) ++ ['"'])) := by
      rw [text_of_double w hquote, htail, sedAppend_quoted]
      simp [Quote.chars]
    rw [hline, valueOf_double, closing_append hclean, hclose]
    simp
  · rw [lsmParams, hparams, List.filter_append, show (params w.value).filter isLsm = [] from hnone,
      List.filter_singleton, hlsm]
    rfl
  · rw [otherParams, hparams, List.filter_append, List.filter_singleton, hlsm]
    exact List.append_nil _

/-- Any other line reads as before, if it can be read. -/
theorem appended_wrong {x v : List Char} (hnot : ¬ (w.quote = .double ∧ w.tail = []))
    (h : valueOf (sedAppend x (DEFAULT ++ w.text)) = some v) : v = w.value := by
  rcases Classical.em (∃ t, w.text = '"' :: (t ++ ['"'])) with ⟨t, ht⟩ | hplain
  · -- The quote that ends the line is not the one that ends the word.
    have hquote : w.quote = .double := quote_of_text w ht
    obtain ⟨init, last, hconcat⟩ := (List.eq_nil_or_concat w.tail).resolve_left fun htail =>
      hnot ⟨hquote, htail⟩
    obtain rfl : t = w.value ++ '"' :: init := by
      have hsplit : (w.value ++ '"' :: init) ++ [last] = t ++ ['"'] := by
        rw [text_of_double w hquote, hconcat, List.concat_eq_append] at ht
        rw [List.append_assoc]
        exact (List.cons.inj ht).2
      exact (List.append_inj' hsplit rfl).1.symm
    have hline : sedAppend x (DEFAULT ++ w.text) =
        DEFAULT ++ (Quote.double.chars ++ (w.value ++ '"' :: (init ++ ' ' :: (x ++ ['"'])))) := by
      rw [ht, sedAppend_quoted]
      simp [Quote.chars]
    rw [hline, valueOf_double, Option.map_eq_some_iff] at h
    obtain ⟨⟨v', tail⟩, hclosing, rfl⟩ := h
    obtain ⟨hclean, -⟩ := closing_eq_some w.reads
    rw [hquote] at hclean
    refine closing_ended hclean (fun c hc => ?_) hclosing
    cases hc
    rfl
  · rw [sedAppend_of_not hplain, valueOf_word] at h
    exact (Option.some.inj h).symm

end Append

/-! ## The default line, with its first `lsm=` replaced -/

section Replaced

variable {loc : Locale} (cur : CurList) (w : Word) {t1 b : List Char}
  (hfind : find loc.word LSM none w.body = some (t1, b))
include hfind

/-- The first `lsm=` is in the value. -/
theorem value_split (hlt : t1.length < w.value.length) :
    Clean w.quote t1 ∧ ∃ t2, w.value = t1 ++ (LSM ++ t2) := by
  obtain ⟨hclean, r, hbody, -⟩ := closing_eq_some w.reads
  have hsplit := (find_eq_some hfind).1
  have hstarts : t1 <+: w.value := by
    refine List.prefix_of_prefix_length_le ⟨LSM ++ b, hsplit.symm⟩ ⟨r, hbody.symm⟩
      (Nat.le_of_lt hlt)
  have hfront : Clean w.quote t1 := fun c hc => hclean c (hstarts.subset hc)
  have hkey : Clean w.quote (t1 ++ LSM) := by
    intro c hc
    rcases List.mem_append.mp hc with hc | hc
    · exact hfront c hc
    · exact clean_of_plain LSM_plain c hc
  have hreads := w.reads
  rw [hsplit, ← List.append_assoc, closing_append hkey, Option.map_eq_some_iff] at hreads
  obtain ⟨⟨t2, tail⟩, -, he⟩ := hreads
  exact ⟨hfront, t2, by rw [← (Prod.mk.inj he).1, List.append_assoc]⟩

/-- It is behind the value: the line reads as before, if it can be read. -/
theorem replaced_tail (hge : ¬ t1.length < w.value.length) {s v : List Char}
    (h : valueOf (DEFAULT ++ (w.quote.chars ++ (t1 ++ s))) = some v) :
    v = w.value ∧ lsmParams w.value = [] := by
  obtain ⟨hclean, r, hbody, -, -, hended⟩ := closing_eq_some w.reads
  obtain ⟨hsplit, hfirst⟩ := find_eq_some hfind
  obtain ⟨z, rfl⟩ : w.value <+: t1 := by
    refine List.prefix_of_prefix_length_le ⟨r, hbody.symm⟩ ⟨LSM ++ b, hsplit.symm⟩
      (Nat.not_lt.mp hge)
  have hr : r = z ++ (LSM ++ b) := by
    rw [hbody, List.append_assoc] at hsplit
    exact List.append_cancel_left hsplit
  -- The value ends with a character that is not the first one of `lsm=`.
  have hz : Ended w.quote.ends (z ++ s) := by
    rw [hr] at hended
    cases z with
    | nil =>
      have hl : w.quote.ends 'l' = true := hended 'l' rfl
      rw [(clean_of_plain LSM_plain 'l' (by decide)).1] at hl
      cases hl
    | cons d z =>
      intro c hc
      exact hended c hc
  rw [List.append_assoc, valueOf_default (head_literal hclean (Or.inl hz)),
    Option.map_eq_some_iff] at h
  obtain ⟨⟨v', t⟩, hclosing, rfl⟩ := h
  exact ⟨closing_ended hclean hz hclosing, lsmParams_of_first hfirst⟩

theorem replaced_iff (post : List Char) :
    (∃ v, valueOf (DEFAULT ++ (w.quote.chars ++ (t1 ++ (want cur.line ++ post)))) = some v ∧
      lsmParams v = [want cur.line] ∧ otherParams v = otherParams w.value) ↔
    t1.length < w.value.length ∧ ∃ c tail, closing w.quote post = some (c, tail) ∧
      Fits (want cur.line) t1 (w.value.drop (t1.length + LSM.length)) c := by
  rcases Classical.em (t1.length < w.value.length) with hlt | hge
  · rw [and_iff_right hlt]
    obtain ⟨hfront, t2, hvalue⟩ := value_split w hfind hlt
    have hclean : Clean w.quote (t1 ++ want cur.line) := by
      intro c hc
      rcases List.mem_append.mp hc with hc | hc
      · exact hfront c hc
      · exact clean_of_plain (want_plain cur) c hc
    have hne : t1 ++ want cur.line ≠ [] :=
      List.append_ne_nil_of_right_ne_nil t1 (List.append_ne_nil_of_left_ne_nil LSM_ne _)
    have hdrop : w.value.drop (t1.length + LSM.length) = t2 := by
      rw [hvalue, ← List.append_assoc, ← List.length_append, List.drop_left]
    have hplain : ∀ c ∈ cur.line ++ ",bpf".toList, blank c = false := fun c hc =>
      (want_plain cur c (List.mem_append_right LSM hc)).1
    have hfits := fits_iff (find_eq_some hfind).2 (show want cur.line = LSM ++ _ from rfl) hplain t2
    rw [hdrop, hvalue, ← List.append_assoc t1, valueOf_default (head_literal hclean (Or.inr hne)),
      closing_append hclean]
    constructor
    · rintro ⟨v, hv, hlsm, hother⟩
      rw [Option.map_map, Option.map_eq_some_iff] at hv
      obtain ⟨⟨c, tail⟩, hclosing, rfl⟩ := hv
      refine ⟨c, tail, hclosing, (hfits c).mp ?_⟩
      rw [← List.append_assoc]
      exact ⟨hlsm, hother⟩
    · rintro ⟨c, tail, hclosing, hfit⟩
      refine ⟨t1 ++ want cur.line ++ c, by rw [hclosing]; rfl, ?_⟩
      rw [List.append_assoc]
      exact (hfits c).mpr hfit
  · refine iff_of_false ?_ fun h => hge h.1
    rintro ⟨v, hv, hlsm, -⟩
    obtain ⟨rfl, hnone⟩ := replaced_tail w hfind hge hv
    rw [hnone] at hlsm
    cases hlsm

end Replaced

/-! ## Both runs -/

section Runs

variable (loc : Locale) (cur : CurList) (f : GrubFile)

theorem others_untouched_iff {x : List Char} :
    (f.before.map (sedReplace loc x) = f.before ∧ f.behind.map (sedReplace loc x) = f.behind) ↔
      ∀ l ∈ f.before ++ f.behind, Untouched loc x l := by
  simp only [map_eq_self_iff, sedReplace_eq_self_iff, List.forall_mem_append]

/-- A second replacement finds what the first one wrote, on every line. -/
theorem sedReplace_twice (l : List Char) :
    sedReplace loc (want cur.line) (sedReplace loc (want cur.line) l) =
      sedReplace loc (want cur.line) l :=
  replace_replace LSM_ne rfl (value_inRun cur) l

theorem edit_of_some {x t1 b : List Char} (h : find loc.word LSM none f.text = some (t1, b)) :
    edit loc x f.lines = f.before.map (sedReplace loc x) ++
      (DEFAULT ++ (t1 ++ (x ++ b.dropWhile inRun))) :: f.behind.map (sedReplace loc x) := by
  have hany := any_grepDefault loc f.one_default f.text
  rw [h, Option.isSome_some] at hany
  rw [edit, GrubFile.lines, GrubFile.line, hany, if_pos rfl, List.map_append, List.map_cons,
    sedReplace_default loc x h]

theorem edit_of_none {x : List Char} (h : find loc.word LSM none f.text = none) :
    edit loc x f.lines = f.before ++ sedAppend x f.line :: f.behind := by
  have hany := any_grepDefault loc f.one_default f.text
  have hsame : ∀ ls : List (List Char), (∀ l ∈ ls, ¬ DEFAULT <+: l) →
      ls.map (sedAppend x) = ls := fun ls hls =>
    map_eq_self_iff.mpr fun l hl => sedAppend_other (hls l hl)
  rw [h, Option.isSome_none] at hany
  rw [edit, GrubFile.lines, GrubFile.line, hany, if_neg Bool.false_ne_true, List.map_append,
    List.map_cons, hsame f.before fun l hl => f.one_default l (List.mem_append_left _ hl),
    hsame f.behind fun l hl => f.one_default l (List.mem_append_right _ hl)]

/-- Where something was replaced, the second run replaces again. -/
theorem edit_twice_of_some {t1 b : List Char} (h : find loc.word LSM none f.text = some (t1, b)) :
    edit loc (want cur.line) (edit loc (want cur.line) f.lines) =
      edit loc (want cur.line) f.lines := by
  have hmap : edit loc (want cur.line) f.lines = f.lines.map (sedReplace loc (want cur.line)) := by
    have hany := any_grepDefault loc f.one_default f.text
    rw [h, Option.isSome_some] at hany
    rw [edit, GrubFile.lines, GrubFile.line, hany, if_pos rfl]
  have hfound : (edit loc (want cur.line) f.lines).any (grepDefault loc) = true := by
    rw [edit_of_some loc f h, List.any_append, List.any_cons, grepDefault_default,
      ← List.append_assoc, find_replaced LSM_ne (show want cur.line = LSM ++ _ from rfl) h]
    simp
  conv_lhs => rw [edit, hfound, if_pos rfl, hmap, List.map_map]
  rw [hmap]
  exact List.map_congr_left fun l _ => sedReplace_twice loc cur l

/-- The appended parameter is the first `lsm=` of its line. -/
theorem find_appended {t : List Char} (h : find loc.word LSM none ('"' :: (t ++ ['"'])) = none)
    (rest : List Char) :
    find loc.word LSM none ('"' :: (t ++ ' ' :: (LSM ++ rest))) =
      some ('"' :: (t ++ [' ']), rest) := by
  have hfirst : First loc.word LSM none ('"' :: t ++ [' ']) := by
    refine ⟨boundary_of_blank loc fun c hc => ?_, fun x y hxy hy hb hstarts => ?_⟩
    · rw [List.getLast?_concat, Option.mem_some_iff] at hc
      rw [← hc]
      rfl
    · obtain ⟨y', d, rfl⟩ := (List.eq_nil_or_concat y).resolve_left hy
      rw [List.concat_eq_append, ← List.append_assoc] at hxy
      obtain ⟨htext, hd⟩ := List.append_inj' hxy rfl
      cases hd
      rw [List.concat_eq_append, List.append_assoc, List.singleton_append] at hstarts
      have hshort := prefix_of_not_mem (show ' ' ∉ LSM by decide) hstarts
      refine find_eq_none LSM_ne h x (y' ++ ['"']) ?_ hb (hshort.trans (List.prefix_append _ _))
      rw [← List.append_assoc, ← htext]
      rfl
  have hfind := find_of_first LSM_ne rest hfirst
  rw [List.append_assoc] at hfind
  exact hfind

/-- Behind an appended parameter the second run replaces, and must find nothing to do. -/
theorem edit_twice_of_quoted {t : List Char} (ht : f.text = '"' :: (t ++ ['"']))
    (h : find loc.word LSM none f.text = none) :
    edit loc (want cur.line) (edit loc (want cur.line) f.lines) = edit loc (want cur.line) f.lines ↔
      ∀ l ∈ f.before ++ f.behind, Untouched loc (want cur.line) l := by
  have hline : sedAppend (want cur.line) f.line =
      DEFAULT ++ '"' :: (t ++ ' ' :: (LSM ++ ((cur.line ++ ",bpf".toList) ++ ['"']))) := by
    rw [GrubFile.line, ht, sedAppend_quoted, want, List.append_assoc LSM]
  have hfind := find_appended loc (ht ▸ h) ((cur.line ++ ",bpf".toList) ++ ['"'])
  have hsame : sedReplace loc (want cur.line) (sedAppend (want cur.line) f.line) =
      sedAppend (want cur.line) f.line := by
    rw [hline, sedReplace_default loc (want cur.line) hfind,
      List.dropWhile_append_of_pos (value_inRun cur), want]
    simp [inRun]
  have hany := any_grepDefault loc f.one_default
    ('"' :: (t ++ ' ' :: (LSM ++ ((cur.line ++ ",bpf".toList) ++ ['"']))))
  rw [hfind, ← hline, Option.isSome_some] at hany
  rw [edit_of_none loc f h, edit, hany, if_pos rfl, List.map_append, List.map_cons, hsame,
    ← others_untouched_iff]
  constructor
  · intro heq
    obtain ⟨hbefore, hrest⟩ := List.append_inj heq (List.length_map _)
    exact ⟨hbefore, (List.cons.inj hrest).2⟩
  · rintro ⟨hbefore, hbehind⟩
    rw [hbefore, hbehind]

/-- A file whose default line assigns a word. -/
theorem word_holds_iff {w : Word} (hw : w.text = f.text) :
    (EditedRight (want cur.line) f (edit loc (want cur.line) f.lines) ∧
      edit loc (want cur.line) (edit loc (want cur.line) f.lines) =
        edit loc (want cur.line) f.lines) ↔
    (∀ l ∈ f.before ++ f.behind, Untouched loc (want cur.line) l) ∧
      WordFits loc (want cur.line) w := by
  have hvalue : valueOf f.line = some w.value := by rw [GrubFile.line, ← hw, valueOf_word]
  have hchars := find_chars loc w.quote w.body
  rw [show w.quote.chars ++ w.body = f.text from hw] at hchars
  rw [WordFits]
  cases hfind : find loc.word LSM none w.body with
  | some r =>
    obtain ⟨t1, b⟩ := r
    rw [hfind, Option.map_some] at hchars
    rw [and_iff_left (edit_twice_of_some loc cur f hchars), edit_of_some loc f hchars,
      editedRight_iff (List.length_map _) hvalue, others_untouched_iff, List.append_assoc,
      replaced_iff cur w hfind]
  | none =>
    rw [hfind, Option.map_none] at hchars
    obtain ⟨-, r, hbody, -⟩ := closing_eq_some w.reads
    have hnone : lsmParams w.value = [] := lsmParams_of_none (hbody ▸ hfind)
    rw [edit_of_none loc f hchars, editedRight_iff rfl hvalue, GrubFile.line, ← hw]
    rcases Classical.em (w.quote = .double ∧ w.tail = []) with hok | hnot
    · obtain ⟨hquote, htail⟩ := hok
      have htext := text_of_double w hquote
      rw [hw, htail] at htext
      have htwice := edit_twice_of_quoted loc cur f htext hchars
      rw [edit_of_none loc f hchars, GrubFile.line, ← hw] at htwice
      rw [and_iff_right ⟨⟨rfl, rfl⟩, appended_right cur w hquote htail hnone⟩, htwice]
      exact (and_iff_left ⟨hquote, htail⟩).symm
    · refine iff_of_false (fun h => ?_) fun h => hnot h.2
      obtain ⟨⟨-, v, hv, hlsm, -⟩, -⟩ := h
      rw [appended_wrong w hnot hv, hnone] at hlsm
      cases hlsm

end Runs

end GrubLemmas

open GrubLemmas

/-! ## 1. The edit -/

/-- The locale of C: letters, digits and the underscore. -/
def cLocale : Locale where
  word c := c.isAlphanum || c = '_'
  letter c h := by simp [Char.isAlphanum, h]
  space := rfl
  tab := rfl
  doubleQuote := rfl
  singleQuote := rfl
  equals := rfl

theorem exCur_plain :
    ∀ c ∈ "lockdown,yama".toList, c ≠ '/' ∧ blank c = false ∧ literal c = true := by
  intro c hc
  refine ⟨?_, plain_of_all (by decide) c hc⟩
  rintro rfl
  exact absurd hc (by decide)

def exCur : CurList := ⟨"lockdown,yama".toList, exCur_plain, by decide +kernel⟩

/-- A usual file. -/
example :
    enableBpfLsm cLocale exCur.line
      ["GRUB_TIMEOUT=5".toList, "GRUB_CMDLINE_LINUX_DEFAULT=\"quiet splash\"".toList] =
      ["GRUB_TIMEOUT=5".toList,
        "GRUB_CMDLINE_LINUX_DEFAULT=\"quiet splash lsm=lockdown,yama,bpf\"".toList] := by
  decide +kernel

/-- Both command lines have the parameter: that of every boot and that of the default one. -/
def exBoth : GrubFile where
  before := ["GRUB_CMDLINE_LINUX=\"lsm=lockdown\"".toList]
  text := "\"quiet lsm=lockdown\"".toList
  behind := []
  one_default := by decide +kernel

/-- A command line in single quotes. -/
def exSingle : GrubFile where
  before := []
  text := "'quiet splash'".toList
  behind := []
  one_default := by decide +kernel

end Ebpf101.Lsm
