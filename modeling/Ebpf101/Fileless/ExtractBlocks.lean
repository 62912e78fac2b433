import Mathlib.Data.List.Nodup
import Ebpf101.Lib.Keyword
import Ebpf101.Lib.Numeral
import Ebpf101.Lib.Scan

/-!
# The code of the lab, out of its document

Chapter 25, `25-fileless-lab/extract-blocks.py`: the code blocks of an HTML document, without
their markup. The script reads the document with any line ends, cuts out what stands between
`<pre …>` and `</pre>`, turns `<br>` into a newline, drops the tags and undoes the escapes, each
with one call of a library that knows nothing of HTML.

Results:
1. `blocks_round_trip`: for every document of the kind that highlighters write, with inline tags
   and `<br>` in its blocks, `<` and `&` escaped, by name or by number, and any line ends, each
   block is written as its code, to a file of its own.
   `bare_less_than_lost`, `closed_break_lost`: a `<` that is not escaped takes the text behind it
   along, and a `<br/>` is no newline.
-/

namespace Ebpf101.Fileless

open Scan

/-! ## The patterns -/

def PRE : List Char := ['<', 'p', 'r', 'e']

def PRE_END : List Char := ['<', '/', 'p', 'r', 'e', '>']

def BR : List Char := ['<', 'b', 'r', '>']

/-- `<pre[^>]*>(.*?)</pre>`, with `re.S`. -/
def preRule : Rule Char (List Char) where
  fire s :=
    if PRE <+: s then
      match (s.drop 4).dropWhile (· ≠ '>') with
      | _ :: rest => upTo (PRE_END) rest
      | [] => none
    else none
  takes s b rest h := by
    split at h
    next hp =>
      split at h
      next c r hd =>
        have hlt := upTo_length (by decide) h
        have hsuffix : (c :: r).length ≤ (s.drop 4).length :=
          hd ▸ (List.dropWhile_suffix _).length_le
        rw [List.length_drop, List.length_cons] at hsuffix
        omega
      next => cases h
    next => cases h

/-- `block.replace("<br>", "\n")`. -/
def brRule : Rule Char (List Char) where
  fire s := if BR <+: s then some (['\n'], s.drop 4) else none
  takes s b rest h := by
    split at h
    next hp =>
      cases h
      have hle : 4 ≤ s.length := hp.length_le
      rw [List.length_drop]
      omega
    next => cases h

/-- `<[^>]+>`, replaced by nothing. -/
def tagRule : Rule Char (List Char) where
  fire
    | '<' :: cs =>
      match cs.dropWhile (· ≠ '>') with
      | _ :: rest => if cs.takeWhile (· ≠ '>') = [] then none else some ([], rest)
      | [] => none
    | _ => none
  takes s b rest h := by
    split at h
    next cs =>
      split at h
      next c r hd =>
        split at h
        · cases h
        · cases h
          have hsuffix : (c :: rest).length ≤ cs.length :=
            hd ▸ (List.dropWhile_suffix _).length_le
          rw [List.length_cons] at hsuffix ⊢
          omega
      next => cases h
    next => cases h

/-! ## html.unescape -/

/-- The tables of Python's `html` module. -/
structure Tables where
  html5 : List Char → Option (List Char)
  invalidCharrefs : Nat → Option (List Char)
  invalidCodepoints : Nat → Bool

/-- What a character reference names. -/
inductive Charref where
  | number (n : Nat)
  | name (s : List Char)

/-- `[^\t\n\f <&#;]`. -/
def isName (c : Char) : Bool := ! (['\t', '\n', '\x0c', ' ', '<', '&', '#', ';'].contains c)

/-- `;?`. -/
def semicolon : List Char → List Char × List Char
  | ';' :: rest => ([';'], rest)
  | s => ([], s)

/-- `[0-9]+;?` and `[0-9a-fA-F]+;?`. -/
def numberRef (base : Nat) (cs : List Char) : Option (Charref × List Char) :=
  if cs.takeWhile (Numeral.isDigit base) = [] then none
  else some (.number (Numeral.value base (cs.takeWhile (Numeral.isDigit base))),
    (semicolon (cs.dropWhile (Numeral.isDigit base))).2)

/-- A name that the reference begins with, of at most 32 characters. -/
def nameOf (cs : List Char) : List Char := (cs.takeWhile isName).take 32

/-- `_charref`, behind the ampersand. -/
def charref : List Char → Option (Charref × List Char)
  | '#' :: x :: cs => if x = 'x' ∨ x = 'X' then numberRef 16 cs else numberRef 10 (x :: cs)
  | cs =>
    if nameOf cs = [] then none
    else some (.name (nameOf cs ++ (semicolon (cs.drop (nameOf cs).length)).1),
      (semicolon (cs.drop (nameOf cs).length)).2)

/-- The longest name in the table that `s` begins with, of at most `x` characters. -/
def longest (T : Tables) (s : List Char) : Nat → List Char
  | 0 | 1 => '&' :: s
  | x + 2 =>
    match T.html5 (s.take (x + 2)) with
    | some t => t ++ s.drop (x + 2)
    | none => longest T s (x + 1)

/-- `_replace_charref`. -/
def replaceCharref (T : Tables) : Charref → List Char
  | .number n =>
    match T.invalidCharrefs n with
    | some t => t
    | none =>
      if 0xD800 ≤ n ∧ n ≤ 0xDFFF ∨ 0x10FFFF < n then ['�']
      else if T.invalidCodepoints n then [] else [Char.ofNat n]
  | .name s =>
    match T.html5 s with
    | some t => t
    | none => longest T s (s.length - 1)

theorem semicolon_length (s : List Char) : (semicolon s).2.length ≤ s.length := by
  unfold semicolon
  split
  · exact Nat.le_succ _
  · exact Nat.le_refl _

theorem numberRef_length {base : Nat} {s rest : List Char} {c : Charref}
    (h : numberRef base s = some (c, rest)) : rest.length ≤ s.length := by
  unfold numberRef at h
  split at h
  · cases h
  · cases h
    exact Nat.le_trans (semicolon_length _) (List.dropWhile_suffix _).length_le

theorem charref_length {s rest : List Char} {c : Charref} (h : charref s = some (c, rest)) :
    rest.length ≤ s.length := by
  unfold charref at h
  split at h
  next x cs =>
    split at h
    · exact Nat.le_trans (numberRef_length h) (Nat.le_add_right _ 2)
    · exact Nat.le_trans (numberRef_length h) (Nat.le_succ _)
  next =>
    split at h
    · cases h
    · cases h
      refine Nat.le_trans (semicolon_length _) ?_
      rw [List.length_drop]
      exact Nat.sub_le _ _

def charrefRule (T : Tables) : Rule Char (List Char) where
  fire
    | '&' :: cs => (charref cs).map fun r => (replaceCharref T r.1, r.2)
    | _ => none
  takes s b rest h := by
    split at h
    next cs =>
      obtain ⟨⟨c, rest'⟩, hc, hr⟩ := Option.map_eq_some_iff.mp h
      cases hr
      exact Nat.lt_succ_of_le (charref_length hc)
    next => cases h

/-! ## main -/

/-- The line ends that `read_text` returns. -/
def universalNewlines : List Char → List Char
  | [] => []
  | '\r' :: '\n' :: s => '\n' :: universalNewlines s
  | '\r' :: s => '\n' :: universalNewlines s
  | c :: s => c :: universalNewlines s

/-- The code of a block. -/
def codeOf (T : Tables) (block : List Char) : List Char :=
  subst (charrefRule T) (subst tagRule (subst brRule block))

/-- `block_{i:02d}.txt`. -/
def blockName (i : Nat) : List Char :=
  "block_".toList ++ (if i < 10 then '0' :: Nat.toDigits 10 i else Nat.toDigits 10 i) ++
    ".txt".toList

/-- The files that are written for a document, from its characters on. -/
def extractBlocks (T : Tables) (file : List Char) : List (List Char × List Char) :=
  (findAll preRule (universalNewlines file)).zipIdx.map fun x => (blockName x.2, codeOf T x.1)

/-! ## Documents -/

/-- How a reference writes a number. -/
inductive Radix where
  | decimal
  | hex
  | hexUpper
deriving DecidableEq

def Radix.mark : Radix → List Char
  | .decimal => []
  | .hex => ['x']
  | .hexUpper => ['X']

def Radix.base : Radix → Nat
  | .decimal => 10
  | _ => 16

/-- The numbers of characters that are no controls, except for tab and newline. -/
def IsPlain (n : Nat) : Prop :=
  n = 9 ∨ n = 10 ∨ 0x20 ≤ n ∧ n ≤ 0x7E ∨ 0xA0 ≤ n ∧ n ≤ 0xD7FF

/-- A reference by number. Python does not convert longer numbers. -/
structure Number where
  radix : Radix
  digits : List Char
  hne : digits ≠ []
  hdigits : ∀ c ∈ digits, Numeral.isDigit radix.base c = true
  hlen : digits.length ≤ 4300
  hplain : IsPlain (Numeral.value radix.base digits)

/-- An escape that an HTML writer uses. -/
inductive Escape where
  | lt
  | gt
  | amp
  | quot
  | apos
  | number (n : Number)

def Escape.char : Escape → Char
  | .lt => '<'
  | .gt => '>'
  | .amp => '&'
  | .quot => '"'
  | .apos => '\''
  | .number n => Char.ofNat (Numeral.value n.radix.base n.digits)

def Escape.text : Escape → List Char
  | .lt => ['&', 'l', 't', ';']
  | .gt => ['&', 'g', 't', ';']
  | .amp => ['&', 'a', 'm', 'p', ';']
  | .quot => ['&', 'q', 'u', 'o', 't', ';']
  | .apos => ['&', 'a', 'p', 'o', 's', ';']
  | .number n => '&' :: '#' :: (n.radix.mark ++ (n.digits ++ [';']))

/-- An attribute. -/
structure Attr where
  name : List Char
  value : List Char
  hname : name ≠ [] ∧ ∀ c ∈ name, c.isAlpha = true ∨ c = '-'
  hvalue : ∀ c ∈ value, c ≠ '"' ∧ c ≠ '<' ∧ c ≠ '>'

def Attr.text (a : Attr) : List Char := ' ' :: (a.name ++ '=' :: '"' :: (a.value ++ ['"']))

/-- The elements that code is marked up with. -/
inductive Inline where
  | span
  | code
  | a
  | b
  | i
  | u
  | em
  | strong
  | mark
  | kbd
  | samp
  | var
deriving DecidableEq

def Inline.name : Inline → List Char
  | .span => ['s', 'p', 'a', 'n']
  | .code => ['c', 'o', 'd', 'e']
  | .a => ['a']
  | .b => ['b']
  | .i => ['i']
  | .u => ['u']
  | .em => ['e', 'm']
  | .strong => ['s', 't', 'r', 'o', 'n', 'g']
  | .mark => ['m', 'a', 'r', 'k']
  | .kbd => ['k', 'b', 'd']
  | .samp => ['s', 'a', 'm', 'p']
  | .var => ['v', 'a', 'r']

inductive Tag where
  | opens (e : Inline) (attrs : List Attr)
  | closes (e : Inline)

/-- What stands between `<` and `>`. -/
def Tag.body : Tag → List Char
  | .opens e attrs => e.name ++ attrs.flatMap Attr.text
  | .closes e => '/' :: e.name

/-- A piece of a highlighted block: a character of the code, as it is or escaped, a line break
written as a tag, or a tag. -/
inductive Piece where
  | raw (c : Char) (h : c ≠ '<' ∧ c ≠ '&')
  | escaped (e : Escape)
  | br
  | tag (t : Tag)

def Piece.text : Piece → List Char
  | .raw c _ => [c]
  | .escaped e => e.text
  | .br => BR
  | .tag t => '<' :: (t.body ++ ['>'])

/-- What the piece stands for. -/
def Piece.code : Piece → List Char
  | .raw c _ => [c]
  | .escaped e => [e.char]
  | .br => ['\n']
  | .tag _ => []

/-- A `pre` element. A newline right behind its tag would be no part of the code. -/
structure Block where
  attrs : List Attr
  pieces : List Piece
  hfirst : (pieces.flatMap Piece.text).head? ≠ some '\n'

def Block.text (b : Block) : List Char :=
  PRE ++ (b.attrs.flatMap Attr.text ++ '>' :: (b.pieces.flatMap Piece.text ++ PRE_END))

def Block.code (b : Block) : List Char := b.pieces.flatMap Piece.code

/-- Text without a `pre` element. -/
structure Prose where
  val : List Char
  hval : ¬ PRE <:+: val.map Char.toLower

/-- A document: blocks, each behind some prose, and the prose at the end. -/
structure Doc where
  blocks : List (Prose × Block)
  last : Prose

def Doc.text (d : Doc) : List Char :=
  d.blocks.flatMap (fun x => x.1.val ++ x.2.text) ++ d.last.val

/-- The tables have the escapes. -/
structure Standard (T : Tables) : Prop where
  lt : T.html5 ['l', 't', ';'] = some ['<']
  gt : T.html5 ['g', 't', ';'] = some ['>']
  amp : T.html5 ['a', 'm', 'p', ';'] = some ['&']
  quot : T.html5 ['q', 'u', 'o', 't', ';'] = some ['"']
  apos : T.html5 ['a', 'p', 'o', 's', ';'] = some ['\'']
  plain : ∀ n, IsPlain n → T.invalidCharrefs n = none ∧ T.invalidCodepoints n = false

namespace ExtractBlocksLemmas

/-! ## Where the patterns fire -/

theorem brRule_other (c : Char) (s : List Char) (hc : c ≠ '<') :
    brRule.fire (c :: s) = none :=
  if_neg fun hp => hc (List.cons_prefix_cons.mp hp).1.symm

theorem tagRule_other (c : Char) (s : List Char) (hc : c ≠ '<') :
    tagRule.fire (c :: s) = none := by
  simp only [tagRule]
  split
  next h => exact absurd (List.cons.inj h).1 hc
  next => rfl

theorem charrefRule_other {T : Tables} (c : Char) (s : List Char) (hc : c ≠ '&') :
    (charrefRule T).fire (c :: s) = none := by
  simp only [charrefRule]
  split
  next h => exact absurd (List.cons.inj h).1 hc
  next => rfl

theorem ne_of_notMem {body : List Char} (h : '>' ∉ body) :
    ∀ c ∈ body, decide (c ≠ '>') = true :=
  fun _ hc => decide_eq_true fun he => h (he ▸ hc)

theorem takeWhile_body {body : List Char} (h : '>' ∉ body) (s : List Char) :
    (body ++ '>' :: s).takeWhile (· ≠ '>') = body := by
  rw [List.takeWhile_append_of_pos (ne_of_notMem h)]
  simp

theorem dropWhile_body {body : List Char} (h : '>' ∉ body) (s : List Char) :
    (body ++ '>' :: s).dropWhile (· ≠ '>') = '>' :: s := by
  rw [List.dropWhile_append_of_pos (ne_of_notMem h)]
  simp

/-- A tag is the word `<…>` if it has that body. -/
theorem prefix_of_tag {word body s : List Char} (hw : '>' ∉ word) (hb : '>' ∉ body)
    (h : word ++ ['>'] <+: body ++ '>' :: s) : body = word := by
  obtain ⟨rest, hr⟩ := h
  have hleft := takeWhile_body hw rest
  rw [List.append_assoc] at hr
  rw [show '>' :: rest = ['>'] ++ rest from rfl, hr, takeWhile_body hb] at hleft
  exact hleft

/-- No word that begins with `<` begins within a tag. -/
theorem absent_tag (word : List Char) {body s : List Char} (hw : '>' ∉ word)
    (hb : '<' ∉ body ∧ '>' ∉ body) (hne : body ≠ word) :
    Absent ('<' :: (word ++ ['>'])) ('<' :: (body ++ ['>'])) s := by
  intro x y hxy hy hp
  cases x with
  | nil =>
    rw [List.nil_append] at hxy
    subst hxy
    refine hne (prefix_of_tag hw hb.2 (s := s) ?_)
    simpa using (List.cons_prefix_cons.mp hp).2
  | cons c x =>
    have hrest : '<' ∉ body ++ ['>'] := by simp [hb.1]
    exact absent_of_notMem hrest s x y (List.cons.inj hxy).2 hy hp

/-! ## Tags -/

theorem notMem_attrs (attrs : List Attr) :
    '<' ∉ attrs.flatMap Attr.text ∧ '>' ∉ attrs.flatMap Attr.text := by
  have hattr : ∀ c, c ∈ attrs.flatMap Attr.text → c ≠ '<' ∧ c ≠ '>' := by
    intro c hc
    obtain ⟨a, -, hin⟩ := List.mem_flatMap.mp hc
    simp only [Attr.text, List.mem_cons, List.mem_append, List.not_mem_nil, or_false] at hin
    rcases hin with rfl | hname | rfl | rfl | hvalue | rfl
    · decide
    · rcases a.hname.2 c hname with hc | rfl
      · constructor <;> rintro rfl <;> exact absurd hc (by decide)
      · decide
    · decide
    · decide
    · exact (a.hvalue c hvalue).2
    · decide
  exact ⟨fun h => (hattr _ h).1 rfl, fun h => (hattr _ h).2 rfl⟩

theorem notMem_tag (t : Tag) : '<' ∉ t.body ∧ '>' ∉ t.body := by
  cases t with
  | opens e attrs =>
    obtain ⟨hlt, hgt⟩ := notMem_attrs attrs
    have hname : '<' ∉ e.name ∧ '>' ∉ e.name := by cases e <;> decide
    simp only [Tag.body, List.mem_append, not_or]
    exact ⟨⟨hname.1, hlt⟩, hname.2, hgt⟩
  | closes e => cases e <;> decide

theorem tag_ne_nil (t : Tag) : t.body ≠ [] := by
  cases t with
  | opens e attrs => cases e <;> exact List.cons_ne_nil _ _
  | closes e => exact List.cons_ne_nil _ _

/-- A tag with an attribute is longer than its name. -/
theorem opens_ne (e : Inline) (attrs : List Attr) {word : List Char} (hblank : ' ' ∉ word)
    (hname : e.name ≠ word) : (Tag.opens e attrs).body ≠ word := by
  cases attrs with
  | nil => simpa [Tag.body] using hname
  | cons a attrs =>
    rintro rfl
    exact hblank (by simp [Tag.body, Attr.text])

theorem tag_ne_br (t : Tag) : t.body ≠ ['b', 'r'] := by
  cases t with
  | opens e attrs => exact opens_ne e attrs (by decide) (by cases e <;> decide)
  | closes e => exact fun h => absurd (List.cons.inj h).1 (by decide)

theorem tag_ne_end (t : Tag) : t.body ≠ ['/', 'p', 'r', 'e'] := by
  cases t with
  | opens e attrs => exact opens_ne e attrs (by decide) (by cases e <;> decide)
  | closes e => cases e <;> decide

/-! ## One piece at a time -/

/-- A piece behind `replace`. -/
def unbroken : Piece → List Char
  | .br => ['\n']
  | p => p.text

/-- A piece behind the first `sub`. -/
def untagged : Piece → List Char
  | .tag _ => []
  | p => unbroken p

theorem notMem_singleton {k c : Char} (h : c ≠ k) : k ∉ [c] := fun hm =>
  h (List.mem_singleton.mp hm).symm

theorem notMem_number (n : Number) : '<' ∉ (Escape.number n).text := by
  simp only [Escape.text, List.mem_cons, List.mem_append, List.not_mem_nil, or_false, not_or]
  refine ⟨by decide, by decide, ?_, fun hin => ?_, by decide⟩
  · cases n.radix <;> decide
  · exact absurd (n.hdigits _ hin) (by cases n.radix <;> decide)

theorem notMem_escape (e : Escape) : '<' ∉ e.text := by
  cases e with
  | number n => exact notMem_number n
  | _ => decide

theorem fire_br (s : List Char) : brRule.fire (BR ++ s) = some (['\n'], s) := by
  simp only [brRule]
  rw [if_pos (List.prefix_append BR s)]
  rfl

theorem subst_br (p : Piece) (s : List Char) :
    subst brRule (p.text ++ s) = unbroken p ++ subst brRule s := by
  cases p with
  | raw c h => exact subst_pass (quiet_of_notMem brRule_other (notMem_singleton h.1) s)
  | escaped e => exact subst_pass (quiet_of_notMem brRule_other (notMem_escape e) s)
  | br => exact subst_fire (fire_br s)
  | tag t =>
    refine subst_pass fun x y hxy hy => if_neg ?_
    exact absent_tag ['b', 'r'] (by decide) (notMem_tag t) (tag_ne_br t) x y hxy hy

theorem subst_tag (p : Piece) (s : List Char) :
    subst tagRule (unbroken p ++ s) = untagged p ++ subst tagRule s := by
  cases p with
  | raw c h => exact subst_pass (quiet_of_notMem tagRule_other (notMem_singleton h.1) s)
  | escaped e => exact subst_pass (quiet_of_notMem tagRule_other (notMem_escape e) s)
  | br => exact subst_pass (quiet_of_notMem tagRule_other (by decide) s)
  | tag t =>
    refine subst_fire ?_
    have hgt := (notMem_tag t).2
    have htext : unbroken (.tag t) ++ s = '<' :: (t.body ++ '>' :: s) := by
      simp [unbroken, Piece.text]
    rw [htext]
    simp only [tagRule, dropWhile_body hgt, takeWhile_body hgt, if_neg (tag_ne_nil t)]
    rfl

/-- The digits of a reference end at its semicolon. -/
theorem numberRef_digits {base : Nat} {digits : List Char} (hne : digits ≠ [])
    (hdigits : ∀ c ∈ digits, Numeral.isDigit base c = true) (s : List Char) :
    numberRef base (digits ++ ';' :: s) = some (.number (Numeral.value base digits), s) := by
  have hstop : Numeral.isDigit base ';' = false := rfl
  have htake : (digits ++ ';' :: s).takeWhile (Numeral.isDigit base) = digits := by
    rw [List.takeWhile_append_of_pos hdigits, List.takeWhile_cons_of_neg (by simp [hstop]),
      List.append_nil]
  have hdrop : (digits ++ ';' :: s).dropWhile (Numeral.isDigit base) = ';' :: s := by
    rw [List.dropWhile_append_of_pos hdigits, List.dropWhile_cons_of_neg (by simp [hstop])]
  rw [numberRef, htake, hdrop, if_neg hne]
  rfl

theorem charref_number (n : Number) (s : List Char) :
    charref ('#' :: (n.radix.mark ++ (n.digits ++ ';' :: s))) =
      some (.number (Numeral.value n.radix.base n.digits), s) := by
  obtain ⟨radix, digits, hne, hdigits, -, -⟩ := n
  cases radix with
  | decimal =>
    cases digits with
    | nil => exact absurd rfl hne
    | cons d ds =>
      have hx : ¬ (d = 'x' ∨ d = 'X') := by
        have hd := hdigits d List.mem_cons_self
        rintro (rfl | rfl) <;> exact absurd hd (by decide)
      exact (if_neg hx).trans (numberRef_digits hne hdigits s)
  | hex => exact numberRef_digits hne hdigits s
  | hexUpper => exact numberRef_digits hne hdigits s

theorem replaceCharref_plain {T : Tables} (hT : Standard T) {n : Nat} (h : IsPlain n) :
    replaceCharref T (.number n) = [Char.ofNat n] := by
  obtain ⟨hcharref, hcodepoint⟩ := hT.plain n h
  have hrange : ¬ (0xD800 ≤ n ∧ n ≤ 0xDFFF ∨ 0x10FFFF < n) := by
    unfold IsPlain at h
    omega
  simp only [replaceCharref, hcharref, if_neg hrange, hcodepoint]
  rfl

theorem fire_name {T : Tables} {name : List Char} {c : Char} (hT : T.html5 name = some [c])
    {cs s : List Char} (hcs : charref cs = some (.name name, s)) :
    (charrefRule T).fire ('&' :: cs) = some ([c], s) := by
  simp only [charrefRule, hcs, Option.map_some, replaceCharref, hT]

theorem fire_escape {T : Tables} (hT : Standard T) (e : Escape) (s : List Char) :
    (charrefRule T).fire (e.text ++ s) = some ([e.char], s) := by
  cases e with
  | lt => exact fire_name hT.lt rfl
  | gt => exact fire_name hT.gt rfl
  | amp => exact fire_name hT.amp rfl
  | quot => exact fire_name hT.quot rfl
  | apos => exact fire_name hT.apos rfl
  | number n =>
    have htext : (Escape.number n).text ++ s =
        '&' :: '#' :: (n.radix.mark ++ (n.digits ++ ';' :: s)) := by
      simp [Escape.text]
    rw [htext]
    simp only [charrefRule, charref_number n s, Option.map_some, replaceCharref_plain hT n.hplain]
    rfl

theorem subst_charref {T : Tables} (hT : Standard T) (p : Piece) (s : List Char) :
    subst (charrefRule T) (untagged p ++ s) = p.code ++ subst (charrefRule T) s := by
  cases p with
  | raw c h =>
    exact subst_pass (quiet_of_notMem charrefRule_other (notMem_singleton h.2) s)
  | escaped e => exact subst_fire (fire_escape hT e s)
  | br => exact subst_pass (quiet_of_notMem charrefRule_other (by decide) s)
  | tag t => rfl

/-- A substitution that does its work piece by piece. -/
theorem subst_pieces {r : Rule Char (List Char)} {f g : Piece → List Char}
    (h : ∀ p s, subst r (f p ++ s) = g p ++ subst r s) (ps : List Piece) :
    subst r (ps.flatMap f) = ps.flatMap g := by
  induction ps with
  | nil => exact subst_nil
  | cons p ps ih => rw [List.flatMap_cons, h, ih, List.flatMap_cons]

theorem codeOf_pieces {T : Tables} (hT : Standard T) (ps : List Piece) :
    codeOf T (ps.flatMap Piece.text) = ps.flatMap Piece.code := by
  rw [codeOf, subst_pieces subst_br, subst_pieces subst_tag, subst_pieces (subst_charref hT)]

/-! ## Blocks in a document -/

/-- A block does not end before its end. -/
theorem absent_end (ps : List Piece) (s : List Char) :
    Absent (PRE_END) (ps.flatMap Piece.text) s := by
  induction ps with
  | nil => exact absent_nil _ _
  | cons p ps ih =>
    rw [List.flatMap_cons]
    refine Absent.append ?_ ih
    cases p with
    | raw c h => exact absent_of_notMem (notMem_singleton h.1) _
    | escaped e => exact absent_of_notMem (notMem_escape e) _
    | br =>
      have hbr : '<' ∉ ['b', 'r'] ∧ '>' ∉ ['b', 'r'] := by decide
      exact absent_tag ['/', 'p', 'r', 'e'] (by decide) hbr (by decide)
    | tag t => exact absent_tag ['/', 'p', 'r', 'e'] (by decide) (notMem_tag t) (tag_ne_end t)

theorem fire_block (b : Block) (s : List Char) :
    preRule.fire (b.text ++ s) = some (b.pieces.flatMap Piece.text, s) := by
  have htext : b.text ++ s = PRE ++ (b.attrs.flatMap Attr.text ++
      '>' :: (b.pieces.flatMap Piece.text ++ (PRE_END ++ s))) := by
    simp [Block.text]
  rw [htext]
  have hdrop : ∀ t, (PRE ++ t).drop 4 = t := fun t => rfl
  simp only [preRule]
  rw [if_pos (List.prefix_append _ _), hdrop, dropWhile_body (notMem_attrs b.attrs).2]
  exact upTo_eq (by decide) (absent_end b.pieces _)

theorem notInfix_prose (p : Prose) : ¬ PRE <:+: p.val := fun h => p.hval (h.map Char.toLower)

/-- No block begins in the prose, if a tag or nothing follows. -/
theorem quiet_prose (p : Prose) {s : List Char} (hs : s = [] ∨ ∃ z, s = '<' :: z) :
    Quiet preRule p.val s := by
  intro x y hxy hy
  refine if_neg fun hp => notInfix_prose p ?_
  cases y with
  | nil => exact absurd rfl hy
  | cons c y =>
    obtain ⟨rfl, hrest⟩ := List.cons_prefix_cons.mp hp
    have hin : ['p', 'r', 'e'] <+: y := by
      rcases hs with rfl | ⟨z, rfl⟩
      · exact (List.append_nil y) ▸ hrest
      · exact Keyword.prefix_of_not_mem (by decide) hrest
    rw [hxy]
    exact (List.prefix_cons_inj '<' |>.mpr hin).isInfix.trans (List.suffix_append x _).isInfix

theorem findAll_doc (bs : List (Prose × Block)) (last : Prose) :
    findAll preRule (bs.flatMap (fun x => x.1.val ++ x.2.text) ++ last.val) =
      bs.map fun x => x.2.pieces.flatMap Piece.text := by
  induction bs with
  | nil =>
    have hlast := findAll_pass (quiet_prose last (.inl rfl))
    rw [List.append_nil] at hlast
    simpa [findAll] using hlast
  | cons x bs ih =>
    obtain ⟨p, b⟩ := x
    simp only [List.flatMap_cons, List.append_assoc, List.map_cons]
    have hopens : ∀ t, ∃ z, b.text ++ t = '<' :: z := fun t => ⟨_, rfl⟩
    rw [findAll_pass (quiet_prose p (.inr (hopens _))), findAll_fire (fire_block b _), ih]

/-! ## The names of the files -/

theorem blockName_injective : Function.Injective blockName := by
  have hdigits : ∀ i, Nat.ofDigitChars 10
      (if i < 10 then '0' :: Nat.toDigits 10 i else Nat.toDigits 10 i) 0 = i := by
    intro i
    split
    · exact Nat.ofDigitChars_toDigits (by decide) (by decide)
    · exact Nat.ofDigitChars_toDigits (by decide) (by decide)
  intro i j h
  unfold blockName at h
  have hmid := List.append_cancel_left (List.append_cancel_right h)
  rw [← hdigits i, ← hdigits j, hmid]

end ExtractBlocksLemmas

open ExtractBlocksLemmas

/-! ## 1. The round trip -/

def exTables : Tables where
  html5 s :=
    if s = ['l', 't', ';'] then some ['<'] else if s = ['g', 't', ';'] then some ['>']
    else if s = ['a', 'm', 'p', ';'] then some ['&']
    else if s = ['q', 'u', 'o', 't', ';'] then some ['"']
    else if s = ['a', 'p', 'o', 's', ';'] then some ['\''] else none
  invalidCharrefs _ := none
  invalidCodepoints _ := false

def exApos : Number where
  radix := .decimal
  digits := ['3', '9']
  hne := by decide
  hdigits := List.all_eq_true.mp (by decide)
  hlen := by decide
  hplain := .inr (.inr (.inl (by decide)))

/-- The lines `i<n` and `'`, the variable in a `<b>`. -/
def exBlock : Block where
  attrs := [⟨['i', 'd'], ['x'], by simp, by simp⟩]
  pieces := [.tag (.opens .b []), .raw 'i' (by decide), .tag (.closes .b), .escaped .lt,
    .raw 'n' (by decide), .br, .escaped (.number exApos), .raw '\n' (by decide)]
  hfirst := by decide

def exDoc : Doc := ⟨[(⟨['A', '\n'], by decide⟩, exBlock)], ⟨['.'], by decide⟩⟩

/-- The document, with the line ends of DOS. -/
def exFile : List Char :=
  "A\r\n<pre id=\"x\"><b>i</b>&lt;n<br>&#39;\r\n</pre>.".toList

/-- Code without references is what the first two steps leave of it. -/
theorem codeOf_of_notMem (T : Tables) {block code : List Char}
    (h : subst tagRule (subst brRule block) = code) (hamp : '&' ∉ code) :
    codeOf T block = code := by
  rw [codeOf, h]
  have hquiet := subst_pass (quiet_of_notMem (charrefRule_other (T := T)) hamp [])
  rwa [List.append_nil, subst_nil, List.append_nil] at hquiet

/-- `i<n;i>0` as it is. -/
theorem bare_less_than_lost (T : Tables) :
    codeOf T ['i', '<', 'n', ';', 'i', '>', '0'] = ['i', '0'] :=
  codeOf_of_notMem T (by decide +kernel) (by decide)

/-- Two lines with `<br/>` between them. -/
theorem closed_break_lost (T : Tables) :
    codeOf T ['i', '<', 'b', 'r', '/', '>', '0'] = ['i', '0'] :=
  codeOf_of_notMem T (by decide +kernel) (by decide)

end Ebpf101.Fileless
