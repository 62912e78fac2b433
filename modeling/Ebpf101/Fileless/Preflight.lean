import Ebpf101.Lib.Numeral
import Ebpf101.Lsm.ActiveCheck

/-!
# Can this host run the gate?

`25-fileless-lab/src/fileless-gate-preflight.sh`: the release of the kernel, its configuration
and three files below `/sys` and `/proc` are read with the means of the shell, and the exit
status says whether enforcement is feasible.

A release is digits, a dot, digits and a tail; a configuration is lines of which some set an
option.

Results:
1. `feasible_iff`: the exit status is 0 if and only if the release is 6.8 or later, with a dot
   or nothing behind its second number, both options are set to a value that begins with `y`,
   and a name of the list of modules contains `bpf` where that list can be read.
   `candidate_refused`: 6.12-rc3 is not taken for a later release than 6.8.
-/

namespace Ebpf101.Fileless

open Lsm (Report commandSubstitution textLines LsmFile BPF)

/-! ## The shell -/

/-- `${s%%.*}`. -/
def beforeDot (s : List Char) : List Char := s.takeWhile (· ≠ '.')

/-- `${s#*.}`: the whole text where there is no dot. -/
def behindDot (s : List Char) : List Char := if '.' ∈ s then (s.dropWhile (· ≠ '.')).tail else s

/-- The integer that `[` reads: nothing but blanks may follow the digits. -/
def testInteger (s : List Char) : Option Int :=
  match Numeral.run 10 (Numeral.signed s).2 with
  | none => none
  | some (n, rest) =>
    let v := (Numeral.signed s).1.number n
    if rest.all Numeral.isSpace && decide (-2 ^ 63 ≤ v ∧ v < 2 ^ 63) then some v else none

/-- `[ s op n ]`; an operand that is no integer is an error, which is a status other than 0. -/
def test (s : List Char) (op : Int → Int → Bool) (n : Int) : Bool := (testInteger s).any (op · n)

/-! ## The script -/

/-- What the script reads. A file that is not readable is `none`; of the three sources of the
configuration, the output and whether the command that prints it succeeds. -/
structure Host where
  kver : List Char
  configs : List (Option (List Char × Bool))
  lsm : Option (List Char)
  lockdown : Option (List Char)
  memfdNoexec : Option (List Char)

/-- `[ -r f ] && cat f || …`: a command that fails has printed what it could. -/
def kconf : List (Option (List Char × Bool)) → List Char
  | [] => []
  | none :: rest => kconf rest
  | some (out, true) :: _ => out
  | some (out, false) :: rest => out ++ kconf rest

def kernelReport (kver : List Char) : Report :=
  let maj := beforeDot kver
  let rest := behindDot kver
  let min := beforeDot rest
  if test maj (· > ·) 6 || (test maj (· == ·) 6 && test min (· ≥ ·) 8) then
    .ok "kernel >= 6.8 (xattr/fsverity kfuncs)".toList
  else .bad ("kernel >= 6.8 required (found ".toList ++ kver ++ ")".toList)

def CONFIG : List Char := "CONFIG_".toList

/-- `grep -q '^CONFIG_…=y'` on the lines of the configuration. -/
def grepConfig (option conf : List Char) : Bool :=
  (textLines (conf ++ ['\n'])).any ((CONFIG ++ option ++ ['=', 'y']).isPrefixOf ·)

def configReport (option conf : List Char) : Report :=
  if grepConfig option conf then .ok (CONFIG ++ option ++ ['=', 'y'])
  else .bad (CONFIG ++ option ++ " not enabled".toList)

def BPF_LSM : List Char := "BPF_LSM".toList
def FS_VERITY : List Char := "FS_VERITY".toList

def lockdownReport (file : Option (List Char)) : Report :=
  match file with
  | none => .warn "lockdown unavailable — run detect-only".toList
  | some file =>
    let ld := commandSubstitution file
    if "[integrity]".toList <:+: ld ∨ "[confidentiality]".toList <:+: ld then
      .ok ("lockdown active: ".toList ++ ld)
    else .warn ("lockdown off (".toList ++ ld ++ ") — enforcing gate is removable by root".toList)

def memfdReport (file : Option (List Char)) : Report :=
  match file with
  | none => .warn "vm.memfd_noexec absent (needs 6.3+)".toList
  | some file =>
    let v := commandSubstitution file
    if v = ['2'] then .ok "vm.memfd_noexec=2".toList
    else .warn ("vm.memfd_noexec=".toList ++ v ++ " (set 2 after the §7 audit)".toList)

/-- The reports of the three sections. -/
def enforcement (h : Host) : List Report :=
  let conf := commandSubstitution (kconf h.configs)
  [kernelReport h.kver, configReport BPF_LSM conf, configReport FS_VERITY conf, Lsm.preflight h.lsm]

def selfProtection (h : Host) : List Report := [lockdownReport h.lockdown]

def standalone (h : Host) : List Report := [memfdReport h.memfdNoexec]

def isBad : Report → Bool
  | .bad _ => true
  | _ => false

/-- `hard_fail`. -/
def hardFail (h : Host) : Nat := (enforcement h ++ selfProtection h ++ standalone h).countP isBad

/-- What `ok`, `warn` and `bad` print. -/
def reportLine : Report → List Char
  | .ok text => "  [ OK ]  ".toList ++ text
  | .warn text => "  [WARN]  ".toList ++ text
  | .bad text => "  [FAIL]  ".toList ++ text

/-- The lines that are printed. -/
def output (h : Host) : List (List Char) :=
  ["Kernel: ".toList ++ h.kver, [], "Enforcement (M-03) prerequisites:".toList] ++
    (enforcement h).map reportLine ++
  [[], "Self-protection (M-10) prerequisites:".toList] ++ (selfProtection h).map reportLine ++
  [[], "Cheap standalone control (M-01):".toList] ++ (standalone h).map reportLine ++
  [[], if hardFail h = 0 then "RESULT: no hard failures — enforcement feasible.".toList
    else "RESULT: ".toList ++ Nat.toDigits 10 (hardFail h) ++
      " hard failure(s) — run detect-only; fix before enforcing.".toList]

def exitStatus (h : Host) : Nat := if hardFail h = 0 then 0 else 1

/-! ## Statements -/

/-- A release as `uname -r` prints it. -/
structure Release where
  major : List Char
  minor : List Char
  tail : List Char
  major_digits : major ≠ [] ∧ major.all (Numeral.isDigit 10) = true
  minor_digits : minor ≠ [] ∧ minor.all (Numeral.isDigit 10) = true
  tail_ends : tail.head?.any (Numeral.isDigit 10) = false
  no_blank : tail.any Numeral.isSpace = false

namespace Release

def text (r : Release) : List Char := r.major ++ '.' :: (r.minor ++ r.tail)

/-- The numbers of the release. -/
def numbers (r : Release) : Nat × Nat := (Numeral.value 10 r.major, Numeral.value 10 r.minor)

/-- The numbers are in the range of the shell's integers. -/
def InRange (r : Release) : Prop := r.numbers.1 < 2 ^ 63 ∧ r.numbers.2 < 2 ^ 63

/-- A dot or nothing follows the second number. -/
def Plain (r : Release) : Prop := r.tail = [] ∨ r.tail.head? = some '.'

/-- What the script takes for 6.8 or later. -/
def Passes (r : Release) : Prop := 6 < r.numbers.1 ∨ r.numbers.1 = 6 ∧ 8 ≤ r.numbers.2 ∧ r.Plain

end Release

/-- A line of a configuration: an option with its value, or a comment or nothing. -/
inductive ConfigLine where
  | set (option value : List Char) (hoption : '=' ∉ option ∧ '\n' ∉ option) (hvalue : '\n' ∉ value)
  | other (text : List Char) (hline : '\n' ∉ text) (hother : text.head? ≠ some 'C')

namespace ConfigLine

def text : ConfigLine → List Char
  | set option value _ _ => CONFIG ++ option ++ '=' :: value
  | other text _ _ => text

/-- The option is set to a value that begins with `y`. -/
def Enables (name : List Char) : ConfigLine → Prop
  | set option value _ _ => option = name ∧ value.head? = some 'y'
  | other _ _ _ => False

end ConfigLine

/-- The file of a configuration. -/
def configText (k : List ConfigLine) : List Char := k.flatMap fun l => l.text ++ ['\n']

def Enabled (name : List Char) (k : List ConfigLine) : Prop := ∃ l ∈ k, l.Enables name

namespace PreflightLemmas

/-! ## The configuration -/

/-- A newline at the end adds no line with letters. -/
theorem mem_splitOn_newline {l s : List Char} (hne : l ≠ []) :
    l ∈ (s ++ ['\n']).splitOn '\n' ↔ l ∈ s.splitOn '\n' := by
  rw [List.splitOn, List.splitOnP_append_cons _ _ (by decide), List.splitOnP_nil, List.mem_append,
    List.mem_singleton, or_iff_left hne]
  rfl

theorem mem_splitOn_substitution {l : List Char} (hne : l ≠ []) (s : List Char) :
    l ∈ (commandSubstitution s).splitOn '\n' ↔ l ∈ s.splitOn '\n' := by
  induction s using List.reverseRecOn with
  | nil => rfl
  | append_singleton s c ih =>
    rcases eq_or_ne c '\n' with rfl | hc
    · rw [commandSubstitution, List.rdropWhile_concat_pos _ _ _ (by simp), mem_splitOn_newline hne]
      exact ih
    · rw [commandSubstitution, List.rdropWhile_concat_neg _ _ _ (by simpa using hc)]

theorem newline_notMem (l : ConfigLine) : '\n' ∉ l.text := by
  cases l with
  | set option value hoption hvalue =>
    have hconfig : '\n' ∉ CONFIG := by decide
    simp [ConfigLine.text, hconfig, hoption.2, hvalue]
  | other text hline hother => exact hline

/-- The lines of the file are the lines. -/
theorem splitOn_configText (k : List ConfigLine) :
    (configText k).splitOn '\n' = k.map ConfigLine.text ++ [[]] := by
  induction k with
  | nil => rfl
  | cons l k ih =>
    have hline : l.text.splitOnP (· == '\n') = [l.text] :=
      List.splitOnP_eq_singleton fun c hc => beq_false_of_ne fun he => newline_notMem l (he ▸ hc)
    rw [List.splitOn] at ih ⊢
    rw [configText, List.flatMap_cons, List.append_assoc, List.singleton_append,
      List.splitOnP_append_cons _ _ (by decide), hline]
    exact congrArg (l.text :: ·) ih

theorem prefix_line_iff {name : List Char} (hname : '=' ∉ name) (l : ConfigLine) :
    CONFIG ++ name ++ ['=', 'y'] <+: l.text ↔ l.Enables name := by
  cases l with
  | set option value hoption hvalue =>
    rw [ConfigLine.text, List.append_assoc, List.append_assoc, List.prefix_append_right_inj]
    constructor
    · rintro ⟨t, ht⟩
      rw [List.append_assoc] at ht
      -- Up to the first `=` stands the name of the option.
      have hbefore : ∀ {w u : List Char}, '=' ∉ w → (w ++ '=' :: u).takeWhile (· ≠ '=') = w := by
        intro w u hw
        have hpos : ∀ c ∈ w, decide (c ≠ '=') = true :=
          fun c hc => decide_eq_true fun he => hw (he ▸ hc)
        rw [List.takeWhile_append_of_pos hpos, List.takeWhile_cons_of_neg (by simp),
          List.append_nil]
      have hoptionEq : name = option := by
        rw [← hbefore hname (u := 'y' :: t), ← hbefore hoption.1 (u := value)]
        exact congrArg _ ht
      subst hoptionEq
      have hvalueEq := List.cons.inj (List.append_cancel_left ht)
      exact ⟨rfl, by rw [← hvalueEq.2]; rfl⟩
    · rintro ⟨rfl, hy⟩
      obtain ⟨t, rfl⟩ := List.head?_eq_some_iff.mp hy
      exact (List.prefix_append_right_inj _).mpr ⟨t, rfl⟩
  | other text hline hother =>
    refine iff_of_false ?_ id
    rintro ⟨t, rfl⟩
    exact hother rfl

theorem grepConfig_iff {name : List Char} (hname : '=' ∉ name) (k : List ConfigLine) :
    grepConfig name (commandSubstitution (configText k)) = true ↔ Enabled name k := by
  have hnonempty : ∀ l, CONFIG ++ name ++ ['=', 'y'] <+: l → l ≠ [] := by
    rintro l ⟨t, rfl⟩ hnil
    cases hnil
  rw [grepConfig, List.any_eq_true]
  constructor
  · rintro ⟨l, hl, hpre⟩
    rw [List.isPrefixOf_iff_prefix] at hpre
    have hne := hnonempty l hpre
    rw [Lsm.ActiveCheckLemmas.mem_textLines hne, mem_splitOn_newline hne,
      mem_splitOn_substitution hne, splitOn_configText, List.mem_append, List.mem_singleton,
      or_iff_left hne] at hl
    obtain ⟨line, hline, rfl⟩ := List.mem_map.mp hl
    exact ⟨line, hline, (prefix_line_iff hname line).mp hpre⟩
  · rintro ⟨line, hline, henables⟩
    have hpre := (prefix_line_iff hname line).mpr henables
    have hne := hnonempty _ hpre
    refine ⟨line.text, ?_, List.isPrefixOf_iff_prefix.mpr hpre⟩
    rw [Lsm.ActiveCheckLemmas.mem_textLines hne, mem_splitOn_newline hne,
      mem_splitOn_substitution hne, splitOn_configText]
    exact List.mem_append_left _ (List.mem_map_of_mem hline)

/-! ## The release -/

theorem not_digit_dot : Numeral.isDigit 10 '.' = false := by decide

theorem ne_dot {s : List Char} (h : ∀ c ∈ s, Numeral.isDigit 10 c = true) :
    ∀ c ∈ s, decide (c ≠ '.') = true := by
  intro c hc
  refine decide_eq_true fun he => ?_
  rw [he] at hc
  exact Bool.false_ne_true (not_digit_dot.symm.trans (h _ hc))

/-- Digits with something behind them that begins with no digit and has no blanks. -/
theorem testInteger_digits {ds t : List Char}
    (hds : ds ≠ [] ∧ ∀ c ∈ ds, Numeral.isDigit 10 c = true)
    (hrange : Numeral.value 10 ds < 2 ^ 63) (hhead : ∀ c ∈ t.head?, Numeral.isDigit 10 c = false)
    (hblank : ∀ c ∈ t, Numeral.isSpace c = false) :
    testInteger (ds ++ t) = if t = [] then some (Numeral.value 10 ds : Int) else none := by
  have hfirst : (ds ++ t).head?.any (Numeral.isDigit 10) = true := by
    obtain ⟨c, cs, rfl⟩ := List.exists_cons_of_ne_nil hds.1
    exact hds.2 c List.mem_cons_self
  have htake : (ds ++ t).takeWhile (Numeral.isDigit 10) = ds ∧
      (ds ++ t).dropWhile (Numeral.isDigit 10) = t := by
    rw [List.takeWhile_append_of_pos hds.2, List.dropWhile_append_of_pos hds.2]
    cases t with
    | nil => simp
    | cons c cs =>
      have hc : ¬ Numeral.isDigit 10 c = true := by rw [hhead c rfl]; exact Bool.false_ne_true
      rw [List.takeWhile_cons_of_neg hc, List.dropWhile_cons_of_neg hc, List.append_nil]
      exact ⟨rfl, rfl⟩
  rw [testInteger, Numeral.signed_of_digit hfirst, Numeral.run, htake.1, htake.2, if_neg hds.1]
  dsimp only
  have hnumber : Numeral.Sign.absent.number (Numeral.value 10 ds) = (Numeral.value 10 ds : Int) :=
    rfl
  rw [hnumber]
  cases t with
  | nil =>
    rw [if_pos rfl, if_pos]
    rw [List.all_nil, Bool.true_and, decide_eq_true_eq]
    omega
  | cons c cs =>
    have hc := hblank c List.mem_cons_self
    rw [if_neg (List.cons_ne_nil c cs), List.all_cons, hc, Bool.false_and, Bool.false_and,
      if_neg Bool.false_ne_true]

variable (r : Release)

theorem digits_major : r.major ≠ [] ∧ ∀ c ∈ r.major, Numeral.isDigit 10 c = true :=
  ⟨r.major_digits.1, List.all_eq_true.mp r.major_digits.2⟩

theorem digits_minor : r.minor ≠ [] ∧ ∀ c ∈ r.minor, Numeral.isDigit 10 c = true :=
  ⟨r.minor_digits.1, List.all_eq_true.mp r.minor_digits.2⟩

theorem beforeDot_text : beforeDot r.text = r.major := by
  rw [beforeDot, Release.text, List.takeWhile_append_of_pos (ne_dot (digits_major r).2),
    List.takeWhile_cons_of_neg (by simp), List.append_nil]

theorem behindDot_text : behindDot r.text = r.minor ++ r.tail := by
  have hdot : '.' ∈ r.text := by simp [Release.text]
  rw [behindDot, if_pos hdot, Release.text,
    List.dropWhile_append_of_pos (ne_dot (digits_major r).2), List.dropWhile_cons_of_neg (by simp),
    List.tail_cons]

theorem beforeDot_rest : beforeDot (r.minor ++ r.tail) = r.minor ++ beforeDot r.tail :=
  List.takeWhile_append_of_pos (ne_dot (digits_minor r).2)

theorem beforeDot_tail_iff : beforeDot r.tail = [] ↔ r.Plain := by
  rw [Release.Plain, beforeDot]
  cases r.tail with
  | nil => simp
  | cons c cs =>
    rcases eq_or_ne c '.' with rfl | hne
    · simp
    · simp [hne]

theorem test_major (hrange : r.InRange) (op : Int → Int → Bool) (n : Int) :
    test (beforeDot r.text) op n = op r.numbers.1 n := by
  have hread := testInteger_digits (t := []) (digits_major r) hrange.1 (by simp) (by simp)
  rw [List.append_nil, if_pos rfl] at hread
  rw [test, beforeDot_text, hread]
  rfl

theorem test_minor (hrange : r.InRange) (op : Int → Int → Bool) (n : Int) :
    test (beforeDot (behindDot r.text)) op n = true ↔ op r.numbers.2 n = true ∧ r.Plain := by
  have hhead : ∀ c ∈ (beforeDot r.tail).head?, Numeral.isDigit 10 c = false := by
    intro c hc
    have htail : c ∈ r.tail.head? → Numeral.isDigit 10 c = false := fun hmem => by
      have hends := r.tail_ends
      rwa [Option.mem_def.mp hmem] at hends
    refine htail ?_
    rw [beforeDot] at hc
    cases ht : r.tail with
    | nil => rw [ht] at hc; cases hc
    | cons d ds =>
      rw [ht] at hc
      rcases eq_or_ne d '.' with rfl | hne
      · rw [List.takeWhile_cons_of_neg (by simp)] at hc
        cases hc
      · rwa [List.takeWhile_cons_of_pos (by simpa using hne)] at hc
  have hblank : ∀ c ∈ beforeDot r.tail, Numeral.isSpace c = false := fun c hc =>
    Bool.eq_false_iff.mpr (List.any_eq_false.mp r.no_blank c ((List.takeWhile_prefix _).subset hc))
  rw [test, behindDot_text, beforeDot_rest,
    testInteger_digits (digits_minor r) hrange.2 hhead hblank, ← beforeDot_tail_iff]
  split
  · next hnil => exact (and_iff_left hnil).symm
  · next hne => exact iff_of_false Bool.false_ne_true fun h => hne h.2

theorem kernelReport_bad_iff (hrange : r.InRange) :
    isBad (kernelReport r.text) = false ↔ r.Passes := by
  have hcond : (test (beforeDot r.text) (· > ·) 6 || (test (beforeDot r.text) (· == ·) 6 &&
      test (beforeDot (behindDot r.text)) (· ≥ ·) 8)) = true ↔ r.Passes := by
    rw [Bool.or_eq_true, Bool.and_eq_true, test_minor r hrange, test_major r hrange,
      test_major r hrange, decide_eq_true_eq, decide_eq_true_eq, beq_iff_eq, and_assoc.symm,
      Release.Passes]
    norm_cast
    rw [and_assoc]
  rw [← hcond, kernelReport]
  split
  · next h => exact iff_of_true rfl h
  · next h => exact iff_of_false (fun he => Bool.false_ne_true he.symm) h

/-! ## The reports -/

theorem configReport_bad_iff (name : List Char) (hname : '=' ∉ name) (k : List ConfigLine) :
    isBad (configReport name (commandSubstitution (configText k))) = false ↔ Enabled name k := by
  rw [← grepConfig_iff hname, configReport]
  split
  · next h => exact iff_of_true rfl h
  · next h => exact iff_of_false (fun he => Bool.false_ne_true he.symm) h

theorem lsmReport_bad_iff (lsm : Option LsmFile) :
    isBad (Lsm.preflight (lsm.map LsmFile.content)) = false ↔
      ∀ f ∈ lsm, ∃ name ∈ f.names, BPF <:+: name := by
  cases lsm with
  | none => exact iff_of_true rfl fun f hf => nomatch hf
  | some f =>
    rw [Option.map_some, Lsm.preflight]
    have hread : (∀ g ∈ some f, ∃ name ∈ g.names, BPF <:+: name) ↔
        Lsm.grepBpf f.content = true := by
      rw [Lsm.ActiveCheckLemmas.grepBpf_iff]
      exact ⟨fun h => h f rfl, fun h g hg => by cases hg; exact h⟩
    rw [hread]
    split
    · next h => exact iff_of_true rfl h
    · next h => exact iff_of_false (fun he => Bool.false_ne_true he.symm) h

theorem lockdownReport_not_bad (file : Option (List Char)) :
    isBad (lockdownReport file) = false := by
  unfold lockdownReport
  split
  · rfl
  · dsimp only
    split <;> rfl

theorem memfdReport_not_bad (file : Option (List Char)) : isBad (memfdReport file) = false := by
  unfold memfdReport
  split
  · rfl
  · dsimp only
    split <;> rfl

/-- The other two sections never fail. -/
theorem others_not_bad (h : Host) : ∀ x ∈ selfProtection h ++ standalone h, isBad x = false := by
  intro x hx
  rw [selfProtection, standalone, List.singleton_append, List.mem_pair] at hx
  rcases hx with rfl | rfl
  · exact lockdownReport_not_bad h.lockdown
  · exact memfdReport_not_bad h.memfdNoexec

theorem exitStatus_eq_zero_iff (h : Host) :
    exitStatus h = 0 ↔ ∀ x ∈ enforcement h, isBad x = false := by
  have hfail : hardFail h = 0 ↔ ∀ x ∈ enforcement h, isBad x = false := by
    rw [hardFail, List.append_assoc, List.countP_eq_zero]
    constructor
    · intro hall x hx
      exact Bool.eq_false_iff.mpr (hall x (List.mem_append_left _ hx))
    · intro hall x hx
      rcases List.mem_append.mp hx with hmem | hmem
      · exact Bool.eq_false_iff.mp (hall x hmem)
      · exact Bool.eq_false_iff.mp (others_not_bad h x hmem)
  rw [← hfail, exitStatus]
  split
  · next hz => exact iff_of_true rfl hz
  · next hz => exact iff_of_false Nat.one_ne_zero hz

end PreflightLemmas

open PreflightLemmas

/-! ## 1. The verdict -/

/-- For every release, every configuration, wherever it is found, and every state of the files. -/
theorem feasible_iff (r : Release) (k : List ConfigLine) (lsm : Option LsmFile) (h : Host)
    (hkver : h.kver = r.text) (hrange : r.InRange) (hconf : kconf h.configs = configText k)
    (hlsm : h.lsm = lsm.map LsmFile.content) :
    exitStatus h = 0 ↔
      r.Passes ∧ Enabled BPF_LSM k ∧ Enabled FS_VERITY k ∧
        ∀ f ∈ lsm, ∃ name ∈ f.names, BPF <:+: name := by
  rw [exitStatus_eq_zero_iff, enforcement, hkver, hconf, hlsm, ← kernelReport_bad_iff r hrange,
    ← configReport_bad_iff BPF_LSM (by decide), ← configReport_bad_iff FS_VERITY (by decide),
    ← lsmReport_bad_iff]
  simp only [List.forall_mem_cons, List.not_mem_nil, false_implies, implies_true, and_true]

/-- A kernel 6.8 of a distribution, and a release candidate named without a third number. -/
def exRelease : Release :=
  ⟨['6'], ['8'], ".0-45-generic".toList, by decide, by decide, by decide, by decide⟩

def exCandidate : Release :=
  ⟨['6'], ['1', '2'], "-rc3".toList, by decide, by decide, by decide, by decide⟩

def exConfig : List ConfigLine :=
  [.other "# General".toList (by decide) (by decide), .set BPF_LSM ['y'] (by decide) (by decide),
    .other [] (by decide) (by decide), .set FS_VERITY ['y'] (by decide) (by decide)]

def exLsm : LsmFile := ⟨"lockdown,bpf".toList, false, by decide, by decide, by decide⟩

/-- The configuration is below `/boot`. -/
def exHost (r : Release) : Host :=
  ⟨r.text, [none, some (configText exConfig, true), none], some exLsm.content, none, none⟩

theorem exHost_feasible : exitStatus (exHost exRelease) = 0 := by
  refine (feasible_iff exRelease exConfig (some exLsm) (exHost exRelease) rfl
    ⟨by decide, by decide⟩ rfl rfl).mpr
    ⟨.inr ⟨by decide, by decide, .inr rfl⟩, ?_, ?_, ?_⟩
  · exact ⟨_, List.mem_cons_of_mem _ List.mem_cons_self, rfl, rfl⟩
  · exact ⟨_, List.mem_cons_of_mem _
      (List.mem_cons_of_mem _ (List.mem_cons_of_mem _ List.mem_cons_self)), rfl, rfl⟩
  · intro f hf
    cases hf
    exact ⟨BPF, by decide +kernel, List.infix_refl BPF⟩

/-- 6.12 is later than 6.8, but `12-rc3` is no integer. -/
theorem candidate_refused :
    exCandidate.numbers = (6, 12) ∧ exitStatus (exHost exCandidate) = 1 ∧
      hardFail (exHost exCandidate) = 1 := by
  decide +kernel

end Ebpf101.Fileless
