import Mathlib.Data.List.DropRight
import Ebpf101.Lib.Text

/-!
# Is the BPF LSM active?

Three programs of the repository look for `bpf` in `/sys/kernel/security/lsm`, a line of
names with commas between them: `bpf_lsm_active` of `20-lsm/execguard.c` with `strtok`,
`20-lsm/enable-bpf-lsm.sh` with `tr` and `grep -x`, and
`25-fileless-lab/src/fileless-gate-preflight.sh` with `grep`.

Results:
1. `checks_agree_iff`: they agree, and are right, if and only if `bpf` is listed where the
   name of a module contains it. `preflight_fooled`: a module called `xbpf`.
-/

namespace Ebpf101.Lsm

open Text

def BPF : List Char := "bpf".toList

def NUL : Char := Char.ofNat 0

/-! ## execguard.c -/

/-- `fgets` into a buffer of `size` bytes: up to a newline, or until the buffer is full. -/
def fgets (size : Nat) (file : List Char) : Option (List Char) :=
  if file = [] then none
  else
    let chunk := file.take (size - 1)
    some (chunk.takeWhile (· ≠ '\n') ++ (chunk.dropWhile (· ≠ '\n')).take 1)

/-- The C string in a buffer. -/
def cString (buf : List Char) : List Char := buf.takeWhile (· ≠ NUL)

/-- The delimiters of `strtok`. -/
def delimiter (c : Char) : Bool := c = ',' || c = '\n'

/-- What `bpf_lsm_active` returns and prints. -/
structure Checked where
  found : Nat
  stderr : List Char

def notActive (buf : List Char) : List Char :=
  "BPF LSM is not active. Current LSMs: ".toList ++ buf ++
    ("\nEnable it (CONFIG_BPF_LSM is already =y, so only a boot param + reboot):\n" ++
      "  1. add 'bpf' to the lsm= list in /etc/default/grub, e.g.\n" ++
      "     GRUB_CMDLINE_LINUX=\"... lsm=lockdown,capability,landlock,yama,apparmor,bpf\"\n" ++
      "  2. sudo update-grub && sudo reboot\n" ++
      "Then re-run this program.\n").toList

/-- `bpf_lsm_active`, on the file if it can be opened. -/
def bpfLsmActive (file : Option (List Char)) : Checked :=
  match file.bind (fgets 256) with
  | none => ⟨0, []⟩
  | some line =>
    let buf := cString line
    let tmp := buf.take 255
    let found := (tokens delimiter (tmp.length + 1) tmp).foldl
      (fun found tok => if tok = BPF then 1 else found) 0
    ⟨found, if found = 0 then notActive buf else []⟩

/-! ## enable-bpf-lsm.sh -/

/-- `$(...)`: the newlines at the end are removed. -/
def commandSubstitution (output : List Char) : List Char := output.rdropWhile (· = '\n')

/-- The lines that `grep` reads; a newline at the end begins no line. -/
def textLines (s : List Char) : List (List Char) :=
  if (s.splitOn '\n').getLast? = some [] then (s.splitOn '\n').dropLast else s.splitOn '\n'

/-- The condition of the script: `bpf` is a line of `CUR`, with newlines for its commas. -/
def alreadyActive (cur : List Char) : Bool := (textLines (translate ',' '\n' cur)).any (· = BPF)

/-- `CUR`. -/
def curOf (file : List Char) : List Char := commandSubstitution file

/-! ## fileless-gate-preflight.sh -/

inductive Report where
  | ok (text : List Char)
  | warn (text : List Char)
  | bad (text : List Char)
deriving DecidableEq, Repr

/-- `grep -q bpf`. -/
def grepBpf (file : List Char) : Bool := (textLines file).any (BPF <:+: ·)

/-- The report on the list, for a file that can be read. -/
def preflight (file : Option (List Char)) : Report :=
  match file with
  | none => .warn "cannot read /sys/kernel/security/lsm".toList
  | some file =>
    if grepBpf file then .ok "bpf active in LSM list".toList
    else .bad ("bpf not in LSM list (".toList ++ commandSubstitution file ++
      "); add lsm=...,bpf".toList)

/-! ## Statements -/

/-- The content of the file: one line, with or without its newline, of 255 bytes at most. -/
structure LsmFile where
  line : List Char
  newline : Bool
  one_line : '\n' ∉ line
  no_nul : NUL ∉ line
  fits : line.length + newline.toNat ≤ 255

def LsmFile.content (f : LsmFile) : List Char := f.line ++ if f.newline then ['\n'] else []

/-- The names of the list. -/
def LsmFile.names (f : LsmFile) : List (List Char) := f.line.splitOn ','

/-- All three find `bpf` exactly if it is a name of the list. -/
structure ChecksAgree (f : LsmFile) : Prop where
  execguard : (bpfLsmActive (some f.content)).found = 1 ↔ BPF ∈ f.names
  enable : alreadyActive (curOf f.content) = true ↔ BPF ∈ f.names
  preflight : preflight (some f.content) = .ok "bpf active in LSM list".toList ↔ BPF ∈ f.names

namespace ActiveCheckLemmas

theorem BPF_ne : BPF ≠ [] := by decide

/-! ## The line -/

theorem content_length (f : LsmFile) : f.content.length ≤ 255 := by
  have hfits := f.fits
  rw [LsmFile.content, List.length_append]
  cases hn : f.newline <;> rw [hn] at hfits <;> exact hfits

/-- The whole file is read. -/
theorem fgets_content (f : LsmFile) (hne : f.content ≠ []) :
    fgets 256 f.content = some f.content := by
  have hclean : ∀ c ∈ f.line, decide (c ≠ '\n') = true := fun c hc =>
    decide_eq_true fun he => f.one_line (he ▸ hc)
  rw [fgets, if_neg hne]
  dsimp only
  rw [List.take_of_length_le (content_length f), LsmFile.content,
    List.takeWhile_append_of_pos hclean, List.dropWhile_append_of_pos hclean]
  cases f.newline <;> simp

theorem cString_content (f : LsmFile) : cString f.content = f.content := by
  rw [cString, List.takeWhile_eq_self_iff]
  intro c hc
  refine decide_eq_true fun he => ?_
  rw [LsmFile.content, List.mem_append, he] at hc
  rcases hc with hline | hnewline
  · exact f.no_nul hline
  · cases hn : f.newline with
    | true =>
      rw [hn, if_pos rfl, List.mem_singleton] at hnewline
      exact absurd hnewline (by decide)
    | false =>
      rw [hn] at hnewline
      cases hnewline

/-- Without its newline the file is the line. -/
theorem curOf_content (f : LsmFile) : curOf f.content = f.line := by
  have hline : f.line.rdropWhile (· = '\n') = f.line := by
    rcases List.eq_nil_or_concat f.line with hnil | ⟨init, last, hcons⟩
    · rw [hnil]
      rfl
    · have hlast : ¬ decide (last = '\n') = true := by
        rw [decide_eq_true_eq]
        rintro rfl
        exact f.one_line (by simp [hcons])
      rw [hcons, List.concat_eq_append, List.rdropWhile_concat_neg (· = '\n') init last hlast]
  rw [curOf, commandSubstitution, LsmFile.content]
  cases f.newline with
  | true => exact (List.rdropWhile_concat_pos (· = '\n') f.line '\n' (by decide)).trans hline
  | false => rw [if_neg Bool.false_ne_true, List.append_nil, hline]

/-! ## execguard -/

theorem found_iff (toks : List (List Char)) :
    toks.foldl (fun found tok => if tok = BPF then 1 else found) 0 = 1 ↔ BPF ∈ toks := by
  induction toks using List.reverseRecOn with
  | nil => simp
  | append_singleton toks tok ih =>
    rw [List.foldl_append, List.mem_append, List.mem_singleton, ← ih]
    rcases eq_or_ne tok BPF with rfl | hne
    · simp
    · simp [hne, Ne.symm hne]

/-- The words between the delimiters that are not empty are the names that are not empty. -/
theorem words_content (f : LsmFile) :
    words delimiter f.content = f.names.filter fun w => !w.isEmpty := by
  have hline : words delimiter f.line = f.names.filter fun w => !w.isEmpty := by
    rw [words, LsmFile.names, List.splitOn]
    refine congrArg (List.filter _) (splitOnP_congr fun c hc => ?_)
    have hnewline : c ≠ '\n' := fun he => f.one_line (he ▸ hc)
    rw [delimiter, decide_eq_false hnewline, Bool.or_false]
    rfl
  rw [LsmFile.content]
  cases f.newline with
  | true => rw [if_pos rfl, words_append_sep (by decide), words_nil, List.append_nil, hline]
  | false => rw [if_neg Bool.false_ne_true, List.append_nil, hline]

theorem execguard_iff (f : LsmFile) :
    (bpfLsmActive (some f.content)).found = 1 ↔ BPF ∈ f.names := by
  have hmem : BPF ∈ words delimiter f.content ↔ BPF ∈ f.names := by
    rw [words_content, List.mem_filter]
    exact and_iff_left rfl
  rw [← hmem, bpfLsmActive, Option.bind_some]
  rcases eq_or_ne f.content [] with hnil | hne
  · rw [hnil, words_nil]
    exact iff_of_false (by decide) List.not_mem_nil
  · rw [fgets_content f hne]
    dsimp only
    rw [cString_content, List.take_of_length_le (content_length f),
      tokens_eq_words (Nat.lt_succ_self _)]
    exact found_iff _

/-! ## The scripts -/

/-- A line that is not empty is found among the lines as among the pieces. -/
theorem mem_textLines {l s : List Char} (hne : l ≠ []) : l ∈ textLines s ↔ l ∈ s.splitOn '\n' := by
  unfold textLines
  split
  · next hlast =>
    obtain ⟨init, hinit⟩ := List.getLast?_eq_some_iff.mp hlast
    rw [hinit, List.dropLast_concat, List.mem_append, List.mem_singleton, or_iff_left hne]
  · rfl

/-- The script looks for the name. -/
theorem alreadyActive_iff {cur : List Char} (h : '\n' ∉ cur) :
    alreadyActive cur = true ↔ BPF ∈ cur.splitOn ',' := by
  rw [alreadyActive, List.any_eq_true]
  simp only [decide_eq_true_eq, exists_eq_right]
  rw [mem_textLines BPF_ne, splitOn_translate h]

/-- `grep` looks for the letters. -/
theorem grepBpf_iff (f : LsmFile) : grepBpf f.content = true ↔ ∃ name ∈ f.names, BPF <:+: name := by
  have hlines : (∃ l ∈ textLines f.content, BPF <:+: l) ↔ BPF <:+: f.content := by
    rw [infix_split_iff (show '\n' ∉ BPF by decide) BPF_ne]
    constructor
    · rintro ⟨l, hl, hb⟩
      exact ⟨l, (mem_textLines fun he => BPF_ne (List.infix_nil.mp (he ▸ hb))).mp hl, hb⟩
    · rintro ⟨l, hl, hb⟩
      exact ⟨l, (mem_textLines fun he => BPF_ne (List.infix_nil.mp (he ▸ hb))).mpr hl, hb⟩
  have hcontent : BPF <:+: f.content ↔ BPF <:+: f.line := by
    rw [LsmFile.content]
    cases f.newline with
    | true =>
      rw [if_pos rfl, infix_append_cons_iff (show '\n' ∉ BPF by decide)]
      exact or_iff_left fun h => BPF_ne (List.infix_nil.mp h)
    | false => rw [if_neg Bool.false_ne_true, List.append_nil]
  rw [grepBpf, List.any_eq_true]
  simp only [decide_eq_true_eq]
  rw [hlines, hcontent, infix_split_iff (show ',' ∉ BPF by decide) BPF_ne]
  rfl

theorem preflight_iff (f : LsmFile) :
    preflight (some f.content) = .ok "bpf active in LSM list".toList ↔
      ∃ name ∈ f.names, BPF <:+: name := by
  rw [← grepBpf_iff, preflight]
  cases grepBpf f.content <;> simp

end ActiveCheckLemmas

open ActiveCheckLemmas

/-! ## 1. The checks -/

/-- For every list of names. -/
theorem checks_agree_iff (f : LsmFile) :
    ChecksAgree f ↔ ((∃ name ∈ f.names, BPF <:+: name) → BPF ∈ f.names) := by
  constructor
  · intro h hcontains
    exact h.preflight.mp ((preflight_iff f).mpr hcontains)
  · intro h
    have henable : alreadyActive (curOf f.content) = true ↔ BPF ∈ f.names := by
      rw [curOf_content]
      exact alreadyActive_iff f.one_line
    refine ⟨execguard_iff f, henable, (preflight_iff f).trans ⟨h, fun hmem => ?_⟩⟩
    exact ⟨BPF, hmem, List.infix_refl BPF⟩

/-- A list with a module whose name only contains the letters. -/
def exNames : LsmFile := ⟨"lockdown,xbpf".toList, true, by decide, by decide, by decide⟩

/-- The preflight script takes `xbpf` for `bpf`; the others do not. -/
theorem preflight_fooled :
    preflight (some exNames.content) = .ok "bpf active in LSM list".toList ∧
    (bpfLsmActive (some exNames.content)).found = 0 ∧
    alreadyActive (curOf exNames.content) = false ∧ ¬ ChecksAgree exNames := by
  have hok : preflight (some exNames.content) = .ok "bpf active in LSM list".toList := by
    decide +kernel
  refine ⟨hok, by decide +kernel, by decide +kernel, fun h => ?_⟩
  exact absurd (h.preflight.mp hok) (by decide +kernel)

end Ebpf101.Lsm
