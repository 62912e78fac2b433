import Ebpf101.Lib.Numeral

/-!
# keyring_snoop

Chapter 26, `26-keyring-detect`: two programs report the keys that are created, and
`keyring_snoop.c` marks the reports of large payloads in keys that can stage one. What is
large is set by the first argument, which `strtoull` reads.

Results:
1. `grammar_exact_iff`: an argument is taken exactly if it is a literal below `2 ^ 64`, for
   the number it stands for, if and only if it is not such a literal behind blanks or a
   sign. `minusOne_accepted`: `-1` is taken, for `2 ^ 64 - 1`.
2. `created_marked_iff`: with a literal as the argument, the report of a created key is
   marked if and only if the key is of one of the two types and its payload has that many
   bytes; a report of the system call never is.
-/

namespace Ebpf101.Keyring

open Numeral

/-! ## The reports -/

def TYPE_LEN : Nat := 16

def DESC_LEN : Nat := 64

/-- `struct key_event`. The texts are the C strings in the buffers; `ts_ns` and `comm` are
not looked at. -/
structure KeyEvent where
  pid : UInt32
  uid : UInt32
  datalen : UInt64
  source : UInt8
  type : List Char
  desc : List Char
deriving DecidableEq

/-- What `bpf_core_read_str` leaves in a buffer of `size` bytes that was empty: nothing if
there is no string to be read. -/
def readStr (size : Nat) (s : Option (List Char)) : List Char := (s.getD []).take (size - 1)

/-- The record of `on_key_create`. -/
def onKeyCreate (pid uid : UInt32) (type desc : Option (List Char)) (plen : UInt64) : KeyEvent :=
  ⟨pid, uid, plen, 0, readStr TYPE_LEN type, readStr DESC_LEN desc⟩

/-- The record of `on_sys_add_key`. -/
def onSysAddKey (pid uid : UInt32) (type desc : Option (List Char)) (plen : UInt64) : KeyEvent :=
  ⟨pid, uid, plen, 1, readStr TYPE_LEN type, readStr DESC_LEN desc⟩

/-! ## The loader -/

/-- `is_stageable_type`. -/
def isStageableType (t : List Char) : Bool := t = "user".toList ∨ t = "big_key".toList

def suspicious (suspiciousBytes : UInt64) (e : KeyEvent) : Bool :=
  e.source = 0 && isStageableType e.type && suspiciousBytes ≤ e.datalen

/-- The columns of a line of output. -/
structure Row where
  src : String
  pid : UInt32
  uid : UInt32
  type : List Char
  len : UInt64
  desc : List Char
  mark : String
deriving DecidableEq

/-- `handle_event`. -/
def handleEvent (suspiciousBytes : UInt64) (e : KeyEvent) : Row where
  src := if e.source = 0 then "fentry" else "tracep"
  pid := e.pid
  uid := e.uid
  type := if e.type = [] then ['-'] else e.type
  len := e.datalen
  desc := if e.desc = [] then ['-'] else e.desc
  mark := if suspicious suspiciousBytes e then "  <== STAGED PAYLOAD?" else ""

def usage (argv0 : String) : String :=
  "usage: " ++ argv0 ++ " [min-bytes]  (a non-negative integer)\n"

/-- What `main` does with the arguments behind `argv[0]`: it sets `suspicious_bytes`, or
returns with a text and a code. -/
def parseArgs (argv0 : String) : List (List Char) → Except (String × Nat) UInt64
  | [] => .ok 4096
  | arg :: _ =>
    let v := strtoull arg
    if v.rest.length = arg.length ∨ v.rest ≠ [] ∨ v.erange then .error (usage argv0, 1)
    else .ok (UInt64.ofNat v.value)

/-! ## Statements -/

def Row.Marked (r : Row) : Prop := r.mark ≠ ""

/-- The argument is treated as a non-negative number should be. -/
structure ExactGrammar (argv0 : String) (arg : List Char) (more : List (List Char)) : Prop where
  accepts : (∃ v, parseArgs argv0 (arg :: more) = .ok v) ↔ ∃ n, IsConstant arg n ∧ n < 2 ^ 64
  threshold : ∀ v, parseArgs argv0 (arg :: more) = .ok v → ∃ n, IsConstant arg n ∧ v.toNat = n
  marks : ∀ v e, parseArgs argv0 (arg :: more) = .ok v → e.source = 0 →
    isStageableType e.type = true →
    ((handleEvent v e).Marked ↔ ∃ n, IsConstant arg n ∧ n ≤ e.datalen.toNat)
  rejects : (¬ ∃ n, IsConstant arg n ∧ n < 2 ^ 64) →
    parseArgs argv0 (arg :: more) = .error (usage argv0, 1)

/-- A literal below `2 ^ 64` with blanks or a sign in front. -/
def Decorated (arg : List Char) : Prop :=
  ∃ ws sg t n, Written arg ws sg t ∧ (ws ≠ [] ∨ sg ≠ .absent) ∧ IsConstant t n ∧ n < 2 ^ 64

namespace KeyringLemmas

/-! ## Arguments -/

section Args

variable {argv0 : String} {arg : List Char} {more : List (List Char)}

/-- The three tests of `main`. -/
theorem parseArgs_cases (argv0 : String) (arg : List Char) (more : List (List Char)) :
    (((strtoull arg).rest ≠ arg ∧ (strtoull arg).rest = [] ∧ (strtoull arg).erange = false) ∧
      parseArgs argv0 (arg :: more) = .ok (UInt64.ofNat (strtoull arg).value)) ∨
    (¬ ((strtoull arg).rest ≠ arg ∧ (strtoull arg).rest = [] ∧ (strtoull arg).erange = false) ∧
      parseArgs argv0 (arg :: more) = .error (usage argv0, 1)) := by
  unfold parseArgs
  dsimp only
  split
  · next h =>
    refine Or.inr ⟨?_, rfl⟩
    rintro ⟨hsome, hend, hrange⟩
    rcases h with h | h | h
    · rw [hend, List.length_nil] at h
      exact hsome (hend.trans (List.length_eq_zero_iff.mp h.symm).symm)
    · exact h hend
    · rw [hrange] at h
      cases h
  · next h =>
    obtain ⟨hsome, hend, hrange⟩ := not_or.mp h |>.imp id not_or.mp
    rw [Bool.not_eq_true] at hrange
    exact Or.inl ⟨⟨fun he => hsome (congrArg List.length he), not_not.mp hend, hrange⟩, rfl⟩

/-- What is taken. -/
theorem parseArgs_ok_iff :
    (∃ v, parseArgs argv0 (arg :: more) = .ok v) ↔
      ∃ ws sg t n, Written arg ws sg t ∧ IsConstant t n ∧ n < 2 ^ 64 := by
  rw [← strtoull_spec]
  rcases parseArgs_cases argv0 arg more with ⟨h, hok⟩ | ⟨h, herror⟩
  · exact iff_of_true ⟨_, hok⟩ h
  · refine iff_of_false ?_ h
    rintro ⟨v, hv⟩
    rw [herror] at hv
    cases hv

/-- A literal is taken for its number. -/
theorem parseArgs_constant {n : Nat} (h : IsConstant arg n) (hlt : n < 2 ^ 64) :
    parseArgs argv0 (arg :: more) = .ok (UInt64.ofNat n) := by
  have hwritten : Written arg [] .absent arg := ⟨rfl, fun c hc => absurd hc List.not_mem_nil⟩
  have hvalue : (strtoull arg).value = n := by
    rw [strtoull_written hwritten h, if_pos hlt]
    rfl
  rcases parseArgs_cases argv0 arg more with ⟨-, hok⟩ | ⟨hno, -⟩
  · rw [hok, hvalue]
  · exact absurd (strtoull_spec.mpr ⟨_, _, _, n, hwritten, h, hlt⟩) hno

/-- Without blanks and a sign, what is accepted is a literal. -/
theorem constant_of_ok (hplain : ¬ Decorated arg) {v : UInt64}
    (h : parseArgs argv0 (arg :: more) = .ok v) :
    ∃ n, IsConstant arg n ∧ n < 2 ^ 64 ∧ v = UInt64.ofNat n := by
  obtain ⟨ws, sg, t, n, hwritten, ht, hlt⟩ := parseArgs_ok_iff.mp ⟨v, h⟩
  obtain ⟨hws, hsg⟩ : ws = [] ∧ sg = .absent := by
    refine Classical.byContradiction fun hne => hplain ⟨ws, sg, t, n, hwritten, ?_, ht, hlt⟩
    exact not_and_or.mp hne
  obtain rfl : arg = t := by rw [hwritten.eq, hws, hsg]; rfl
  rw [parseArgs_constant ht hlt] at h
  exact ⟨n, ht, hlt, (Except.ok.inj h).symm⟩

end Args

/-! ## Marks -/

theorem marked_iff {v : UInt64} {e : KeyEvent} :
    (handleEvent v e).Marked ↔ e.source = 0 ∧ isStageableType e.type = true ∧ v ≤ e.datalen := by
  rw [Row.Marked, handleEvent, ← and_assoc]
  cases hs : suspicious v e with
  | true =>
    rw [suspicious, Bool.and_eq_true, Bool.and_eq_true, decide_eq_true_eq, decide_eq_true_eq] at hs
    exact iff_of_true (show "  <== STAGED PAYLOAD?" ≠ "" by decide) hs
  | false =>
    refine iff_of_false (fun h => h rfl) fun h => ?_
    rw [suspicious, decide_eq_true h.1.1, h.1.2, decide_eq_true h.2] at hs
    cases hs

theorem ofNat_le_iff {n : Nat} (hn : n < 2 ^ 64) {x : UInt64} :
    UInt64.ofNat n ≤ x ↔ n ≤ x.toNat := by
  rw [UInt64.le_iff_toNat_le, UInt64.toNat_ofNat_of_lt' hn]

end KeyringLemmas

open KeyringLemmas

/-! ## 1. The grammar -/

/-- For every argument. -/
theorem grammar_exact_iff (argv0 : String) (arg : List Char) (more : List (List Char)) :
    ExactGrammar argv0 arg more ↔ ¬ Decorated arg := by
  constructor
  · rintro h ⟨ws, sg, t, n, hwritten, hdecorated, ht, hlt⟩
    obtain ⟨m, hm, -⟩ := h.accepts.mp (parseArgs_ok_iff.mpr ⟨ws, sg, t, n, hwritten, ht, hlt⟩)
    obtain ⟨hws, hsg, -⟩ := hwritten.plain ht hm
    rcases hdecorated with hne | hne
    · exact hne hws
    · exact hne hsg
  · intro hplain
    refine ⟨⟨?_, ?_⟩, ?_, ?_, ?_⟩
    · rintro ⟨v, hv⟩
      obtain ⟨n, hn, hlt, -⟩ := constant_of_ok hplain hv
      exact ⟨n, hn, hlt⟩
    · rintro ⟨n, hn, hlt⟩
      exact ⟨_, parseArgs_constant hn hlt⟩
    · intro v hv
      obtain ⟨n, hn, hlt, rfl⟩ := constant_of_ok hplain hv
      exact ⟨n, hn, UInt64.toNat_ofNat_of_lt' hlt⟩
    · intro v e hv hsource htype
      obtain ⟨n, hn, hlt, rfl⟩ := constant_of_ok hplain hv
      rw [marked_iff, and_iff_right hsource, and_iff_right htype, ofNat_le_iff hlt]
      constructor
      · exact fun hle => ⟨n, hn, hle⟩
      · rintro ⟨m, hm, hle⟩
        rwa [hn.unique hm]
    · intro hno
      rcases parseArgs_cases argv0 arg more with ⟨-, hok⟩ | ⟨-, herror⟩
      · obtain ⟨n, hn, hlt, -⟩ := constant_of_ok hplain hok
        exact absurd ⟨n, hn, hlt⟩ hno
      · exact herror

/-- A payload of a gigabyte in a key of type `user`. -/
def exStaged : KeyEvent := onKeyCreate 7 0 (some "user".toList) none 0x40000000

/-- With `-1` the largest number there is becomes the threshold, and nothing is marked. -/
theorem minusOne_accepted :
    parseArgs "keyring_snoop" ["-1".toList] = .ok 0xFFFFFFFFFFFFFFFF ∧
    (handleEvent 0xFFFFFFFFFFFFFFFF exStaged).mark = "" ∧
    ¬ ExactGrammar "keyring_snoop" "-1".toList [] := by
  have hok : parseArgs "keyring_snoop" ["-1".toList] = .ok 0xFFFFFFFFFFFFFFFF := by decide +kernel
  refine ⟨hok, by decide +kernel, fun h => ?_⟩
  obtain ⟨n, hn, -⟩ := h.accepts.mp ⟨_, hok⟩
  exact absurd hn.head (by decide)

/-! ## 2. Created keys -/

/-- For every number, and whatever key is created. -/
theorem created_marked_iff {arg : List Char} {n : Nat} (h : IsConstant arg n) (hlt : n < 2 ^ 64)
    (argv0 : String) (more : List (List Char)) :
    ∃ v, parseArgs argv0 (arg :: more) = .ok v ∧
      ∀ pid uid type desc plen,
        ((handleEvent v (onKeyCreate pid uid (some type) desc plen)).Marked ↔
          isStageableType type = true ∧ n ≤ plen.toNat) ∧
        ¬ (handleEvent v (onSysAddKey pid uid (some type) desc plen)).Marked := by
  refine ⟨_, parseArgs_constant h hlt, fun pid uid type desc plen => ⟨?_, ?_⟩⟩
  · -- A type that is too long for the buffer is none of the two, cut or not.
    have htype : isStageableType (readStr TYPE_LEN (some type)) = isStageableType type := by
      rw [readStr, Option.getD_some]
      rcases Nat.lt_or_ge 15 type.length with hlong | hshort
      · have hcut : (type.take 15).length = 15 := by
          rw [List.length_take, Nat.min_eq_left (Nat.le_of_lt hlong)]
        have hno : ∀ s : List Char, 15 ≤ s.length → isStageableType s = false := by
          intro s hs
          refine decide_eq_false ?_
          rintro (rfl | rfl)
          · exact absurd hs (by decide)
          · exact absurd hs (by decide)
        rw [TYPE_LEN, hno _ (Nat.le_of_eq hcut.symm), hno _ (Nat.le_of_lt hlong)]
      · rw [TYPE_LEN, List.take_of_length_le hshort]
    rw [marked_iff]
    simp only [onKeyCreate, htype, true_and, ofNat_le_iff hlt]
  · rw [marked_iff]
    rintro ⟨hsource, -⟩
    exact absurd hsource (show (1 : UInt8) ≠ 0 by decide)

end Ebpf101.Keyring
