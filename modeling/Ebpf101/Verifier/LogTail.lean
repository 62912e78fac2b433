import Mathlib.Data.List.Basic
import Ebpf101.Basic
import Ebpf101.Lib.InPlace

/-!
# The tail of the verifier log

Chapter 14, `14-verifier/verifier.c`: `print_log_tail` scans the log once, keeps the
starts of the last `n` non-empty lines in a ring of 64 pointers, and prints those lines.
A pointer into the log is an offset; an entry of the ring that was never written is
`none`, and reading one would show up as `none` in the output.

Results:
1. `printLogTail_spec`: of a log of fewer than `2 ^ 31` bytes it prints the last
   non-empty lines, in order. `longLog_not_printed`: the length is kept in an `int`, so
   of a line of `2 ^ 32` bytes nothing is printed.
-/

namespace Ebpf101.Verifier

open InPlace

/-! ## print_log_tail -/

def NUL : Char := Char.ofNat 0

/-- The number of entries of `ring`. -/
def RING : Nat := 64

/-- A length as an `int`. -/
def toInt (len : Nat) : Int := Int.bmod len (2 ^ 32)

/-- `n`, clamped to the size of the ring. -/
def clamp (n : Int) : Nat := if n < 1 then 1 else if n > 64 then 64 else n.toNat

/-- The variables of the scan. -/
structure Scan where
  ring : List (Option Nat)
  count : Nat
  line : Nat
deriving DecidableEq

def Scan.start : Scan := ⟨List.replicate RING none, 0, 0⟩

/-- `ring[count % n] = line; count++;` -/
def Scan.keep (n : Nat) (st : Scan) : Scan :=
  { st with ring := st.ring.set (st.count % n) (some st.line), count := st.count + 1 }

/-- The turn of the loop for `p`. The byte behind the log is its NUL. -/
def Scan.step (log : List Char) (n : Nat) (st : Scan) (p : Nat) : Scan :=
  if log.getD p NUL = '\n' ∨ log.getD p NUL = NUL then
    { (if p > st.line then st.keep n else st) with line := p + 1 }
  else st

/-- The whole loop, `p` from `log` to `log + len`. -/
def scan (log : List Char) (n : Nat) : Scan :=
  (List.range (toInt log.length + 1).toNat).foldl (Scan.step log n) Scan.start

/-- The `l` bytes from `s` on, up to the next newline or to the end of the log. -/
def textAt (log : List Char) (s : Nat) : List Char :=
  match (log.drop s).findIdx? (· = '\n') with
  | some l => (log.drop s).take l
  | none => log.drop s

/-- What a kept line is printed as. -/
def row (line : List Char) : List Char := "      | ".toList ++ line ++ ['\n']

/-- What `print_log_tail` prints, piece by piece. -/
def printLogTail (log : Option (List Char)) (n : Int) : List (Option (List Char)) :=
  match log with
  | none | some [] => [some "      (no verifier log captured)\n".toList]
  | some log =>
    let n := clamp n
    let st := scan log n
    let shown := if st.count < n then st.count else n
    let start := if st.count < n then 0 else st.count % n
    (List.range shown).map fun i =>
      (st.ring.getD ((start + i) % n) none).map fun s => row (textAt log s)

/-! ## What it is for -/

/-- The lines of a log that are not empty. -/
def nonEmptyLines (log : List Char) : List (List Char) := (log.splitOn '\n').filter (· ≠ [])

/-- The last `m` of them, or all if they are fewer. -/
def lastLines (log : List Char) (m : Nat) : List (List Char) :=
  (nonEmptyLines log).drop ((nonEmptyLines log).length - m)

namespace LogTailLemmas

/-! ## Clamping -/

theorem clamp_bounds (n : Int) : 1 ≤ clamp n ∧ clamp n ≤ RING := by
  unfold clamp RING
  split
  · decide
  · split
    · decide
    · omega

theorem toInt_of_lt {len : Nat} (h : len < 2 ^ 31) : toInt len = len := by
  unfold toInt
  apply Int.bmod_eq_of_le
  · omega
  · omega

/-! ## Lines -/

/-- A line is read back from its start. -/
theorem textAt_line {pre cur rest : List Char} (hcur : '\n' ∉ cur)
    (hrest : rest = [] ∨ rest.head? = some '\n') :
    textAt (pre ++ cur ++ rest) pre.length = cur := by
  have hdrop : (pre ++ cur ++ rest).drop pre.length = cur ++ rest := by
    rw [List.append_assoc, List.drop_left]
  have hnone : cur.findIdx? (· = '\n') = none := by
    rw [List.findIdx?_eq_none_iff]
    intro c hc
    exact decide_eq_false fun h => hcur (h ▸ hc)
  unfold textAt
  rw [hdrop]
  rcases hrest with rfl | hhead
  · rw [List.append_nil, hnone]
  · obtain ⟨rest', rfl⟩ := List.head?_eq_some_iff.mp hhead
    rw [List.findIdx?_append, hnone]
    simp [List.findIdx?_cons]

theorem nonEmptyLines_line {cur : List Char} (hcur : '\n' ∉ cur) :
    nonEmptyLines cur = [cur].filter (· ≠ []) := by
  rw [nonEmptyLines, List.splitOn, List.splitOnP_eq_singleton]
  intro c hc
  exact beq_false_of_ne fun he => hcur (he ▸ hc)

theorem nonEmptyLines_append {cur : List Char} (hcur : '\n' ∉ cur) (rest : List Char) :
    nonEmptyLines (cur ++ '\n' :: rest) = [cur].filter (· ≠ []) ++ nonEmptyLines rest := by
  rw [← nonEmptyLines_line hcur, nonEmptyLines, nonEmptyLines, nonEmptyLines, List.splitOn,
    List.splitOnP_append_cons _ _ (by simp), List.filter_append]
  rfl

/-- A log of one line has that line as its last ones. -/
theorem lastLines_line {log : List Char} {c : Char} (hlog : '\n' ∉ log)
    (hhead : log.head? = some c) {m : Nat} (hm : 1 ≤ m) : lastLines log m = [log] := by
  have hne : log ≠ [] := by
    rintro rfl
    cases hhead
  have hlines : nonEmptyLines log = [log] := by
    rw [nonEmptyLines_line hlog, List.filter_singleton, decide_eq_true hne]
    rfl
  rw [lastLines, hlines, List.length_singleton, Nat.sub_eq_zero_of_le hm, List.drop_zero]

/-- The byte behind what has been read. -/
theorem getD_next (seen rest : List Char) :
    (seen ++ rest).getD seen.length NUL = rest.head?.getD NUL := by
  rw [List.getD_eq_getElem?_getD, List.getElem?_append_right (Nat.le_refl _), Nat.sub_self,
    List.head?_eq_getElem?]

/-! ## The scan -/

/-- The variables when the lines `lines` have been kept and the line that starts at
`line` is being read. -/
structure Kept (log : List Char) (n : Nat) (lines : List (List Char)) (line : Nat)
    (st : Scan) : Prop where
  line_eq : st.line = line
  window : ∃ starts : List Nat, Window (starts.map some) (st.ring.take n) ∧
    starts.length = st.count ∧
    starts.map (textAt log) = lines
  ring_length : st.ring.length = RING

theorem kept_start (log : List Char) (n : Nat) : Kept log n [] 0 Scan.start :=
  ⟨rfl, ⟨[], window_nil _, rfl, rfl⟩, List.length_replicate⟩

section Step

variable {log : List Char} {n : Nat} {lines : List (List Char)} {st : Scan}

theorem Kept.take_length {line : Nat} (h : Kept log n lines line st) (hn : n ≤ RING) :
    (st.ring.take n).length = n := by
  rw [List.length_take, h.ring_length, Nat.min_eq_left hn]

theorem Kept.keep {line : Nat} (h : Kept log n lines line st) (hpos : 1 ≤ n) (hn : n ≤ RING)
    (next : Nat) :
    Kept log n (lines ++ [textAt log line]) next { st.keep n with line := next } := by
  obtain ⟨starts, hwindow, hlen, htexts⟩ := h.window
  have htake := h.take_length hn
  refine ⟨rfl, ⟨starts ++ [line], ?_, ?_, ?_⟩, ?_⟩
  · have hpush := hwindow.push (Nat.lt_of_lt_of_eq hpos htake.symm) (some line)
    rw [htake, List.length_map, hlen, ← List.take_set, ← h.line_eq] at hpush
    rw [List.map_append, ← h.line_eq]
    exact hpush
  · rw [List.length_append, hlen]
    rfl
  · rw [List.map_append, htexts]
    rfl
  · exact (List.length_set ..).trans h.ring_length

/-- A byte that ends no line changes nothing. -/
theorem step_inside {p : Nat} (hnl : log.getD p NUL ≠ '\n') (hnul : log.getD p NUL ≠ NUL) :
    st.step log n p = st :=
  if_neg (not_or.mpr ⟨hnl, hnul⟩)

/-- The byte that ends the line `cur`: the line is kept unless it is empty. -/
theorem Kept.step_end {pre cur rest : List Char} (hlog : log = pre ++ cur ++ rest)
    (h : Kept log n lines pre.length st) (hpos : 1 ≤ n) (hn : n ≤ RING) (hcur : '\n' ∉ cur)
    (hrest : rest = [] ∨ rest.head? = some '\n') :
    Kept log n (lines ++ [cur].filter (· ≠ [])) ((pre ++ cur).length + 1)
      (st.step log n (pre ++ cur).length) := by
  have hends : log.getD (pre ++ cur).length NUL = '\n' ∨
      log.getD (pre ++ cur).length NUL = NUL := by
    rw [hlog, getD_next]
    rcases hrest with rfl | hhead
    · exact Or.inr rfl
    · rw [hhead]
      exact Or.inl rfl
  rw [Scan.step, if_pos hends, h.line_eq]
  rcases eq_or_ne cur [] with rfl | hne
  · rw [if_neg (by simp)]
    simpa using ⟨rfl, h.window, h.ring_length⟩
  · have hlt : (pre ++ cur).length > pre.length := by
      rw [List.length_append]
      exact Nat.lt_add_of_pos_right (List.length_pos_iff.mpr hne)
    rw [if_pos hlt, List.filter_singleton, decide_eq_true hne]
    have hkeep := h.keep hpos hn ((pre ++ cur).length + 1)
    rw [show textAt log pre.length = cur by rw [hlog]; exact textAt_line hcur hrest] at hkeep
    exact hkeep

/-- From the middle of a line to the NUL: what remains is cut into its lines. -/
theorem kept_scan (hpos : 1 ≤ n) (hn : n ≤ RING) (hnul : NUL ∉ log) {rest : List Char} :
    ∀ {pre cur : List Char} {lines : List (List Char)} {st : Scan},
      log = pre ++ cur ++ rest → '\n' ∉ cur →
      Kept log n lines pre.length st →
      Kept log n (lines ++ nonEmptyLines (cur ++ rest)) (log.length + 1)
        ((List.range' (pre ++ cur).length (rest.length + 1)).foldl (Scan.step log n) st) := by
  induction rest with
  | nil =>
    intro pre cur lines st hlog hcur h
    have hend := h.step_end hlog hpos hn hcur (Or.inl rfl)
    rw [List.append_nil, nonEmptyLines_line hcur, hlog, List.append_nil]
    rw [hlog, List.append_nil] at hend
    exact hend
  | cons c rest ih =>
    intro pre cur lines st hlog hcur h
    rw [List.length_cons, List.range'_succ, List.foldl_cons]
    rcases eq_or_ne c '\n' with rfl | hc
    · have hend := h.step_end hlog hpos hn hcur (Or.inr rfl)
      have hlog' : log = (pre ++ cur ++ ['\n']) ++ [] ++ rest := by simpa using hlog
      have hstart : (pre ++ cur).length + 1 = (pre ++ cur ++ ['\n'] ++ []).length := by
        simp [Nat.add_assoc]
      rw [nonEmptyLines_append hcur, ← List.append_assoc, hstart]
      exact ih hlog' List.not_mem_nil (by simpa [Nat.add_assoc] using hend)
    · have hbyte : log.getD (pre ++ cur).length NUL = c := by
        rw [hlog, getD_next]
        rfl
      have hcnul : c ≠ NUL := fun he => hnul (by rw [hlog, ← he]; simp)
      rw [step_inside (by rwa [hbyte]) (by rwa [hbyte])]
      have hlog' : log = pre ++ (cur ++ [c]) ++ rest := by simpa using hlog
      have hcur' : '\n' ∉ cur ++ [c] := by
        rw [List.mem_append, List.mem_singleton, not_or]
        exact ⟨hcur, fun he => hc he.symm⟩
      have hnext := ih hlog' hcur' h
      simpa [Nat.add_assoc] using hnext

end Step

/-- After the whole loop. -/
theorem scan_kept {log : List Char} {n : Nat} (hpos : 1 ≤ n) (hn : n ≤ RING) (hnul : NUL ∉ log)
    (hlen : log.length < 2 ^ 31) :
    Kept log n (nonEmptyLines log) (log.length + 1) (scan log n) := by
  rw [scan, toInt_of_lt hlen, Int.toNat_natCast_add_one, List.range_eq_range']
  have hstart : log = [] ++ [] ++ log := rfl
  exact kept_scan hpos hn hnul hstart List.not_mem_nil (kept_start log n)

/-! ## The output -/

/-- Reading the ring from `start` on gives the last lines. -/
theorem ring_read {ring : List (Option Nat)} {starts : List Nat} {n : Nat}
    (h : Window (starts.map some) (ring.take n)) (hn : (ring.take n).length = n)
    (hpos : 1 ≤ n) {i : Nat} (hi : i < starts.length - (starts.length - n)) :
    ring.getD (((if starts.length < n then 0 else starts.length % n) + i) % n) none =
      starts[starts.length - n + i]? := by
  have hidx : ((if starts.length < n then 0 else starts.length % n) + i) % n =
      (starts.length - n + i) % n := by
    split
    · next hlt => rw [Nat.sub_eq_zero_of_le (Nat.le_of_lt hlt)]
    · next hge =>
      rw [Nat.mod_add_mod, ← Nat.add_mod_right (starts.length - n + i) n]
      congr 1
      omega
  have hread := h.at_mod (starts.length - n + i) (by rw [List.length_map]; omega)
    (by rw [List.length_map, hn]; omega)
  rw [hn, List.getElem?_take_of_lt (Nat.mod_lt _ hpos), List.getElem?_map] at hread
  rw [hidx, List.getD_eq_getElem?_getD, hread]
  cases starts[starts.length - n + i]? <;> rfl

/-- A log whose length is 0 as an `int`: only its first byte is looked at. -/
theorem printLogTail_of_toInt_zero {log : List Char} {c : Char} (hhead : log.head? = some c)
    (hnl : c ≠ '\n')
    (hnul : c ≠ NUL) (hlen : toInt log.length = 0) (n : Int) : printLogTail (some log) n = [] := by
  obtain ⟨log', rfl⟩ := List.head?_eq_some_iff.mp hhead
  have hpos : 0 < clamp n := (clamp_bounds n).1
  have hscan : scan (c :: log') (clamp n) = Scan.start := by
    rw [scan, hlen]
    exact step_inside hnl hnul
  simp only [printLogTail, hscan, Scan.start, if_pos hpos, List.range_zero, List.map_nil]

end LogTailLemmas

open LogTailLemmas

/-! ## 1. The tail -/

/-- For every log and every number of lines asked for. -/
theorem printLogTail_spec {log : List Char} (hne : log ≠ []) (hnul : NUL ∉ log)
    (hlen : log.length < 2 ^ 31) (n : Int) :
    printLogTail (some log) n = (lastLines log (clamp n)).map fun l => some (row l) := by
  obtain ⟨hpos, hn⟩ := clamp_bounds n
  have hkept := scan_kept hpos hn hnul hlen
  obtain ⟨starts, hwindow, hcount, htexts⟩ := hkept.window
  obtain ⟨c, log, rfl⟩ := List.exists_cons_of_ne_nil hne
  simp only [printLogTail, ← hcount]
  have hshown : (if starts.length < clamp n then starts.length else clamp n) =
      starts.length - (starts.length - clamp n) := by
    split <;> omega
  rw [hshown, lastLines, ← htexts, List.length_map, ← List.map_drop, List.map_map]
  refine List.ext_getElem (by simp) fun i hi hi' => ?_
  rw [List.length_map, List.length_range] at hi
  rw [List.getElem_map, List.getElem_range, ring_read hwindow (hkept.take_length hn) hpos hi,
    List.getElem_map, List.getElem_drop, List.getElem?_eq_getElem]
  rfl

/-- Three lines and a blank one, without a final newline; the last two are printed. -/
theorem exLog_tail :
    printLogTail (some "R1 = 0\n\nR2 = 1\nR0 invalid mem access".toList) 2 =
      ["      | R2 = 1\n".toList, "      | R0 invalid mem access\n".toList].map some := by
  rw [printLogTail_spec (by decide) (by decide) (by decide)]
  decide +kernel

/-- One line of `2 ^ 32` bytes. -/
theorem longLog_not_printed :
    printLogTail (some (List.replicate (2 ^ 32) 'a')) 12 = [] ∧
    lastLines (List.replicate (2 ^ 32) 'a') (clamp 12) = [List.replicate (2 ^ 32) 'a'] := by
  have hhead : (List.replicate (2 ^ 32) 'a').head? = some 'a' := by
    rw [List.head?_replicate, if_neg (by decide)]
  have hzero : toInt (List.replicate (2 ^ 32) 'a').length = 0 := by
    rw [List.length_replicate]
    decide
  have hone : '\n' ∉ List.replicate (2 ^ 32) 'a' :=
    fun h => absurd (List.eq_of_mem_replicate h) (by decide)
  exact ⟨printLogTail_of_toInt_zero hhead (by decide) (by decide) hzero 12,
    lastLines_line hone hhead (by decide)⟩

end Ebpf101.Verifier
