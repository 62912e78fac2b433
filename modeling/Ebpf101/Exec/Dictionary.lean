import Ebpf101.Exec.Execsnoop
import Ebpf101.Lib.Utf8

/-!
# execsnoop: the table and the dictionary

`execsnoop.c` ports the Python user space of chapters 5 and 6 to C. There,
`pending` is a dictionary from pids to entries; `print_event` puts an entry under
a pid with `setdefault` and takes it out with `pop`. Its strings are decoded from
UTF-8 with replacement, while the C program prints bytes.

Results:
1. `table_refines_dictionary`: on any records whose pids have slots of their own
   and whose arguments fit, the dictionary prints the lines of the table, decoded;
   the same bytes if they are UTF-8.
   `bytes_not_kept`: a byte that is not UTF-8 is printed differently.
-/

namespace Ebpf101.Exec

/-! ## The dictionary -/

/-- A value of `pending`. -/
structure Entry where
  uid : Nat
  comm : List Char
  argv : List (List Char)
deriving DecidableEq

/-- A line that the Python program prints. -/
structure PyLine where
  pid : Pid
  uid : Nat
  comm : List Char
  args : List (List Char)
deriving DecidableEq

abbrev Dict := Pid → Option Entry

/-- `event.comm.decode("utf-8", "replace")`, and likewise for `arg`: the buffer up
to its NUL. -/
def decodeBuf (buf : List UInt8) : List Char := Utf8.decode (cstr buf)

/-- The entry that `setdefault` puts under a new pid. -/
def Entry.new (e : Event) : Entry := ⟨e.uid, decodeBuf e.comm.bytes, []⟩

def Entry.append (s : Entry) (e : Event) : Entry := { s with argv := s.argv ++ [decodeBuf e.arg] }

/-- `print_event`. -/
def printEvent (pending : Dict) (e : Event) : Dict × Option PyLine :=
  match e.type with
  | .arg =>
    let slot := (pending e.pid).getD (Entry.new e)
    (Function.update pending e.pid (some (slot.append e)), none)
  | .ret =>
    (Function.update pending e.pid none,
      (pending e.pid).map fun slot => ⟨e.pid, slot.uid, slot.comm, slot.argv⟩)

/-- The dictionary after the records `es`. -/
def pyAfter (es : List Event) : Dict := Runs.exec printEvent (fun _ => none) es

/-- The lines that the Python program prints for the records `es`. -/
def pyPrinted (es : List Event) : List PyLine :=
  (Runs.outs printEvent (fun _ => none) es).reduceOption

/-! ## The two outputs -/

/-- A line of the C program, its strings decoded. -/
def Line.decode (l : Line) : PyLine :=
  ⟨l.pid, l.uid, decodeBuf l.comm.bytes, l.args.map Utf8.decode⟩

/-- What is written for a line. -/
structure Output where
  pid : Pid
  uid : Nat
  comm : List UInt8
  args : List (List UInt8)
deriving DecidableEq

def Line.output (l : Line) : Output := ⟨l.pid, l.uid, cstr l.comm.bytes, l.args⟩

def PyLine.output (l : PyLine) : Output :=
  ⟨l.pid, l.uid, Utf8.encode l.comm, l.args.map Utf8.encode⟩

/-! ## The records -/

/-- The arguments received for a process since its last end marker. -/
def pendingArgs (pid : Pid) (es : List Event) : Nat :=
  es.foldl (fun n e => if e.pid ≠ pid then n else if e.type = .ret then 0 else n + 1) 0

/-- The slot of the process has room for the argument of the record. -/
def RoomAt (pre : List Event) (e : Event) : Prop :=
  e.type = .arg → pendingArgs e.pid pre < MAXARGS

/-- Processes that share a slot are equal. -/
def OwnSlots (es : List Event) : Prop :=
  ∀ e ∈ es, ∀ e' ∈ es, e.pid % TABLE_SIZE = e'.pid % TABLE_SIZE → e.pid = e'.pid

/-- The arguments are strings of at most `ARGSIZE - 1` bytes. -/
def ShortArgs (es : List Event) : Prop :=
  ∀ e ∈ es, e.type = .arg → (cstr e.arg).length ≤ ARGSIZE - 1

/-- The strings of the argument records satisfy `P`. -/
def Texts (P : List UInt8 → Prop) (es : List Event) : Prop :=
  ∀ e ∈ es, e.type = .arg → P (cstr e.comm.bytes) ∧ P (cstr e.arg)

namespace DictionaryLemmas

open ExecsnoopLemmas

/-! ## Steps of the dictionary -/

theorem pyAfter_snoc_ne {pid : Pid} {e : Event} (h : pid ≠ e.pid) (es : List Event) :
    pyAfter (es ++ [e]) pid = pyAfter es pid := by
  rw [pyAfter, Runs.exec_snoc]
  unfold printEvent
  split <;> exact Function.update_of_ne h _ _

theorem pyAfter_snoc_arg {e : Event} (ht : e.type = .arg) (es : List Event) :
    pyAfter (es ++ [e]) e.pid =
      some (((pyAfter es e.pid).getD (Entry.new e)).append e) := by
  rw [pyAfter, Runs.exec_snoc, printEvent, ht]
  exact Function.update_self _ _ _

theorem pyAfter_snoc_ret {e : Event} (ht : e.type = .ret) (es : List Event) :
    pyAfter (es ++ [e]) e.pid = none := by
  rw [pyAfter, Runs.exec_snoc, printEvent, ht]
  exact Function.update_self _ _ _

theorem pyPrinted_snoc (es : List Event) (e : Event) :
    pyPrinted (es ++ [e]) = pyPrinted es ++ (printEvent (pyAfter es) e).2.toList := by
  rw [pyPrinted, Runs.outs_snoc, List.reduceOption_append, List.reduceOption_singleton]
  rfl

theorem pendingArgs_snoc (pid : Pid) (es : List Event) (e : Event) :
    pendingArgs pid (es ++ [e]) =
      if e.pid ≠ pid then pendingArgs pid es
      else if e.type = .ret then 0 else pendingArgs pid es + 1 := by
  simp [pendingArgs]

/-- The number of arguments in an entry, zero if there is none. -/
def argc (s : Option Entry) : Nat := s.elim 0 fun s => s.argv.length

/-- The dictionary keeps every argument since the last end marker. -/
theorem argc_pyAfter (pid : Pid) (es : List Event) :
    argc (pyAfter es pid) = pendingArgs pid es := by
  induction es using List.reverseRecOn with
  | nil => rfl
  | append_singleton es e ih =>
    rw [pendingArgs_snoc]
    rcases eq_or_ne e.pid pid with rfl | hne
    · rw [if_neg (not_not.mpr rfl), ← ih]
      cases ht : e.type with
      | arg =>
        rw [pyAfter_snoc_arg ht, if_neg (by decide)]
        cases pyAfter es e.pid with
        | none => rfl
        | some s => exact List.length_append
      | ret =>
        rw [pyAfter_snoc_ret ht, if_pos rfl]
        rfl
    · rw [if_pos hne, pyAfter_snoc_ne hne.symm, ih]

/-! ## A slot as an entry -/

/-- What a slot holds for a process. An inactive slot, or another process's, holds
nothing, whatever bytes are left in it. -/
def entryOf (pid : Pid) (p : Pending) : Option Entry :=
  if p.active = true ∧ p.pid = pid then
    some ⟨p.uid, decodeBuf p.comm.bytes, p.argv.map decodeBuf⟩
  else none

theorem entryOf_start (e : Event) : entryOf e.pid (Pending.start e) = some (Entry.new e) :=
  if_pos ⟨rfl, rfl⟩

theorem entryOf_isFor {p : Pending} {e : Event} (h : p.isFor e = true) :
    entryOf e.pid p = some ⟨p.uid, decodeBuf p.comm.bytes, p.argv.map decodeBuf⟩ :=
  if_pos (isFor_iff.mp h)

theorem entryOf_not_isFor {p : Pending} {e : Event} (h : ¬ p.isFor e = true) :
    entryOf e.pid p = none :=
  if_neg (mt isFor_iff.mpr h)

theorem cstr_strncpyArg_short {buf : List UInt8} (h : (cstr buf).length ≤ ARGSIZE - 1) :
    cstr (strncpyArg buf) = cstr buf := by
  have htext : cstr buf = text (some (CString.ofBytes buf)) := (List.take_of_length_le h).symm
  rw [cstr_strncpyArg htext, ← htext]

/-- An argument that fits is appended to the entry. -/
theorem entryOf_push {p : Pending} {e : Event} (hroom : p.argv.length < MAXARGS)
    (hshort : (cstr e.arg).length ≤ ARGSIZE - 1) :
    entryOf e.pid (p.push e) = (entryOf e.pid p).map (Entry.append · e) := by
  rw [Pending.push, dif_pos hroom]
  unfold entryOf
  split
  · have harg : decodeBuf (strncpyArg e.arg) = decodeBuf e.arg :=
      congrArg Utf8.decode (cstr_strncpyArg_short hshort)
    simp [Entry.append, harg]
  · rfl

/-- An argument in its slot is an argument in the dictionary. -/
theorem entryOf_arg {p : Pending} {e : Event} (ht : e.type = .arg)
    (hroom : argc (entryOf e.pid p) < MAXARGS) (hshort : (cstr e.arg).length ≤ ARGSIZE - 1) :
    entryOf e.pid (handleSlot p e).1 = some (((entryOf e.pid p).getD (Entry.new e)).append e) := by
  simp only [handleSlot, ht]
  split
  · next h =>
    rw [entryOf_isFor h] at hroom ⊢
    rw [entryOf_push (by simpa [argc] using hroom) hshort, entryOf_isFor h]
    rfl
  · next h =>
    have hempty : (Pending.start e).argv.length < MAXARGS := Nat.zero_lt_succ _
    rw [entryOf_push hempty hshort, entryOf_start, entryOf_not_isFor h]
    rfl

/-- An end marker in its slot is an end marker in the dictionary. -/
theorem entryOf_ret {p : Pending} {e : Event} (ht : e.type = .ret) :
    entryOf e.pid (handleSlot p e).1 = none ∧
    (handleSlot p e).2.map Line.decode =
      (entryOf e.pid p).map fun s => ⟨e.pid, s.uid, s.comm, s.argv⟩ := by
  simp only [handleSlot, ht]
  split
  · next h =>
    rw [entryOf_isFor h]
    refine ⟨if_neg fun hact => Bool.false_ne_true hact.1, ?_⟩
    simp [Line.decode, (isFor_iff.mp h).2, decodeBuf]
  · next h =>
    rw [entryOf_not_isFor h]
    exact ⟨rfl, rfl⟩

/-! ## The simulation -/

/-- The table and the dictionary after the same records: the slots of the
processes `pids` hold their entries, and the lines are the same. -/
structure Simulates (pids : List Pid) (pre : List Event) : Prop where
  entries : ∀ pid ∈ pids, pyAfter pre pid = entryOf pid (after pre (getSlot pid))
  lines : pyPrinted pre = (printed pre).map Line.decode

theorem simulates_nil (pids : List Pid) : Simulates pids [] :=
  ⟨fun _ _ => (if_neg fun h => Bool.false_ne_true h.1).symm, rfl⟩

theorem Simulates.step {pids : List Pid} {pre : List Event} {e : Event} (h : Simulates pids pre)
    (hmem : e.pid ∈ pids)
    (hslots : ∀ pid ∈ pids, pid % TABLE_SIZE = e.pid % TABLE_SIZE → pid = e.pid)
    (hroom : RoomAt pre e) (hshort : e.type = .arg → (cstr e.arg).length ≤ ARGSIZE - 1) :
    Simulates pids (pre ++ [e]) := by
  have hown := h.entries e.pid hmem
  have hself : pyAfter (pre ++ [e]) e.pid = entryOf e.pid (after (pre ++ [e]) (getSlot e.pid)) ∧
      (printEvent (pyAfter pre) e).2 =
        (handleSlot (after pre (getSlot e.pid)) e).2.map Line.decode := by
    rw [after_snoc_self]
    cases ht : e.type with
    | arg =>
      have hargc : argc (entryOf e.pid (after pre (getSlot e.pid))) < MAXARGS := by
        rw [← hown, argc_pyAfter]
        exact hroom ht
      refine ⟨?_, by simp only [printEvent, handleSlot, ht, Option.map_none]⟩
      rw [pyAfter_snoc_arg ht, hown, entryOf_arg ht hargc (hshort ht)]
    | ret =>
      obtain ⟨hfree, hline⟩ := entryOf_ret (p := after pre (getSlot e.pid)) ht
      refine ⟨by rw [pyAfter_snoc_ret ht, hfree], ?_⟩
      rw [hline, ← hown, printEvent, ht]
  constructor
  · intro pid hpid
    rcases eq_or_ne pid e.pid with rfl | hne
    · exact hself.1
    · have hk : getSlot pid ≠ getSlot e.pid := getSlot_ne (mt (hslots pid hpid) hne)
      rw [pyAfter_snoc_ne hne, after_snoc_ne hk, h.entries pid hpid]
  · rw [pyPrinted_snoc, printed_snoc, List.map_append, h.lines, hself.2]
    cases (handleSlot (after pre (getSlot e.pid)) e).2 <;> rfl

theorem simulates {es : List Event} (hslots : OwnSlots es) (hroom : Runs.Along RoomAt es)
    (hshort : ShortArgs es) : Simulates (es.map Event.pid) es := by
  refine Runs.prefix_history (P := Simulates (es.map Event.pid)) (simulates_nil _) ?_
  intro pre e post he h
  have hmem : e ∈ es := by simp [he]
  refine h.step (List.mem_map_of_mem hmem) ?_ (hroom pre e post he) (hshort e hmem)
  intro pid hpid hmod
  obtain ⟨e', he', rfl⟩ := List.mem_map.mp hpid
  exact hslots e' he' e hmem hmod

/-! ## The strings of the lines -/

/-- The strings of a slot satisfy `P`. -/
def SlotTexts (P : List UInt8 → Prop) (p : Pending) : Prop :=
  P (cstr p.comm.bytes) ∧ ∀ a ∈ p.argv, P (cstr a)

/-- The strings of a line satisfy `P`. -/
def LineTexts (P : List UInt8 → Prop) (l : Line) : Prop :=
  P (cstr l.comm.bytes) ∧ ∀ a ∈ l.args, P a

theorem slotTexts_push {P : List UInt8 → Prop} {p : Pending} {e : Event} (h : SlotTexts P p)
    (harg : P (cstr (strncpyArg e.arg))) : SlotTexts P (p.push e) := by
  unfold Pending.push
  split
  · refine ⟨h.1, fun a ha => ?_⟩
    rcases List.mem_append.mp ha with ha | ha
    · exact h.2 a ha
    · rw [List.mem_singleton.mp ha]
      exact harg
  · exact h

/-- A record brings its own strings into the slot and prints those it finds
there. -/
theorem slotTexts_handleSlot {P : List UInt8 → Prop} {p : Pending} {e : Event}
    (h : SlotTexts P p) (hcomm : e.type = .arg → P (cstr e.comm.bytes))
    (harg : e.type = .arg → P (cstr (strncpyArg e.arg))) :
    SlotTexts P (handleSlot p e).1 ∧ ∀ l ∈ (handleSlot p e).2, LineTexts P l := by
  cases ht : e.type with
  | arg =>
    simp only [handleSlot, ht]
    refine ⟨slotTexts_push ?_ (harg ht), fun l hl => by cases hl⟩
    split
    · exact h
    · exact ⟨hcomm ht, fun a ha => by cases ha⟩
  | ret =>
    simp only [handleSlot, ht]
    split
    · refine ⟨h, fun l hl => ?_⟩
      cases hl
      refine ⟨h.1, fun a ha => ?_⟩
      obtain ⟨b, hb, rfl⟩ := List.mem_map.mp ha
      exact h.2 b hb
    · exact ⟨h, fun l hl => by cases hl⟩

/-- The strings of the printed lines are strings of the records. -/
theorem printed_texts {P : List UInt8 → Prop} {es : List Event} (h0 : P [])
    (hshort : ShortArgs es) (htexts : Texts P es) : ∀ l ∈ printed es, LineTexts P l := by
  suffices h : (∀ k, SlotTexts P (after es k)) ∧ ∀ l ∈ printed es, LineTexts P l from h.2
  refine Runs.prefix_history
    (P := fun pre => (∀ k, SlotTexts P (after pre k)) ∧ ∀ l ∈ printed pre, LineTexts P l) ?_ ?_
  · exact ⟨fun _ => ⟨h0, fun a ha => by cases ha⟩, fun l hl => by cases hl⟩
  · intro pre e post he ⟨hslots, hlines⟩
    have hmem : e ∈ es := by simp [he]
    obtain ⟨hslot, hline⟩ := slotTexts_handleSlot (hslots (getSlot e.pid))
      (fun ht => (htexts e hmem ht).1)
      (fun ht => by rw [cstr_strncpyArg_short (hshort e hmem ht)]; exact (htexts e hmem ht).2)
    constructor
    · intro k
      rcases eq_or_ne k (getSlot e.pid) with rfl | hk
      · rw [after_snoc_self]
        exact hslot
      · rw [after_snoc_ne hk]
        exact hslots k
    · intro l hl
      rw [printed_snoc] at hl
      rcases List.mem_append.mp hl with hl | hl
      · exact hlines l hl
      · exact hline l (Option.mem_toList.mp hl)

/-- Decoding a line of UTF-8 strings keeps its bytes. -/
theorem output_decode {l : Line} (h : LineTexts Utf8.Valid l) : l.decode.output = l.output := by
  have hargs : (l.args.map Utf8.decode).map Utf8.encode = l.args := by
    rw [List.map_map]
    exact (List.map_congr_left fun a ha => Utf8.encode_decode (h.2 a ha)).trans (List.map_id _)
  show Output.mk _ _ (Utf8.encode (Utf8.decode (cstr l.comm.bytes)))
    ((l.args.map Utf8.decode).map Utf8.encode) = _
  rw [Utf8.encode_decode h.1, hargs]
  rfl

end DictionaryLemmas

open DictionaryLemmas

/-! ## 1. The table refines the dictionary -/

/-- For any argument and end records, in any order, where processes that share a
slot are equal, no process has more than `MAXARGS` arguments between two of its
end markers, and the arguments are strings of at most `ARGSIZE - 1` bytes: the
Python program prints the lines of the C program, decoded. If the strings are
UTF-8, what the two write is the same. -/
theorem table_refines_dictionary (es : List Event) (hslots : OwnSlots es)
    (hroom : Runs.Along RoomAt es) (hshort : ShortArgs es) :
    pyPrinted es = (printed es).map Line.decode ∧
    (Texts Utf8.Valid es → (pyPrinted es).map PyLine.output = (printed es).map Line.output) := by
  have hlines := (simulates hslots hroom hshort).lines
  refine ⟨hlines, fun hvalid => ?_⟩
  rw [hlines, List.map_map]
  exact List.map_congr_left fun l hl =>
    output_decode (printed_texts ⟨[], rfl⟩ hshort hvalid l hl)

instance (es : List Event) : Decidable (OwnSlots es) :=
  inferInstanceAs (Decidable (∀ e ∈ es, ∀ e' ∈ es, _ → _))

instance (pre : List Event) (e : Event) : Decidable (RoomAt pre e) :=
  inferInstanceAs (Decidable (_ → _))

instance (es : List Event) : Decidable (ShortArgs es) :=
  inferInstanceAs (Decidable (∀ e ∈ es, _ → _))

/-- An end marker without arguments, the records of two processes in turn, and an
argument whose end marker never comes. -/
def exStray : List Event :=
  [⟨9, 0, Comm.ofBytes [120], .ret, [0]⟩,
   ⟨7, 0, Comm.ofBytes [115], .arg, [0xC3, 0xA9, 0]⟩,
   ⟨8, 1, Comm.ofBytes [116], .arg, [98, 0]⟩,
   ⟨7, 0, Comm.ofBytes [115], .arg, [99, 0]⟩,
   ⟨8, 1, Comm.ofBytes [116], .ret, [0]⟩,
   ⟨7, 0, Comm.ofBytes [115], .ret, [0]⟩,
   ⟨8, 1, Comm.ofBytes [116], .arg, [98, 0]⟩]

/-- Both programs print the same two lines. -/
theorem exStray_same :
    (pyPrinted exStray).map PyLine.output = (printed exStray).map Line.output ∧
    (printed exStray).map Line.output =
      [⟨8, 1, [116], [[98]]⟩, ⟨7, 0, [115], [[0xC3, 0xA9], [99]]⟩] := by
  refine ⟨(table_refines_dictionary exStray (by decide +kernel) (by decide +kernel)
    (by decide +kernel)).2 ?_, by decide +kernel⟩
  intro e he ht
  refine ⟨⟨Utf8.decode (cstr e.comm.bytes), ?_⟩, ⟨Utf8.decode (cstr e.arg), ?_⟩⟩ <;>
    revert e <;> decide +kernel

/-- An argument of one byte that is not UTF-8. -/
def exByte : List Event :=
  [⟨7, 0, Comm.ofBytes [115], .arg, [0xFF, 0]⟩, ⟨7, 0, Comm.ofBytes [115], .ret, [0]⟩]

/-- The C program prints the byte, the Python program U+FFFD. -/
theorem bytes_not_kept :
    OwnSlots exByte ∧ Runs.Along RoomAt exByte ∧ ShortArgs exByte ∧
    (printed exByte).map Line.output = [⟨7, 0, [115], [[0xFF]]⟩] ∧
    (pyPrinted exByte).map PyLine.output = [⟨7, 0, [115], [[0xEF, 0xBF, 0xBD]]⟩] := by
  decide +kernel

end Ebpf101.Exec
