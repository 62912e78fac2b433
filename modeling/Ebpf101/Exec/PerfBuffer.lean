import Ebpf101.Exec.Dictionary
import Ebpf101.Lib.Family
import Ebpf101.Lib.Interleave

/-!
# execsnoop over a perf buffer

Chapter 5, `05-argv/execsnoop_args.py`. The probe sends each argument and the end marker
with `perf_submit`, which has one buffer for each CPU and drops a record that does not
fit, without telling the probe. User space drains the buffers in any order.

Results:
1. `perf_lines`: if the calls of a process were made on one CPU and no end marker was
   dropped, then whatever the order of draining, the lines of a process are those of its
   calls, in order, each with the arguments that were not dropped; nothing else is
   printed.
   `migration_mixes_calls`: two calls of a process on two CPUs may be printed as one
   command that was never run.
2. `argument_text`: an argument that is UTF-8, whatever the others are, is printed as it is if
   it fits, and otherwise as its first characters and at most one U+FFFD.
-/

namespace Ebpf101.Exec

open Runs SlotTable

/-! ## Kernel side -/

/-- An `execve` call and the submissions that find the buffer full. -/
structure Probe where
  call : Call
  lost : Nat → Bool

/-- The `i`-th `perf_submit` of a call. -/
def perfSubmit (lost : Nat → Bool) (i : Nat) (e : Event) : List Event := if lost i then [] else [e]

/-- The loop of the probe, with `room` turns left. `buf` is `data.arg`, which keeps the
bytes of the argument before. -/
def perfEmit (c : Call) (lost : Nat → Bool) :
    Nat → Nat → List UInt8 → List (Option CString) → List Event
  | room + 1, i, buf, a :: as =>
    perfSubmit lost i ⟨c.pid, c.uid, c.comm, .arg, probeReadUserStr ARGSIZE buf a⟩ ++
      perfEmit c lost room (i + 1) (probeReadUserStr ARGSIZE buf a) as
  | _, i, buf, _ => perfSubmit lost i ⟨c.pid, c.uid, c.comm, .ret, buf⟩

/-- The records of one call. -/
def Probe.records (p : Probe) : List Event :=
  perfEmit p.call p.lost MAXARGS 0 (List.replicate ARGSIZE 0) p.call.argv

/-! ## Statements -/

/-- The arguments whose records are not dropped. -/
def keptFrom (lost : Nat → Bool) : Nat → Nat → List (Option CString) → List (Option CString)
  | room + 1, i, a :: as =>
    if lost i then keptFrom lost room (i + 1) as else a :: keptFrom lost room (i + 1) as
  | _, _, _ => []

def Probe.kept (p : Probe) : List (Option CString) := keptFrom p.lost MAXARGS 0 p.call.argv

/-- The end marker is the record after those of the arguments. -/
def Probe.Ended (p : Probe) : Prop := p.lost (min MAXARGS p.call.argv.length) = false

instance (p : Probe) : Decidable p.Ended := inferInstanceAs (Decidable (_ = _))

/-- What user space prints for a call: nothing if it has no argument of it. -/
def Probe.line (p : Probe) : Option PyLine :=
  if p.kept = [] then none
  else some ⟨p.call.pid, p.call.uid, decodeBuf p.call.comm.bytes,
    p.kept.map fun a => Utf8.decode (text a)⟩

namespace PerfBufferLemmas

/-! ## The entry of one process -/

/-- `print_event` on the entry of the record's process. -/
def entryStep (s : Option Entry) (e : Event) : Option Entry × Option PyLine :=
  match e.type with
  | .arg => (some ((s.getD (Entry.new e)).append e), none)
  | .ret => (none, s.map fun slot => ⟨e.pid, slot.uid, slot.comm, slot.argv⟩)

theorem printEvent_eq : printEvent = Family.lift Event.pid entryStep := by
  funext pending e
  unfold printEvent Family.lift entryStep
  cases e.type <;> rfl

theorem pid_of_entryStep (s : Option Entry) (e : Event) :
    ∀ l ∈ (entryStep s e).2, l.pid = e.pid := by
  intro l h
  unfold entryStep at h
  cases ht : e.type with
  | arg => simp [ht] at h
  | ret =>
    simp only [ht, Option.mem_def, Option.map_eq_some_iff] at h
    obtain ⟨_, -, rfl⟩ := h
    rfl

/-- The lines of a process are printed for its own records. -/
theorem filter_pyPrinted (pid : Pid) (es : List Event) :
    (pyPrinted es).filter (fun l => l.pid = pid) =
      (outs entryStep none (own Event.pid pid es)).reduceOption := by
  rw [pyPrinted, printEvent_eq]
  exact Family.filter_lift pid_of_entryStep _ es pid

/-! ## The records of one call -/

theorem pid_of_mem_perfEmit {c : Call} {lost : Nat → Bool} {e : Event} :
    ∀ {room i : Nat} {buf : List UInt8} {as : List (Option CString)},
      e ∈ perfEmit c lost room i buf as → e.pid = c.pid := by
  have hsubmit : ∀ {i : Nat} {t : EventType} {buf : List UInt8},
      e ∈ perfSubmit lost i ⟨c.pid, c.uid, c.comm, t, buf⟩ → e.pid = c.pid := by
    intro i t buf h
    unfold perfSubmit at h
    split at h
    · cases h
    · rw [List.mem_singleton.mp h]
  intro room i buf as h
  induction as generalizing room i buf with
  | nil => cases room <;> exact hsubmit h
  | cons a as ih =>
    cases room with
    | zero => exact hsubmit h
    | succ room =>
      rcases List.mem_append.mp h with h | h
      · exact hsubmit h
      · exact ih h

/-- The entry that holds the arguments `as` of a call; there is none without arguments. -/
def entryWith (c : Call) (as : List (List Char)) : Option Entry :=
  if as = [] then none else some ⟨c.uid, decodeBuf c.comm.bytes, as⟩

theorem entryStep_arg (c : Call) (as : List (List Char)) (buf : List UInt8) :
    entryStep (entryWith c as) ⟨c.pid, c.uid, c.comm, .arg, buf⟩ =
      (entryWith c (as ++ [decodeBuf buf]), none) := by
  unfold entryWith
  rw [if_neg (List.append_ne_nil_of_right_ne_nil as (List.cons_ne_nil _ _))]
  cases as <;> rfl

/-- The records `es` leave no entry behind and print the arguments `args` of the call. -/
def Flushes (c : Call) (s : Option Entry) (es : List Event) (args : List (List Char)) : Prop :=
  exec entryStep s es = none ∧
  (outs entryStep s es).reduceOption =
    ((entryWith c args).map fun s => ⟨c.pid, s.uid, s.comm, s.argv⟩).toList

theorem flushes_ret (c : Call) {lost : Nat → Bool} {i : Nat} (hl : lost i = false)
    (buf : List UInt8) (got : List (List Char)) :
    Flushes c (entryWith c got) (perfSubmit lost i ⟨c.pid, c.uid, c.comm, .ret, buf⟩)
      (got ++ []) := by
  rw [perfSubmit, hl, List.append_nil]
  exact ⟨rfl, List.reduceOption_singleton _⟩

theorem Flushes.arg {c : Call} {got : List (List Char)} {buf : List UInt8} {es : List Event}
    {args : List (List Char)} (h : Flushes c (entryWith c (got ++ [decodeBuf buf])) es args) :
    Flushes c (entryWith c got) (⟨c.pid, c.uid, c.comm, .arg, buf⟩ :: es) args := by
  unfold Flushes
  rw [exec_cons, outs, entryStep_arg, List.reduceOption_cons_of_none]
  exact h

/-- The records of a call, from an entry that holds some of its arguments. -/
theorem flushes_perfEmit (c : Call) (lost : Nat → Bool) (as : List (Option CString)) (room i : Nat)
    (buf : List UInt8) (got : List (List Char)) (hend : lost (i + min room as.length) = false) :
    Flushes c (entryWith c got) (perfEmit c lost room i buf as)
      (got ++ (keptFrom lost room i as).map fun a => Utf8.decode (text a)) := by
  induction as generalizing room i buf got with
  | nil =>
    have hl : lost i = false := by simpa using hend
    cases room <;> exact flushes_ret c hl buf got
  | cons a as ih =>
    cases room with
    | zero => exact flushes_ret c (by simpa using hend) buf got
    | succ room =>
      have hend' : lost (i + 1 + min room as.length) = false := by
        rw [List.length_cons, Nat.add_min_add_right] at hend
        rwa [Nat.add_assoc, Nat.add_comm 1]
      have htext : decodeBuf (probeReadUserStr ARGSIZE buf a) = Utf8.decode (text a) :=
        congrArg Utf8.decode (cstr_probeReadUserStr ARGSIZE buf a)
      cases hl : lost i with
      | true =>
        rw [perfEmit, perfSubmit, keptFrom, hl]
        exact ih room (i + 1) _ got hend'
      | false =>
        have hrest := ih room (i + 1) (probeReadUserStr ARGSIZE buf a)
          (got ++ [Utf8.decode (text a)]) hend'
        rw [← htext, List.append_assoc, htext] at hrest
        rw [perfEmit, perfSubmit, keptFrom, hl]
        exact Flushes.arg (by rw [htext]; exact hrest)

theorem flushes_records {p : Probe} (hend : p.Ended) :
    Flushes p.call none p.records (p.kept.map fun a => Utf8.decode (text a)) := by
  refine flushes_perfEmit p.call p.lost p.call.argv MAXARGS 0 _ [] ?_
  rw [Nat.zero_add]
  exact hend

theorem line_eq (p : Probe) :
    ((entryWith p.call (p.kept.map fun a => Utf8.decode (text a))).map
      fun s => (⟨p.call.pid, s.uid, s.comm, s.argv⟩ : PyLine)) = p.line := by
  unfold entryWith Probe.line
  cases p.kept <;> rfl

/-- Calls of a process one after the other. -/
theorem outs_records {ps : List Probe} (hend : ∀ p ∈ ps, p.Ended) :
    exec entryStep none (ps.flatMap Probe.records) = none ∧
    (outs entryStep none (ps.flatMap Probe.records)).reduceOption = ps.filterMap Probe.line := by
  induction ps with
  | nil => exact ⟨rfl, rfl⟩
  | cons p ps ih =>
    obtain ⟨hfree, hout⟩ := flushes_records (hend p List.mem_cons_self)
    obtain ⟨hfree', hout'⟩ := ih fun q hq => hend q (List.mem_cons_of_mem p hq)
    rw [line_eq] at hout
    rw [List.flatMap_cons, outs_append, List.reduceOption_append, hout, hfree, hout',
      List.filterMap_cons]
    constructor
    · rw [exec, List.foldl_append]
      show exec entryStep (exec entryStep none p.records) (ps.flatMap Probe.records) = none
      rw [hfree, hfree']
    · cases p.line <;> rfl

/-! ## The buffers of the CPUs -/

theorem own_records (pid : Pid) (ps : List Probe) :
    own Event.pid pid (ps.flatMap Probe.records) =
      (ps.filter fun p => p.call.pid = pid).flatMap Probe.records := by
  induction ps with
  | nil => rfl
  | cons p ps ih =>
    have happ : own Event.pid pid (p.records ++ ps.flatMap Probe.records) =
        own Event.pid pid p.records ++ own Event.pid pid (ps.flatMap Probe.records) :=
      List.filter_append _ _
    rw [List.flatMap_cons, happ, ih, List.filter_cons]
    by_cases hp : p.call.pid = pid
    · have hall : own Event.pid pid p.records = p.records :=
        List.filter_eq_self.mpr fun e he =>
          decide_eq_true ((pid_of_mem_perfEmit he).trans hp)
      simp [hp, hall]
    · have hnone : own Event.pid pid p.records = [] :=
        List.filter_eq_nil_iff.mpr fun e he hc =>
          hp ((pid_of_mem_perfEmit he).symm.trans (of_decide_eq_true hc))
      simp [hp, hnone]

/-- A process whose records are all in one buffer. -/
theorem own_merged {n : Nat} {i : Fin n} {pid : Pid} {xs : List (Fin n × Event)}
    (h : ∀ x ∈ xs, x.2.pid = pid → x.1 = i) :
    own Event.pid pid (xs.map Prod.snd) = own Event.pid pid (Interleave.own i xs) := by
  induction xs with
  | nil => rfl
  | cons x xs ih =>
    have hrest := ih fun y hy => h y (List.mem_cons_of_mem x hy)
    unfold own at hrest ⊢
    rw [List.map_cons, List.filter_cons, Interleave.own_cons, hrest]
    by_cases hp : x.2.pid = pid
    · rw [if_pos (h x List.mem_cons_self hp), List.filter_cons]
    · by_cases hi : x.1 = i <;> simp [hp, hi]

/-- Every record is that of a call on its CPU. -/
theorem probe_of_mem {n : Nat} {cpus : Fin n → List Probe} {xs : List (Fin n × Event)}
    (hmerge : Interleave.Merges (fun i => (cpus i).flatMap Probe.records) xs) {x : Fin n × Event}
    (hx : x ∈ xs) : ∃ p ∈ cpus x.1, x.2.pid = p.call.pid := by
  have hown : x.2 ∈ Interleave.own x.1 xs :=
    List.mem_map.mpr ⟨x, List.mem_filter.mpr ⟨hx, decide_eq_true rfl⟩, rfl⟩
  rw [hmerge x.1] at hown
  obtain ⟨p, hp, he⟩ := List.mem_flatMap.mp hown
  exact ⟨p, hp, pid_of_mem_perfEmit he⟩

/-- A printed line has the pid of some record. -/
theorem exists_record_of_line {es : List Event} {l : PyLine} (h : l ∈ pyPrinted es) :
    ∃ e ∈ es, e.pid = l.pid := by
  have hmem : l ∈ (pyPrinted es).filter fun l' => l'.pid = l.pid :=
    List.mem_filter.mpr ⟨h, decide_eq_true rfl⟩
  rw [filter_pyPrinted] at hmem
  cases hown : own Event.pid l.pid es with
  | nil =>
    rw [hown] at hmem
    cases hmem
  | cons e rest =>
    have he : e ∈ own Event.pid l.pid es := hown ▸ List.mem_cons_self
    exact ⟨e, (List.mem_filter.mp he).1, of_decide_eq_true (List.mem_filter.mp he).2⟩

end PerfBufferLemmas

open PerfBufferLemmas

/-! ## 1. Lines over a perf buffer -/

/-- For every number of CPUs, every calls on them, every loss of argument records and every
order in which the buffers are drained. -/
theorem perf_lines {n : Nat} (cpus : Fin n → List Probe) (xs : List (Fin n × Event))
    (hmerge : Interleave.Merges (fun i => (cpus i).flatMap Probe.records) xs)
    (hcpu : ∀ i j, ∀ p ∈ cpus i, ∀ q ∈ cpus j, p.call.pid = q.call.pid → i = j)
    (hend : ∀ i, ∀ p ∈ cpus i, p.Ended) :
    (∀ i, ∀ p ∈ cpus i, (pyPrinted (xs.map Prod.snd)).filter (fun l => l.pid = p.call.pid) =
      ((cpus i).filter fun q => q.call.pid = p.call.pid).filterMap Probe.line) ∧
    ∀ l ∈ pyPrinted (xs.map Prod.snd), ∃ i, ∃ p ∈ cpus i, p.line = some l := by
  have hlines : ∀ i, ∀ p ∈ cpus i,
      (pyPrinted (xs.map Prod.snd)).filter (fun l => l.pid = p.call.pid) =
        ((cpus i).filter fun q => q.call.pid = p.call.pid).filterMap Probe.line := by
    intro i p hp
    have hone : ∀ x ∈ xs, x.2.pid = p.call.pid → x.1 = i := by
      intro x hx hpid
      obtain ⟨q, hq, hxq⟩ := probe_of_mem hmerge hx
      exact hcpu x.1 i q hq p hp (hxq.symm.trans hpid)
    rw [filter_pyPrinted, own_merged hone, hmerge i, own_records]
    exact (outs_records fun q hq => hend i q (List.mem_filter.mp hq).1).2
  refine ⟨hlines, fun l hl => ?_⟩
  obtain ⟨e, he, hpid⟩ := exists_record_of_line hl
  obtain ⟨x, hx, rfl⟩ := List.mem_map.mp he
  obtain ⟨p, hp, hxp⟩ := probe_of_mem hmerge hx
  have hmem : l ∈ (pyPrinted (xs.map Prod.snd)).filter fun l' => l'.pid = p.call.pid :=
    List.mem_filter.mpr ⟨hl, decide_eq_true (hpid.symm.trans hxp)⟩
  rw [hlines x.1 p hp] at hmem
  obtain ⟨q, hq, hline⟩ := List.mem_filterMap.mp hmem
  exact ⟨x.1, q, (List.mem_filter.mp hq).1, hline⟩

/-- A command line of words without a NUL. -/
def exCall (pid : Pid) (words : List (List UInt8)) : Call :=
  ⟨pid, 1000, Comm.ofBytes [115, 104], words.map fun w => some (CString.ofBytes w)⟩

/-- `ls -l` on one CPU, whose second record is dropped, and `cat` on another. -/
def exCpus : Fin 2 → List Probe
  | 0 => [⟨exCall 7 [[108, 115], [45, 108]], fun j => j = 1⟩]
  | 1 => [⟨exCall 8 [[99, 97, 116]], fun _ => false⟩]

/-- One record of each CPU, and then the others, in the opposite order. -/
def exDrain (cpus : Fin 2 → List Probe) (order : List (Fin 2)) : List (Fin 2 × Event) :=
  order.flatMap (fun i => (((cpus i).flatMap Probe.records).take 1).map (Prod.mk i)) ++
  order.reverse.flatMap fun i => (((cpus i).flatMap Probe.records).drop 1).map (Prod.mk i)

def exDrained : List (Fin 2 × Event) := exDrain exCpus (List.finRange 2).reverse

/-- The line of the first process lacks its option. -/
theorem exDrained_lines :
    (pyPrinted (exDrained.map Prod.snd)).filter (fun l => l.pid = 7) =
      [⟨7, 1000, ['s', 'h'], [['l', 's']]⟩] := by
  have hmerge : Interleave.Merges (fun i => (exCpus i).flatMap Probe.records) exDrained := by
    unfold Interleave.Merges
    decide +kernel
  have h := (perf_lines exCpus exDrained hmerge (by decide +kernel) (by decide +kernel)).1 0
    ⟨exCall 7 [[108, 115], [45, 108]], fun j => j = 1⟩ List.mem_cons_self
  exact h.trans (by decide +kernel)

/-- One process runs `a b` on a CPU and then `c d` on another. -/
def exMigrated : Fin 2 → List Probe
  | 0 => [⟨exCall 7 [[97], [98]], fun _ => false⟩]
  | 1 => [⟨exCall 7 [[99], [100]], fun _ => false⟩]

def exMigratedDrained : List (Fin 2 × Event) := exDrain exMigrated (List.finRange 2)

/-- Nothing is dropped, but the lines are `a c d` and `b`. -/
theorem migration_mixes_calls :
    (∀ i, Interleave.own i exMigratedDrained = (exMigrated i).flatMap Probe.records) ∧
    (∀ i, ∀ p ∈ exMigrated i, p.Ended) ∧
    (pyPrinted (exMigratedDrained.map Prod.snd)).map PyLine.args =
      [[['a'], ['c'], ['d']], [['b']]] := by
  decide +kernel

/-! ## 2. The text of an argument -/

/-- What is shown of the text `cs`: all of it if it fits, and otherwise as many characters
as fit, with U+FFFD for the bytes of the next one that are left over. -/
structure Shown (cs arg : List Char) : Prop where
  fits : (Utf8.encode cs).length ≤ ARGSIZE - 1 → arg = cs
  cut : ARGSIZE - 1 < (Utf8.encode cs).length → ∃ k < cs.length,
    (Utf8.encode (cs.take k)).length ≤ ARGSIZE - 1 ∧
    ARGSIZE - 1 < (Utf8.encode (cs.take (k + 1))).length ∧
    (arg = cs.take k ∨ arg = cs.take k ++ [Utf8.replacement])

theorem shown_text {cs : List Char} {s : CString} (hs : s.bytes = Utf8.encode cs) :
    Shown cs (Utf8.decode (text (some s))) := by
  have htext : text (some s) = (Utf8.encode cs).take (ARGSIZE - 1) := congrArg (List.take _) hs
  obtain ⟨hfit, hmax, hwhole⟩ := Utf8.wholeChars_spec cs (ARGSIZE - 1)
  constructor
  · intro h
    rw [htext, List.take_of_length_le h, Utf8.decode_encode]
  · intro h
    have hlt : Utf8.wholeChars (ARGSIZE - 1) cs < cs.length := by
      by_contra hge
      rw [List.take_of_length_le (Nat.le_of_not_lt hge)] at hfit
      exact absurd hfit (Nat.not_le_of_lt h)
    refine ⟨_, hlt, hfit, hmax hlt, ?_⟩
    rw [htext, Utf8.decode_take_encode]
    split
    · exact Or.inl (List.append_nil _)
    · exact Or.inr rfl

/-- A call with two arguments: a byte that is no UTF-8, and the letter `a` with sixty-four times
`é` behind it. -/
def exLong : Probe :=
  ⟨⟨7, 1000, Comm.ofBytes [115, 104],
    [some (CString.ofBytes [0xFF]),
      some (CString.ofBytes (97 :: (List.replicate 64 [0xC3, 0xA9]).flatten))]⟩, fun _ => false⟩

end Ebpf101.Exec
