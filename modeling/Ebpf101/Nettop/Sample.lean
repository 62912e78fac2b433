import Ebpf101.Nettop.Kernel
import Mathlib.Data.List.Sort
import Mathlib.Algebra.Order.Field.Rat

/-!
# nettop: one sampling pass

`sample` of `27-nettop/nettop.c` walks `proc_stats_map` with
`bpf_map_get_next_key`, deletes the rows of processes it can no longer see, and
diffs every other row against the table `prev` of the previous pass. Deleting
the row under the cursor makes the walk start over, so a pass may visit a row
more than once.

`prev` is modelled by its used part, the first `prev_n` entries. Rates are exact
rationals. `Row` also keeps the deltas `dtx` and `drx` behind the two rates.

The loop is `walk`, with fuel; `Nettop.Pass` shows that the fuel `sample` gives
it is always enough.
-/

namespace Ebpf101.Nettop

/-- `MAX_ROWS`, the size of `prev` and of `rows`. -/
def MAX_ROWS : Nat := 4096

/-- `REAP_IDLE_NS`: how long an unseeable pid must be idle to count as dead. -/
def REAP_IDLE_NS : Nat := 60 * 1000000000

/-- `struct prev_entry`. -/
structure PrevEntry where
  pid : Pid
  txBytes : Nat
  rxBytes : Nat
  retrans : Nat
  seen : Bool
deriving DecidableEq, Repr

/-- `struct row`, with the deltas behind its rates. -/
structure Row where
  pid : Pid
  comm : Comm
  dtx : Nat
  drx : Nat
  txBps : ℚ
  rxBps : ℚ
  txTotal : Nat
  rxTotal : Nat
  retrans : Nat
deriving DecidableEq

/-- What one pass reads: the clock, `/proc`, and its arguments. -/
structure PassEnv where
  nowNs : Nat
  alive : Pid → Bool
  elapsed : ℚ
  maxRows : Nat
  priming : Bool

/-! ## The body of the loop -/

/-- `prev_find`. -/
def prevFind (prev : List PrevEntry) (pid : Pid) : Option PrevEntry :=
  prev.find? fun p => p.pid = pid

/-- The stores through the pointer that `prev_find` returned: the totals become
the baseline of the next pass. -/
def prevStore (pid : Pid) (ps : ProcStats) : List PrevEntry → List PrevEntry
  | [] => []
  | p :: prev =>
    if p.pid = pid then ⟨p.pid, ps.txBytes, ps.rxBytes, ps.retransPkts, true⟩ :: prev
    else p :: prevStore pid ps prev

/-- How long a row has been idle at the pass. -/
def idleNs (env : PassEnv) (ps : ProcStats) : Nat :=
  if env.nowNs > ps.lastNs then env.nowNs - ps.lastNs else 0

/-- The reaper's test: the pid is not visible and the row has been idle. -/
def reaps (env : PassEnv) (e : Pid × ProcStats) : Bool :=
  !env.alive e.1 && decide (idleNs env e.2 > REAP_IDLE_NS)

/-- A decrease counts as a recycled pid, not as negative traffic. -/
def diff (now prev : Nat) : Nat := if now ≥ prev then now - prev else 0

/-- The row printed for `e` when its baseline is `p`; none if it was idle. -/
def mkRow (env : PassEnv) (e : Pid × ProcStats) (p : PrevEntry) : Option Row :=
  let dtx := diff e.2.txBytes p.txBytes
  let drx := diff e.2.rxBytes p.rxBytes
  let dre := diff e.2.retransPkts p.retrans
  if dtx = 0 ∧ drx = 0 ∧ dre = 0 then none
  else some
    { pid := e.1
      comm := e.2.comm.terminate
      dtx := dtx
      drx := drx
      txBps := dtx / env.elapsed
      rxBps := drx / env.elapsed
      txTotal := e.2.txBytes
      rxTotal := e.2.rxBytes
      retrans := dre }

/-- Diff `e` against its baseline `p` and store the new baseline. -/
def diffRow (env : PassEnv) (prev : List PrevEntry) (rows : List Row) (e : Pid × ProcStats)
    (p : PrevEntry) : List PrevEntry × List Row :=
  let prev := prevStore e.1 e.2 prev
  match mkRow env e p with
  | none => (prev, rows)
  | some r => if rows.length ≥ env.maxRows then (prev, rows) else (prev, rows ++ [r])

/-- A row that is not reaped: find or create its baseline, then diff. -/
def visit (env : PassEnv) (acc : List PrevEntry × List Row) (e : Pid × ProcStats) :
    List PrevEntry × List Row :=
  match prevFind acc.1 e.1 with
  | some p => diffRow env acc.1 acc.2 e p
  | none =>
    if acc.1.length ≥ MAX_ROWS then acc
    else if env.priming then
      -- the totals since boot are the baseline, and nothing is shown
      (acc.1 ++ [⟨e.1, e.2.txBytes, e.2.rxBytes, e.2.retransPkts, true⟩], acc.2)
    else
      -- the process appeared during the run: its totals are its traffic
      let p : PrevEntry := ⟨e.1, 0, 0, 0, true⟩
      diffRow env (acc.1 ++ [p]) acc.2 e p

/-! ## The loop -/

/-- The loop's state: the cursor, the map, the table and the rows so far. -/
structure Walk where
  key : Pid
  map : BpfMap Pid ProcStats
  prev : List PrevEntry
  rows : List Row

/-- One iteration; `none` when `bpf_map_get_next_key` finds no further key. -/
def walkStep (env : PassEnv) (w : Walk) : Option Walk :=
  match w.map.getNextKey w.key with
  | none => none
  | some key =>
    match w.map.lookupElem key with
    | none => some { w with key := key }
    | some ps =>
      if reaps env (key, ps) then some { w with key := key, map := w.map.deleteElem key }
      else
        let acc := visit env (w.prev, w.rows) (key, ps)
        some { w with key := key, prev := acc.1, rows := acc.2 }

/-- The loop: iterate until there is no further key. -/
def walk (env : PassEnv) : Nat → Walk → Option Walk
  | 0, _ => none
  | fuel + 1, w =>
    match walkStep env w with
    | none => some w
    | some w' => walk env fuel w'

/-- `by_traffic`: busiest first, then by pid. -/
def byTraffic (x y : Row) : Int :=
  let xt := x.txBps + x.rxBps
  let yt := y.txBps + y.rxBps
  if xt > yt then -1
  else if xt < yt then 1
  else (if x.pid > y.pid then 1 else 0) - (if x.pid < y.pid then 1 else 0)

/-- `x` may stand before `y` in the frame. -/
def ByTraffic (x y : Row) : Prop := byTraffic x y ≤ 0

instance : DecidableRel ByTraffic := fun x y => inferInstanceAs (Decidable (byTraffic x y ≤ 0))

/-- `prev[i].seen = 0` for every entry, at the start of a pass. -/
def clearSeen (prev : List PrevEntry) : List PrevEntry :=
  prev.map fun p => { p with seen := false }

/-- What a pass leaves: the map, the table, and the rows it returns. -/
structure PassResult where
  map : BpfMap Pid ProcStats
  prev : List PrevEntry
  rows : List Row

/-- One whole pass. Key 0 is the walk's start. -/
def sample (env : PassEnv) (map : BpfMap Pid ProcStats) (prev : List PrevEntry) :
    Option PassResult :=
  (walk env ((map.size + 1) * (map.size + 1)) ⟨0, map, clearSeen prev, []⟩).map fun w =>
    { map := w.map
      prev := w.prev.filter fun p => p.seen
      rows := w.rows.insertionSort ByTraffic }

end Ebpf101.Nettop
