import Mathlib.Algebra.BigOperators.Ring.Finset
import Mathlib.Algebra.BigOperators.Ring.List
import Ebpf101.Nettop.Conservation
import Ebpf101.Nettop.Display
import Ebpf101.Nettop.Frame

/-!
# nettop: the whole run, as the screen shows it

`main` of `27-nettop/nettop.c`: attach the hooks, prime the table, and then sleep, sample and
print until a signal comes or `--count` frames are printed. What a run meets is a list of
rounds: in each, the hooks that fire until the pass, the clocks, and how the sleep ends.

Results:
1. `screen_accounts`: someone who reads every frame off the screen and multiplies the rates of
   a process by the time between the frames comes to the bytes that its counters grew by, up to
   a twentieth and half a byte for each second, and to exactly its retransmits; for every run in
   which no counter wraps, the row of the process is not deleted and `--top` shows every row.
   `hidden_behind_top`: with `--top 1` the traffic of the second row is not on the screen.
2. `length_ticks`: how many frames are printed.
-/

namespace Ebpf101.Nettop

open Runs Printed

/-! ## attach_all -/

inductive Hook where
  | tcpSendmsg
  | tcpCleanupRbuf
  | udpSendmsg
  | udpv6Sendmsg
  | skbConsumeUdp
  | tcpRetransmitSkb
  | tcpClose
deriving DecidableEq, Repr

/-- The table `h`. -/
def HOOKS : List (Hook × List Char) :=
  [(.tcpSendmsg, "tcp_sendmsg".toList), (.tcpCleanupRbuf, "tcp_cleanup_rbuf".toList),
    (.udpSendmsg, "udp_sendmsg".toList), (.udpv6Sendmsg, "udpv6_sendmsg".toList),
    (.skbConsumeUdp, "skb_consume_udp".toList), (.tcpRetransmitSkb, "tcp_retransmit_skb".toList),
    (.tcpClose, "tcp_close".toList)]

/-- Where a firing comes from; the eviction of an owner is no hook's. -/
def hookOf : Firing → Option Hook
  | .probe (.tcpSendmsg _) _ _ _ => some .tcpSendmsg
  | .probe (.tcpCleanupRbuf _) _ _ _ => some .tcpCleanupRbuf
  | .probe (.udpSendmsg _) _ _ _ => some .udpSendmsg
  | .probe (.udpv6Sendmsg _) _ _ _ => some .udpv6Sendmsg
  | .probe (.skbConsumeUdp _) _ _ _ => some .skbConsumeUdp
  | .retransmit _ => some .tcpRetransmitSkb
  | .close _ => some .tcpClose
  | .evict _ => none

/-- `attach_all`, given the error of `bpf_program__attach` for each hook: what it returns and
what it prints. -/
def attachAll (attach : Hook → Option (List Char)) : Int × List Char :=
  let warnings := HOOKS.flatMap fun h =>
    match attach h.1 with
    | none => []
    | some error => "warning: could not attach kprobe/".toList ++ h.2 ++ " (".toList ++ error ++
        ") — its traffic will be missing\n".toList
  let attached := HOOKS.countP fun h => (attach h.1).isNone
  if attached = 0 then (-1, warnings ++ "no kprobes attached at all — nothing to report\n".toList)
  else (0, warnings ++ "attached ".toList ++ decimal attached ++ '/' ::
    decimal HOOKS.length ++ " kprobes\n".toList)

/-- Only a hook that is attached fires. -/
def fires (attach : Hook → Option (List Char)) (f : Firing) : Bool :=
  (hookOf f).all fun h => (attach h).isNone

/-! ## main -/

/-- How `nanosleep` ends. -/
inductive Sleep where
  | slept
  | interrupted
  | failed
deriving DecidableEq, Repr

/-- One turn of the loop: the flag at its beginning, the sleep, what fires until the pass, and
the clocks that are read. -/
structure Round where
  exiting : Bool
  sleep : Sleep
  firings : List Firing
  now : ℚ
  nowNs : Nat
  alive : Pid → Bool
  clock : List Char

/-- What a run meets. -/
structure Machine where
  args : Args
  calloc : Bool
  load : Bool
  attach : Hook → Option (List Char)
  early : List Firing
  start : ℚ
  startNs : Nat
  startAlive : Pid → Bool
  rounds : List Round

/-- A clock that went backwards is not divided by. -/
def elapsedOf (env : Args) (prev now : ℚ) : ℚ := if now - prev ≤ 0 then env.interval else now - prev

/-- A frame that is printed: its round, the time since the one before, and its rows. -/
structure Tick where
  round : Round
  elapsed : ℚ
  rows : List Row

def passOf (r : Round) (elapsed : ℚ) : Event := .pass r.nowNs r.alive elapsed

/-- The events of the firings. -/
def fired (attach : Hook → Option (List Char)) (fs : List Firing) : List Event :=
  (fs.filter (fires attach)).map Event.fire

/-- The loop. -/
def loop (env : Args) (attach : Hook → Option (List Char)) :
    List Round → State → ℚ → Int → List Tick
  | [], _, _, _ => []
  | r :: rs, s, prev, samples =>
    if r.exiting ∨ r.sleep = .interrupted then []
    else
      let elapsed := elapsedOf env prev r.now
      let out := step (exec step s (fired attach r.firings)) (passOf r elapsed)
      ⟨r, elapsed, out.2.flatMap Frame.rows⟩ ::
        -- `samples` counts only if there is a limit.
        if env.count ≠ 0 ∧ samples + 1 ≥ env.count then []
        else loop env attach rs out.1 r.now (if env.count = 0 then samples else samples + 1)

/-- What happens up to the priming pass. -/
def primeEvents (m : Machine) : List Event :=
  fired m.attach m.early ++ [.pass m.startNs m.startAlive m.args.interval]

/-- The frames of the run. -/
def ticks (m : Machine) : List Tick :=
  loop m.args m.attach m.rounds (after (primeEvents m)) m.start 0

def tickText (env : Args) (t : Tick) : List Char := printSample env t.round.clock t.rows

/-- What is printed, and the exit status. -/
structure Output where
  stdout : List Char
  stderr : List Char
  status : Int

/-- `main`, behind its arguments. -/
def main (m : Machine) : Output :=
  if !m.calloc then ⟨[], "out of memory\n".toList, 1⟩
  else if !m.load then ⟨[], "failed to open/load BPF skeleton\n".toList, 1⟩
  else
    let attached := attachAll m.attach
    if attached.1 ≠ 0 then ⟨[], attached.2, 1⟩
    else ⟨(ticks m).flatMap (tickText m.args),
      attached.2 ++ "sampling every ".toList ++
        fixed 1 m.args.interval ++ "s — Ctrl-C to stop\n".toList, 0⟩

/-! ## Statements -/

/-- The events of a round that prints its frame. -/
def tickEvents (attach : Hook → Option (List Char)) (t : Tick) : List Event :=
  fired attach t.round.firings ++ [passOf t.round t.elapsed]

/-- The events of the run. -/
def mainEvents (m : Machine) : List Event :=
  primeEvents m ++ (ticks m).flatMap (tickEvents m.attach)

/-- What the counter of `pid` grew by from the priming pass to the last frame. -/
def growth (m : Machine) (pid : Pid) (c : Counter) : Nat :=
  total (lastMap (frames (mainEvents m))) pid c - total (lastMap (frames (primeEvents m))) pid c

/-- What a frame on the screen says of a process. -/
def readOff (text : List Char) (pid : Pid) (get : ReadRow → ℚ) : ℚ :=
  (((readFrame text).filter fun r => r.pid = pid).map get).sum

/-- The rates that are read, times the time since the frame before, added up. -/
def transferred (m : Machine) (pid : Pid) (get : ReadRow → ℚ) : ℚ :=
  ((ticks m).map fun t => t.elapsed * readOff (tickText m.args t) pid get).sum

/-- How long the run takes. -/
def duration (m : Machine) : ℚ := ((ticks m).map Tick.elapsed).sum

/-- A reader of the screen comes to the counters. -/
structure Accounted (m : Machine) (pid : Pid) : Prop where
  tx : |transferred m pid ReadRow.tx - growth m pid .tx| ≤ duration m / 2 + growth m pid .tx / 20
  rx : |transferred m pid ReadRow.rx - growth m pid .rx| ≤ duration m / 2 + growth m pid .rx / 20
  retrans : ((ticks m).map fun t => readOff (tickText m.args t) pid fun r => r.retrans).sum =
    growth m pid .retrans

/-- Every row of the frame is on the screen and can be read. -/
structure Legible (env : Args) (t : Tick) : Prop where
  clock : '\n' ∉ t.round.clock
  rows : ∀ r ∈ t.rows, Displayable r
  top : (t.rows.length : Int) ≤ env.top

namespace ScreenLemmas

open PollerLemmas PassLemmas FrameLemmas ConservationLemmas DisplayLemmas

/-! ## The rows of a pass -/

/-- One row for a process, with its deltas over the time for rates. -/
structure Sound (elapsed : ℚ) (rows : List Row) : Prop where
  nodup : (rows.map Row.pid).Nodup
  tx : ∀ r ∈ rows, r.txBps = r.dtx / elapsed
  rx : ∀ r ∈ rows, r.rxBps = r.drx / elapsed

theorem rates_mkRow {env : PassEnv} {e : Pid × ProcStats} {p : PrevEntry} {r : Row}
    (h : mkRow env e p = some r) :
    r.txBps = r.dtx / env.elapsed ∧ r.rxBps = r.drx / env.elapsed := by
  simp only [mkRow] at h
  split at h
  · cases h
  · cases h
    exact ⟨rfl, rfl⟩

theorem pass_sound {evs : List Event} (h : RunInv evs (after evs)) (now : Nat)
    (alive : Pid → Bool) (el : ℚ) :
    ∃ f, (step (after evs) (.pass now alive el)).2 = [f] ∧ Sound el f.rows := by
  obtain ⟨r, hr, -, -, hrows⟩ :=
    @sample_eq ((after evs).env now alive el) _ _ h.prevOk h.zero h.size h.size
  have hmem : ∀ x ∈ r.rows, x.txBps = x.dtx / el ∧ x.rxBps = x.drx / el := by
    intro x hx
    rw [hrows, List.mem_insertionSort] at hx
    obtain ⟨e, -, he⟩ := List.mem_filterMap.mp hx
    exact rates_mkRow he
  refine ⟨frameOf (after evs) r, by simp [step, hr], ?_, fun x hx => (hmem x hx).1,
    fun x hx => (hmem x hx).2⟩
  show (r.rows.map Row.pid).Nodup
  rw [hrows, ((List.perm_insertionSort _ _).map _).nodup_iff]
  exact rows_nodup _ _ (kept_nodup _ _)

/-! ## The loop -/

theorem after_append (pre evs : List Event) : after (pre ++ evs) = exec step (after pre) evs :=
  List.foldl_append ..

theorem frames_fired (attach : Hook → Option (List Char)) (pre : List Event) (fs : List Firing) :
    frames (pre ++ fired attach fs) = frames pre := by
  rw [fired]
  generalize fs.filter (fires attach) = gs
  induction gs using List.reverseRecOn with
  | nil => rw [List.map_nil, List.append_nil]
  | append_singleton gs g ih =>
    rw [List.map_append, ← List.append_assoc, List.map_singleton, frames_snoc, ih]
    exact List.append_nil _

/-- Behind the history `pre`, each of the ticks adds one frame with its rows. -/
structure Reported (attach : Hook → Option (List Char)) (pre : List Event)
    (ts : List Tick) : Prop where
  frames_eq : ∃ fs, frames (pre ++ ts.flatMap (tickEvents attach)) = frames pre ++ fs ∧
    fs.map Frame.rows = ts.map Tick.rows
  sound : ∀ t ∈ ts, 0 < t.elapsed ∧ Sound t.elapsed t.rows

theorem reported_nil (attach : Hook → Option (List Char)) (pre : List Event) :
    Reported attach pre [] :=
  ⟨⟨[], by simp, rfl⟩, fun t ht => nomatch ht⟩

theorem events_cons (attach : Hook → Option (List Char)) (pre : List Event) (t : Tick)
    (ts : List Tick) :
    pre ++ (t :: ts).flatMap (tickEvents attach) = pre ++ tickEvents attach t ++
      ts.flatMap (tickEvents attach) := by
  rw [List.flatMap_cons, List.append_assoc]

theorem Reported.cons {attach : Hook → Option (List Char)} {pre : List Event} {t : Tick}
    {ts : List Tick} {f : Frame}
    (hframe : frames (pre ++ tickEvents attach t) = frames pre ++ [f]) (hrows : f.rows = t.rows)
    (hsound : 0 < t.elapsed ∧ Sound t.elapsed t.rows)
    (h : Reported attach (pre ++ tickEvents attach t) ts) :
    Reported attach pre (t :: ts) := by
  obtain ⟨fs, hfs, hmap⟩ := h.frames_eq
  refine ⟨⟨f :: fs, ?_, by rw [List.map_cons, List.map_cons, hrows, hmap]⟩,
    List.forall_mem_cons.mpr ⟨hsound, h.sound⟩⟩
  rw [events_cons, hfs, hframe, List.append_assoc, List.singleton_append]

/-- What a turn of the loop can do. -/
theorem loop_cons (env : Args) (attach : Hook → Option (List Char)) (r : Round) (rs : List Round)
    (pre : List Event) (prev : ℚ) (samples : Int) :
    loop env attach (r :: rs) (after pre) prev samples = [] ∨
    ∃ t rest, loop env attach (r :: rs) (after pre) prev samples = t :: rest ∧
      t.round = r ∧ t.elapsed = elapsedOf env prev r.now ∧
      t.rows = (step (after (pre ++ fired attach r.firings)) (passOf r t.elapsed)).2.flatMap
        Frame.rows ∧
      (rest = [] ∨ ∃ n, rest = loop env attach rs
        (after (pre ++ tickEvents attach t)) r.now n) := by
  rw [loop]
  split
  · exact .inl rfl
  · refine .inr ⟨_, _, rfl, rfl, rfl, by rw [after_append], ?_⟩
    split
    · exact .inl rfl
    · refine .inr ⟨if env.count = 0 then samples else samples + 1, ?_⟩
      rw [tickEvents, ← List.append_assoc, after_snoc, after_append]

theorem elapsedOf_pos {env : Args} (h : 0 < env.interval) (prev now : ℚ) :
    0 < elapsedOf env prev now := by
  rw [elapsedOf]
  split
  · exact h
  · next hgap => exact lt_of_not_ge hgap

theorem reported_loop {env : Args} (attach : Hook → Option (List Char))
    (hinterval : 0 < env.interval)
    (rs : List Round) : ∀ (pre : List Event) (prev : ℚ) (samples : Int),
      Along NoWrapAt (pre ++ (loop env attach rs (after pre) prev samples).flatMap
        (tickEvents attach)) →
      Reported attach pre (loop env attach rs (after pre) prev samples) := by
  induction rs with
  | nil => exact fun pre _ _ _ => reported_nil attach pre
  | cons r rs ih =>
    intro pre prev samples hno
    rcases loop_cons env attach r rs pre prev samples with hnil |
      ⟨t, rest, heq, hround, helapsed, hrows, hrest⟩
    · rw [hnil]
      exact reported_nil attach pre
    · rw [heq] at hno ⊢
      rw [events_cons] at hno
      have htick : Along NoWrapAt (pre ++ tickEvents attach t) := hno.left
      rw [tickEvents, hround, ← List.append_assoc] at htick
      obtain ⟨f, hf, hsound⟩ := pass_sound (runInv_of_noWrap htick.left) r.nowNs r.alive t.elapsed
      have hframe : frames (pre ++ tickEvents attach t) = frames pre ++ [f] := by
        rw [tickEvents, hround, ← List.append_assoc, frames_snoc, frames_fired, passOf, hf]
      have hfrows : f.rows = t.rows := by
        rw [hrows, passOf, hf, List.flatMap_singleton]
      refine Reported.cons hframe hfrows ⟨helapsed ▸ elapsedOf_pos hinterval prev r.now,
        hfrows ▸ hsound⟩ ?_
      rcases hrest with rfl | ⟨n, rfl⟩
      · exact reported_nil attach _
      · exact ih _ _ _ hno

/-! ## One frame -/

variable {env : Args} {t : Tick}

theorem shownCount_eq (h : Legible env t) :
    (shownCount env t.rows.length).toNat = t.rows.length := by
  have htop := h.top
  rw [shownCount]
  split <;> omega

theorem readFrame_tickText (h : Legible env t) :
    readFrame (tickText env t) = t.rows.map readOf := by
  rw [tickText, readFrame_printSample env h.clock h.rows, shownCount_eq h, List.take_length]

theorem readOff_eq (h : Legible env t) (pid : Pid) (get : ReadRow → ℚ) :
    readOff (tickText env t) pid get =
      ((t.rows.filter fun r => r.pid = pid).map fun r => get (readOf r)).sum := by
  rw [readOff, readFrame_tickText h, List.filter_map, List.map_map]
  rfl

/-- The rate of a row, times the time, is its delta up to the tolerance. -/
theorem rate_times_elapsed {rate elapsed : ℚ} {delta : Nat} (hpos : 0 < elapsed)
    (hrate : rate = delta / elapsed)
    (hnonneg : 0 ≤ rate) : |elapsed * rateShown rate - delta| ≤ elapsed / 2 + delta / 20 := by
  have hdelta : (delta : ℚ) = elapsed * rate := by
    rw [hrate, mul_div_cancel₀ _ hpos.ne']
  have htolerance : tolerance rate ≤ 1 / 2 + rate / 20 :=
    max_le (by linarith) (by linarith)
  calc |elapsed * rateShown rate - delta| = elapsed * |rateShown rate - rate| := by
        rw [hdelta, ← mul_sub, abs_mul, abs_of_pos hpos]
    _ ≤ elapsed * (1 / 2 + rate / 20) :=
        mul_le_mul_of_nonneg_left ((rateShown_error hnonneg).trans htolerance) hpos.le
    _ = elapsed / 2 + delta / 20 := by
        rw [hdelta]
        ring

/-- What is read off a frame for a process, times the time, is what is shown for it. -/
theorem frame_accounts (h : Legible env t) (hpos : 0 < t.elapsed)
    (hnodup : (t.rows.map Row.pid).Nodup) (pid : Pid)
    (c : Counter) {rate : Row → ℚ} {get : ReadRow → ℚ}
    (hget : ∀ r, get (readOf r) = rateShown (rate r))
    (hrate : ∀ r ∈ t.rows, rate r = r.delta c / t.elapsed ∧ 0 ≤ rate r) :
    |t.elapsed * readOff (tickText env t) pid get - shown t.rows pid c| ≤
      t.elapsed / 2 + shown t.rows pid c / 20 := by
  rw [readOff_eq h]
  rcases filter_pid_cases hnodup pid with ⟨hnil, hshown⟩ | ⟨row, hone, hmem, hshown⟩
  · rw [hnil, hshown]
    simpa using by linarith
  · rw [hone, hshown, List.map_singleton, List.sum_singleton, hget]
    exact rate_times_elapsed hpos (hrate row hmem).1 (hrate row hmem).2

theorem frame_retrans (h : Legible env t) (pid : Pid) :
    readOff (tickText env t) pid (fun r => r.retrans) = shown t.rows pid .retrans := by
  rw [readOff_eq h, shown, Nat.cast_list_sum, List.map_map]
  rfl

/-! ## All frames -/

theorem sum_close {α : Type} {xs : List α} {f g e : α → ℚ} (h : ∀ x ∈ xs, |f x - g x| ≤ e x) :
    |(xs.map f).sum - (xs.map g).sum| ≤ (xs.map e).sum := by
  induction xs with
  | nil => simp
  | cons x xs ih =>
    simp only [List.map_cons, List.sum_cons]
    have hhead := h x List.mem_cons_self
    have htail := ih fun y hy => h y (List.mem_cons_of_mem _ hy)
    calc |f x + (xs.map f).sum - (g x + (xs.map g).sum)|
      _ = |f x - g x + ((xs.map f).sum - (xs.map g).sum)| := by
        congr 1
        ring
      _ ≤ |f x - g x| + |(xs.map f).sum - (xs.map g).sum| := abs_add_le _ _
      _ ≤ e x + (xs.map e).sum := add_le_add hhead htail

/-- The frames of the run: the priming one and one for each tick. -/
theorem growth_eq {m : Machine} (hinterval : 0 < m.args.interval)
    (hno : Along NoWrapAt (mainEvents m)) {pid : Pid}
    (hd : ∀ f ∈ frames (mainEvents m), pid ∉ f.deleted.map Prod.fst) (c : Counter) :
    ((ticks m).map fun t => shown t.rows pid c).sum = growth m pid c := by
  obtain ⟨fs, hfs, hmap⟩ :=
    (reported_loop m.attach hinterval m.rounds (primeEvents m) m.start 0 hno).frames_eq
  change frames (mainEvents m) = _ at hfs
  change fs.map Frame.rows = (ticks m).map Tick.rows at hmap
  have hprime : ∃ first, frames (primeEvents m) = [first] := by
    have hearly : Along NoWrapAt (primeEvents m) := hno.left
    rw [primeEvents] at hearly ⊢
    obtain ⟨f, hf, -⟩ :=
      pass_sound (runInv_of_noWrap hearly.left) m.startNs m.startAlive m.args.interval
    refine ⟨f, ?_⟩
    have hnone := frames_fired m.attach [] m.early
    rw [List.nil_append] at hnone
    rw [frames_snoc, hf, hnone]
    rfl
  obtain ⟨first, hfirst⟩ := hprime
  rw [hfirst, List.singleton_append] at hfs
  have h := runInv_of_noWrap hno
  obtain ⟨hp, hrest⟩ := h.priming first fs hfs
  have hledger := ledger_of_not_deleted c hp hrest (hfs ▸ hd)
  rw [← hfs, h.ledger_eq pid c] at hledger
  have hdisplayed : displayed fs pid c = ((ticks m).map fun t => shown t.rows pid c).sum := by
    have hcongr := congrArg (fun l => (l.map fun rows => shown rows pid c).sum) hmap
    simpa [displayed, List.map_map, Function.comp_def] using hcongr
  rw [growth, hfirst, hledger, hdisplayed]
  exact (Nat.add_sub_cancel ..).symm

theorem transferred_close {m : Machine} {pid : Pid} {c : Counter} {get : ReadRow → ℚ} {n : Nat}
    (hn : ((ticks m).map fun t => shown t.rows pid c).sum = n)
    (hframe : ∀ t ∈ ticks m,
      |t.elapsed * readOff (tickText m.args t) pid get - shown t.rows pid c| ≤
        t.elapsed / 2 + shown t.rows pid c / 20) :
    |transferred m pid get - n| ≤ duration m / 2 + n / 20 := by
  have hshown : ((ticks m).map fun t => (shown t.rows pid c : ℚ)).sum = n := by
    rw [← hn, Nat.cast_list_sum, List.map_map]
    rfl
  have hsum := sum_close hframe
  rw [hshown] at hsum
  refine hsum.trans (le_of_eq ?_)
  simp only [div_eq_mul_inv]
  rw [List.sum_map_add, List.sum_map_mul_right, List.sum_map_mul_right, hshown, duration]

end ScreenLemmas

open ScreenLemmas

/-! ## 1. The account -/

/-- For every run, whatever the other processes do. -/
theorem screen_accounts (m : Machine) (hinterval : 0 < m.args.interval)
    (hno : Along NoWrapAt (mainEvents m)) (hlegible : ∀ t ∈ ticks m, Legible m.args t) {pid : Pid}
    (hd : ∀ f ∈ frames (mainEvents m), pid ∉ f.deleted.map Prod.fst) : Accounted m pid := by
  have hgrowth := growth_eq hinterval hno hd
  have hsound := (reported_loop m.attach hinterval m.rounds (primeEvents m) m.start 0 hno).sound
  constructor
  · refine transferred_close (hgrowth .tx) fun t ht => ?_
    obtain ⟨hpos, hs⟩ := hsound t ht
    exact frame_accounts (hlegible t ht) hpos hs.nodup pid .tx (fun _ => rfl) fun r hr =>
      ⟨hs.tx r hr, ((hlegible t ht).rows r hr).tx.1⟩
  · refine transferred_close (hgrowth .rx) fun t ht => ?_
    obtain ⟨hpos, hs⟩ := hsound t ht
    exact frame_accounts (hlegible t ht) hpos hs.nodup pid .rx (fun _ => rfl) fun r hr =>
      ⟨hs.rx r hr, ((hlegible t ht).rows r hr).rx.1⟩
  · rw [← hgrowth .retrans, Nat.cast_list_sum, List.map_map]
    exact congrArg List.sum (List.map_congr_left fun t ht => frame_retrans (hlegible t ht) pid)

/-- A round of a run in which every hook is attached and no signal comes. -/
def exRound (firings : List Firing) (now : ℚ) : Round :=
  ⟨false, .slept, firings, now, 0, fun _ => true, exClock⟩

/-- Process 7 sends 1536 bytes in the first second and 700 in the next two, of which one segment
is resent; process 9 sends 20. -/
def exRounds : List Round :=
  [exRound [.probe (.tcpSendmsg 1536) exTask exSk ⟨1, 0, 0⟩,
      .probe (.tcpSendmsg 20) ⟨9, Comm.ofBytes [115, 104]⟩ ⟨2, AF_INET⟩ ⟨2, 0, 0⟩] 1,
    exRound [.probe (.tcpSendmsg 700) exTask exSk ⟨3, 0, 0⟩, .retransmit 1] 3]

def exMachine (top : Int) : Machine :=
  ⟨⟨1, 0, top, true⟩, true, true, fun _ => none, [], 0, 0, fun _ => true, exRounds⟩

theorem exMachine_accounted : Accounted (exMachine 20) 7 := by
  have hlegible : ∀ t ∈ ticks (exMachine 20), '\n' ∉ t.round.clock ∧
      (∀ r ∈ t.rows, (0 ≤ r.txBps ∧ r.txBps ≤ (10 ^ 12 - 1) * 1024 ^ 4) ∧
        (0 ≤ r.rxBps ∧ r.rxBps ≤ (10 ^ 12 - 1) * 1024 ^ 4) ∧ '\n' ∉ commText r.comm) ∧
      (t.rows.length : Int) ≤ 20 := by decide +kernel
  refine screen_accounts (exMachine 20) (by decide) (by decide +kernel) (fun t ht => ?_)
    (by decide +kernel)
  obtain ⟨hclock, hrows, htop⟩ := hlegible t ht
  exact ⟨hclock, fun r hr => ⟨(hrows r hr).1, (hrows r hr).2.1, (hrows r hr).2.2⟩, htop⟩

/-- Process 9 comes second, and with `--top 1` its 20 bytes are not on the screen. -/
theorem hidden_behind_top :
    growth (exMachine 1) 9 .tx = 20 ∧ transferred (exMachine 1) 9 ReadRow.tx = 0 := by
  decide +kernel

/-! ## 2. How many frames -/

/-- The round reaches its frame. -/
def Round.runs (r : Round) : Bool := !(r.exiting ∨ r.sleep = .interrupted)

/-- The frames of a limit: at least one, even if the limit is negative. -/
def limit (env : Args) (n : Nat) : Nat := if env.count = 0 then n else min n (max 1 env.count.toNat)

namespace ScreenLemmas

theorem length_loop_unlimited {env : Args} (hcount : env.count = 0)
    (attach : Hook → Option (List Char)) (rs : List Round) :
    ∀ s prev samples, (loop env attach rs s prev samples).length =
      (rs.takeWhile Round.runs).length := by
  induction rs with
  | nil => intros; rfl
  | cons r rs ih =>
    intro s prev samples
    rw [loop]
    split
    · next hstop =>
      rw [List.takeWhile_cons_of_neg (by simp [Round.runs, hstop])]
      rfl
    · next hruns =>
      have hmore : ¬ (env.count ≠ 0 ∧ samples + 1 ≥ env.count) := fun h => h.1 hcount
      dsimp only
      rw [List.takeWhile_cons_of_pos (by simp [Round.runs, hruns]), List.length_cons,
        List.length_cons, if_neg hmore, ih]

theorem length_loop_limited {env : Args} (hcount : env.count ≠ 0)
    (attach : Hook → Option (List Char)) (rs : List Round) :
    ∀ s prev samples, (loop env attach rs s prev samples).length =
      min (rs.takeWhile Round.runs).length (max 1 (env.count - samples).toNat) := by
  induction rs with
  | nil => intros; rfl
  | cons r rs ih =>
    intro s prev samples
    rw [loop]
    split
    · next hstop =>
      rw [List.takeWhile_cons_of_neg (by simp [Round.runs, hstop])]
      rfl
    · next hruns =>
      rw [List.takeWhile_cons_of_pos (by simp [Round.runs, hruns]), List.length_cons,
        List.length_cons]
      split
      · next hlast =>
        rw [List.length_nil]
        omega
      · next hmore =>
        rw [ih]
        omega

end ScreenLemmas

/-- The loop prints a frame for every round until a signal comes, but no more than `--count`. -/
theorem length_ticks (m : Machine) :
    (ticks m).length = limit m.args (m.rounds.takeWhile Round.runs).length := by
  rw [ticks, limit]
  split
  · next hcount => exact length_loop_unlimited hcount _ _ _ _ _
  · next hcount => rw [length_loop_limited hcount, sub_zero]

end Ebpf101.Nettop
