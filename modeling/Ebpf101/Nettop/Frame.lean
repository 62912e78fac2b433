import Ebpf101.Nettop.Pass

/-!
# nettop: a frame

What a pass of `sample` leaves and returns, for every content of the map.

Results:
1. `pass_complete`: the loop ends, the rows of the dead are deleted, `prev` mirrors the map
   that is left, no capacity guard is taken, and each process that moved has one row.
2. `frame_order_independent`: the frame, the table and the map do not depend on the order
   in which the map is walked, if the table is full or has room for the rows that are kept.
   `order_shows`: with one free entry and two new pids, the walk decides which is shown.
-/

namespace Ebpf101.Nettop

/-! ## Statements -/

/-- The states of the loop. -/
def Reached (env : PassEnv) (m : BpfMap Pid ProcStats) (prev : List PrevEntry) (w : Walk) : Prop :=
  Relation.ReflTransGen (fun w w' => walkStep env w = some w') ⟨0, m, clearSeen prev, []⟩ w

/-- In the next iteration neither `prev_n >= MAX_ROWS` nor `n >= max_rows` is taken. -/
def GuardsOpen (env : PassEnv) (w : Walk) : Prop :=
  ∀ key ps, w.map.getNextKey w.key = some key → w.map.lookupElem key = some ps →
    reaps env (key, ps) = false →
    ¬ (prevFind w.prev key = none ∧ MAX_ROWS ≤ w.prev.length) ∧
    ¬ (rowOf env w.prev (key, ps) ≠ none ∧ env.maxRows ≤ w.rows.length)

/-- What a counter of a process moved by since its baseline. -/
def delta (env : PassEnv) (prev : List PrevEntry) (m : BpfMap Pid ProcStats) (pid : Pid)
    (c : Counter) : Nat :=
  total m pid c - base env prev m pid c

/-- A pass over the map `m` with the table `prev`. -/
structure Complete (env : PassEnv) (m : BpfMap Pid ProcStats) (prev : List PrevEntry)
    (r : PassResult) : Prop where
  deleted : ∀ pid ps, m.lookupElem pid = some ps →
    (r.map.lookupElem pid = none ↔ env.alive pid = false ∧ 60 * 10 ^ 9 < env.nowNs - ps.lastNs)
  left : ∀ pid ps, r.map.lookupElem pid = some ps → m.lookupElem pid = some ps
  /-- One entry for each key that is left, with the totals of its row. -/
  entries : (r.prev.map PrevEntry.pid).Perm r.map.keys
  totals : ∀ p ∈ r.prev, ∃ ps, r.map.lookupElem p.pid = some ps ∧ ∀ c, p.get c = ps.get c
  /-- One row for each process that moved, and none for any other. -/
  row : ∀ pid, (∃ c, delta env prev r.map pid c ≠ 0) →
    ∃ row, r.rows.filter (fun x => x.pid = pid) = [row] ∧
      ∀ c, row.delta c = delta env prev r.map pid c
  noRow : ∀ pid, (∀ c, delta env prev r.map pid c = 0) → r.rows.filter (fun x => x.pid = pid) = []

/-- `x` stands before `y`: it is busier, or as busy and of a smaller pid. -/
def Before (x y : Row) : Prop :=
  y.txBps + y.rxBps < x.txBps + x.rxBps ∨ x.txBps + x.rxBps = y.txBps + y.rxBps ∧ x.pid < y.pid

namespace FrameLemmas

open PassLemmas

/-! ## The guards -/

/-- In every iteration the row that comes next was visited before, or it is new and there
is room for its entry and for its row. -/
theorem guardsOpen_of_reached {env : PassEnv} {m : BpfMap Pid ProcStats} {prev : List PrevEntry}
    (hok : PrevOk m prev) (hzero : 0 ∉ m.keys) (hsize : m.size ≤ MAX_ROWS)
    (hmax : m.size ≤ env.maxRows) {w : Walk} (h : Reached env m prev w) : GuardsOpen env w := by
  have hclear := prevOk_clearSeen hok
  have hfits : Fits env m (clearSeen prev) := fits_of_prevOk hclear hsize
  have hreached : Relation.ReflTransGen
      (fun s s' => RestartWalk.step (reaps env) (visit env) s = some s')
      ⟨0, m, (clearSeen prev, [])⟩ w.state := by
    refine Relation.ReflTransGen.lift Walk.state (fun a b hab => ?_) _ _ h
    show RestartWalk.step (reaps env) (visit env) a.state = some b.state
    rw [walkStep_state, hab]
    rfl
  obtain ⟨front, back, done, hinv⟩ :=
    RestartWalk.inv_of_reached (again_of_fits hfits hmax) hzero hreached
  have hacc : (w.prev, w.rows) =
      (done.foldl remember (clearSeen prev), done.filterMap (rowOf env (clearSeen prev))) := by
    rw [show (w.prev, w.rows) = w.state.acc from rfl, hinv.acc_eq,
      foldl_visit hfits hmax hinv.done_kept, filter_entered hclear hsize hinv.done_kept]
  obtain ⟨hprev, hrows⟩ := Prod.mk.inj hacc
  intro key ps hnext hlook hr
  -- the row is the first behind the cursor
  have hhead : back.head?.map Prod.fst = some key := hinv.cursor.getNextKey.symm.trans hnext
  obtain ⟨e, he, rfl⟩ := Option.map_eq_some_iff.mp hhead
  obtain ⟨back', rfl⟩ : ∃ back', back = e :: back' := ⟨back.tail, (List.eq_cons_of_mem_head? he)⟩
  have hmem : e ∈ w.map.entries := by
    rw [show w.map.entries = front ++ e :: back' from hinv.cursor.entries_eq]
    simp
  rw [BpfMap.lookupElem_of_mem hmem] at hlook
  cases hlook
  rcases hinv.next_of_keep hr with hold | hnew
  · have hfind : prevFind w.prev e.1 = some (entryOf e) := by
      rw [hprev]
      exact prevFind_foldl_remember ((kept_nodup env m).sublist (hinv.done_kept.sublist.map _))
        (hold.subset (by simp))
    constructor
    · rw [hfind]
      exact fun h => nomatch h.1
    · have hnone : rowOf env w.prev e = none := by
        rw [rowOf, baseline, hfind]
        exact mkRow_entryOf env e
      exact fun h => h.1 hnone
  · have hpre : done ++ [e] <+: kept env m := hnew ▸ hinv.front_snoc hr
    obtain ⟨hroom, hspace⟩ := room_of_fits hfits hmax hpre
    rw [filter_entered hclear hsize hinv.done_kept] at hroom hspace
    rw [← hprev] at hroom
    rw [← hrows] at hspace
    have hfind : prevFind w.prev e.1 = prevFind (clearSeen prev) e.1 := by
      rw [hprev]
      exact prevFind_foldl_remember_of_notMem (notMem_done hpre)
    refine ⟨fun h => ?_, fun h => absurd h.2 (Nat.not_le_of_lt hspace)⟩
    have hin := entered_of_prevOk hclear hsize (hpre.subset (by simp : e ∈ done ++ [e]))
    exact absurd h.2 (Nat.not_le_of_lt (hroom (hfind ▸ h.1) hin))

/-! ## The rows -/

theorem reaps_iff {env : PassEnv} {pid : Pid} {ps : ProcStats} :
    reaps env (pid, ps) = true ↔ env.alive pid = false ∧ 60 * 10 ^ 9 < env.nowNs - ps.lastNs := by
  have hidle : idleNs env ps = env.nowNs - ps.lastNs := by
    unfold idleNs
    split
    · rfl
    · next h => exact (Nat.sub_eq_zero_of_le (Nat.not_lt.mp h)).symm
  rw [reaps, hidle, Bool.and_eq_true, Bool.not_eq_true', decide_eq_true_eq]
  exact Iff.rfl

/-- The rows of rows with distinct pids have distinct pids. -/
theorem rows_nodup (env : PassEnv) (prev : List PrevEntry) {es : List (Pid × ProcStats)}
    (hnd : (es.map Prod.fst).Nodup) : ((es.filterMap (rowOf env prev)).map Row.pid).Nodup := by
  have hsub : ((es.filterMap (rowOf env prev)).map Row.pid).Sublist (es.map Prod.fst) := by
    induction es with
    | nil => exact List.Sublist.refl _
    | cons e es ih =>
      rw [List.map_cons, List.nodup_cons] at hnd
      rw [List.filterMap_cons, List.map_cons]
      split
      · exact (ih hnd.2).cons _
      · next r hr =>
        rw [List.map_cons, rowOf_pid hr]
        exact (ih hnd.2).cons_cons _
  exact hnd.sublist hsub

/-- At most one row of a pid, and its deltas are what is shown. -/
theorem filter_pid_cases {rows : List Row} (hnd : (rows.map Row.pid).Nodup) (pid : Pid) :
    rows.filter (fun x => x.pid = pid) = [] ∧ (∀ c, shown rows pid c = 0) ∨
    ∃ row, rows.filter (fun x => x.pid = pid) = [row] ∧ row ∈ rows ∧
      ∀ c, shown rows pid c = row.delta c := by
  rcases hf : rows.filter (fun x => x.pid = pid) with - | ⟨row, rest⟩
  · exact Or.inl ⟨hf, fun c => by rw [shown, hf]; rfl⟩
  · have hmem : ∀ x ∈ row :: rest, x ∈ rows ∧ x.pid = pid := by
      intro x hx
      rw [← hf, List.mem_filter] at hx
      exact ⟨hx.1, of_decide_eq_true hx.2⟩
    have hpids : ((row :: rest).map Row.pid).Nodup := by
      rw [← hf]
      exact hnd.sublist (List.filter_sublist.map _)
    have hrest : rest = [] := by
      cases rest with
      | nil => rfl
      | cons y ys =>
        rw [List.map_cons, List.nodup_cons] at hpids
        refine absurd ?_ hpids.1
        rw [(hmem row (by simp)).2, ← (hmem y (by simp)).2]
        simp
    subst hrest
    refine Or.inr ⟨row, hf, (hmem row (by simp)).1, fun c => ?_⟩
    rw [shown, hf]
    simp

/-- A row is made only if some counter moved. -/
theorem exists_delta_of_rowOf {env : PassEnv} {prev : List PrevEntry}
    {e : Pid × ProcStats} {r : Row} (h : rowOf env prev e = some r) : ∃ c, r.delta c ≠ 0 := by
  rw [rowOf] at h
  simp only [mkRow] at h
  split at h
  · cases h
  · next hmoved =>
    cases h
    by_contra hall
    have hzero : ∀ c, Row.delta _ c = 0 := fun c => not_not.mp (not_exists.mp hall c)
    exact hmoved ⟨hzero .tx, hzero .rx, hzero .retrans⟩

theorem complete {env : PassEnv} {m : BpfMap Pid ProcStats} {prev : List PrevEntry}
    (hok : PrevOk m prev) (hzero : 0 ∉ m.keys) (hsize : m.size ≤ MAX_ROWS)
    (hmax : m.size ≤ env.maxRows) : ∃ r, sample env m prev = some r ∧ Complete env m prev r := by
  obtain ⟨r, hr, -, -, hrows⟩ := sample_eq hok hzero hsize hmax
  obtain ⟨r', hr', hspec⟩ := sample_spec hok hzero hsize hmax
  cases hr.symm.trans hr'
  have hperm : r.rows.Perm ((kept env m).filterMap (rowOf env (clearSeen prev))) := by
    rw [hrows]
    exact List.perm_insertionSort _ _
  have hnd : (r.rows.map Row.pid).Nodup :=
    ((hperm.map Row.pid).nodup_iff).mpr (rows_nodup env _ (kept_nodup env m))
  refine ⟨r, hr, ?_, ?_, ?_, ?_, ?_, ?_⟩
  · intro pid ps hps
    rw [hspec.lookup, hps, ← reaps_iff, Option.filter_some]
    cases reaps env (pid, ps) <;> simp
  · intro pid ps hps
    rw [hspec.lookup] at hps
    exact (Option.filter_eq_some_iff.mp hps).1
  · refine (List.perm_ext_iff_of_nodup hspec.prevOk.nodup r.map.nodup).mpr fun pid => ?_
    rw [← not_iff_not, ← prevFind_eq_none_iff, hspec.mirror, Option.map_eq_none_iff,
      BpfMap.lookupElem_eq_none_iff]
    rfl
  · intro p hp
    have hkey := hspec.prevOk.mem_keys p hp
    obtain ⟨ps, hps⟩ := Option.isSome_iff_exists.mp (BpfMap.mem_keys_iff.mp hkey)
    have hfind : prevFind r.prev p.pid = some p := prevFind_of_mem hspec.prevOk.nodup hp
    rw [hspec.mirror, hps] at hfind
    rw [← Option.some.inj hfind]
    exact ⟨ps, hps, fun c => by cases c <;> rfl⟩
  · rintro pid ⟨c, hc⟩
    rcases filter_pid_cases hnd pid with ⟨-, hnone⟩ | ⟨row, hrow, -, hdelta⟩
    · rw [delta, ← hspec.shown_eq, hnone] at hc
      exact absurd rfl hc
    · exact ⟨row, hrow, fun c => by rw [← hdelta, hspec.shown_eq, delta]⟩
  · intro pid hall
    rcases filter_pid_cases hnd pid with ⟨hnone, -⟩ | ⟨row, -, hmem, hdelta⟩
    · exact hnone
    · obtain ⟨e, -, he⟩ := List.mem_filterMap.mp (hperm.mem_iff.mp hmem)
      obtain ⟨c, hc⟩ := exists_delta_of_rowOf he
      rw [← hdelta, hspec.shown_eq, ← delta, hall] at hc
      exact absurd rfl hc

end FrameLemmas

open FrameLemmas

/-! ## 1. A pass is complete -/

/-- For every map without key 0, of at most `MAX_ROWS` rows, and every table of distinct pids
of the map; `main` passes `MAX_ROWS` as `max_rows`. -/
theorem pass_complete {env : PassEnv} {m : BpfMap Pid ProcStats} {prev : List PrevEntry}
    (hok : PrevOk m prev) (hzero : 0 ∉ m.keys) (hsize : m.size ≤ MAX_ROWS)
    (hmax : env.maxRows = MAX_ROWS) :
    (∃ r, sample env m prev = some r ∧ Complete env m prev r) ∧
    ∀ w, Reached env m prev w → GuardsOpen env w := by
  have hrows : m.size ≤ env.maxRows := hmax ▸ hsize
  exact ⟨complete hok hzero hsize hrows, fun w hw => guardsOpen_of_reached hok hzero hsize hrows hw⟩

/-- A process that died two minutes ago, one that moved 100 bytes since the last pass, one
that did not move, and one that is new. -/
def exRows : BpfMap Pid ProcStats :=
  (((BpfMap.empty.insertAt 0 5 ⟨700, 0, 1, 0, 0, 0, Comm.ofBytes [97]⟩).insertAt 0 7
    ⟨300, 0, 3, 0, 0, 119, Comm.ofBytes [98]⟩).insertAt 0 8
    ⟨50, 60, 1, 1, 0, 119, Comm.ofBytes [99]⟩).insertAt 0 9
    ⟨0, 40, 0, 1, 2, 119, Comm.ofBytes [100]⟩

def exPrev : List PrevEntry :=
  [⟨5, 700, 0, 0, true⟩, ⟨7, 200, 0, 0, true⟩, ⟨8, 50, 60, 0, true⟩]

def exPass : PassEnv := ⟨120 * 10 ^ 9, fun pid => pid ≠ 5, 1, MAX_ROWS, false⟩

theorem exRows_complete :
    (sample exPass exRows exPrev).map (fun r => (r.map.keys, r.rows.map Row.pid)) =
      some ([9, 8, 7], [7, 9]) ∧
    ∃ r, sample exPass exRows exPrev = some r ∧ Complete exPass exRows exPrev r :=
  ⟨by decide +kernel, (pass_complete ⟨by decide +kernel, by decide +kernel⟩ (by decide +kernel)
    (by decide +kernel) rfl).1⟩

namespace FrameLemmas

open PassLemmas

/-! ## The order of the rows -/

theorem byTraffic_iff (x y : Row) :
    ByTraffic x y ↔ y.txBps + y.rxBps < x.txBps + x.rxBps ∨
      x.txBps + x.rxBps = y.txBps + y.rxBps ∧ x.pid ≤ y.pid := by
  unfold ByTraffic byTraffic
  rcases lt_trichotomy (x.txBps + x.rxBps) (y.txBps + y.rxBps) with hlt | heq | hgt
  · simp [hlt, hlt.not_gt, hlt.ne]
  · rcases lt_trichotomy x.pid y.pid with h | h | h
    · simp [heq, h, h.le, Nat.not_lt.mpr h.le]
    · simp [heq, h]
    · simp [heq, h, Nat.not_le.mpr h, Nat.not_lt.mpr h.le]
  · simp [hgt]

instance : Std.Total ByTraffic where
  total x y := by
    rw [byTraffic_iff, byTraffic_iff]
    rcases lt_trichotomy (x.txBps + x.rxBps) (y.txBps + y.rxBps) with hlt | heq | hgt
    · exact Or.inr (Or.inl hlt)
    · rcases Nat.le_total x.pid y.pid with h | h
      · exact Or.inl (Or.inr ⟨heq, h⟩)
      · exact Or.inr (Or.inr ⟨heq.symm, h⟩)
    · exact Or.inl (Or.inl hgt)

instance : IsTrans Row ByTraffic where
  trans x y z := by
    rw [byTraffic_iff, byTraffic_iff, byTraffic_iff]
    rintro (hxy | ⟨hxy, hp⟩) (hyz | ⟨hyz, hq⟩)
    · exact Or.inl (hyz.trans hxy)
    · exact Or.inl (hyz ▸ hxy)
    · exact Or.inl (hxy ▸ hyz)
    · exact Or.inr ⟨hxy.trans hyz, Nat.le_trans hp hq⟩

/-- Two rows that may stand in either order have the same pid. -/
theorem pid_eq_of_byTraffic {x y : Row} (hxy : ByTraffic x y) (hyx : ByTraffic y x) :
    x.pid = y.pid := by
  rw [byTraffic_iff] at hxy hyx
  rcases hxy with hxy | ⟨heq, hle⟩
  · rcases hyx with hyx | ⟨heq, -⟩
    · exact absurd hyx hxy.not_gt
    · exact absurd heq hxy.ne
  · rcases hyx with hyx | ⟨-, hge⟩
    · exact absurd heq hyx.ne
    · exact Nat.le_antisymm hle hge

/-- The frame is in order, strictly. -/
theorem pairwise_before {rows : List Row} (hnd : (rows.map Row.pid).Nodup) :
    (rows.insertionSort ByTraffic).Pairwise Before := by
  have hpids : ((rows.insertionSort ByTraffic).map Row.pid).Nodup :=
    (((List.perm_insertionSort _ _).map Row.pid).nodup_iff).mpr hnd
  refine ((List.pairwise_insertionSort ByTraffic rows).and (List.pairwise_map.mp hpids)).imp ?_
  rintro x y ⟨hxy, hne⟩
  rcases (byTraffic_iff x y).mp hxy with h | ⟨heq, hle⟩
  · exact Or.inl h
  · exact Or.inr ⟨heq, Nat.lt_of_le_of_ne hle hne⟩

/-- The sorted frame does not depend on the order in which the rows were made. -/
theorem insertionSort_perm {rows₁ rows₂ : List Row} (h : rows₁.Perm rows₂)
    (hnd : (rows₁.map Row.pid).Nodup) :
    rows₁.insertionSort ByTraffic = rows₂.insertionSort ByTraffic := by
  have hperm : (rows₁.insertionSort ByTraffic).Perm (rows₂.insertionSort ByTraffic) :=
    ((List.perm_insertionSort _ _).trans h).trans (List.perm_insertionSort _ _).symm
  refine hperm.eq_of_pairwise (fun x y hx hy hxy hyx => ?_) (List.pairwise_insertionSort _ _)
    (List.pairwise_insertionSort _ _)
  have hx' : x ∈ rows₁ := (List.mem_insertionSort _).mp hx
  have hy' : y ∈ rows₁ := h.mem_iff.mpr ((List.mem_insertionSort _).mp hy)
  exact List.inj_on_of_nodup_map hnd hx' hy' (pid_eq_of_byTraffic hxy hyx)

/-! ## The table -/

theorem nodup_foldl_remember {prev : List PrevEntry} (h : (prev.map PrevEntry.pid).Nodup)
    (es : List (Pid × ProcStats)) : ((es.foldl remember prev).map PrevEntry.pid).Nodup := by
  induction es using List.reverseRecOn with
  | nil => exact h
  | append_singleton es e ih =>
    rw [List.foldl_concat]
    exact remember_nodup ih e

theorem length_clearSeen (prev : List PrevEntry) : (clearSeen prev).length = prev.length :=
  List.length_map _

theorem isNone_prevFind_clearSeen (prev : List PrevEntry) (pid : Pid) :
    (prevFind (clearSeen prev) pid).isNone = (prevFind prev pid).isNone := by
  rw [prevFind_clearSeen, Option.isNone_map]

theorem fits_clearSeen {env : PassEnv} {m : BpfMap Pid ProcStats} {prev : List PrevEntry}
    (h : Fits env m prev) : Fits env m (clearSeen prev) := by
  unfold Fits at h ⊢
  simpa only [length_clearSeen, isNone_prevFind_clearSeen] using h

/-- A pass over any table that fits: what it leaves and returns is what one traversal of
the rows that the table takes leaves. -/
theorem sample_eq_of_fits {env : PassEnv} {m : BpfMap Pid ProcStats} {prev : List PrevEntry}
    (hfits : Fits env m prev) (hzero : 0 ∉ m.keys) (hmax : m.size ≤ env.maxRows) :
    ∃ r, sample env m prev = some r ∧ r.map.entries = kept env m ∧
      r.prev = (((kept env m).filter (entered (clearSeen prev))).foldl remember
        (clearSeen prev)).filter
        (fun p => p.seen) ∧
      r.rows = (((kept env m).filter (entered (clearSeen prev))).filterMap
        (rowOf env (clearSeen prev))).insertionSort ByTraffic := by
  obtain ⟨w, hw, hmap, hprev, hrows⟩ := walk_exits (fits_clearSeen hfits) hzero hmax
  exact ⟨_, by rw [sample, hw]; rfl, hmap, congrArg _ hprev, congrArg _ hrows⟩

/-- The table that a pass leaves: the entries of the rows it took. -/
theorem prevFind_left {prev : List PrevEntry} (hnd : (prev.map PrevEntry.pid).Nodup)
    {es : List (Pid × ProcStats)} (hes : (es.map Prod.fst).Nodup) {pid : Pid} {p : PrevEntry} :
    prevFind ((es.foldl remember (clearSeen prev)).filter fun p => p.seen) pid = some p ↔
      ∃ e ∈ es, e.1 = pid ∧ entryOf e = p := by
  have hclear : ((clearSeen prev).map PrevEntry.pid).Nodup := by rwa [clearSeen_pids]
  rw [prevFind_filter_seen (nodup_foldl_remember hclear es)]
  rcases Classical.em (pid ∈ es.map Prod.fst) with hmem | hout
  · obtain ⟨e, he, rfl⟩ := List.mem_map.mp hmem
    rw [prevFind_foldl_remember hes he]
    constructor
    · intro h
      exact ⟨e, he, rfl, Option.some.inj h⟩
    · rintro ⟨e', he', hpid, rfl⟩
      rw [List.inj_on_of_nodup_map hes he' he hpid]
      rfl
  · rw [prevFind_foldl_remember_of_notMem hout, prevFind_clearSeen]
    refine iff_of_false ?_ ?_
    · cases prevFind prev pid <;> simp [Option.filter]
    · rintro ⟨e, he, rfl, -⟩
      exact hout (List.mem_map_of_mem he)

/-- Tables that are the same map have the same size. -/
theorem length_eq_of_same {prev₁ prev₂ : List PrevEntry} (hnd₁ : (prev₁.map PrevEntry.pid).Nodup)
    (hnd₂ : (prev₂.map PrevEntry.pid).Nodup) (hsame : prevFind prev₁ = prevFind prev₂) :
    prev₁.length = prev₂.length := by
  have hperm : (prev₁.map PrevEntry.pid).Perm (prev₂.map PrevEntry.pid) := by
    refine (List.perm_ext_iff_of_nodup hnd₁ hnd₂).mpr fun pid => ?_
    rw [← not_iff_not, ← prevFind_eq_none_iff, ← prevFind_eq_none_iff, hsame]
  simpa using hperm.length_eq

end FrameLemmas

/-! ## 2. The frame does not depend on the order of the map -/

/-- For every two orders of one map, without key 0 and of at most `MAX_ROWS` rows, and every
table, as a map from pids, that is full or has room for the rows that are kept. -/
theorem frame_order_independent {env : PassEnv} {m₁ m₂ : BpfMap Pid ProcStats}
    {prev₁ prev₂ : List PrevEntry} (horder : m₁.entries.Perm m₂.entries)
    (hnd₁ : (prev₁.map PrevEntry.pid).Nodup) (hnd₂ : (prev₂.map PrevEntry.pid).Nodup)
    (hsame : prevFind prev₁ = prevFind prev₂) (hzero : 0 ∉ m₁.keys) (hsize : m₁.size ≤ MAX_ROWS)
    (hmax : env.maxRows = MAX_ROWS) (hfits : Fits env m₁ prev₁) :
    ∃ r₁ r₂, sample env m₁ prev₁ = some r₁ ∧ sample env m₂ prev₂ = some r₂ ∧
      r₁.rows = r₂.rows ∧ r₁.rows.Pairwise Before ∧ prevFind r₁.prev = prevFind r₂.prev ∧
      ∀ pid, r₁.map.lookupElem pid = r₂.map.lookupElem pid := by
  have hkept : (kept env m₁).Perm (kept env m₂) := horder.filter _
  have hlen := length_eq_of_same hnd₁ hnd₂ hsame
  have hclear : prevFind (clearSeen prev₁) = prevFind (clearSeen prev₂) := by
    funext pid
    rw [PassLemmas.prevFind_clearSeen, PassLemmas.prevFind_clearSeen, hsame]
  have hfits₂ : Fits env m₂ prev₂ := by
    unfold Fits at hfits ⊢
    rw [← hlen, ← hsame, ← (hkept.filter _).length_eq]
    exact hfits
  have hentered : entered (clearSeen prev₁) = entered (clearSeen prev₂) := by
    funext e
    rw [entered, entered, length_clearSeen, length_clearSeen, hlen, hclear]
  have hrow : rowOf env (clearSeen prev₁) = rowOf env (clearSeen prev₂) := by
    funext e
    rw [rowOf, rowOf, baseline, baseline, hclear]
  obtain ⟨r₁, hr₁, hmap₁, hprev₁, hrows₁⟩ := sample_eq_of_fits hfits hzero (hmax ▸ hsize)
  obtain ⟨r₂, hr₂, hmap₂, hprev₂, hrows₂⟩ := sample_eq_of_fits hfits₂
    (fun h => hzero ((horder.map Prod.fst).mem_iff.mpr h))
    (hmax ▸ Nat.le_trans (Nat.le_of_eq horder.length_eq.symm) hsize)
  rw [← hentered] at hprev₂ hrows₂
  rw [← hrow] at hrows₂
  have hes := hkept.filter (entered (clearSeen prev₁))
  have hesnd : (((kept env m₁).filter (entered (clearSeen prev₁))).map Prod.fst).Nodup :=
    (PassLemmas.kept_nodup env m₁).sublist (List.filter_sublist.map _)
  have hrowsnd := rows_nodup env (clearSeen prev₁) hesnd
  refine ⟨r₁, r₂, hr₁, hr₂, ?_, ?_, ?_, ?_⟩
  · rw [hrows₁, hrows₂]
    exact insertionSort_perm (hes.filterMap _) hrowsnd
  · rw [hrows₁]
    exact pairwise_before hrowsnd
  · funext pid
    refine Option.ext fun p => ?_
    rw [hprev₁, hprev₂, prevFind_left hnd₁ hesnd,
      prevFind_left hnd₂ ((hes.map _).nodup_iff.mp hesnd)]
    simp only [hes.mem_iff]
  · intro pid
    refine Option.ext fun ps => ?_
    rw [BpfMap.lookupElem_eq_some_iff, BpfMap.lookupElem_eq_some_iff, hmap₁, hmap₂]
    exact hkept.mem_iff

/-- The rows of `exRows`, walked the other way round. -/
def exRowsBack : BpfMap Pid ProcStats :=
  exRows.entries.foldl (fun m e => m.insertAt 0 e.1 e.2) BpfMap.empty

/-- The reaped row comes first in one walk and last in the other. -/
theorem exRows_order_independent :
    exRows.keys = [9, 8, 7, 5] ∧ exRowsBack.keys = [5, 7, 8, 9] ∧
    ∃ r₁ r₂, sample exPass exRows exPrev = some r₁ ∧ sample exPass exRowsBack exPrev = some r₂ ∧
      r₁.rows = r₂.rows := by
  have hnd : (exPrev.map PrevEntry.pid).Nodup := by decide +kernel
  have horder : exRows.entries.Perm exRowsBack.entries := by decide +kernel
  have hfits : Fits exPass exRows exPrev := Or.inr (by decide +kernel)
  obtain ⟨r₁, r₂, hr₁, hr₂, hrows, -⟩ := frame_order_independent horder hnd hnd rfl
    (by decide +kernel) (by decide +kernel) rfl hfits
  exact ⟨by decide +kernel, by decide +kernel, r₁, r₂, hr₁, hr₂, hrows⟩

/-- A table of 4095 pids that have no row any more. -/
def exStale : List PrevEntry := (List.range 4095).map fun i => ⟨i + 10, 0, 0, 0, true⟩

/-- Two processes that sent 100 bytes each, in the order of the walk. -/
def exOrder (first second : Pid) : BpfMap Pid ProcStats :=
  (BpfMap.empty.insertAt 0 second ⟨100, 0, 1, 0, 0, 119, Comm.ofBytes [97]⟩).insertAt 0 first
    ⟨100, 0, 1, 0, 0, 119, Comm.ofBytes [97]⟩

/-- The pids of the frame. -/
def framePids (m : BpfMap Pid ProcStats) (prev : List PrevEntry) : Option (List Pid) :=
  (sample exPass m prev).map fun r => r.rows.map Row.pid

/-- Only the first of two new pids gets the last entry of the table, and its row is shown.
A row of pid 0 hides those before it from the walk, which starts behind it. -/
theorem order_shows :
    (exOrder 1 2).entries.Perm (exOrder 2 1).entries ∧ (exStale.map PrevEntry.pid).Nodup ∧
    framePids (exOrder 1 2) exStale = some [1] ∧ framePids (exOrder 2 1) exStale = some [2] ∧
    (exOrder 1 0).entries.Perm (exOrder 0 1).entries ∧
    framePids (exOrder 1 0) [] = some [] ∧ framePids (exOrder 0 1) [] = some [1] := by
  refine ⟨by decide +kernel, ?_, by decide +kernel, by decide +kernel, by decide +kernel,
    by decide +kernel, by decide +kernel⟩
  rw [exStale, List.map_map]
  exact List.nodup_range.map fun i j h => Nat.add_right_cancel h

end Ebpf101.Nettop
