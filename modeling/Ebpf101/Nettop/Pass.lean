import Ebpf101.Nettop.Sample
import Ebpf101.Lib.RestartWalk
import Mathlib.Data.List.Induction

/-!
# nettop: what a pass computes

A pass restarts its walk after every deletion, so its effect is not a fold over
the map as it stands. This module shows that it is one all the same: visiting a
row again changes nothing (`visit_again`), so the walk behaves as one traversal
of the rows that are kept.

Results:
1. `walk_exits`: the loop ends within its fuel, whatever it deletes.
2. `sample_eq`: the map keeps exactly the rows that are not reaped, the table
   and the rows are what visiting them once leaves, the rows sorted.
3. `sample_spec`: the same pid by pid. The table mirrors the map that is left,
   and what is shown for a pid is its delta since its baseline.
-/

namespace Ebpf101.Nettop

/-! ## Definitions -/

/-- The entry of `prev` that a visit of `e` leaves. -/
def entryOf (e : Pid × ProcStats) : PrevEntry :=
  ⟨e.1, e.2.txBytes, e.2.rxBytes, e.2.retransPkts, true⟩

/-- The baseline a first visit of `e` diffs against. -/
def baseline (env : PassEnv) (prev : List PrevEntry) (e : Pid × ProcStats) : PrevEntry :=
  match prevFind prev e.1 with
  | some p => p
  | none => if env.priming then entryOf e else ⟨e.1, 0, 0, 0, true⟩

/-- The row a first visit of `e` appends, if any. -/
def rowOf (env : PassEnv) (prev : List PrevEntry) (e : Pid × ProcStats) : Option Row :=
  mkRow env e (baseline env prev e)

/-- The table after a visit of `e`. -/
def remember (prev : List PrevEntry) (e : Pid × ProcStats) : List PrevEntry :=
  match prevFind prev e.1 with
  | some _ => prevStore e.1 e.2 prev
  | none => prev ++ [entryOf e]

/-- The rows of the map that the pass keeps. -/
def kept (env : PassEnv) (m : BpfMap Pid ProcStats) : List (Pid × ProcStats) :=
  m.entries.filter fun e => !reaps env e

/-- What a pass may assume of the table: one entry for each pid, and only pids
that are in the map. -/
structure PrevOk (m : BpfMap Pid ProcStats) (prev : List PrevEntry) : Prop where
  nodup : (prev.map PrevEntry.pid).Nodup
  mem_keys : ∀ p ∈ prev, p.pid ∈ m.keys

/-- The table holds the pid of `e`, or is not full. -/
def entered (prev : List PrevEntry) (e : Pid × ProcStats) : Bool :=
  prev.length < MAX_ROWS || (prevFind prev e.1).isSome

/-- The table is full, or has room for every row that is kept. -/
def Fits (env : PassEnv) (m : BpfMap Pid ProcStats) (prev : List PrevEntry) : Prop :=
  MAX_ROWS ≤ prev.length ∨
  prev.length + ((kept env m).filter fun e => (prevFind prev e.1).isNone).length ≤ MAX_ROWS

/-- The loop's state as one of the library's. -/
def Walk.state (w : Walk) : RestartWalk.State Pid ProcStats (List PrevEntry × List Row) :=
  ⟨w.key, w.map, (w.prev, w.rows)⟩

namespace PassLemmas

/-! ## The table -/

theorem prevFind_eq_none_iff {prev : List PrevEntry} {pid : Pid} :
    prevFind prev pid = none ↔ pid ∉ prev.map PrevEntry.pid := by
  unfold prevFind
  rw [List.find?_eq_none]
  constructor
  · intro h hm
    obtain ⟨p, hp, rfl⟩ := List.mem_map.mp hm
    exact absurd (by simp) (h p hp)
  · intro h p hp
    have hne : p.pid ≠ pid := fun he => h (he ▸ List.mem_map_of_mem hp)
    simpa using hne

theorem prevFind_append {prev : List PrevEntry} {p : PrevEntry} {pid : Pid} :
    prevFind (prev ++ [p]) pid =
      match prevFind prev pid with
      | some q => some q
      | none => if p.pid = pid then some p else none := by
  unfold prevFind
  rw [List.find?_append]
  cases List.find? (fun p => decide (p.pid = pid)) prev with
  | none => by_cases h : p.pid = pid <;> simp [h]
  | some q => rfl

theorem prevStore_pids (pid : Pid) (ps : ProcStats) (prev : List PrevEntry) :
    (prevStore pid ps prev).map PrevEntry.pid = prev.map PrevEntry.pid := by
  induction prev with
  | nil => rfl
  | cons p prev ih =>
    unfold prevStore
    split
    · rfl
    · simp [ih]

theorem prevFind_prevStore {prev : List PrevEntry} {e : Pid × ProcStats} {q : PrevEntry}
    (h : prevFind prev e.1 = some q) (pid : Pid) :
    prevFind (prevStore e.1 e.2 prev) pid =
      if pid = e.1 then some (entryOf e) else prevFind prev pid := by
  induction prev with
  | nil => cases h
  | cons p prev ih =>
    by_cases hp : p.pid = e.1
    · by_cases hpid : pid = e.1
      · subst hpid
        simp [prevFind, prevStore, hp, entryOf]
      · simp [prevFind, prevStore, hp, hpid, Ne.symm hpid]
    · have ht : prevFind prev e.1 = some q := by simpa [prevFind, hp] using h
      have ih := ih ht
      by_cases hpp : p.pid = pid
      · have hpid : pid ≠ e.1 := fun he => hp (hpp.trans he)
        simp [prevFind, prevStore, hpp, hpid]
      · simpa [prevFind, prevStore, hp, hpp] using ih

/-- Storing the totals that are already there changes nothing. -/
theorem prevStore_self {prev : List PrevEntry} {e : Pid × ProcStats}
    (h : prevFind prev e.1 = some (entryOf e)) : prevStore e.1 e.2 prev = prev := by
  induction prev with
  | nil => rfl
  | cons p prev ih =>
    by_cases hp : p.pid = e.1
    · have he : p = entryOf e := by simpa [prevFind, hp] using h
      rw [prevStore, if_pos hp, he]
      rfl
    · have ht : prevFind prev e.1 = some (entryOf e) := by simpa [prevFind, hp] using h
      rw [prevStore, if_neg hp, ih ht]

theorem prevStore_append_new {prev : List PrevEntry} {e : Pid × ProcStats} {p : PrevEntry}
    (h : prevFind prev e.1 = none) (hp : p.pid = e.1) :
    prevStore e.1 e.2 (prev ++ [p]) = prev ++ [entryOf e] := by
  induction prev with
  | nil => simp [prevStore, hp, entryOf]
  | cons q prev ih =>
    have hq : q.pid ≠ e.1 := fun he => by simp [prevFind, he] at h
    have ht : prevFind prev e.1 = none := by simpa [prevFind, hq] using h
    rw [List.cons_append, prevStore, if_neg hq, ih ht]
    rfl

theorem prevFind_remember (prev : List PrevEntry) (e : Pid × ProcStats) (pid : Pid) :
    prevFind (remember prev e) pid =
      if pid = e.1 then some (entryOf e) else prevFind prev pid := by
  unfold remember
  cases h : prevFind prev e.1 with
  | some q => exact prevFind_prevStore h pid
  | none =>
    rw [prevFind_append]
    by_cases hpid : pid = e.1
    · subst hpid
      simp [h, entryOf]
    · cases prevFind prev pid <;> simp [hpid, entryOf, Ne.symm hpid]

/-- A visit adds at most its own pid to the table. -/
theorem remember_pids (prev : List PrevEntry) (e : Pid × ProcStats) :
    (remember prev e).map PrevEntry.pid =
      if e.1 ∈ prev.map PrevEntry.pid then prev.map PrevEntry.pid
      else prev.map PrevEntry.pid ++ [e.1] := by
  unfold remember
  cases h : prevFind prev e.1 with
  | some q =>
    have hm : e.1 ∈ prev.map PrevEntry.pid := by
      by_contra hn
      rw [prevFind_eq_none_iff.mpr hn] at h
      cases h
    rw [if_pos hm]
    exact prevStore_pids _ _ _
  | none =>
    rw [if_neg (prevFind_eq_none_iff.mp h)]
    simp [entryOf]

theorem remember_nodup {prev : List PrevEntry} (h : (prev.map PrevEntry.pid).Nodup)
    (e : Pid × ProcStats) : ((remember prev e).map PrevEntry.pid).Nodup := by
  rw [remember_pids]
  split
  · exact h
  · next hn =>
    rw [← List.concat_eq_append]
    exact h.concat hn

theorem length_remember (prev : List PrevEntry) (e : Pid × ProcStats) :
    (remember prev e).length =
      if e.1 ∈ prev.map PrevEntry.pid then prev.length else prev.length + 1 := by
  have hpids := congrArg List.length (remember_pids prev e)
  rw [List.length_map] at hpids
  rw [hpids]
  split <;> simp

theorem prevOk_remember {m : BpfMap Pid ProcStats} {prev : List PrevEntry} (h : PrevOk m prev)
    {e : Pid × ProcStats} (he : e ∈ m.entries) : PrevOk m (remember prev e) := by
  have hk : e.1 ∈ m.keys := List.mem_map_of_mem he
  have hpids := remember_pids prev e
  constructor
  · exact remember_nodup h.nodup e
  · intro p hp
    have hm : p.pid ∈ (remember prev e).map PrevEntry.pid := List.mem_map_of_mem hp
    rw [hpids] at hm
    have hold : ∀ pid ∈ prev.map PrevEntry.pid, pid ∈ m.keys := by
      intro pid hpid
      obtain ⟨q, hq, rfl⟩ := List.mem_map.mp hpid
      exact h.mem_keys q hq
    split at hm
    · exact hold _ hm
    · rcases List.mem_append.mp hm with hm | hm
      · exact hold _ hm
      · rw [List.mem_singleton] at hm
        exact hm ▸ hk

theorem prevOk_foldl_remember {m : BpfMap Pid ProcStats} {prev : List PrevEntry}
    (h : PrevOk m prev) {es : List (Pid × ProcStats)} (hes : ∀ e ∈ es, e ∈ m.entries) :
    PrevOk m (es.foldl remember prev) := by
  induction es generalizing prev with
  | nil => exact h
  | cons e es ih =>
    exact ih (prevOk_remember h (hes e (by simp))) (fun e' he' => hes e' (by simp [he']))

/-- The table has room for a pid of the map that it does not hold yet. -/
theorem prevOk_room {m : BpfMap Pid ProcStats} {prev : List PrevEntry} (h : PrevOk m prev)
    {pid : Pid} (hm : pid ∈ m.keys) (hp : pid ∉ prev.map PrevEntry.pid) :
    prev.length < m.size := by
  have hnd : (pid :: prev.map PrevEntry.pid).Nodup := List.nodup_cons.mpr ⟨hp, h.nodup⟩
  have hsub : pid :: prev.map PrevEntry.pid ⊆ m.keys := by
    intro q hq
    rcases List.mem_cons.mp hq with rfl | hq
    · exact hm
    · obtain ⟨r, hr, rfl⟩ := List.mem_map.mp hq
      exact h.mem_keys r hr
  have hle := (List.subperm_of_subset hnd hsub).length_le
  simp only [List.length_cons, List.length_map, BpfMap.keys] at hle
  exact hle

theorem clearSeen_pids (prev : List PrevEntry) :
    (clearSeen prev).map PrevEntry.pid = prev.map PrevEntry.pid := by
  rw [clearSeen, List.map_map]
  rfl

theorem prevOk_clearSeen {m : BpfMap Pid ProcStats} {prev : List PrevEntry} (h : PrevOk m prev) :
    PrevOk m (clearSeen prev) := by
  constructor
  · rw [clearSeen_pids]
    exact h.nodup
  · intro p hp
    obtain ⟨q, hq, rfl⟩ := List.mem_map.mp hp
    exact h.mem_keys q hq

/-! ## Visits -/

theorem diff_self (n : Nat) : diff n n = 0 := by simp [diff]

theorem mkRow_entryOf (env : PassEnv) (e : Pid × ProcStats) : mkRow env e (entryOf e) = none := by
  simp [mkRow, entryOf, diff_self]

/-- A first visit, when neither capacity guard is taken. -/
theorem visit_eq {env : PassEnv} {acc : List PrevEntry × List Row} {e : Pid × ProcStats}
    (hprev : prevFind acc.1 e.1 = none → acc.1.length < MAX_ROWS)
    (hrows : acc.2.length < env.maxRows) :
    visit env acc e = (remember acc.1 e, acc.2 ++ (rowOf env acc.1 e).toList) := by
  have hr : ¬ acc.2.length ≥ env.maxRows := by omega
  have hdiff : ∀ (prev : List PrevEntry) (p : PrevEntry),
      diffRow env prev acc.2 e p = (prevStore e.1 e.2 prev, acc.2 ++ (mkRow env e p).toList) := by
    intro prev p
    unfold diffRow
    cases mkRow env e p with
    | none => simp
    | some r => simp [hr]
  unfold visit remember rowOf baseline
  cases hf : prevFind acc.1 e.1 with
  | some p => exact hdiff acc.1 p
  | none =>
    have hp : ¬ acc.1.length ≥ MAX_ROWS := Nat.not_le.mpr (hprev hf)
    simp only [hp, if_false]
    cases hpr : env.priming with
    | true =>
      simp only [if_true, mkRow_entryOf, Option.toList_none, List.append_nil]
      rfl
    | false =>
      simp only [Bool.false_eq_true, if_false]
      rw [hdiff, prevStore_append_new hf rfl]

/-- A second visit of the same row changes nothing. -/
theorem visit_again {env : PassEnv} {acc : List PrevEntry × List Row} {e : Pid × ProcStats}
    (h : prevFind acc.1 e.1 = some (entryOf e)) : visit env acc e = acc := by
  unfold visit diffRow
  rw [h]
  simp only [mkRow_entryOf, prevStore_self h]

/-- The table after visits of rows with distinct pids. -/
theorem prevFind_foldl_remember {prev : List PrevEntry} {es : List (Pid × ProcStats)}
    (hnd : (es.map Prod.fst).Nodup) {e : Pid × ProcStats} (he : e ∈ es) :
    prevFind (es.foldl remember prev) e.1 = some (entryOf e) := by
  induction es using List.reverseRecOn with
  | nil => cases he
  | append_singleton es a ih =>
    rw [List.foldl_append, List.foldl_cons, List.foldl_nil, prevFind_remember]
    rw [List.map_append, List.nodup_append] at hnd
    rcases List.mem_append.mp he with hm | hm
    · have hne : e.1 ≠ a.1 := hnd.2.2 e.1 (List.mem_map_of_mem hm) a.1 (by simp)
      rw [if_neg hne]
      exact ih hnd.1 hm
    · rw [List.mem_singleton] at hm
      rw [hm, if_pos rfl]

theorem prevFind_foldl_remember_of_notMem {prev : List PrevEntry} {es : List (Pid × ProcStats)}
    {pid : Pid} (h : pid ∉ es.map Prod.fst) :
    prevFind (es.foldl remember prev) pid = prevFind prev pid := by
  induction es using List.reverseRecOn with
  | nil => rfl
  | append_singleton es a ih =>
    rw [List.map_append, List.mem_append, not_or] at h
    have hne : pid ≠ a.1 := by simpa using h.2
    rw [List.foldl_append, List.foldl_cons, List.foldl_nil, prevFind_remember, if_neg hne]
    exact ih h.1

/-- Rows with distinct pids add an entry each, if the table has none. -/
theorem length_foldl_remember {prev : List PrevEntry} {es : List (Pid × ProcStats)}
    (hnd : (es.map Prod.fst).Nodup) :
    (es.foldl remember prev).length =
      prev.length + (es.filter fun e => (prevFind prev e.1).isNone).length := by
  induction es using List.reverseRecOn with
  | nil => rfl
  | append_singleton es e ih =>
    rw [List.map_append, List.nodup_append] at hnd
    have hnew : e.1 ∉ es.map Prod.fst := fun hm => hnd.2.2 e.1 hm e.1 (by simp) rfl
    have hfind : prevFind (es.foldl remember prev) e.1 = prevFind prev e.1 :=
      prevFind_foldl_remember_of_notMem hnew
    rw [List.foldl_concat, length_remember, List.filter_append, List.length_append, ← Nat.add_assoc,
      ← ih hnd.1]
    split
    · next hmem =>
      have hold : (prevFind prev e.1).isNone = false := by
        rw [← hfind, Option.isNone_eq_false_iff, Option.isSome_iff_ne_none]
        exact fun hn => prevFind_eq_none_iff.mp hn hmem
      simp [hold]
    · next hmem =>
      have hnone : (prevFind prev e.1).isNone = true := by
        rw [← hfind, prevFind_eq_none_iff.mpr hmem]
        rfl
      simp [hnone]

/-! ## The walk -/

section Visits

variable {env : PassEnv} {m : BpfMap Pid ProcStats} {prev : List PrevEntry}
  {done : List (Pid × ProcStats)}

theorem kept_nodup (env : PassEnv) (m : BpfMap Pid ProcStats) :
    ((kept env m).map Prod.fst).Nodup :=
  m.nodup.sublist (List.filter_sublist.map _)

theorem mem_entries_of_kept {e : Pid × ProcStats} (h : e ∈ kept env m) : e ∈ m.entries :=
  (List.mem_filter.mp h).1

/-- A visit of a row that the full table does not hold. -/
theorem visit_full {acc : List PrevEntry × List Row} {e : Pid × ProcStats}
    (hnone : prevFind acc.1 e.1 = none) (hfull : MAX_ROWS ≤ acc.1.length) :
    visit env acc e = acc := by
  unfold visit
  rw [hnone]
  exact if_pos hfull

theorem entered_eq_false_iff {e : Pid × ProcStats} :
    entered prev e = false ↔ MAX_ROWS ≤ prev.length ∧ prevFind prev e.1 = none := by
  rw [entered, Bool.or_eq_false_iff, decide_eq_false_iff_not, Nat.not_lt,
    Option.isSome_eq_false_iff, Option.isNone_iff_eq_none]

theorem length_le_foldl_remember (prev : List PrevEntry) (es : List (Pid × ProcStats)) :
    prev.length ≤ (es.foldl remember prev).length := by
  induction es using List.reverseRecOn with
  | nil => exact Nat.le_refl _
  | append_singleton es e ih =>
    rw [List.foldl_concat, length_remember]
    refine Nat.le_trans ih ?_
    split
    · exact Nat.le_refl _
    · exact Nat.le_succ _

/-- The guards of a row that is visited for the first time: the table has room for its
pid, unless it was full from the start, and there is room for its row. -/
theorem room_of_fits {e : Pid × ProcStats} (hfits : Fits env m prev) (hmax : m.size ≤ env.maxRows)
    (hpre : done ++ [e] <+: kept env m) :
    (prevFind prev e.1 = none → entered prev e = true →
      ((done.filter (entered prev)).foldl remember prev).length < MAX_ROWS) ∧
    ((done.filter (entered prev)).filterMap (rowOf env prev)).length < env.maxRows := by
  constructor
  · intro hnone hin
    have hspace : prev.length < MAX_ROWS := by
      rw [entered, hnone] at hin
      simpa using hin
    have hroom := hfits.resolve_left (Nat.not_le_of_lt hspace)
    have hnd : ((done.filter (entered prev)).map Prod.fst).Nodup :=
      (kept_nodup env m).sublist
        (((List.filter_sublist.trans (List.sublist_append_left _ _)).trans hpre.sublist).map _)
    have hsub : ((done.filter (entered prev)).filter
        (fun e => (prevFind prev e.1).isNone) ++ [e]).Sublist
        ((kept env m).filter fun e => (prevFind prev e.1).isNone) := by
      have hown : [e].filter (fun e => (prevFind prev e.1).isNone) = [e] := by simp [hnone]
      rw [← hown, ← List.filter_append]
      exact ((List.filter_sublist.append (List.Sublist.refl _)).trans hpre.sublist).filter _
    have hlen := hsub.length_le
    rw [List.length_append, List.length_singleton] at hlen
    rw [length_foldl_remember hnd]
    exact Nat.lt_of_lt_of_le (Nat.add_lt_add_left hlen _) hroom
  · have hle := hpre.length_le
    have hk : (kept env m).length ≤ m.size := List.length_filter_le _ _
    rw [List.length_append, List.length_singleton] at hle
    refine Nat.lt_of_le_of_lt (List.length_filterMap_le _ _) ?_
    exact Nat.lt_of_le_of_lt (List.length_filter_le _ _)
      (Nat.lt_of_lt_of_le hle (Nat.le_trans hk hmax))

/-- A row that comes next is not among those visited. -/
theorem notMem_done {e : Pid × ProcStats} (hpre : done ++ [e] <+: kept env m) :
    e.1 ∉ done.map Prod.fst := by
  have hn := (kept_nodup env m).sublist (hpre.sublist.map Prod.fst)
  rw [List.map_append, List.nodup_append] at hn
  exact fun hm => hn.2.2 e.1 hm e.1 (by simp) rfl

theorem prevFind_entered_of_notMem {e : Pid × ProcStats} (h : e.1 ∉ done.map Prod.fst) :
    prevFind ((done.filter (entered prev)).foldl remember prev) e.1 = prevFind prev e.1 :=
  prevFind_foldl_remember_of_notMem fun hm => h ((List.filter_sublist.map _).subset hm)

/-- What one traversal of kept rows leaves: the entries and the rows of those the table
takes. -/
theorem foldl_visit (hfits : Fits env m prev) (hmax : m.size ≤ env.maxRows)
    (hdone : done <+: kept env m) :
    done.foldl (visit env) (prev, []) =
      ((done.filter (entered prev)).foldl remember prev,
        (done.filter (entered prev)).filterMap (rowOf env prev)) := by
  induction done using List.reverseRecOn with
  | nil => rfl
  | append_singleton done e ih =>
    have hfind : prevFind ((done.filter (entered prev)).foldl remember prev) e.1 =
        prevFind prev e.1 :=
      prevFind_entered_of_notMem (notMem_done hdone)
    obtain ⟨hroom, hrows⟩ := room_of_fits hfits hmax hdone
    rw [List.foldl_concat, ih ((List.prefix_append _ _).trans hdone), List.filter_append]
    cases hin : entered prev e with
    | true =>
      have hrow : rowOf env ((done.filter (entered prev)).foldl remember prev) e =
          rowOf env prev e := by
        simp [rowOf, baseline, hfind]
      rw [visit_eq (fun hn => hroom (hfind ▸ hn) hin) hrows, hrow, List.filter_cons_of_pos hin,
        List.filter_nil, List.foldl_concat, List.filterMap_append]
      cases hro : rowOf env prev e <;> simp [hro]
    | false =>
      obtain ⟨hfull, hnone⟩ := entered_eq_false_iff.mp hin
      rw [visit_full (hfind.trans hnone) (Nat.le_trans hfull (length_le_foldl_remember _ _)),
        List.filter_cons_of_neg (by simp [hin]), List.filter_nil, List.append_nil]

/-- A row that was visited: the table holds it as it is, or is full without it. -/
theorem visited_cases (prev : List PrevEntry) (hdone : done <+: kept env m) {e : Pid × ProcStats}
    (he : e ∈ done) :
    prevFind ((done.filter (entered prev)).foldl remember prev) e.1 = some (entryOf e) ∨
    (prevFind ((done.filter (entered prev)).foldl remember prev) e.1 = none ∧
      MAX_ROWS ≤ prev.length ∧ prevFind prev e.1 = none) := by
  have hnd : (done.map Prod.fst).Nodup := (kept_nodup env m).sublist (hdone.sublist.map _)
  cases hin : entered prev e with
  | true =>
    exact Or.inl (prevFind_foldl_remember (hnd.sublist (List.filter_sublist.map _))
      (List.mem_filter.mpr ⟨he, hin⟩))
  | false =>
    obtain ⟨hfull, hnone⟩ := entered_eq_false_iff.mp hin
    have hout : e.1 ∉ (done.filter (entered prev)).map Prod.fst := by
      intro hm
      obtain ⟨b, hb, hbe⟩ := List.mem_map.mp hm
      obtain ⟨hmem, hbin⟩ := List.mem_filter.mp hb
      rw [List.inj_on_of_nodup_map hnd hmem he hbe, hin] at hbin
      cases hbin
    exact Or.inr ⟨(prevFind_foldl_remember_of_notMem hout).trans hnone, hfull, hnone⟩

theorem again_of_fits (hfits : Fits env m prev) (hmax : m.size ≤ env.maxRows) :
    RestartWalk.Again (reaps env) (visit env) m (prev, []) := by
  intro done e hdone he
  rw [foldl_visit hfits hmax hdone]
  rcases visited_cases prev hdone he with hsome | ⟨hnone, hfull, -⟩
  · exact visit_again hsome
  · exact visit_full hnone (Nat.le_trans hfull (length_le_foldl_remember _ _))

/-- A table of pids of the map has room for all of them. -/
theorem entered_of_prevOk (hok : PrevOk m prev) (hsize : m.size ≤ MAX_ROWS) {e : Pid × ProcStats}
    (he : e ∈ kept env m) : entered prev e = true := by
  have hkey : e.1 ∈ m.keys := List.mem_map_of_mem (mem_entries_of_kept he)
  cases hf : prevFind prev e.1 with
  | some p => simp [entered, hf]
  | none =>
    have hlt := prevOk_room hok hkey (prevFind_eq_none_iff.mp hf)
    simp [entered, Nat.lt_of_lt_of_le hlt hsize]

theorem fits_of_prevOk (hok : PrevOk m prev) (hsize : m.size ≤ MAX_ROWS) : Fits env m prev := by
  refine Or.inr (Nat.le_trans ?_ hsize)
  rw [← length_foldl_remember (kept_nodup env m)]
  have hall : PrevOk m ((kept env m).foldl remember prev) :=
    prevOk_foldl_remember hok fun _ => mem_entries_of_kept
  have hsub : ((kept env m).foldl remember prev).map PrevEntry.pid ⊆ m.keys := by
    intro pid hpid
    obtain ⟨p, hp, rfl⟩ := List.mem_map.mp hpid
    exact hall.mem_keys p hp
  have hle := (List.subperm_of_subset hall.nodup hsub).length_le
  rw [List.length_map] at hle
  exact Nat.le_trans hle (Nat.le_of_eq (List.length_map _))

theorem filter_entered (hok : PrevOk m prev) (hsize : m.size ≤ MAX_ROWS)
    (hdone : done <+: kept env m) :
    done.filter (entered prev) = done :=
  List.filter_eq_self.mpr fun _ he => entered_of_prevOk hok hsize (hdone.subset he)

end Visits

/-! The loop is a walk of the library. -/

theorem walkStep_state (env : PassEnv) (w : Walk) :
    RestartWalk.step (reaps env) (visit env) w.state = (walkStep env w).map Walk.state := by
  unfold RestartWalk.step walkStep Walk.state
  cases w.map.getNextKey w.key with
  | none => rfl
  | some key =>
    cases hps : w.map.lookupElem key with
    | none => simp [hps]
    | some ps => cases hr : reaps env (key, ps) <;> simp [hps, hr]

theorem walk_state (env : PassEnv) (fuel : Nat) (w : Walk) :
    RestartWalk.walk (reaps env) (visit env) fuel w.state = (walk env fuel w).map Walk.state := by
  induction fuel generalizing w with
  | zero => rfl
  | succ fuel ih =>
    rw [RestartWalk.walk, walkStep_state, walk]
    cases walkStep env w with
    | none => rfl
    | some w' => exact ih w'

/-- The loop ends, and leaves what one traversal of the rows that the table takes leaves. -/
theorem walk_exits {env : PassEnv} {m : BpfMap Pid ProcStats} {prev : List PrevEntry}
    (hfits : Fits env m prev) (hzero : 0 ∉ m.keys) (hmax : m.size ≤ env.maxRows) :
    ∃ w, walk env ((m.size + 1) * (m.size + 1)) ⟨0, m, prev, []⟩ = some w ∧
      w.map.entries = kept env m ∧
      w.prev = ((kept env m).filter (entered prev)).foldl remember prev ∧
      w.rows = ((kept env m).filter (entered prev)).filterMap (rowOf env prev) := by
  obtain ⟨s, hwalk, hmap, hacc⟩ := RestartWalk.walk_exits (again_of_fits hfits hmax)
    (RestartWalk.inv_start hzero) (RestartWalk.work_start_lt 0)
  rw [show (⟨0, m, (prev, [])⟩ : RestartWalk.State _ _ _) = Walk.state ⟨0, m, prev, []⟩ from rfl,
    walk_state] at hwalk
  obtain ⟨w, hw, rfl⟩ := Option.map_eq_some_iff.mp hwalk
  have htotal : (w.prev, w.rows) = (kept env m).foldl (visit env) (prev, []) := hacc
  rw [foldl_visit hfits hmax (List.prefix_refl _)] at htotal
  obtain ⟨hprev, hrows⟩ := Prod.mk.inj htotal
  exact ⟨w, hw, hmap, hprev, hrows⟩

end PassLemmas

open PassLemmas

/-! ## The pass -/

/-- What a pass leaves, whatever it deletes on the way and in whatever order the
map is walked. Key 0 must not be in the map, for it is where the walk starts. -/
theorem sample_eq {env : PassEnv} {m : BpfMap Pid ProcStats} {prev : List PrevEntry}
    (hok : PrevOk m prev) (hzero : 0 ∉ m.keys) (hsize : m.size ≤ MAX_ROWS)
    (hmax : m.size ≤ env.maxRows) :
    ∃ r, sample env m prev = some r ∧ r.map.entries = kept env m ∧
      r.prev = ((kept env m).foldl remember (clearSeen prev)).filter (fun p => p.seen) ∧
      r.rows = ((kept env m).filterMap (rowOf env (clearSeen prev))).insertionSort ByTraffic := by
  have hclear := prevOk_clearSeen hok
  obtain ⟨w, hwalk, hmap, hprev, hrows⟩ := walk_exits (fits_of_prevOk hclear hsize) hzero hmax
  rw [filter_entered hclear hsize (List.prefix_refl _)] at hprev hrows
  exact ⟨_, by rw [sample, hwalk]; rfl, hmap, congrArg _ hprev, congrArg _ hrows⟩

/-! ## Counters -/

/-- The three totals that are diffed. -/
inductive Counter where
  | tx
  | rx
  | retrans
deriving DecidableEq, Repr

def ProcStats.get (ps : ProcStats) : Counter → Nat
  | .tx => ps.txBytes
  | .rx => ps.rxBytes
  | .retrans => ps.retransPkts

def PrevEntry.get (p : PrevEntry) : Counter → Nat
  | .tx => p.txBytes
  | .rx => p.rxBytes
  | .retrans => p.retrans

def Row.delta (r : Row) : Counter → Nat
  | .tx => r.dtx
  | .rx => r.drx
  | .retrans => r.retrans

/-- The total of `pid` in the map, 0 if it has no row. -/
def total (m : BpfMap Pid ProcStats) (pid : Pid) (c : Counter) : Nat :=
  match m.lookupElem pid with
  | some ps => ps.get c
  | none => 0

/-- The deltas behind the rows of `pid`, added up. -/
def shown (rows : List Row) (pid : Pid) (c : Counter) : Nat :=
  ((rows.filter fun r => r.pid = pid).map fun r => r.delta c).sum

namespace PassLemmas

theorem diff_eq_sub (a b : Nat) : diff a b = a - b := by
  unfold diff
  split
  · rfl
  · next h => exact (Nat.sub_eq_zero_of_le (Nat.le_of_not_ge h)).symm

theorem mkRow_pid {env : PassEnv} {e : Pid × ProcStats} {p : PrevEntry} {r : Row}
    (h : mkRow env e p = some r) : r.pid = e.1 := by
  simp only [mkRow] at h
  split at h
  · cases h
  · cases h
    rfl

theorem rowOf_pid {env : PassEnv} {prev : List PrevEntry} {e : Pid × ProcStats} {r : Row}
    (h : rowOf env prev e = some r) : r.pid = e.1 :=
  mkRow_pid h

/-- The row of `e` carries its deltas; without a row they are all 0. -/
theorem mkRow_delta (env : PassEnv) (e : Pid × ProcStats) (p : PrevEntry) (c : Counter) :
    ((mkRow env e p).toList.map fun r => r.delta c).sum = e.2.get c - p.get c := by
  simp only [mkRow]
  split
  · next h =>
    rw [diff_eq_sub, diff_eq_sub, diff_eq_sub] at h
    obtain ⟨htx, hrx, hre⟩ := h
    cases c with
    | tx => exact htx.symm
    | rx => exact hrx.symm
    | retrans => exact hre.symm
  · cases c <;> simp [Row.delta, diff_eq_sub, ProcStats.get, PrevEntry.get]

theorem shown_perm {rows rows' : List Row} (h : rows.Perm rows') (pid : Pid) (c : Counter) :
    shown rows pid c = shown rows' pid c :=
  ((h.filter _).map _).sum_nat

theorem shown_ne_zero {rows : List Row} {pid : Pid} {c : Counter} (h : shown rows pid c ≠ 0) :
    ∃ r ∈ rows, r.pid = pid := by
  by_contra hn
  refine h ?_
  have hnil : (rows.filter fun r => r.pid = pid) = [] := by
    rw [List.filter_eq_nil_iff]
    intro r hr hp
    exact hn ⟨r, hr, by simpa using hp⟩
  rw [shown, hnil]
  rfl

theorem shown_append (rows rows' : List Row) (pid : Pid) (c : Counter) :
    shown (rows ++ rows') pid c = shown rows pid c + shown rows' pid c := by
  simp [shown]

/-- The row of `e` shows its deltas for its own pid. -/
theorem shown_rowOf (env : PassEnv) (prev : List PrevEntry) (e : Pid × ProcStats) (pid : Pid)
    (c : Counter) :
    shown (rowOf env prev e).toList pid c =
      if e.1 = pid then e.2.get c - (baseline env prev e).get c else 0 := by
  rw [← mkRow_delta env e (baseline env prev e) c, rowOf]
  cases hr : mkRow env e (baseline env prev e) with
  | none => simp [shown]
  | some r =>
    rcases eq_or_ne e.1 pid with he | he
    · simp [shown, mkRow_pid hr, he]
    · simp [shown, mkRow_pid hr, he]

/-- Among rows made from entries with distinct pids, what is shown for a pid is
what its own entry gives. -/
theorem shown_filterMap {env : PassEnv} {prev : List PrevEntry} {es : List (Pid × ProcStats)}
    (hnd : (es.map Prod.fst).Nodup) (pid : Pid) (c : Counter) :
    shown (es.filterMap (rowOf env prev)) pid c =
      match es.find? (fun e => e.1 = pid) with
      | some e => e.2.get c - (baseline env prev e).get c
      | none => 0 := by
  induction es with
  | nil => rfl
  | cons e es ih =>
    rw [List.map_cons, List.nodup_cons] at hnd
    have hsplit : (e :: es).filterMap (rowOf env prev) =
        (rowOf env prev e).toList ++ es.filterMap (rowOf env prev) := by
      cases hr : rowOf env prev e <;> simp [hr]
    rw [hsplit, shown_append, shown_rowOf, ih hnd.2]
    rcases eq_or_ne e.1 pid with he | he
    · have hrest : es.find? (fun e => e.1 = pid) = none := by
        rw [List.find?_eq_none]
        intro a ha
        have : a.1 ≠ pid := fun h => hnd.1 (he ▸ h ▸ List.mem_map_of_mem ha)
        simpa using this
      rw [hrest]
      simp [he]
    · simp [he]

theorem prevFind_pid {prev : List PrevEntry} {pid : Pid} {p : PrevEntry}
    (h : prevFind prev pid = some p) : p.pid = pid := by
  simpa using List.find?_some h

theorem prevFind_of_mem {prev : List PrevEntry} (hnd : (prev.map PrevEntry.pid).Nodup)
    {p : PrevEntry} (hp : p ∈ prev) : prevFind prev p.pid = some p := by
  cases hf : prevFind prev p.pid with
  | none => exact absurd (List.mem_map_of_mem hp) (prevFind_eq_none_iff.mp hf)
  | some q => rw [List.inj_on_of_nodup_map hnd (List.mem_of_find?_eq_some hf) hp (prevFind_pid hf)]

theorem prevFind_filter_seen {prev : List PrevEntry} (hnd : (prev.map PrevEntry.pid).Nodup)
    (pid : Pid) :
    prevFind (prev.filter fun p => p.seen) pid = (prevFind prev pid).filter fun p => p.seen := by
  induction prev with
  | nil => rfl
  | cons p prev ih =>
    rw [List.map_cons, List.nodup_cons] at hnd
    have ih := ih hnd.2
    by_cases hp : p.pid = pid
    · have hrest : prevFind prev pid = none := prevFind_eq_none_iff.mpr (hp ▸ hnd.1)
      rw [hrest] at ih
      cases hs : p.seen with
      | true => simp [prevFind, hp, hs, Option.filter]
      | false =>
        rw [List.filter_cons_of_neg (by simp [hs]), ih]
        simp [prevFind, hp, hs, Option.filter]
    · cases hs : p.seen with
      | true => simpa [prevFind, hp, hs] using ih
      | false =>
        rw [List.filter_cons_of_neg (by simp [hs]), ih]
        simp [prevFind, hp]

theorem prevFind_clearSeen (prev : List PrevEntry) (pid : Pid) :
    prevFind (clearSeen prev) pid =
      (prevFind prev pid).map fun p => { p with seen := false } := by
  rw [prevFind, clearSeen, List.find?_map]
  rfl

end PassLemmas

/-- What a pass starts from for a counter of `pid`: its entry in the table, else
its present total when priming, else 0. -/
def base (env : PassEnv) (prev : List PrevEntry) (m : BpfMap Pid ProcStats) (pid : Pid)
    (c : Counter) : Nat :=
  match prevFind prev pid with
  | some p => p.get c
  | none => if env.priming then total m pid c else 0

/-- A pass, pid by pid. -/
structure PassSpec (env : PassEnv) (m : BpfMap Pid ProcStats) (prev : List PrevEntry)
    (r : PassResult) : Prop where
  /-- A row is deleted exactly when the reaper's test holds. -/
  lookup : ∀ pid, r.map.lookupElem pid =
    (m.lookupElem pid).filter fun ps => !reaps env (pid, ps)
  /-- The table mirrors the map that is left. -/
  mirror : ∀ pid, prevFind r.prev pid = (r.map.lookupElem pid).map fun ps => entryOf (pid, ps)
  prevOk : PrevOk r.map r.prev
  sub : r.map.entries.Sublist m.entries
  /-- What is shown for a pid is its delta since its baseline. -/
  shown_eq : ∀ pid c, shown r.rows pid c = total r.map pid c - base env prev r.map pid c

namespace PassLemmas

section Kept

variable {env : PassEnv} {m m' : BpfMap Pid ProcStats} {prev : List PrevEntry}

theorem lookupElem_of_kept (hmap : m'.entries = kept env m) (pid : Pid) :
    m'.lookupElem pid = (m.lookupElem pid).filter fun ps => !reaps env (pid, ps) := by
  ext ps
  rw [BpfMap.lookupElem_eq_some_iff, hmap, kept, List.mem_filter, Option.filter_eq_some_iff,
    BpfMap.lookupElem_eq_some_iff]

theorem find_of_kept (hmap : m'.entries = kept env m) (pid : Pid) :
    (kept env m).find? (fun e => e.1 = pid) = (m'.lookupElem pid).map fun ps => (pid, ps) := by
  rw [BpfMap.lookupElem, hmap]
  cases hf : (kept env m).find? fun e => e.1 = pid with
  | none => rfl
  | some e =>
    have : e.1 = pid := by simpa using List.find?_some hf
    simp [← this]

theorem prevOk_of_kept (env : PassEnv) (hok : PrevOk m prev) :
    PrevOk m ((kept env m).foldl remember (clearSeen prev)) :=
  prevOk_foldl_remember (prevOk_clearSeen hok) fun _ he => mem_entries_of_kept he

/-- An entry is seen exactly if its pid has a row that is kept. -/
theorem prevFind_of_kept (hok : PrevOk m prev) (hmap : m'.entries = kept env m) (pid : Pid) :
    prevFind (((kept env m).foldl remember (clearSeen prev)).filter fun p => p.seen) pid =
      (m'.lookupElem pid).map fun ps => entryOf (pid, ps) := by
  rw [prevFind_filter_seen (prevOk_of_kept env hok).nodup]
  cases hl : m'.lookupElem pid with
  | some ps =>
    have he : (pid, ps) ∈ kept env m := hmap ▸ BpfMap.mem_of_lookupElem hl
    rw [prevFind_foldl_remember (kept_nodup env m) he]
    rfl
  | none =>
    have hn : pid ∉ (kept env m).map Prod.fst := hmap ▸ BpfMap.lookupElem_eq_none_iff.mp hl
    rw [prevFind_foldl_remember_of_notMem hn, prevFind_clearSeen]
    cases prevFind prev pid <;> rfl

/-- Each kept row shows its delta. -/
theorem shown_of_kept (prev : List PrevEntry) (hmap : m'.entries = kept env m) (pid : Pid)
    (c : Counter) :
    shown ((kept env m).filterMap (rowOf env (clearSeen prev))) pid c =
      total m' pid c - base env prev m' pid c := by
  rw [shown_filterMap (kept_nodup env m), find_of_kept hmap]
  cases hl : m'.lookupElem pid with
  | none => simp [total, hl]
  | some ps =>
    simp only [Option.map_some, baseline, base, total, hl, prevFind_clearSeen]
    cases prevFind prev pid with
    | some p => cases c <;> rfl
    | none =>
      cases env.priming with
      | true => cases c <;> rfl
      | false => cases c <;> rfl

end Kept

end PassLemmas

theorem sample_spec {env : PassEnv} {m : BpfMap Pid ProcStats} {prev : List PrevEntry}
    (hok : PrevOk m prev) (hzero : 0 ∉ m.keys) (hsize : m.size ≤ MAX_ROWS)
    (hmax : m.size ≤ env.maxRows) :
    ∃ r, sample env m prev = some r ∧ PassSpec env m prev r := by
  obtain ⟨r, hr, hmap, hprev, hrows⟩ := sample_eq hok hzero hsize hmax
  have hmirror : ∀ pid, prevFind r.prev pid =
      (r.map.lookupElem pid).map fun ps => entryOf (pid, ps) := by
    rw [hprev]
    exact prevFind_of_kept hok hmap
  refine ⟨r, hr, lookupElem_of_kept hmap, hmirror, ⟨?_, ?_⟩, ?_, ?_⟩
  · rw [hprev]
    exact (prevOk_of_kept env hok).nodup.sublist (List.filter_sublist.map _)
  · intro p hp
    have hfind : prevFind r.prev p.pid ≠ none := fun h =>
      prevFind_eq_none_iff.mp h (List.mem_map_of_mem hp)
    rw [hmirror, Ne, Option.map_eq_none_iff] at hfind
    exact BpfMap.mem_keys_iff.mpr (Option.isSome_iff_ne_none.mpr hfind)
  · rw [hmap]
    exact List.filter_sublist
  · intro pid c
    rw [hrows, shown_perm (List.perm_insertionSort _ _), shown_of_kept prev hmap]

end Ebpf101.Nettop
