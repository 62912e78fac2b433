import Mathlib.Data.List.Basic
import Mathlib.Logic.Relation
import Ebpf101.Lib.BpfMap

/-!
# Walks that start over

A loop walks a map by `bpf_map_get_next_key` and deletes some entries on its way. The
call returns the first key when the given one is absent, so the deletion of the entry
under the cursor makes the loop start over: the entries before it are visited again, as
often as there are deletions. `visit` gathers what the loop keeps in an accumulator.

The library asks one thing of `visit`, `Again`: that an entry visited once is not changed
by another visit. Then the walk is one traversal of the entries that are kept.

Results:
1. `walk_exits`: the loop ends, with the kept entries in the map and in the accumulator.
2. `inv_of_reached`, `Inv.next_of_keep`: what holds at every iteration, and which entry
   comes next.
-/

namespace RestartWalk

variable {κ ν α : Type} [DecidableEq κ]

/-- The cursor, the map and what was gathered so far. -/
structure State (κ ν α : Type) where
  key : κ
  map : BpfMap κ ν
  acc : α

section Definitions

variable (reaps : κ × ν → Bool) (visit : α → κ × ν → α)

/-- One iteration; `none` when there is no further key. -/
def step (s : State κ ν α) : Option (State κ ν α) :=
  match s.map.getNextKey s.key with
  | none => none
  | some key =>
    match s.map.lookupElem key with
    | none => some { s with key := key }
    | some v =>
      if reaps (key, v) then some { s with key := key, map := s.map.deleteElem key }
      else some { s with key := key, acc := visit s.acc (key, v) }

/-- The loop. -/
def walk : Nat → State κ ν α → Option (State κ ν α)
  | 0, _ => none
  | fuel + 1, s =>
    match step reaps visit s with
    | none => some s
    | some s' => walk fuel s'

omit [DecidableEq κ]

/-- The entries that are kept. -/
def kept (m : BpfMap κ ν) : List (κ × ν) := m.entries.filter fun e => !reaps e

/-- Every iteration decreases this: a deletion the first part, any other the second. -/
def work (n : Nat) (s : State κ ν α) (back : List (κ × ν)) : Nat :=
  (s.map.entries.filter reaps).length * (n + 1) + back.length

/-- Visiting an entry again changes nothing. -/
def Again (m : BpfMap κ ν) (a : α) : Prop :=
  ∀ done e, done <+: kept reaps m → e ∈ done → visit (done.foldl visit a) e = done.foldl visit a

/-- What holds between two iterations: the cursor's `front` consists of kept entries, the
entries visited so far are the first `done` of those to keep, and the accumulator is what
visiting exactly these once leaves. -/
structure Inv (m : BpfMap κ ν) (a : α) (s : State κ ν α)
    (front back done : List (κ × ν)) : Prop where
  cursor : s.map.Cursor s.key front back
  sub : s.map.entries.Sublist m.entries
  kept_eq : kept reaps s.map = kept reaps m
  front_kept : ∀ e ∈ front, reaps e = false
  front_done : front <+: done
  done_kept : done <+: kept reaps m
  acc_eq : s.acc = done.foldl visit a

end Definitions

section Steps

variable {reaps : κ × ν → Bool} {visit : α → κ × ν → α} {m : BpfMap κ ν} {a : α} {s : State κ ν α}
  {front back done : List (κ × ν)}

omit [DecidableEq κ] in
theorem inv_start {k : κ} (hk : k ∉ m.keys) : Inv reaps visit m a ⟨k, m, a⟩ [] m.entries [] :=
  { cursor := .start hk
    sub := List.Sublist.refl _
    kept_eq := rfl
    front_kept := by simp
    front_done := List.prefix_refl _
    done_kept := List.nil_prefix
    acc_eq := rfl }

/-- No further key: every kept entry was visited, and no other is left. -/
theorem Inv.step_end (h : Inv reaps visit m a s front [] done) :
    step reaps visit s = none ∧ s.map.entries = kept reaps m ∧
      s.acc = (kept reaps m).foldl visit a := by
  have hent : s.map.entries = front := by simpa using h.cursor.entries_eq
  have hkept : kept reaps s.map = front := by
    rw [kept, hent, List.filter_eq_self]
    intro e he
    simp [h.front_kept e he]
  have hfront : front = kept reaps m := hkept.symm.trans h.kept_eq
  have hdone : done = kept reaps m :=
    h.done_kept.eq_of_length_le (hfront ▸ h.front_done).length_le
  exact ⟨by simp [step, h.cursor.getNextKey], hent.trans hfront, hdone ▸ h.acc_eq⟩

/-- The next entry is reaped: it leaves the map and the walk starts over. -/
theorem Inv.step_reap {e : κ × ν} (h : Inv reaps visit m a s front (e :: back) done)
    (hr : reaps e = true) :
    ∃ s' back', step reaps visit s = some s' ∧ Inv reaps visit m a s' [] back' done ∧
      work reaps m.size s' back' < work reaps m.size s (e :: back) := by
  have hmem : e ∈ s.map.entries := by simp [h.cursor.entries_eq]
  have hkept : kept reaps (s.map.deleteElem e.1) = kept reaps s.map := by
    unfold kept BpfMap.deleteElem
    rw [List.filter_filter]
    refine List.filter_congr fun b hb => ?_
    rcases eq_or_ne b.1 e.1 with hbe | hbe
    · have hbeq : b = e := List.inj_on_of_nodup_map s.map.nodup hb hmem hbe
      simp [hbeq, hr]
    · simp [hbe]
  have hlen : (s.map.deleteElem e.1).entries.length ≤ m.size :=
    (List.filter_sublist.trans h.sub).length_le
  have hreap : ((s.map.deleteElem e.1).entries.filter reaps).length <
      (s.map.entries.filter reaps).length := by
    unfold BpfMap.deleteElem
    rw [List.filter_comm, List.length_filter_lt_length_iff_exists]
    exact ⟨e, List.mem_filter.mpr ⟨hmem, hr⟩, by simp⟩
  refine ⟨{ s with key := e.1, map := s.map.deleteElem e.1 },
    (s.map.deleteElem e.1).entries, ?_, ?_, ?_⟩
  · simp [step, h.cursor.getNextKey, BpfMap.lookupElem_of_mem hmem, hr]
  · exact
      { cursor := .start (by simp [BpfMap.keys, BpfMap.deleteElem])
        sub := List.filter_sublist.trans h.sub
        kept_eq := hkept.trans h.kept_eq
        front_kept := by simp
        front_done := List.nil_prefix
        done_kept := h.done_kept
        acc_eq := h.acc_eq }
  · have hmul := Nat.mul_le_mul_right (m.size + 1) (Nat.succ_le_of_lt hreap)
    simp only [work, Nat.succ_mul] at hmul ⊢
    omega

omit [DecidableEq κ] in
theorem Inv.front_snoc {e : κ × ν} (h : Inv reaps visit m a s front (e :: back) done)
    (hr : reaps e = false) : front ++ [e] <+: kept reaps m := by
  rw [← h.kept_eq, kept, h.cursor.entries_eq, List.filter_append, List.filter_cons]
  have hf : front.filter (fun e => !reaps e) = front :=
    List.filter_eq_self.mpr fun b hb => by simp [h.front_kept b hb]
  simp [hf, hr]

omit [DecidableEq κ] in
/-- An entry that is kept was visited before the last restart, or the walk is where no walk
of the loop has been. -/
theorem Inv.next_of_keep {e : κ × ν} (h : Inv reaps visit m a s front (e :: back) done)
    (hr : reaps e = false) : front ++ [e] <+: done ∨ done = front := by
  rcases List.prefix_or_prefix_of_prefix (h.front_snoc hr) h.done_kept with hp | hp
  · exact Or.inl hp
  · rcases Nat.lt_or_ge front.length done.length with hlt | hge
    · have hlen : done.length = (front ++ [e]).length :=
        Nat.le_antisymm hp.length_le (by rw [List.length_append]; exact hlt)
      rw [hp.eq_of_length hlen]
      exact Or.inl (List.prefix_refl _)
    · exact Or.inr (h.front_done.eq_of_length_le hge).symm

/-- The next entry is kept: it is visited and the cursor moves past it. -/
theorem Inv.step_keep {e : κ × ν} (h : Inv reaps visit m a s front (e :: back) done)
    (hagain : Again reaps visit m a) (hr : reaps e = false) :
    ∃ s' done', step reaps visit s = some s' ∧ Inv reaps visit m a s' (front ++ [e]) back done' ∧
      work reaps m.size s' back < work reaps m.size s (e :: back) := by
  have hmem : e ∈ s.map.entries := by simp [h.cursor.entries_eq]
  have hstep : step reaps visit s = some { s with key := e.1, acc := visit s.acc e } := by
    simp [step, h.cursor.getNextKey, BpfMap.lookupElem_of_mem hmem, hr]
  have hfront := h.front_snoc hr
  have hkeep : ∀ b ∈ front ++ [e], reaps b = false := by
    intro b hb
    simpa using (List.mem_filter.mp (hfront.subset hb)).2
  have hcur : s.map.Cursor e.1 (front ++ [e]) back := .at (v := e.2) h.cursor.entries_eq
  rcases h.next_of_keep hr with hpre | rfl
  · refine ⟨_, done, hstep, ?_, by simp [work]⟩
    exact
      { cursor := hcur
        sub := h.sub
        kept_eq := h.kept_eq
        front_kept := hkeep
        front_done := hpre
        done_kept := h.done_kept
        acc_eq := by
          show visit s.acc e = _
          rw [h.acc_eq, hagain done e h.done_kept (hpre.subset (by simp))] }
  · refine ⟨_, done ++ [e], hstep, ?_, by simp [work]⟩
    exact
      { cursor := hcur
        sub := h.sub
        kept_eq := h.kept_eq
        front_kept := hkeep
        front_done := List.prefix_refl _
        done_kept := hfront
        acc_eq := by
          show visit s.acc e = _
          rw [h.acc_eq, List.foldl_concat] }

/-- One iteration. -/
theorem Inv.step_cases (h : Inv reaps visit m a s front back done)
    (hagain : Again reaps visit m a) :
    (step reaps visit s = none ∧ s.map.entries = kept reaps m ∧
      s.acc = (kept reaps m).foldl visit a) ∨
    ∃ s' front' back' done', step reaps visit s = some s' ∧
      Inv reaps visit m a s' front' back' done' ∧
      work reaps m.size s' back' < work reaps m.size s back := by
  cases back with
  | nil => exact Or.inl h.step_end
  | cons e back =>
    cases hr : reaps e with
    | true =>
      obtain ⟨s', back', hs⟩ := h.step_reap hr
      exact Or.inr ⟨s', [], back', done, hs⟩
    | false =>
      obtain ⟨s', done', hs⟩ := h.step_keep hagain hr
      exact Or.inr ⟨s', front ++ [e], back, done', hs⟩

/-- The loop ends. -/
theorem walk_exits (hagain : Again reaps visit m a) {fuel : Nat}
    (h : Inv reaps visit m a s front back done) (hfuel : work reaps m.size s back < fuel) :
    ∃ s', walk reaps visit fuel s = some s' ∧ s'.map.entries = kept reaps m ∧
      s'.acc = (kept reaps m).foldl visit a := by
  induction fuel generalizing s front back done with
  | zero => exact absurd hfuel (Nat.not_lt_zero _)
  | succ fuel ih =>
    rcases h.step_cases hagain with ⟨hnone, hend⟩ | ⟨s', front', back', done', hstep, h', hlt⟩
    · exact ⟨s, by simp [walk, hnone], hend⟩
    · rw [walk, hstep]
      exact ih h' (Nat.lt_of_lt_of_le hlt (Nat.le_of_lt_succ hfuel))

omit [DecidableEq κ] in
/-- The fuel of a walk over a whole map. -/
theorem work_start_lt (k : κ) :
    work reaps m.size (⟨k, m, a⟩ : State κ ν α) m.entries < (m.size + 1) * (m.size + 1) := by
  have hle : (m.entries.filter reaps).length ≤ m.size := List.length_filter_le _ _
  have hmul := Nat.mul_le_mul_right (m.size + 1) hle
  have hlen : m.entries.length = m.size := rfl
  simp only [work, Nat.succ_mul, hlen]
  exact Nat.lt_succ_of_le (Nat.add_le_add_right hmul _)

/-- What holds at every iteration of the loop. -/
theorem inv_of_reached (hagain : Again reaps visit m a) {k : κ} (hk : k ∉ m.keys)
    (h : Relation.ReflTransGen (fun s s' => step reaps visit s = some s') ⟨k, m, a⟩ s) :
    ∃ front back done, Inv reaps visit m a s front back done := by
  induction h with
  | refl => exact ⟨_, _, _, inv_start hk⟩
  | tail _ hstep ih =>
    obtain ⟨front, back, done, hinv⟩ := ih
    rcases hinv.step_cases hagain with ⟨hnone, -⟩ | ⟨s', front', back', done', hs, hinv', -⟩
    · rw [hnone] at hstep
      cases hstep
    · rw [hs] at hstep
      cases hstep
      exact ⟨front', back', done', hinv'⟩

end Steps

end RestartWalk
