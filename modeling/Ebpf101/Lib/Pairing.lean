import Mathlib.Data.List.Induction
import Ebpf101.Lib.BpfMap
import Ebpf101.Lib.Runs

/-!
# Pairing entries with exits

A tool hooks the entry and the exit of a call. The entry hook saves something of
the call in a stash, under the key of the caller; the exit hook takes it out
again and combines it with the result. A caller makes one call at a time, but it
may die inside a call, and its key may then be given to another caller: the stash
keeps what the dead caller saved.

* `current k acts`: the call of key `k` that is in flight after `acts`, with the
  place of its entry, which identifies it;
* `lookup_of_current`: under the key of a call that saved something the stash
  holds that or nothing, never what another call saved;
* `lookup_since_enter`: what it holds is what it held right after the entry;
* `emitted_by_current`: an event is made of what the call in flight saved, if it
  saved something;
* `emits_unique`: no call has two events.

A call that saves nothing has no such protection: its entry leaves the stash as
it is.
-/

namespace Pairing

open Runs

variable {κ χ ρ ε ω : Type} [DecidableEq κ]

/-! ## The machine -/

/-- What happens to the callers: one enters a call `c`, returns from it with `r`,
or dies. -/
inductive Action (κ χ ρ : Type) where
  | enter (k : κ) (c : χ)
  | exit (k : κ) (r : ρ)
  | kill (k : κ)

def Action.key : Action κ χ ρ → κ
  | .enter k _ => k
  | .exit k _ => k
  | .kill k => k

/-- The call that the action begins. -/
def Action.begins : Action κ χ ρ → Option χ
  | .enter _ c => some c
  | _ => none

/-- A tool that hooks entries and exits; it does not see a caller die. -/
def hook {σ : Type} (enter : σ → κ → χ → σ) (exit : σ → κ → ρ → σ × Option ω) (s : σ) :
    Action κ χ ρ → σ × Option ω
  | .enter k c => (enter s k c, none)
  | .exit k r => exit s k r
  | .kill _ => (s, none)

/-- The two hooks of a tool with a stash: the number of entries of the stash, what
the entry hook saves of a call (`none` if it ignores the call), and the event the
exit hook makes of it (`none` if there is no room for one). -/
structure Hooks (κ χ ρ ε ω : Type) where
  cap : Nat
  save : χ → Option ε
  emit : κ → ρ → ε → Option ω

/-- The place of a new entry does not matter: nothing walks the map. -/
def Hooks.enter (H : Hooks κ χ ρ ε ω) (s : BpfMap κ ε) (k : κ) (c : χ) : BpfMap κ ε :=
  match H.save c with
  | none => s
  | some e => s.updateElem H.cap 0 k e .any

def Hooks.exit (H : Hooks κ χ ρ ε ω) (s : BpfMap κ ε) (k : κ) (r : ρ) : BpfMap κ ε × Option ω :=
  match s.lookupElem k with
  | none => (s, none)
  | some e => (s.deleteElem k, H.emit k r e)

/-- The stash after the run `acts`. -/
def Hooks.after (H : Hooks κ χ ρ ε ω) (acts : List (Action κ χ ρ)) : BpfMap κ ε :=
  exec (hook H.enter H.exit) BpfMap.empty acts

/-! ## Calls -/

/-- The call of `k` that is in flight after `acts`, and the place of its entry. -/
def current (k : κ) (acts : List (Action κ χ ρ)) : Option (Nat × χ) :=
  acts.zipIdx.foldl (fun cur a => if a.1.key = k then a.1.begins.map (Prod.mk a.2) else cur) none

/-- A caller returns from a call only when it is in one. The entry of a call that
began before the tool was started has not been seen. -/
def PairedAt (pre : List (Action κ χ ρ)) : Action κ χ ρ → Prop
  | .exit k _ => (current k pre).isSome ∨ ∀ a ∈ pre, a.key = k → a.begins.isNone
  | _ => True

instance (pre : List (Action κ χ ρ)) : (a : Action κ χ ρ) → Decidable (PairedAt pre a)
  | .exit _ _ => inferInstanceAs (Decidable (_ ∨ _))
  | .enter _ _ => isTrue trivial
  | .kill _ => isTrue trivial

/-- The call that was entered at place `i` has the event `p.2`, at place `p.1`. -/
def Hooks.Emits (H : Hooks κ χ ρ ε ω) (acts : List (Action κ χ ρ)) (i : Nat) (p : Nat × ω) :
    Prop :=
  ∃ k r c, acts[p.1]? = some (.exit k r) ∧ current k (acts.take p.1) = some (i, c) ∧
    (H.exit (H.after (acts.take p.1)) k r).2 = some p.2

section Current

theorem current_snoc (k : κ) (acts : List (Action κ χ ρ)) (a : Action κ χ ρ) :
    current k (acts ++ [a]) =
      if a.key = k then a.begins.map (Prod.mk acts.length) else current k acts := by
  simp [current, List.zipIdx_append]

omit [DecidableEq κ] in
theorem Action.eq_enter {a : Action κ χ ρ} {c : χ} (h : a.begins = some c) :
    a = .enter a.key c := by
  cases a with
  | enter k c' =>
    cases h
    rfl
  | exit k r => cases h
  | kill k => cases h

/-- A call in flight began at its place. -/
theorem getElem?_of_current {k : κ} {acts : List (Action κ χ ρ)} {i : Nat} {c : χ}
    (h : current k acts = some (i, c)) : acts[i]? = some (.enter k c) := by
  induction acts using List.reverseRecOn with
  | nil => cases h
  | append_singleton acts a ih =>
    rw [current_snoc] at h
    split at h
    · next hk =>
      obtain ⟨c', hb, he⟩ := Option.map_eq_some_iff.mp h
      cases he
      rw [List.getElem?_concat_length, Action.eq_enter hb, hk]
    · have hi := ih h
      rw [List.getElem?_append_left (List.getElem?_eq_some_iff.mp hi).1]
      exact hi

/-- A call in flight that was not there before began since. -/
theorem le_of_current {k : κ} {pre mid : List (Action κ χ ρ)} {i : Nat} {c : χ}
    (hpre : current k pre = none) (h : current k (pre ++ mid) = some (i, c)) :
    pre.length ≤ i := by
  induction mid using List.reverseRecOn with
  | nil =>
    rw [List.append_nil, hpre] at h
    cases h
  | append_singleton mid a ih =>
    rw [← List.append_assoc, current_snoc] at h
    split at h
    · obtain ⟨c', -, he⟩ := Option.map_eq_some_iff.mp h
      cases he
      rw [List.length_append]
      exact Nat.le_add_right _ _
    · exact ih h

end Current

/-! ## The stash -/

section Stash

variable {H : Hooks κ χ ρ ε ω}

theorem after_snoc (acts : List (Action κ χ ρ)) (a : Action κ χ ρ) :
    H.after (acts ++ [a]) = (hook H.enter H.exit (H.after acts) a).1 := exec_snoc acts a

theorem enter_eq (s : BpfMap κ ε) (k : κ) {c : χ} {e : ε} (he : H.save c = some e) :
    H.enter s k c = s.updateElem H.cap 0 k e .any := by
  rw [Hooks.enter, he]

/-- An action touches the entry of its own key only. -/
theorem lookup_hook_ne {k : κ} {a : Action κ χ ρ} (h : a.key ≠ k) (s : BpfMap κ ε) :
    (hook H.enter H.exit s a).1.lookupElem k = s.lookupElem k := by
  cases a with
  | enter k' c =>
    have hk : k ≠ k' := Ne.symm h
    simp only [hook, Hooks.enter]
    split
    · rfl
    · rw [BpfMap.lookupElem_updateElem_any, if_neg (by simp [hk])]
  | exit k' r =>
    have hk : k ≠ k' := Ne.symm h
    simp only [hook, Hooks.exit]
    split
    · rfl
    · rw [BpfMap.lookupElem_deleteElem, if_neg hk]
  | kill k' => rfl

/-- Under the key of a call that saved something, the stash holds that or, when
it was full, nothing. -/
theorem lookup_of_current {k : κ} {acts : List (Action κ χ ρ)} {i : Nat} {c : χ} {e : ε}
    (h : current k acts = some (i, c)) (hsave : H.save c = some e) :
    (H.after acts).lookupElem k = none ∨ (H.after acts).lookupElem k = some e := by
  induction acts using List.reverseRecOn with
  | nil => cases h
  | append_singleton acts a ih =>
    rw [current_snoc] at h
    rw [after_snoc]
    split at h
    · next hk =>
      obtain ⟨c', hb, he⟩ := Option.map_eq_some_iff.mp h
      cases he
      -- an entry left by an earlier call is overwritten, full stash or not
      rw [Action.eq_enter hb, hk, hook, enter_eq _ _ hsave, BpfMap.lookupElem_updateElem_any]
      split
      · exact Or.inr rfl
      · next hno =>
        have hnone : ¬ ((H.after acts).lookupElem k).isSome := fun hs => hno ⟨rfl, Or.inl hs⟩
        exact Or.inl (Option.not_isSome_iff_eq_none.mp hnone)
    · next hk =>
      rw [lookup_hook_ne hk]
      exact ih h

/-- Nothing touches the entry of a call in flight. -/
theorem lookup_since_enter {k : κ} {acts : List (Action κ χ ρ)} {i : Nat} {c : χ}
    (h : current k acts = some (i, c)) :
    (H.after acts).lookupElem k = (H.after (acts.take (i + 1))).lookupElem k := by
  induction acts using List.reverseRecOn with
  | nil => cases h
  | append_singleton acts a ih =>
    rw [current_snoc] at h
    split at h
    · obtain ⟨c', -, he⟩ := Option.map_eq_some_iff.mp h
      cases he
      rw [List.take_of_length_le (by simp)]
    · next hk =>
      have hlt := (List.getElem?_eq_some_iff.mp (getElem?_of_current h)).1
      rw [after_snoc, lookup_hook_ne hk, List.take_append_of_le_length hlt]
      exact ih h

theorem lookup_take_since_enter {k : κ} {acts : List (Action κ χ ρ)} {i j : Nat} {c : χ}
    (h : current k (acts.take j) = some (i, c)) :
    (H.after (acts.take j)).lookupElem k = (H.after (acts.take (i + 1))).lookupElem k := by
  have hlt := (List.getElem?_eq_some_iff.mp (getElem?_of_current h)).1
  rw [lookup_since_enter h, List.take_take,
    Nat.min_eq_left (Nat.le_trans hlt (List.length_take_le _ _))]

/-- A key whose callers' entries were never seen has nothing in the stash. -/
theorem lookup_of_unseen {k : κ} {acts : List (Action κ χ ρ)}
    (h : ∀ a ∈ acts, a.key = k → a.begins.isNone) : (H.after acts).lookupElem k = none := by
  induction acts using List.reverseRecOn with
  | nil => rfl
  | append_singleton acts a ih =>
    have hpre := ih fun a' ha' => h a' (List.mem_append_left _ ha')
    rw [after_snoc]
    by_cases hk : a.key = k
    · cases a with
      | enter k' c => exact absurd (h _ (by simp) hk) Bool.false_ne_true
      | exit k' r =>
        cases hk
        simp only [hook, Hooks.exit, Action.key] at hpre ⊢
        rw [hpre]
        exact hpre
      | kill k' => exact hpre
    · rw [lookup_hook_ne hk]
      exact hpre

/-- What an exit emits is made of what the stash held. -/
theorem emitted {s : BpfMap κ ε} {k : κ} {r : ρ} {w : ω}
    (h : (H.exit s k r).2 = some w) :
    ∃ e, s.lookupElem k = some e ∧ H.emit k r e = some w := by
  unfold Hooks.exit at h
  split at h
  · cases h
  · next e he => exact ⟨e, he, h⟩

end Stash

/-! ## Events -/

section Events

variable {H : Hooks κ χ ρ ε ω} {acts : List (Action κ χ ρ)}

/-- An event has a call in flight, and if that call saved something, the event is
made of it. -/
theorem emitted_by_current {pre : List (Action κ χ ρ)} {k : κ} {r : ρ} {w : ω}
    (hp : PairedAt pre (.exit k r)) (hw : (H.exit (H.after pre) k r).2 = some w) :
    ∃ i c e, current k pre = some (i, c) ∧ (H.after pre).lookupElem k = some e ∧
      H.emit k r e = some w ∧ ∀ e', H.save c = some e' → e = e' := by
  obtain ⟨e, hlook, hemit⟩ := emitted hw
  rcases hp with hsome | hunseen
  · obtain ⟨⟨i, c⟩, hcur⟩ := Option.isSome_iff_exists.mp hsome
    refine ⟨i, c, e, hcur, hlook, hemit, fun e' hsave => ?_⟩
    rcases lookup_of_current hcur hsave with hnone | hself
    · rw [hlook] at hnone
      cases hnone
    · rw [hlook] at hself
      exact Option.some_inj.mp hself
  · rw [lookup_of_unseen hunseen] at hlook
    cases hlook

/-- The exit of a call whose entry is in the stash emits. -/
theorem emits_of_lookup {k : κ} {r : ρ} {i j : Nat} {c : χ} {e : ε} {w : ω}
    (hexit : acts[j]? = some (.exit k r)) (hcur : current k (acts.take j) = some (i, c))
    (hlook : (H.after (acts.take j)).lookupElem k = some e) (hemit : H.emit k r e = some w) :
    H.Emits acts i (j, w) := by
  refine ⟨k, r, c, hexit, hcur, ?_⟩
  rw [Hooks.exit, hlook]
  exact hemit

/-- After its exit a call is not in flight any more, and no later call has its place. -/
theorem exits_le {k k' : κ} {r : ρ} {c c' : χ} {i j j' : Nat}
    (hexit : acts[j]? = some (.exit k r)) (hcur : current k (acts.take j) = some (i, c))
    (hcur' : current k' (acts.take j') = some (i, c')) : j' ≤ j := by
  by_contra hlt
  have hj : j + 1 ≤ j' := Nat.not_le.mp hlt
  -- the two calls have one entry, so one key
  have hentry := getElem?_of_current hcur
  have hentry' := getElem?_of_current hcur'
  have hij : i < j :=
    Nat.lt_of_lt_of_le (List.getElem?_eq_some_iff.mp hentry).1 (List.length_take_le _ _)
  rw [List.getElem?_take_of_lt hij] at hentry
  rw [List.getElem?_take_of_lt (Nat.lt_of_lt_of_le hij (Nat.le_of_succ_le hj)), hentry] at hentry'
  cases hentry'
  -- right after the exit nothing of the key is in flight
  have hnone : current k (acts.take (j + 1)) = none := by
    rw [List.take_add_one, hexit, Option.toList_some, current_snoc]
    simp [Action.key, Action.begins]
  obtain ⟨mid, hmid⟩ := List.take_prefix_take_left (l := acts) hj
  rw [← hmid] at hcur'
  have hle := le_of_current hnone hcur'
  have hlen : (acts.take (j + 1)).length = j + 1 :=
    List.length_take_of_le (List.getElem?_eq_some_iff.mp hexit).1
  omega

/-- No call has two events. -/
theorem emits_unique {i : Nat} {p q : Nat × ω} (hp : H.Emits acts i p) (hq : H.Emits acts i q) :
    p = q := by
  obtain ⟨j, w⟩ := p
  obtain ⟨j', w'⟩ := q
  obtain ⟨k, r, c, hexit, hcur, hw⟩ := hp
  obtain ⟨k', r', c', hexit', hcur', hw'⟩ := hq
  have hj : j = j' := Nat.le_antisymm (exits_le hexit' hcur' hcur) (exits_le hexit hcur hcur')
  subst hj
  simp only at hexit hexit' hw hw'
  rw [hexit] at hexit'
  cases hexit'
  rw [hw] at hw'
  cases hw'
  rfl

end Events

end Pairing
