import Ebpf101.Lib.BpfMap
import Ebpf101.Lib.Runs

/-!
# Callers that share a key

A tool with a stash, as in `Pairing`, when several callers have one key, as the threads of a
process have its pid, and run at the same time. The exit hook is then two steps: it looks the
entry up, and later it reads the entry, deletes what is under the key and emits. In between
another caller may overwrite or delete the entry, and what the hook reads is freed memory,
which may hold anything.

* `lookup_since`: what is under the key of a caller is its own entry if nobody has written
  there since, else nothing or what another caller has saved since;
* `held_of_look`: the hook reads what it looked up if nobody has written there since;
* `oneHeld_after`: where no hook of a key begins while an exit hook of it is under way, that
  hook reads, and deletes, what is in the stash.
-/

namespace SharedKey

open Runs

variable {τ κ χ ρ ε ω : Type}

/-! ## The machine -/

/-- A tool that saves every call. -/
structure Tool (κ χ ρ ε ω : Type) where
  cap : Nat
  save : χ → ε
  emit : κ → ρ → ε → Option ω

/-- The steps of the callers. One that dies inside a call takes no further step. -/
inductive Op (τ χ ρ ε : Type) where
  | enter (t : τ) (c : χ)
  | look (t : τ)
  /-- The rest of the exit hook; `stale` is what it reads if its entry was freed. -/
  | finish (t : τ) (r : ρ) (stale : ε)

def Op.caller : Op τ χ ρ ε → τ
  | .enter t _ => t
  | .look t => t
  | .finish t _ _ => t

/-- What a lookup returned: an entry of the stash, or one that was freed since. -/
inductive Ptr (ε : Type) where
  | entry (e : ε)
  | freed
deriving DecidableEq

def Ptr.read (stale : ε) : Ptr ε → ε
  | .entry e => e
  | .freed => stale

/-- The stash, and the pointers of the callers that are in the exit hook. -/
structure Sys (τ κ ε : Type) where
  stash : BpfMap κ ε
  held : τ → Option (Ptr ε)

def Sys.empty : Sys τ κ ε := ⟨BpfMap.empty, fun _ => none⟩

variable [DecidableEq κ]

def Tool.enter (T : Tool κ χ ρ ε ω) (m : BpfMap κ ε) (k : κ) (c : χ) : BpfMap κ ε :=
  m.updateElem T.cap 0 k (T.save c) .any

def Tool.finish (T : Tool κ χ ρ ε ω) (m : BpfMap κ ε) (k : κ) (r : ρ) (e : ε) :
    BpfMap κ ε × Option ω :=
  (m.deleteElem k, T.emit k r e)

/-- The entry under `k` is overwritten or deleted. -/
def free (owner : τ → κ) (k : κ) (held : τ → Option (Ptr ε)) (t : τ) : Option (Ptr ε) :=
  if owner t = k then (held t).map fun _ => .freed else held t

/-- The step overwrites or deletes what is under `k`. -/
def writes (owner : τ → κ) (k : κ) : Op τ χ ρ ε → Bool
  | .enter t _ => owner t = k
  | .look _ => false
  | .finish t _ _ => owner t = k

variable [DecidableEq τ]

/-- The hooks, when the callers have the keys `owner`. A hook whose lookup found nothing is
over. -/
def step (T : Tool κ χ ρ ε ω) (owner : τ → κ) (s : Sys τ κ ε) :
    Op τ χ ρ ε → Sys τ κ ε × Option ω
  | .enter t c => (⟨T.enter s.stash (owner t) c, free owner (owner t) s.held⟩, none)
  | .look t =>
    (⟨s.stash, Function.update s.held t ((s.stash.lookupElem (owner t)).map .entry)⟩, none)
  | .finish t r stale =>
    match s.held t with
    | none => (s, none)
    | some p =>
      (⟨(T.finish s.stash (owner t) r (p.read stale)).1,
        Function.update (free owner (owner t) s.held) t none⟩,
        (T.finish s.stash (owner t) r (p.read stale)).2)

/-- The system after the steps `ops`. -/
def after (T : Tool κ χ ρ ε ω) (owner : τ → κ) (ops : List (Op τ χ ρ ε)) : Sys τ κ ε :=
  exec (step T owner) Sys.empty ops

/-- The stash has room for the entry. -/
def RoomAt (T : Tool κ χ ρ ε ω) (owner : τ → κ) (pre : List (Op τ χ ρ ε)) : Op τ χ ρ ε → Prop
  | .enter t _ => ((after T owner pre).stash.lookupElem (owner t)).isSome ∨
      (after T owner pre).stash.size < T.cap
  | _ => True

/-- A hook goes on only when its lookup has found something. -/
def FoundAt (T : Tool κ χ ρ ε ω) (owner : τ → κ) (pre : List (Op τ χ ρ ε)) : Op τ χ ρ ε → Prop
  | .finish t _ _ => ((after T owner pre).held t).isSome
  | _ => True

/-- No hook of the key begins while an exit hook of it is under way. -/
def ExclusiveAt (T : Tool κ χ ρ ε ω) (owner : τ → κ) (k : κ) (pre : List (Op τ χ ρ ε)) :
    Op τ χ ρ ε → Prop
  | .finish _ _ _ => True
  | op => owner op.caller = k →
      ∀ op' ∈ pre, owner op'.caller = k → (after T owner pre).held op'.caller = none

instance (T : Tool κ χ ρ ε ω) (owner : τ → κ) (pre : List (Op τ χ ρ ε)) :
    (op : Op τ χ ρ ε) → Decidable (RoomAt T owner pre op)
  | .enter _ _ => inferInstanceAs (Decidable (_ ∨ _))
  | .look _ => isTrue trivial
  | .finish _ _ _ => isTrue trivial

instance (T : Tool κ χ ρ ε ω) (owner : τ → κ) (pre : List (Op τ χ ρ ε)) :
    (op : Op τ χ ρ ε) → Decidable (FoundAt T owner pre op)
  | .enter _ _ => isTrue trivial
  | .look _ => isTrue trivial
  | .finish _ _ _ => inferInstanceAs (Decidable (_ = true))

instance [DecidableEq ε] (T : Tool κ χ ρ ε ω) (owner : τ → κ) (k : κ)
    (pre : List (Op τ χ ρ ε)) : (op : Op τ χ ρ ε) → Decidable (ExclusiveAt T owner k pre op)
  | .enter _ _ => inferInstanceAs (Decidable (_ → _))
  | .look _ => inferInstanceAs (Decidable (_ → _))
  | .finish _ _ _ => isTrue trivial

variable {T : Tool κ χ ρ ε ω} {owner : τ → κ}

/-! ## One step -/

section Step

variable {s : Sys τ κ ε} {t : τ} {k : κ}

theorem after_snoc (ops : List (Op τ χ ρ ε)) (op : Op τ χ ρ ε) :
    after T owner (ops ++ [op]) = (step T owner (after T owner ops) op).1 := exec_snoc ops op

theorem held_look (t' : τ) :
    (step T owner s (.look t : Op τ χ ρ ε)).1.held t' =
      if t' = t then (s.stash.lookupElem (owner t)).map .entry else s.held t' :=
  Function.update_apply _ _ _ _

theorem step_finish {p : Ptr ε} (h : s.held t = some p) (r : ρ) (stale : ε) :
    step T owner s (.finish t r stale) =
      (⟨s.stash.deleteElem (owner t), Function.update (free owner (owner t) s.held) t none⟩,
        T.emit (owner t) r (p.read stale)) := by
  rw [step, h]
  rfl

theorem held_finish {p : Ptr ε} (h : s.held t = some p) (r : ρ) (stale : ε) (t' : τ) :
    (step T owner s (.finish t r stale)).1.held t' =
      if t' = t then none else free owner (owner t) s.held t' := by
  rw [step_finish h]
  exact Function.update_apply _ _ _ _

theorem step_finish_none (h : s.held t = none) (r : ρ) (stale : ε) :
    step T owner s (.finish t r stale) = (s, none) := by
  rw [step, h]

omit [DecidableEq τ] in
theorem free_isSome {held : τ → Option (Ptr ε)} (h : (free owner k held t).isSome) :
    (held t).isSome := by
  unfold free at h
  split at h
  · rwa [Option.isSome_map] at h
  · exact h

/-- Only a lookup of the caller itself makes a pointer. -/
theorem held_isSome_step {op : Op τ χ ρ ε} (h : ((step T owner s op).1.held t).isSome) :
    (s.held t).isSome ∨ op = .look t := by
  cases op with
  | enter t' c => exact .inl (free_isSome h)
  | look t' =>
    rw [held_look] at h
    split at h
    · next heq => exact .inr (heq ▸ rfl)
    · exact .inl h
  | finish t' r stale =>
    left
    cases hheld : s.held t' with
    | none => rwa [step_finish_none hheld] at h
    | some p =>
      rw [held_finish hheld] at h
      split at h
      · cases h
      · exact free_isSome h

/-- A step of another caller that does not write under the key of `t` leaves its pointer. -/
theorem held_step {op : Op τ χ ρ ε} (hcaller : op.caller ≠ t)
    (hwrites : writes owner (owner t) op = false) :
    (step T owner s op).1.held t = s.held t := by
  cases op with
  | enter t' c => exact if_neg (Ne.symm (of_decide_eq_false hwrites))
  | look t' => exact (held_look t).trans (if_neg (Ne.symm hcaller))
  | finish t' r stale =>
    cases hheld : s.held t' with
    | none => rw [step_finish_none hheld]
    | some p =>
      have hfree : free owner (owner t') s.held t = s.held t :=
        if_neg (Ne.symm (of_decide_eq_false hwrites))
      exact (held_finish hheld r stale t).trans ((if_neg (Ne.symm hcaller)).trans hfree)

theorem lookup_step {op : Op τ χ ρ ε} (h : writes owner k op = false) :
    (step T owner s op).1.stash.lookupElem k = s.stash.lookupElem k := by
  cases op with
  | enter t' c =>
    have hne : owner t' ≠ k := of_decide_eq_false h
    rw [step, Tool.enter, BpfMap.lookupElem_updateElem_any, if_neg fun he => hne he.1.symm]
  | look t' => rfl
  | finish t' r stale =>
    have hne : owner t' ≠ k := of_decide_eq_false h
    cases hheld : s.held t' with
    | none => rw [step_finish_none hheld]
    | some p => rw [step_finish hheld, BpfMap.lookupElem_deleteElem, if_neg (Ne.symm hne)]

theorem lookup_enter (c : χ)
    (hroom : (s.stash.lookupElem (owner t)).isSome ∨ s.stash.size < T.cap) :
    (step T owner s (.enter t c : Op τ χ ρ ε)).1.stash.lookupElem (owner t) =
      some (T.save c) := by
  rw [step, Tool.enter, BpfMap.lookupElem_updateElem_any, if_pos ⟨rfl, hroom⟩]

theorem lookup_finish (h : (s.held t).isSome) (r : ρ) (stale : ε) :
    (step T owner s (.finish t r stale)).1.stash.lookupElem (owner t) = none := by
  obtain ⟨p, hp⟩ := Option.isSome_iff_exists.mp h
  rw [step_finish hp, BpfMap.lookupElem_deleteElem, if_pos rfl]

end Step

/-! ## What is under a key -/

section Since

variable {t : τ} {c : χ} {before since : List (Op τ χ ρ ε)}
  (hroom : Along (RoomAt T owner) (before ++ .enter t c :: since))
include hroom

/-- Nobody has written since. -/
theorem lookup_of_quiet (hquiet : ∀ op ∈ since, writes owner (owner t) op = false) :
    (after T owner (before ++ .enter t c :: since)).stash.lookupElem (owner t) =
      some (T.save c) := by
  induction since using List.reverseRecOn with
  | nil =>
    rw [after_snoc]
    exact lookup_enter c hroom.last
  | append_singleton since op ih =>
    obtain ⟨hbefore, hlast⟩ := List.forall_mem_append.mp hquiet
    rw [← List.cons_append, ← List.append_assoc] at hroom ⊢
    rw [after_snoc, lookup_step (hlast op List.mem_cons_self)]
    exact ih hroom.left hbefore

/-- Somebody has: the last one to do so has left its own entry, or nothing. -/
theorem lookup_since (hfound : Along (FoundAt T owner) (before ++ .enter t c :: since))
    (hsome : ∃ op ∈ since, writes owner (owner t) op = true) :
    (after T owner (before ++ .enter t c :: since)).stash.lookupElem (owner t) = none ∨
    ∃ t' c', .enter t' c' ∈ since ∧ owner t' = owner t ∧
      (after T owner (before ++ .enter t c :: since)).stash.lookupElem (owner t) =
        some (T.save c') := by
  induction since using List.reverseRecOn with
  | nil =>
    obtain ⟨op, hop, -⟩ := hsome
    cases hop
  | append_singleton since op ih =>
    rw [← List.cons_append, ← List.append_assoc] at hroom hfound ⊢
    rw [after_snoc]
    cases hwrites : writes owner (owner t) op with
    | false =>
      have hearlier : ∃ op' ∈ since, writes owner (owner t) op' = true := by
        obtain ⟨op', hmem, hop'⟩ := hsome
        rcases List.mem_append.mp hmem with hin | hlast
        · exact ⟨op', hin, hop'⟩
        · rw [List.mem_singleton.mp hlast, hwrites] at hop'
          cases hop'
      rw [lookup_step hwrites]
      rcases ih hroom.left hfound.left hearlier with hnone | ⟨t', c', hin, hrest⟩
      · exact .inl hnone
      · exact .inr ⟨t', c', List.mem_append_left _ hin, hrest⟩
    | true =>
      cases op with
      | enter t' c' =>
        have howner : owner t' = owner t := of_decide_eq_true hwrites
        refine .inr ⟨t', c', List.mem_append_right _ List.mem_cons_self, howner, ?_⟩
        rw [← howner]
        exact lookup_enter c' hroom.last
      | look t' => cases hwrites
      | finish t' r stale =>
        have howner : owner t' = owner t := of_decide_eq_true hwrites
        left
        rw [← howner]
        exact lookup_finish hfound.last r stale

end Since

/-! ## What an exit hook reads -/

/-- The hook has what it looked up, if nobody has written there since. -/
theorem held_of_look {t : τ} {pre rest : List (Op τ χ ρ ε)}
    (hrest : ∀ op ∈ rest, op.caller ≠ t ∧ writes owner (owner t) op = false) :
    (after T owner (pre ++ .look t :: rest)).held t =
      ((after T owner pre).stash.lookupElem (owner t)).map .entry := by
  induction rest using List.reverseRecOn with
  | nil => rw [after_snoc, held_look, if_pos rfl]
  | append_singleton rest op ih =>
    obtain ⟨hbefore, hlast⟩ := List.forall_mem_append.mp hrest
    obtain ⟨hcaller, hwrites⟩ := hlast op List.mem_cons_self
    rw [← List.cons_append, ← List.append_assoc, after_snoc, held_step hcaller hwrites]
    exact ih hbefore

/-- A caller that is in the exit hook has taken a step. -/
theorem seen_of_held {t : τ} {ops : List (Op τ χ ρ ε)} (h : ((after T owner ops).held t).isSome) :
    ∃ op ∈ ops, op.caller = t := by
  induction ops using List.reverseRecOn with
  | nil => cases h
  | append_singleton ops op ih =>
    rw [after_snoc] at h
    rcases held_isSome_step h with hbefore | rfl
    · obtain ⟨op', hin, hcaller⟩ := ih hbefore
      exact ⟨op', List.mem_append_left _ hin, hcaller⟩
    · exact ⟨.look t, List.mem_append_right _ List.mem_cons_self, rfl⟩

/-- At most one caller with the key is in the exit hook, and the stash has the entry that it
has looked up. -/
structure OneHeld (owner : τ → κ) (k : κ) (s : Sys τ κ ε) : Prop where
  entry : ∀ t p, owner t = k → s.held t = some p →
    ∃ e, p = .entry e ∧ s.stash.lookupElem k = some e
  unique : ∀ t t', owner t = k → owner t' = k → (s.held t).isSome → (s.held t').isSome → t = t'

section OneHeld

variable {k : κ}

omit [DecidableEq τ] in
theorem oneHeld_of_none {s : Sys τ κ ε} (h : ∀ t, owner t = k → s.held t = none) :
    OneHeld owner k s where
  entry t p ht hp := nomatch (h t ht).symm.trans hp
  unique t t' ht _ hsome _ := by
    rw [h t ht] at hsome
    cases hsome

/-- Where a hook of the key begins, no other is under way. -/
theorem none_of_exclusive {pre : List (Op τ χ ρ ε)}
    (h : ∀ op' ∈ pre, owner op'.caller = k → (after T owner pre).held op'.caller = none) (t : τ)
    (ht : owner t = k) : (after T owner pre).held t = none := by
  refine Option.not_isSome_iff_eq_none.mp fun hsome => ?_
  obtain ⟨op, hop, rfl⟩ := seen_of_held hsome
  rw [h op hop ht] at hsome
  cases hsome

theorem oneHeld_look {s : Sys τ κ ε} (hnone : ∀ t, owner t = k → s.held t = none) (t : τ) :
    OneHeld owner k (step T owner s (.look t : Op τ χ ρ ε)).1 := by
  have honly : ∀ t', owner t' = k →
      ((step T owner s (.look t : Op τ χ ρ ε)).1.held t').isSome → t' = t := by
    intro t' ht' hsome
    rcases held_isSome_step hsome with hbefore | hlook
    · rw [hnone t' ht'] at hbefore
      cases hbefore
    · exact (Op.look.inj hlook).symm
  refine ⟨fun t' p ht' hp => ?_, fun t₁ t₂ h₁ h₂ hs₁ hs₂ => ?_⟩
  · obtain rfl := honly t' ht' (Option.isSome_of_eq_some hp)
    rw [held_look, if_pos rfl] at hp
    obtain ⟨e, he, rfl⟩ := Option.map_eq_some_iff.mp hp
    exact ⟨e, rfl, ht' ▸ he⟩
  · exact (honly t₁ h₁ hs₁).trans (honly t₂ h₂ hs₂).symm

theorem oneHeld_finish {s : Sys τ κ ε} (hone : OneHeld owner k s) {t : τ} (ht : owner t = k)
    (r : ρ) (stale : ε) : OneHeld owner k (step T owner s (.finish t r stale)).1 := by
  cases hheld : s.held t with
  | none =>
    rw [step_finish_none hheld]
    exact hone
  | some p =>
    refine oneHeld_of_none fun t' ht' => Option.not_isSome_iff_eq_none.mp fun hsome => ?_
    rw [held_finish hheld] at hsome
    split at hsome
    · cases hsome
    · next hne =>
      exact hne (hone.unique t' t ht' ht (free_isSome hsome) (Option.isSome_of_eq_some hheld))

/-- A step of a caller with another key. -/
theorem oneHeld_other {s : Sys τ κ ε} (hone : OneHeld owner k s) {op : Op τ χ ρ ε}
    (hk : owner op.caller ≠ k) : OneHeld owner k (step T owner s op).1 := by
  have hwrites : writes owner k op = false := by
    cases op with
    | enter t c => exact decide_eq_false hk
    | look t => rfl
    | finish t r stale => exact decide_eq_false hk
  have hheld : ∀ t, owner t = k → (step T owner s op).1.held t = s.held t := fun t ht =>
    held_step (fun he => hk (he ▸ ht)) (ht ▸ hwrites)
  refine ⟨fun t p ht hp => ?_, fun t t' ht ht' hs hs' => ?_⟩
  · rw [lookup_step hwrites]
    exact hone.entry t p ht (hheld t ht ▸ hp)
  · exact hone.unique t t' ht ht' (hheld t ht ▸ hs) (hheld t' ht' ▸ hs')

theorem oneHeld_step {pre : List (Op τ χ ρ ε)} {op : Op τ χ ρ ε}
    (hex : ExclusiveAt T owner k pre op) (hone : OneHeld owner k (after T owner pre)) :
    OneHeld owner k (step T owner (after T owner pre) op).1 := by
  rcases eq_or_ne (owner op.caller) k with hk | hk
  · cases op with
    | enter t c =>
      refine oneHeld_of_none fun t' ht' => ?_
      show free owner (owner t) _ t' = none
      rw [free, none_of_exclusive (hex hk) t' ht']
      exact ite_self _
    | look t => exact oneHeld_look (none_of_exclusive (hex hk)) t
    | finish t r stale => exact oneHeld_finish hone hk r stale
  · exact oneHeld_other hone hk

theorem oneHeld_after {ops : List (Op τ χ ρ ε)} (h : Along (ExclusiveAt T owner k) ops) :
    OneHeld owner k (after T owner ops) := by
  induction ops using List.reverseRecOn with
  | nil => exact oneHeld_of_none fun _ _ => rfl
  | append_singleton ops op ih =>
    obtain ⟨hpre, hlast⟩ := along_snoc.mp h
    rw [after_snoc]
    exact oneHeld_step hlast (ih hpre)

end OneHeld

end SharedKey
