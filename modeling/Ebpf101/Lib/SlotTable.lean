import Mathlib.Data.List.Basic
import Ebpf101.Lib.Runs

/-!
# Tables of slots

A static array of `cap` slots, each free or used by a key and its value. A key
is looked up by one scan over all slots, which also remembers the first free
one; a key that is not there takes that slot, and is turned away when there is
none. Slots are never freed.

Results:
1. `visit_admitted`, `visit_turned_away`: one access.
2. `demuxed_visits`, `visits_out`: over a whole run, the table is a family of
   independent machines, one for each of the first `cap` distinct keys. What a
   key's machine holds and emits depends on the inputs of that key only.
3. `search_of_slot`, `visits_keep_slot`: a key that has a slot keeps it.
-/

variable {κ ν ω : Type} {cap : Nat}

/-- A table of `cap` slots; the used ones have distinct keys. -/
structure SlotTable (κ ν : Type) (cap : Nat) where
  slots : List (Option (κ × ν))
  length_eq : slots.length = cap
  distinct : ∀ (i j : Nat) (k : κ) (v w : ν),
    slots[i]? = some (some (k, v)) → slots[j]? = some (some (k, w)) → i = j

namespace SlotTable

/-- What a scan finds. -/
inductive Search where
  | found (i : Nat)
  | free (i : Nat)
  | full
deriving DecidableEq, Repr

def empty (κ ν : Type) (cap : Nat) : SlotTable κ ν cap where
  slots := List.replicate cap none
  length_eq := List.length_replicate
  distinct := by
    intro i j k v w hi
    simp [List.getElem?_replicate] at hi

/-- The number of used slots. -/
def size (t : SlotTable κ ν cap) : Nat := t.slots.countP Option.isSome

section Search

variable [DecidableEq κ]

/-- The scan, from slot `i` on; `free` is the first free slot before `i`. -/
def search (k : κ) : List (Option (κ × ν)) → Nat → Option Nat → Search
  | [], _, some j => .free j
  | [], _, none => .full
  | none :: ss, i, free => search k ss (i + 1) (free.or (some i))
  | some e :: ss, i, free => if e.1 = k then .found i else search k ss (i + 1) free

/-- The value of a key. -/
def valueIn (k : κ) (ss : List (Option (κ × ν))) : Option ν :=
  ss.findSome? fun s => s.bind fun e => if e.1 = k then some e.2 else none

def lookup (t : SlotTable κ ν cap) (k : κ) : Option ν := valueIn k t.slots

end Search

/-! ## The scan -/

namespace SearchLemmas

variable [DecidableEq κ]

/-- A scan that finds a slot finds one that holds the key. -/
theorem search_found {k : κ} {ss : List (Option (κ × ν))} {i j : Nat} {free : Option Nat}
    (h : search k ss i free = .found j) :
    i ≤ j ∧ ∃ v, ss[j - i]? = some (some (k, v)) := by
  induction ss generalizing i free with
  | nil => cases free <;> cases h
  | cons s ss ih =>
    have hrest : ∀ {free'}, search k ss (i + 1) free' = .found j →
        i ≤ j ∧ ∃ v, (s :: ss)[j - i]? = some (some (k, v)) := by
      intro free' h'
      obtain ⟨hj, v, hv⟩ := ih h'
      refine ⟨by omega, v, ?_⟩
      rw [show j - i = (j - (i + 1)) + 1 by omega, List.getElem?_cons_succ, hv]
    cases s with
    | none => exact hrest h
    | some e =>
      simp only [search] at h
      split at h
      · next hk =>
        cases h
        exact ⟨Nat.le_refl _, e.2, by simp [← hk]⟩
      · exact hrest h

/-- A scan that does not find the key has seen every slot. -/
theorem search_absent {k : κ} {ss : List (Option (κ × ν))} {i : Nat} {free : Option Nat}
    (h : ∀ j, search k ss i free ≠ .found j) (v : ν) : some (k, v) ∉ ss := by
  induction ss generalizing i free with
  | nil => exact List.not_mem_nil
  | cons s ss ih =>
    cases s with
    | none => simpa using ih h
    | some e =>
      simp only [search] at h
      split at h
      · exact absurd rfl (h i)
      · next hk =>
        intro hm
        rcases List.mem_cons.mp hm with he | hm
        · cases he
          exact hk rfl
        · exact ih h hm

/-- The slot that is left over for a new key is free. -/
theorem search_free {k : κ} {ss : List (Option (κ × ν))} {i j : Nat} {free : Option Nat}
    (h : search k ss i free = .free j) :
    free = some j ∨ i ≤ j ∧ ss[j - i]? = some none := by
  induction ss generalizing i free with
  | nil =>
    cases free with
    | none => cases h
    | some j' =>
      cases h
      exact Or.inl rfl
  | cons s ss ih =>
    have hrest : i + 1 ≤ j ∧ ss[j - (i + 1)]? = some none →
        i ≤ j ∧ (s :: ss)[j - i]? = some none := by
      rintro ⟨hj, hs⟩
      refine ⟨by omega, ?_⟩
      rw [show j - i = (j - (i + 1)) + 1 by omega, List.getElem?_cons_succ, hs]
    cases s with
    | none =>
      rcases ih h with hf | hr
      · cases free with
        | none =>
          cases hf
          exact Or.inr ⟨Nat.le_refl _, by simp⟩
        | some j' => exact Or.inl hf
      · exact Or.inr (hrest hr)
    | some e =>
      simp only [search] at h
      split at h
      · cases h
      · exact (ih h).imp_right hrest

/-- A full table has no free slot. -/
theorem search_full {k : κ} {ss : List (Option (κ × ν))} {i : Nat} {free : Option Nat}
    (h : search k ss i free = .full) : free = none ∧ ss.countP Option.isSome = ss.length := by
  induction ss generalizing i free with
  | nil =>
    cases free with
    | none => exact ⟨rfl, rfl⟩
    | some j => cases h
  | cons s ss ih =>
    cases s with
    | none =>
      have hf := (ih h).1
      cases free <;> cases hf
    | some e =>
      simp only [search] at h
      split at h
      · cases h
      · obtain ⟨hf, hc⟩ := ih h
        exact ⟨hf, by simp [hc]⟩

end SearchLemmas

open SearchLemmas

/-! ## Operations -/

section Operations

variable [DecidableEq κ]

/-- The slot of `k`: the one it has, or the first free one, which then holds
`init`; none when the table is full. -/
def claim (t : SlotTable κ ν cap) (k : κ) (init : ν) : SlotTable κ ν cap × Option Nat :=
  match h : search k t.slots 0 none with
  | .found i => (t, some i)
  | .free i =>
    ({ slots := t.slots.set i (some (k, init))
       length_eq := by rw [List.length_set, t.length_eq]
       distinct := by
        have hne : ∀ j, search k t.slots 0 none ≠ .found j := by simp [h]
        have habs : ∀ (j : Nat) (v : ν), t.slots[j]? ≠ some (some (k, v)) :=
          fun j v hj => search_absent hne v (List.mem_of_getElem? hj)
        intro a b k' v w ha hb
        rw [List.getElem?_set] at ha hb
        split at ha <;> split at hb
        · next h₁ h₂ => exact h₁.symm.trans h₂
        · next h₁ _ =>
          split at ha
          · cases ha
            exact absurd hb (habs b w)
          · cases ha
        · next _ h₂ =>
          split at hb
          · cases hb
            exact absurd ha (habs a v)
          · cases hb
        · exact t.distinct a b k' v w ha hb }, some i)
  | .full => (t, none)

/-- Replaces the value in slot `i`; the key stays. -/
def setValue (t : SlotTable κ ν cap) (i : Nat) (f : ν → ν) : SlotTable κ ν cap where
  slots := t.slots.modify i (Option.map fun e => (e.1, f e.2))
  length_eq := by rw [List.length_modify, t.length_eq]
  distinct := by
    have hold : ∀ {j : Nat} {k : κ} {v : ν},
        (t.slots.modify i (Option.map fun e => (e.1, f e.2)))[j]? = some (some (k, v)) →
        ∃ w, t.slots[j]? = some (some (k, w)) := by
      intro j k v hj
      rw [List.getElem?_modify] at hj
      split at hj
      · obtain ⟨s, hs, he⟩ := Option.map_eq_some_iff.mp hj
        obtain ⟨e, rfl, he'⟩ := Option.map_eq_some_iff.mp he
        cases he'
        exact ⟨e.2, hs⟩
      · exact ⟨v, by simpa using hj⟩
    intro a b k v w ha hb
    obtain ⟨v', ha'⟩ := hold ha
    obtain ⟨w', hb'⟩ := hold hb
    exact t.distinct a b k v' w' ha' hb'

/-- The value in slot `i`. -/
def valueAt (t : SlotTable κ ν cap) (i : Nat) : Option ν := (t.slots[i]?).join.map Prod.snd

/-- Runs `f` on the value in the slot that `claim` returned, in place. -/
def access (r : SlotTable κ ν cap × Option Nat) (f : ν → ν × ω) : SlotTable κ ν cap × Option ω :=
  match r.2 with
  | none => (r.1, none)
  | some i => (r.1.setValue i fun v => (f v).1, (r.1.valueAt i).map fun v => (f v).2)

end Operations

/-! ## Lookups -/

@[simp] theorem size_empty : (empty κ ν cap).size = 0 := by
  simp [size, empty, List.countP_replicate]

section Lookups

variable [DecidableEq κ]

theorem lookup_eq_some_iff {t : SlotTable κ ν cap} {k : κ} {v : ν} :
    t.lookup k = some v ↔ ∃ i : Nat, t.slots[i]? = some (some (k, v)) := by
  have hmem : ∀ {s : Option (κ × ν)} {w : ν},
      (s.bind fun e => if e.1 = k then some e.2 else none) = some w ↔ s = some (k, w) := by
    intro s w
    cases s with
    | none => simp
    | some e =>
      obtain ⟨k', w'⟩ := e
      by_cases hk : k' = k <;> simp [hk]
  constructor
  · intro h
    obtain ⟨s, hs, he⟩ := List.exists_of_findSome?_eq_some h
    rw [hmem] at he
    exact List.mem_iff_getElem?.mp (he ▸ hs)
  · rintro ⟨i, hi⟩
    cases hl : t.lookup k with
    | none =>
      have := List.findSome?_eq_none_iff.mp hl _ (List.mem_of_getElem? hi)
      simp at this
    | some w =>
      obtain ⟨s, hs, he⟩ := List.exists_of_findSome?_eq_some hl
      rw [hmem] at he
      obtain ⟨j, hj⟩ := List.mem_iff_getElem?.mp (he ▸ hs)
      cases t.distinct i j k v w hi hj
      simp [hi] at hj
      rw [hj]

theorem lookup_eq_none_iff {t : SlotTable κ ν cap} {k : κ} :
    t.lookup k = none ↔ ∀ (i : Nat) (v : ν), t.slots[i]? ≠ some (some (k, v)) := by
  rw [Option.eq_none_iff_forall_ne_some]
  simp only [ne_eq, lookup_eq_some_iff, not_exists]
  exact forall_comm

@[simp] theorem lookup_empty (k : κ) : (empty κ ν cap).lookup k = none := by
  rw [lookup_eq_none_iff]
  intro i v
  simp [empty, List.getElem?_replicate]

/-- What a claim makes of the outcome of the scan. -/
theorem claim_of_search (t : SlotTable κ ν cap) (k : κ) (init : ν) :
    (∀ i, search k t.slots 0 none = .found i → t.claim k init = (t, some i)) ∧
    (∀ i, search k t.slots 0 none = .free i →
      ∃ t', t.claim k init = (t', some i) ∧ t'.slots = t.slots.set i (some (k, init))) ∧
    (search k t.slots 0 none = .full → t.claim k init = (t, none)) := by
  unfold claim
  split
  · next j hs => simp [hs]
  · next j hs =>
    refine ⟨by simp [hs], fun i hi => ?_, by simp [hs]⟩
    rw [hs] at hi
    cases hi
    exact ⟨_, rfl, rfl⟩
  · next hs => simp [hs]

/-- The three outcomes of a claim. -/
theorem claim_cases (t : SlotTable κ ν cap) (k : κ) (init : ν) :
    (∃ i v, t.claim k init = (t, some i) ∧ t.slots[i]? = some (some (k, v))) ∨
    (∃ t' i, t.claim k init = (t', some i) ∧ t.lookup k = none ∧ t.slots[i]? = some none ∧
      t'.slots = t.slots.set i (some (k, init))) ∨
    (t.claim k init = (t, none) ∧ t.lookup k = none ∧ t.size = cap) := by
  unfold claim
  split
  · next i h =>
    obtain ⟨-, v, hv⟩ := search_found h
    exact Or.inl ⟨i, v, rfl, by simpa using hv⟩
  · next i h =>
    refine Or.inr (Or.inl ⟨_, i, rfl, ?_, ?_, rfl⟩)
    · have hne : ∀ j, search k t.slots 0 none ≠ .found j := by simp [h]
      exact lookup_eq_none_iff.mpr fun j v hj => search_absent hne v (List.mem_of_getElem? hj)
    · rcases search_free h with hf | ⟨-, hs⟩
      · cases hf
      · simpa using hs
  · next h =>
    refine Or.inr (Or.inr ⟨rfl, ?_, ?_⟩)
    · have hne : ∀ j, search k t.slots 0 none ≠ .found j := by simp [h]
      exact lookup_eq_none_iff.mpr fun j v hj => search_absent hne v (List.mem_of_getElem? hj)
    · rw [size, (search_full h).2, t.length_eq]

end Lookups

/-! ## One access -/

theorem size_of_set {t t' : SlotTable κ ν cap} {i : Nat} {k : κ} {s : Option (κ × ν)} {v : ν}
    (hs : t.slots[i]? = some s) (h : t'.slots = t.slots.set i (some (k, v))) :
    t'.size = if s = none then t.size + 1 else t.size := by
  obtain ⟨hi, he⟩ := List.getElem?_eq_some_iff.mp hs
  rw [size, size, h, List.countP_set hi, he]
  cases s with
  | none => simp
  | some e =>
    have hpos : 0 < t.slots.countP Option.isSome :=
      List.countP_pos_iff.mpr ⟨some e, List.mem_of_getElem? hs, rfl⟩
    simp
    omega

theorem size_lt_of_free {t : SlotTable κ ν cap} {i : Nat} (h : t.slots[i]? = some none) :
    t.size < cap := by
  have hne : t.slots.countP Option.isSome ≠ t.slots.length := fun he =>
    absurd (List.countP_eq_length.mp he none (List.mem_of_getElem? h)) (by simp)
  exact Nat.lt_of_lt_of_eq (Nat.lt_of_le_of_ne List.countP_le_length hne) t.length_eq

/-- Running `f` in a used slot rewrites that slot. -/
theorem access_eq {t : SlotTable κ ν cap} {i : Nat} {k : κ} {v : ν}
    (h : t.slots[i]? = some (some (k, v))) (f : ν → ν × ω) :
    (access (t, some i) f).1.slots = t.slots.set i (some (k, (f v).1)) ∧
    (access (t, some i) f).2 = some (f v).2 := by
  constructor
  · refine List.ext_getElem? fun j => ?_
    simp only [access, setValue, List.getElem?_modify, List.getElem?_set]
    by_cases hij : i = j
    · subst hij
      obtain ⟨hi, he⟩ := List.getElem?_eq_some_iff.mp h
      simp [hi, he]
    · simp [hij]
  · simp [access, valueAt, h]

section Access

variable [DecidableEq κ]

/-- A table that differs from another in the slot of `k` only. -/
theorem lookup_of_set {t t' : SlotTable κ ν cap} {i : Nat} {k : κ} {s : Option (κ × ν)} {v : ν}
    (hs : t.slots[i]? = some s) (hk : s = none ∨ ∃ w, s = some (k, w))
    (h : t'.slots = t.slots.set i (some (k, v))) (k' : κ) :
    t'.lookup k' = if k' = k then some v else t.lookup k' := by
  obtain ⟨hi, -⟩ := List.getElem?_eq_some_iff.mp hs
  by_cases he : k' = k
  · subst he
    rw [if_pos rfl, lookup_eq_some_iff]
    exact ⟨i, by rw [h, List.getElem?_set_self hi]⟩
  · rw [if_neg he]
    ext w
    simp only [lookup_eq_some_iff, h]
    refine exists_congr fun j => ?_
    by_cases hij : i = j
    · subst hij
      rw [List.getElem?_set_self hi, hs]
      rcases hk with rfl | ⟨w', rfl⟩ <;> simp [Ne.symm he]
    · rw [List.getElem?_set_ne hij]

/-- A lookup followed by an update in place: `claim`, then `access`. -/
def visit (t : SlotTable κ ν cap) (k : κ) (init : ν) (f : ν → ν × ω) :
    SlotTable κ ν cap × Option ω :=
  access (t.claim k init) f

/-- The key has a slot, or there is one for it. -/
def Admits (t : SlotTable κ ν cap) (k : κ) : Prop := t.lookup k ≠ none ∨ t.size < cap

instance (t : SlotTable κ ν cap) (k : κ) : Decidable (t.Admits k) :=
  inferInstanceAs (Decidable (t.lookup k ≠ none ∨ t.size < cap))

/-- A key that is not admitted is turned away. -/
theorem visit_turned_away {t : SlotTable κ ν cap} {k : κ} (h : ¬ t.Admits k) (init : ν)
    (f : ν → ν × ω) : t.visit k init f = (t, none) := by
  obtain ⟨hk, hs⟩ := not_or.mp h
  rcases t.claim_cases k init with ⟨i, v, -, hv⟩ | ⟨t', i, -, -, hf, -⟩ | ⟨hc, -, -⟩
  · exact absurd (lookup_eq_some_iff.mpr ⟨i, hv⟩) (by simp [not_not.mp hk])
  · exact absurd (size_lt_of_free hf) hs
  · rw [visit, hc]
    rfl

/-- An admitted key has `f` run on its value, or on `init` at its first visit. -/
theorem visit_admitted {t : SlotTable κ ν cap} {k : κ} (h : t.Admits k) (init : ν)
    (f : ν → ν × ω) :
    (t.visit k init f).2 = some (f ((t.lookup k).getD init)).2 ∧
    (∀ k', (t.visit k init f).1.lookup k' =
      if k' = k then some (f ((t.lookup k).getD init)).1 else t.lookup k') ∧
    (t.visit k init f).1.size = if t.lookup k = none then t.size + 1 else t.size := by
  rcases t.claim_cases k init with ⟨i, v, hc, hv⟩ | ⟨t', i, hc, hn, hf, ht'⟩ | ⟨-, hn, hs⟩
  · obtain ⟨hslots, hout⟩ := access_eq hv f
    have hl : t.lookup k = some v := lookup_eq_some_iff.mpr ⟨i, hv⟩
    rw [visit, hc, hl]
    exact ⟨hout, lookup_of_set hv (Or.inr ⟨v, rfl⟩) hslots, size_of_set hv hslots⟩
  · obtain ⟨hi, -⟩ := List.getElem?_eq_some_iff.mp hf
    have hv : t'.slots[i]? = some (some (k, init)) := by rw [ht', List.getElem?_set_self hi]
    obtain ⟨hslots, hout⟩ := access_eq hv f
    rw [ht', List.set_set] at hslots
    rw [visit, hc, hn]
    exact ⟨hout, lookup_of_set hf (Or.inl rfl) hslots, size_of_set hf hslots⟩
  · rcases h with h | h
    · exact absurd hn h
    · omega

/-! ## Slots are kept -/

/-- A scan for a key that has a slot finds that slot, full table or not. -/
theorem search_of_slot {t : SlotTable κ ν cap} {i : Nat} {k : κ} {v : ν}
    (h : t.slots[i]? = some (some (k, v))) : search k t.slots 0 none = .found i := by
  by_cases hf : ∃ j, search k t.slots 0 none = .found j
  · obtain ⟨j, hj⟩ := hf
    obtain ⟨-, w, hw⟩ := search_found hj
    rw [hj, t.distinct i j k v w h (by simpa using hw)]
  · exact absurd (List.mem_of_getElem? h) (search_absent (not_exists.mp hf) v)

/-- No visit moves a key or takes its slot away. -/
theorem visit_keeps_slot {t : SlotTable κ ν cap} {i : Nat} {k : κ} {v : ν}
    (h : t.slots[i]? = some (some (k, v))) (k' : κ) (init : ν) (f : ν → ν × ω) :
    ∃ w, (t.visit k' init f).1.slots[i]? = some (some (k, w)) := by
  rw [visit]
  rcases t.claim_cases k' init with ⟨j, u, hc, hj⟩ | ⟨t', j, hc, -, hf, ht'⟩ | ⟨hc, -, -⟩
  · rw [hc, (access_eq hj f).1]
    rcases eq_or_ne j i with rfl | hne
    · rw [h] at hj
      cases hj
      exact ⟨(f v).1, List.getElem?_set_self (List.getElem?_eq_some_iff.mp h).1⟩
    · exact ⟨v, by rw [List.getElem?_set_ne hne, h]⟩
  · have hne : j ≠ i := by
      rintro rfl
      rw [h] at hf
      cases hf
    have hj : t'.slots[j]? = some (some (k', init)) := by
      rw [ht', List.getElem?_set_self (List.getElem?_eq_some_iff.mp hf).1]
    rw [hc, (access_eq hj f).1, ht', List.set_set]
    exact ⟨v, by rw [List.getElem?_set_ne hne, h]⟩
  · rw [hc]
    exact ⟨v, h⟩

end Access

/-! ## Whole runs -/

section Visits

variable [DecidableEq κ]

/-- The first `cap` distinct keys of `ks`. -/
def admitted (cap : Nat) (ks : List κ) : List κ := ks.eraseDups.take cap

theorem eraseDups_snoc (ks : List κ) (k : κ) :
    (ks ++ [k]).eraseDups = if k ∈ ks then ks.eraseDups else ks.eraseDups ++ [k] := by
  rw [List.eraseDups_append]
  by_cases h : k ∈ ks <;> simp [List.removeAll, h, List.eraseDups_cons]

theorem admitted_snoc (ks : List κ) (k : κ) :
    admitted cap (ks ++ [k]) =
      if k ∈ admitted cap ks ∨ cap ≤ (admitted cap ks).length then admitted cap ks
      else admitted cap ks ++ [k] := by
  unfold admitted
  rw [eraseDups_snoc]
  by_cases hlen : ks.eraseDups.length < cap
  · rw [List.take_of_length_le (Nat.le_of_lt hlen)]
    by_cases hk : k ∈ ks
    · rw [if_pos hk, if_pos (Or.inl (List.mem_eraseDups.mpr hk)),
        List.take_of_length_le (Nat.le_of_lt hlen)]
    · have hne : ¬ (k ∈ ks.eraseDups ∨ cap ≤ ks.eraseDups.length) := by
        rw [List.mem_eraseDups]
        exact not_or.mpr ⟨hk, Nat.not_le.mpr hlen⟩
      rw [if_neg hk, if_neg hne, List.take_of_length_le (by simp; omega)]
  · have hfull : cap ≤ (ks.eraseDups.take cap).length := by rw [List.length_take]; omega
    rw [if_pos (Or.inr hfull)]
    split
    · rfl
    · rw [List.take_append_of_le_length (by omega)]

theorem mem_admitted_snoc_of_ne {ks : List κ} {k k' : κ} (h : k ≠ k') :
    k ∈ admitted cap (ks ++ [k']) ↔ k ∈ admitted cap ks := by
  rw [admitted_snoc]
  split <;> simp [h]

/-- A key that occurred before is admitted or turned away for good. -/
theorem mem_admitted_snoc_of_mem {ks : List κ} {k : κ} (h : k ∈ ks) (k' : κ) :
    k ∈ admitted cap (ks ++ [k']) ↔ k ∈ admitted cap ks := by
  by_cases hk : k = k'
  · rw [admitted, eraseDups_snoc, if_pos (hk ▸ h), admitted]
  · exact mem_admitted_snoc_of_ne hk

/-- A key that is admitted stays so. -/
theorem mem_admitted_append {ks : List κ} {k : κ} (h : k ∈ admitted cap ks) (ls : List κ) :
    k ∈ admitted cap (ks ++ ls) := by
  induction ls using List.reverseRecOn with
  | nil => rwa [List.append_nil]
  | append_singleton ls l ih =>
    rw [← List.append_assoc, admitted_snoc]
    split
    · exact ih
    · exact List.mem_append_left _ ih

variable {ι : Type} (key : ι → κ) (init : ν) (f : ν → ι → ν × ω)

/-- One input: the value of its key steps by `f`. -/
def visitStep (t : SlotTable κ ν cap) (i : ι) : SlotTable κ ν cap × Option ω :=
  t.visit (key i) init fun v => f v i

/-- The inputs of one key. -/
def own (k : κ) (is : List ι) : List ι := is.filter fun i => key i = k

theorem own_snoc (k : κ) (is : List ι) (i : ι) :
    own key k (is ++ [i]) = if key i = k then own key k is ++ [i] else own key k is := by
  unfold own
  rw [List.filter_append]
  by_cases h : key i = k <;> simp [h]

/-- What the table holds after the inputs `is`. -/
def Demuxed (is : List ι) (t : SlotTable κ ν cap) : Prop :=
  (∀ k, t.lookup k =
    if k ∈ admitted cap (is.map key) then some (Runs.exec f init (own key k is)) else none) ∧
  t.size = (admitted cap (is.map key)).length

variable {key init f}

theorem own_eq_nil {k : κ} {is : List ι} (h : k ∉ is.map key) : own key k is = [] := by
  unfold own
  rw [List.filter_eq_nil_iff]
  intro i hi hk
  exact h (List.mem_map.mpr ⟨i, hi, by simpa using hk⟩)

/-- While the table is demultiplexed, it admits a key exactly when the key is
among the first `cap` distinct ones. -/
theorem Demuxed.admits_iff {is : List ι} {t : SlotTable κ ν cap} (h : Demuxed key init f is t)
    (i : ι) : t.Admits (key i) ↔ key i ∈ admitted cap ((is ++ [i]).map key) := by
  obtain ⟨hl, hs⟩ := h
  unfold Admits
  rw [List.map_append, List.map_singleton, admitted_snoc, hl, hs]
  by_cases hk : key i ∈ admitted cap (is.map key)
  · simp [hk]
  · by_cases hlen : cap ≤ (admitted cap (is.map key)).length
    · simp [hk, hlen]
    · simp [hk, hlen]
      omega

/-- The value a key has before an input that is admitted. -/
theorem Demuxed.value {is : List ι} {t : SlotTable κ ν cap} (h : Demuxed key init f is t) {i : ι}
    (hi : key i ∈ admitted cap ((is ++ [i]).map key)) :
    (t.lookup (key i)).getD init = Runs.exec f init (own key (key i) is) := by
  rw [h.1]
  by_cases hk : key i ∈ admitted cap (is.map key)
  · rw [if_pos hk, Option.getD_some]
  · -- a new key: it would have been admitted had it occurred before
    have hnew : key i ∉ is.map key := by
      intro hmem
      rw [List.map_append, List.map_singleton, mem_admitted_snoc_of_mem hmem] at hi
      exact hk hi
    rw [if_neg hk, own_eq_nil hnew]
    rfl

/-- An input of an admitted key steps the machine of that key. -/
theorem Demuxed.step_admitted {is : List ι} {t : SlotTable κ ν cap} (h : Demuxed key init f is t)
    {i : ι} (ha : t.Admits (key i)) :
    Demuxed key init f (is ++ [i]) (visitStep key init f t i).1 := by
  have hi := (h.admits_iff i).mp ha
  obtain ⟨-, hl, hs⟩ := visit_admitted ha init fun v => f v i
  rw [h.value hi] at hl
  refine ⟨fun k => ?_, ?_⟩
  · rw [visitStep, hl, own_snoc]
    by_cases hk : k = key i
    · subst hk
      rw [if_pos rfl, if_pos rfl, if_pos hi, Runs.exec_snoc]
    · rw [if_neg hk, if_neg (Ne.symm hk), h.1, List.map_append, List.map_singleton]
      simp only [mem_admitted_snoc_of_ne hk]
  · have hnone : t.lookup (key i) = none ↔ key i ∉ admitted cap (is.map key) := by
      rw [h.1]
      split <;> simp_all
    rw [visitStep, hs, h.2, List.map_append, List.map_singleton, admitted_snoc]
    by_cases hk : key i ∈ admitted cap (is.map key)
    · rw [if_neg (fun hn => hnone.mp hn hk), if_pos (Or.inl hk)]
    · have hlt : ¬ cap ≤ (admitted cap (is.map key)).length := by
        rw [← h.2]
        exact Nat.not_le.mpr (ha.resolve_left fun hne => hne (hnone.mpr hk))
      rw [if_pos (hnone.mpr hk), if_neg (not_or.mpr ⟨hk, hlt⟩), List.length_append,
        List.length_singleton]

/-- An input of a key that is turned away changes nothing. -/
theorem Demuxed.step_turned_away {is : List ι} {t : SlotTable κ ν cap}
    (h : Demuxed key init f is t) {i : ι} (ha : ¬ t.Admits (key i)) :
    Demuxed key init f (is ++ [i]) (visitStep key init f t i).1 := by
  have hno : key i ∉ admitted cap ((is ++ [i]).map key) := fun hi => ha ((h.admits_iff i).mpr hi)
  have hkeys : admitted cap ((is ++ [i]).map key) = admitted cap (is.map key) := by
    rw [List.map_append, List.map_singleton, admitted_snoc] at hno ⊢
    split at hno
    · next hc => rw [if_pos hc]
    · exact absurd (by simp) hno
  rw [visitStep, visit_turned_away ha]
  refine ⟨fun k => ?_, by rw [hkeys]; exact h.2⟩
  rw [h.1, hkeys, own_snoc]
  split
  · split
    · next hm hk =>
      rw [← hkeys, ← hk] at hm
      exact absurd hm hno
    · rfl
  · rfl

theorem Demuxed.step {is : List ι} {t : SlotTable κ ν cap} (h : Demuxed key init f is t) (i : ι) :
    Demuxed key init f (is ++ [i]) (visitStep key init f t i).1 := by
  by_cases ha : t.Admits (key i)
  · exact h.step_admitted ha
  · exact h.step_turned_away ha

/-- The table refines a family of independent machines, one for each admitted
key, each of which sees the inputs of its own key only. -/
theorem demuxed_visits (is : List ι) :
    Demuxed key init f is (Runs.exec (visitStep key init f) (empty κ ν cap) is) := by
  induction is using List.reverseRecOn with
  | nil => exact ⟨fun k => by simp [admitted], by simp [admitted]⟩
  | append_singleton is i ih =>
    rw [Runs.exec_snoc]
    exact ih.step i

/-- A key that is stored keeps its slot for the rest of the run. -/
theorem visits_keep_slot {t : SlotTable κ ν cap} {j : Nat} {k : κ} {v : ν}
    (h : t.slots[j]? = some (some (k, v))) (is : List ι) :
    ∃ w, (Runs.exec (visitStep key init f) t is).slots[j]? = some (some (k, w)) := by
  induction is generalizing t v with
  | nil => exact ⟨v, h⟩
  | cons i is ih =>
    obtain ⟨w, hw⟩ := visit_keeps_slot h (key i) init fun v => f v i
    exact ih hw

/-- What an input emits: the output of its own key's machine. -/
theorem visits_out (is : List ι) (i : ι) :
    (visitStep key init f (Runs.exec (visitStep key init f) (empty κ ν cap) is) i).2 =
      if key i ∈ admitted cap ((is ++ [i]).map key) then
        some (f (Runs.exec f init (own key (key i) is)) i).2
      else none := by
  have h := @demuxed_visits _ _ _ cap _ _ key init f is
  split
  · next hi =>
    obtain ⟨hout, -, -⟩ := visit_admitted ((h.admits_iff i).mpr hi) init fun v => f v i
    rw [h.value hi] at hout
    exact hout
  · next hi =>
    have hno := visit_turned_away (fun ha => hi ((h.admits_iff i).mp ha)) init fun v => f v i
    exact congrArg Prod.snd hno

end Visits

end SlotTable
