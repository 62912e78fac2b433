import Mathlib.Data.Finset.Card
import Mathlib.Data.List.Nodup
import Mathlib.Data.List.Basic
import Mathlib.Tactic.Common

/-!
# BPF hash maps

`BpfMap κ ν` is the content of a BPF hash map: its entries in the order in
which `getNextKey` walks them, with pairwise distinct keys. The order is that
of the hash buckets, which a program cannot predict, so an insertion names the
place `pos` where the new entry lands and results hold for every choice of it.

* `lookupElem`, `updateElem`, `deleteElem`, `getNextKey` are the map calls. An
  update of a present key keeps the entry's place. A plain hash map of `cap`
  entries refuses a new key when it is full (`-E2BIG`) and still overwrites a
  present one;
* `modify` is a write through the pointer that a lookup returned;
* an LRU map never refuses: it is `setElem`, with evictions as separate steps
  of the environment (`deleteElem` of any key at any time).

What an operation does is stated as its effect on `lookupElem`, key by key.
-/

/-- The entries of a hash map in walk order, one for each key. -/
structure BpfMap (κ ν : Type) where
  entries : List (κ × ν)
  nodup : (entries.map Prod.fst).Nodup
deriving DecidableEq

/-- The flags of `bpf_map_update_elem`. -/
inductive UpdateFlag where
  | any
  | noexist
deriving DecidableEq, Repr

namespace BpfMap

variable {κ ν : Type} [DecidableEq κ]

/-! ## Operations -/

/-- No entries. -/
def empty : BpfMap κ ν := ⟨[], List.nodup_nil⟩

/-- The number of entries. -/
def size (m : BpfMap κ ν) : Nat := m.entries.length

/-- The keys, in walk order. -/
def keys (m : BpfMap κ ν) : List κ := m.entries.map Prod.fst

def lookupElem (m : BpfMap κ ν) (k : κ) : Option ν :=
  (m.entries.find? fun e => e.1 = k).map Prod.snd

/-- A write through the pointer to the value of `k`; nothing if `k` is absent. -/
def modify (m : BpfMap κ ν) (k : κ) (f : ν → ν) : BpfMap κ ν where
  entries := m.entries.map fun e => if e.1 = k then (e.1, f e.2) else e
  nodup := by
    have h : (Prod.fst ∘ fun e : κ × ν => if e.1 = k then (e.1, f e.2) else e) = Prod.fst := by
      funext e
      by_cases he : e.1 = k <;> simp [he]
    simpa [h] using m.nodup

def deleteElem (m : BpfMap κ ν) (k : κ) : BpfMap κ ν where
  entries := m.entries.filter fun e => e.1 ≠ k
  nodup := m.nodup.sublist (List.filter_sublist.map _)

/-- A counter that starts at 0. -/
def counter (m : BpfMap κ Nat) (k : κ) : Nat := (m.lookupElem k).getD 0

/-- A new entry at place `pos` of the walk; the map itself if `k` is present. -/
def insertAt (m : BpfMap κ ν) (pos : Nat) (k : κ) (v : ν) : BpfMap κ ν :=
  if h : k ∈ m.entries.map Prod.fst then m
  else
    { entries := m.entries.take pos ++ (k, v) :: m.entries.drop pos
      nodup := by
        have hp : (m.entries.take pos ++ (k, v) :: m.entries.drop pos).Perm
            ((k, v) :: m.entries) := by
          have hm := @List.perm_middle _ (k, v) (m.entries.take pos) (m.entries.drop pos)
          rwa [List.take_append_drop] at hm
        have hn : (((k, v) :: m.entries).map Prod.fst).Nodup := by
          rw [List.map_cons, List.nodup_cons]
          exact ⟨h, m.nodup⟩
        exact ((hp.map Prod.fst).nodup_iff).mpr hn }

/-- The value of `k` becomes `v`, with a new entry at `pos` if there is none. -/
def setElem (m : BpfMap κ ν) (pos : Nat) (k : κ) (v : ν) : BpfMap κ ν :=
  if (m.lookupElem k).isSome then m.modify k fun _ => v else m.insertAt pos k v

/-- `bpf_map_update_elem` on a hash map of `cap` entries; the error code, which
callers ignore, is left out. -/
def updateElem (cap : Nat) (m : BpfMap κ ν) (pos : Nat) (k : κ) (v : ν) :
    UpdateFlag → BpfMap κ ν
  | .any =>
    if (m.lookupElem k).isSome then m.modify k fun _ => v
    else if m.size < cap then m.insertAt pos k v else m
  | .noexist =>
    if (m.lookupElem k).isSome then m
    else if m.size < cap then m.insertAt pos k v else m

/-- The key after the first occurrence of `k` in `ks`. -/
def nextAfter (k : κ) : List κ → Option κ
  | [] => none
  | k' :: ks => if k' = k then ks.head? else nextAfter k ks

/-- `bpf_map_get_next_key`: the key after `k` in the walk, the first key when
`k` is absent, none after the last. -/
def getNextKey (m : BpfMap κ ν) (k : κ) : Option κ :=
  if k ∈ m.keys then nextAfter k m.keys else m.keys.head?

/-! ## Lookups and entries -/

theorem mem_of_lookupElem {m : BpfMap κ ν} {k : κ} {v : ν} (h : m.lookupElem k = some v) :
    (k, v) ∈ m.entries := by
  unfold lookupElem at h
  rw [Option.map_eq_some_iff] at h
  obtain ⟨e, he, rfl⟩ := h
  have hk : e.1 = k := by simpa using List.find?_some he
  have hm := List.mem_of_find?_eq_some he
  rwa [← hk]

theorem lookupElem_of_mem {m : BpfMap κ ν} {k : κ} {v : ν} (h : (k, v) ∈ m.entries) :
    m.lookupElem k = some v := by
  cases hl : m.lookupElem k with
  | none =>
    unfold lookupElem at hl
    rw [Option.map_eq_none_iff, List.find?_eq_none] at hl
    exact absurd (by simp) (hl _ h)
  | some w =>
    have hw := mem_of_lookupElem hl
    have he := List.inj_on_of_nodup_map m.nodup hw h rfl
    cases he
    rfl

theorem lookupElem_eq_some_iff {m : BpfMap κ ν} {k : κ} {v : ν} :
    m.lookupElem k = some v ↔ (k, v) ∈ m.entries :=
  ⟨mem_of_lookupElem, lookupElem_of_mem⟩

theorem lookupElem_eq_none_iff {m : BpfMap κ ν} {k : κ} :
    m.lookupElem k = none ↔ k ∉ m.keys := by
  unfold lookupElem keys
  rw [Option.map_eq_none_iff, List.find?_eq_none]
  constructor
  · intro h hk
    obtain ⟨e, he, rfl⟩ := List.mem_map.mp hk
    exact absurd (by simp) (h e he)
  · intro h e he
    have hne : e.1 ≠ k := fun hk => h (hk ▸ List.mem_map_of_mem he)
    simpa using hne

theorem mem_keys_iff {m : BpfMap κ ν} {k : κ} : k ∈ m.keys ↔ (m.lookupElem k).isSome := by
  rw [← not_iff_not, ← lookupElem_eq_none_iff]
  simp

/-! ## What each operation does to the lookups -/

theorem lookupElem_modify (m : BpfMap κ ν) (k k' : κ) (f : ν → ν) :
    (m.modify k f).lookupElem k' =
      if k' = k then (m.lookupElem k').map f else m.lookupElem k' := by
  have hmem : ∀ v, (k', v) ∈ (m.modify k f).entries ↔
      ∃ w, (k', w) ∈ m.entries ∧ v = if k' = k then f w else w := by
    intro v
    simp only [modify, List.mem_map]
    constructor
    · rintro ⟨⟨a, w⟩, he, heq⟩
      by_cases ha : a = k
      · rw [if_pos ha] at heq
        cases heq
        exact ⟨w, he, by simp [ha]⟩
      · rw [if_neg ha] at heq
        cases heq
        exact ⟨v, he, by simp [ha]⟩
    · rintro ⟨w, he, rfl⟩
      refine ⟨(k', w), he, ?_⟩
      by_cases hk : k' = k <;> simp [hk]
  ext v
  rw [lookupElem_eq_some_iff, hmem]
  by_cases hk : k' = k
  · simp only [hk, if_true, Option.map_eq_some_iff, lookupElem_eq_some_iff]
    exact ⟨fun ⟨w, h, e⟩ => ⟨w, h, e.symm⟩, fun ⟨w, h, e⟩ => ⟨w, h, e.symm⟩⟩
  · simp only [hk, if_false, lookupElem_eq_some_iff]
    exact ⟨fun ⟨w, h, e⟩ => e ▸ h, fun h => ⟨v, h, rfl⟩⟩

/-- A write through the pointer of a failed lookup: there is none. -/
theorem modify_of_absent {m : BpfMap κ ν} {k : κ} (h : m.lookupElem k = none) (f : ν → ν) :
    m.modify k f = m := by
  have hk := lookupElem_eq_none_iff.mp h
  have hentries : (m.modify k f).entries = m.entries := by
    refine (List.map_congr_left fun e he => ?_).trans (List.map_id _)
    have hne : e.1 ≠ k := fun hek => hk (hek ▸ List.mem_map_of_mem he)
    exact if_neg hne
  cases m
  simpa [modify] using hentries

/-- Two modifications of one key. -/
theorem modify_modify (m : BpfMap κ ν) (k : κ) (f g : ν → ν) :
    (m.modify k f).modify k g = m.modify k (g ∘ f) := by
  unfold modify
  congr 1
  rw [List.map_map]
  refine List.map_congr_left fun e _ => ?_
  rcases eq_or_ne e.1 k with he | he <;> simp [he]

theorem lookupElem_deleteElem (m : BpfMap κ ν) (k k' : κ) :
    (m.deleteElem k).lookupElem k' = if k' = k then none else m.lookupElem k' := by
  by_cases hk : k' = k
  · subst hk
    rw [if_pos rfl, lookupElem_eq_none_iff]
    simp [keys, deleteElem]
  · rw [if_neg hk]
    ext v
    rw [lookupElem_eq_some_iff, lookupElem_eq_some_iff]
    simp [deleteElem, hk]

theorem mem_insertAt {m : BpfMap κ ν} {pos : Nat} {k : κ} {v : ν}
    (h : m.lookupElem k = none) (e : κ × ν) :
    e ∈ (m.insertAt pos k v).entries ↔ e = (k, v) ∨ e ∈ m.entries := by
  have hk : k ∉ m.entries.map Prod.fst := lookupElem_eq_none_iff.mp h
  have hsplit : e ∈ m.entries ↔ e ∈ m.entries.take pos ∨ e ∈ m.entries.drop pos := by
    rw [← List.mem_append, List.take_append_drop]
  rw [insertAt, dif_neg hk]
  simp only [List.mem_append, List.mem_cons, hsplit]
  tauto

theorem lookupElem_insertAt {m : BpfMap κ ν} {pos : Nat} {k : κ} {v : ν}
    (h : m.lookupElem k = none) (k' : κ) :
    (m.insertAt pos k v).lookupElem k' = if k' = k then some v else m.lookupElem k' := by
  ext w
  rw [lookupElem_eq_some_iff, mem_insertAt h]
  by_cases hk : k' = k
  · subst hk
    have habs : (k', w) ∉ m.entries := fun hm => by
      rw [lookupElem_of_mem hm] at h
      cases h
    simp [habs, eq_comm]
  · simp [hk, lookupElem_eq_some_iff]

/-- An insertion never overwrites: the value that is there stays. -/
theorem lookupElem_insertAt_getD (m : BpfMap κ ν) (pos : Nat) (k k' : κ) (v : ν) :
    (m.insertAt pos k v).lookupElem k' =
      if k' = k then some ((m.lookupElem k).getD v) else m.lookupElem k' := by
  cases h : m.lookupElem k with
  | none => rw [lookupElem_insertAt h, Option.getD_none]
  | some w =>
    have hk : k ∈ m.entries.map Prod.fst := by
      by_contra hk
      rw [lookupElem_eq_none_iff.mpr hk] at h
      cases h
    rw [insertAt, dif_pos hk]
    split
    · next he => rw [he, h, Option.getD_some]
    · rfl

theorem lookupElem_setElem (m : BpfMap κ ν) (pos : Nat) (k k' : κ) (v : ν) :
    (m.setElem pos k v).lookupElem k' = if k' = k then some v else m.lookupElem k' := by
  unfold setElem
  cases h : m.lookupElem k with
  | none => simp [lookupElem_insertAt h]
  | some w =>
    rw [Option.isSome_some, if_pos rfl, lookupElem_modify]
    by_cases hk : k' = k
    · subst hk
      simp [h]
    · simp [hk]

/-- An overwriting update: it takes place unless the key is new and the map full. -/
theorem lookupElem_updateElem_any (cap : Nat) (m : BpfMap κ ν) (pos : Nat) (k k' : κ) (v : ν) :
    (m.updateElem cap pos k v .any).lookupElem k' =
      if k' = k ∧ ((m.lookupElem k).isSome ∨ m.size < cap) then some v
      else m.lookupElem k' := by
  unfold updateElem
  cases h : m.lookupElem k with
  | none =>
    by_cases hc : m.size < cap
    · simp [hc, lookupElem_insertAt h]
    · simp [hc]
  | some w =>
    rw [Option.isSome_some, if_pos rfl, lookupElem_modify]
    by_cases hk : k' = k
    · subst hk
      simp [h]
    · simp [hk]

/-- An insertion under `BPF_NOEXIST`: it takes place only for a new key in a map
with room. -/
theorem lookupElem_updateElem_noexist (cap : Nat) (m : BpfMap κ ν) (pos : Nat) (k k' : κ)
    (v : ν) :
    (m.updateElem cap pos k v .noexist).lookupElem k' =
      if k' = k ∧ m.lookupElem k = none ∧ m.size < cap then some v else m.lookupElem k' := by
  unfold updateElem
  cases h : m.lookupElem k with
  | none =>
    by_cases hc : m.size < cap
    · simp [hc, lookupElem_insertAt h]
    · simp [hc]
  | some w => simp

/-! ## Keys -/

@[simp] theorem keys_modify (m : BpfMap κ ν) (k : κ) (f : ν → ν) :
    (m.modify k f).keys = m.keys := by
  rw [keys, modify, List.map_map]
  refine List.map_congr_left fun e _ => ?_
  rw [Function.comp_apply]
  split <;> rfl

/-- An insertion that cannot fail for want of room leaves its key in the map. -/
theorem mem_keys_noexist {cap : Nat} {m : BpfMap κ ν} {k : κ}
    (hroom : m.lookupElem k = none → m.size < cap) (pos : Nat) (v : ν) (k' : κ) :
    k' ∈ (m.updateElem cap pos k v .noexist).keys ↔ k' = k ∨ k' ∈ m.keys := by
  rw [mem_keys_iff, mem_keys_iff, lookupElem_updateElem_noexist]
  cases h : m.lookupElem k with
  | none =>
    rcases eq_or_ne k' k with rfl | hne
    · simp [hroom h]
    · simp [hne]
  | some w =>
    rcases eq_or_ne k' k with rfl | hne
    · simp [h]
    · simp [hne]

/-- The same for an update that may overwrite. -/
theorem mem_keys_any {cap : Nat} {m : BpfMap κ ν} {k : κ}
    (hroom : (m.lookupElem k).isSome ∨ m.size < cap) (pos : Nat) (v : ν) (k' : κ) :
    k' ∈ (m.updateElem cap pos k v .any).keys ↔ k' = k ∨ k' ∈ m.keys := by
  rw [mem_keys_iff, mem_keys_iff, lookupElem_updateElem_any]
  rcases eq_or_ne k' k with rfl | hne
  · simp [hroom]
  · simp [hne]

/-- A map whose keys are among `ks`, one of which it misses, has fewer entries. -/
theorem size_lt_of_absent {m : BpfMap κ ν} {ks : Finset κ} (hks : ∀ k ∈ m.keys, k ∈ ks) {k : κ}
    (hk : k ∈ ks) (h : m.lookupElem k = none) : m.size < ks.card := by
  have hnodup : m.keys.Nodup := m.nodup
  have hsize : m.keys.toFinset.card = m.size := by
    rw [List.toFinset_card_of_nodup hnodup, keys, List.length_map, size]
  rw [← hsize]
  refine Finset.card_lt_card ⟨fun a ha => hks a (List.mem_toFinset.mp ha), fun hsub => ?_⟩
  exact lookupElem_eq_none_iff.mp h (List.mem_toFinset.mp (hsub hk))

/-! ## Maps that grow -/

/-- `m'` has the keys of `m`, and perhaps others, of `ks`. -/
def Grows (ks : Finset κ) (m m' : BpfMap κ ν) : Prop :=
  (∀ k ∈ m.keys, k ∈ m'.keys) ∧ ∀ k ∈ m'.keys, k ∈ m.keys ∨ k ∈ ks

omit [DecidableEq κ] in
theorem Grows.refl (ks : Finset κ) (m : BpfMap κ ν) : Grows ks m m :=
  ⟨fun _ hk => hk, fun _ hk => Or.inl hk⟩

omit [DecidableEq κ] in
theorem Grows.subset {ks : Finset κ} {m m' : BpfMap κ ν} (h : Grows ks m m')
    (hks : ∀ k ∈ m.keys, k ∈ ks) : ∀ k ∈ m'.keys, k ∈ ks :=
  fun k hk => (h.2 k hk).elim (hks k) id

theorem grows_modify (ks : Finset κ) (m : BpfMap κ ν) (k : κ) (f : ν → ν) :
    Grows ks m (m.modify k f) := by
  rw [Grows, keys_modify]
  exact Grows.refl ks m

/-- An insertion of a key of `ks` into a map whose keys are of `ks`, which is as
large as the map may get. -/
theorem grows_noexist {ks : Finset κ} {cap : Nat} (hcap : ks.card ≤ cap) {m : BpfMap κ ν}
    (hks : ∀ k ∈ m.keys, k ∈ ks) {k : κ} (hk : k ∈ ks) (pos : Nat) (v : ν) :
    Grows ks m (m.updateElem cap pos k v .noexist) ∧
      k ∈ (m.updateElem cap pos k v .noexist).keys := by
  have hroom : m.lookupElem k = none → m.size < cap := fun hnone =>
    Nat.lt_of_lt_of_le (size_lt_of_absent hks hk hnone) hcap
  simp only [Grows, mem_keys_noexist hroom]
  refine ⟨⟨fun k' hk' => Or.inr hk', fun k' hk' => ?_⟩, Or.inl trivial⟩
  rcases hk' with rfl | hk'
  · exact Or.inr hk
  · exact Or.inl hk'

/-! ## Sizes -/

@[simp] theorem size_modify (m : BpfMap κ ν) (k : κ) (f : ν → ν) :
    (m.modify k f).size = m.size := by
  simp [size, modify]

theorem size_insertAt_le (m : BpfMap κ ν) (pos : Nat) (k : κ) (v : ν) :
    (m.insertAt pos k v).size ≤ m.size + 1 := by
  unfold insertAt
  split
  · exact Nat.le_succ _
  · simp only [size, List.length_append, List.length_cons, List.length_take, List.length_drop]
    omega

/-- An update adds at most one entry. -/
theorem size_updateElem_any_le (cap : Nat) (m : BpfMap κ ν) (pos : Nat) (k : κ) (v : ν) :
    (m.updateElem cap pos k v .any).size ≤ m.size + 1 := by
  simp only [updateElem]
  split
  · simp
  · split
    · exact size_insertAt_le m pos k v
    · exact Nat.le_succ _

/-- A hash map never holds more than `cap` entries. -/
theorem size_updateElem_le {cap : Nat} {m : BpfMap κ ν} (h : m.size ≤ cap) (pos : Nat) (k : κ)
    (v : ν) (flag : UpdateFlag) : (m.updateElem cap pos k v flag).size ≤ cap := by
  have hins := size_insertAt_le m pos k v
  cases flag with
  | any =>
    simp only [updateElem]
    split
    · simpa using h
    · split <;> omega
  | noexist =>
    simp only [updateElem]
    split
    · exact h
    · split <;> omega

/-! ## Walking -/

/-- Where the walk stands: `k` is absent and nothing is behind it, or the
entries up to that of `k` are. -/
inductive Cursor (m : BpfMap κ ν) (k : κ) : List (κ × ν) → List (κ × ν) → Prop
  | start : k ∉ m.keys → Cursor m k [] m.entries
  | at {front back : List (κ × ν)} {v : ν} : m.entries = front ++ (k, v) :: back →
      Cursor m k (front ++ [(k, v)]) back

omit [DecidableEq κ] in
theorem Cursor.entries_eq {m : BpfMap κ ν} {k : κ} {front back : List (κ × ν)}
    (h : Cursor m k front back) : m.entries = front ++ back := by
  cases h with
  | start _ => rfl
  | «at» h => simpa using h

theorem nextAfter_append {k : κ} {front back : List κ} (h : k ∉ front) :
    nextAfter k (front ++ k :: back) = back.head? := by
  induction front with
  | nil => simp [nextAfter]
  | cons a front ih =>
    have ha : a ≠ k := fun e => h (by simp [e])
    have hf : k ∉ front := fun hm => h (by simp [hm])
    simp [nextAfter, ha, ih hf]

/-- The next key is the first one behind the cursor. -/
theorem Cursor.getNextKey {m : BpfMap κ ν} {k : κ} {front back : List (κ × ν)}
    (h : Cursor m k front back) : m.getNextKey k = (back.head?).map Prod.fst := by
  unfold BpfMap.getNextKey
  cases h with
  | start hk =>
    rw [if_neg hk]
    simp [keys]
  | @«at» front _ v he =>
    have hkeys : m.keys = front.map Prod.fst ++ k :: back.map Prod.fst := by
      simp [keys, he]
    have hn : k ∉ front.map Prod.fst := by
      have hnd : m.keys.Nodup := m.nodup
      rw [hkeys, List.nodup_append] at hnd
      exact fun hm => hnd.2.2 k hm k (by simp) rfl
    rw [if_pos (by rw [hkeys]; simp), hkeys, nextAfter_append hn, List.head?_map]

end BpfMap
