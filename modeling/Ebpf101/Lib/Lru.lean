import Mathlib.Data.List.Basic
import Mathlib.Data.List.Nodup
import Mathlib.Data.List.Induction

/-!
# Least recently used

The keys that a cache of `cap` entries holds, the most recently used first. A use of a key
that is not held takes the place of the key at the end when there is no other.

Results:
1. `mem_use_iff`: a use holds its key and all that was held before but for `evicted`;
   `mem_use_of_mem`: a use of a key that is held evicts nothing.
2. `keys_uses`: after uses of `cap` distinct keys exactly those are held, whatever was held
   before.
-/

/-- At most `cap` distinct keys, the most recently used first. -/
structure Lru (κ : Type) (cap : Nat) where
  keys : List κ
  nodup : keys.Nodup
  length_le : keys.length ≤ cap

namespace Lru

variable {κ : Type} {cap : Nat}

def empty : Lru κ cap := ⟨[], List.nodup_nil, Nat.zero_le _⟩

variable [DecidableEq κ]

/-- A use of `k`, which may be new. -/
def use (l : Lru κ cap) (k : κ) : Lru κ cap where
  keys := (k :: l.keys.erase k).take cap
  nodup := (List.nodup_cons.mpr ⟨l.nodup.not_mem_erase, l.nodup.erase k⟩).sublist
    (List.take_sublist _ _)
  length_le := List.length_take_le _ _

/-- A key is given up. -/
def drop (l : Lru κ cap) (k : κ) : Lru κ cap where
  keys := l.keys.erase k
  nodup := l.nodup.erase k
  length_le := Nat.le_trans List.length_erase_le l.length_le

/-- What a use of `k` throws out. -/
def evicted (l : Lru κ cap) (k : κ) : List κ := l.keys.filter fun x => x ∉ (l.use k).keys

def uses (l : Lru κ cap) (ks : List κ) : Lru κ cap := ks.foldl use l

/-! ## One use -/

theorem mem_drop_iff (l : Lru κ cap) (k x : κ) : x ∈ (l.drop k).keys ↔ x ≠ k ∧ x ∈ l.keys :=
  l.nodup.mem_erase_iff

theorem mem_use (l : Lru κ cap) (hcap : 0 < cap) (k : κ) : k ∈ (l.use k).keys := by
  obtain ⟨n, rfl⟩ : ∃ n, cap = n + 1 := ⟨cap - 1, (Nat.sub_add_cancel hcap).symm⟩
  show k ∈ (k :: l.keys.erase k).take (n + 1)
  rw [List.take_succ_cons]
  exact List.mem_cons_self

theorem mem_of_mem_use {l : Lru κ cap} {k x : κ} (h : x ∈ (l.use k).keys) : x = k ∨ x ∈ l.keys := by
  rcases List.mem_cons.mp (List.mem_of_mem_take h) with hk | hx
  · exact Or.inl hk
  · exact Or.inr (List.mem_of_mem_erase hx)

theorem mem_use_iff (l : Lru κ cap) (hcap : 0 < cap) (k x : κ) :
    x ∈ (l.use k).keys ↔ x = k ∨ x ∈ l.keys ∧ x ∉ l.evicted k := by
  rw [evicted, List.mem_filter, not_and, decide_eq_true_eq, not_not]
  constructor
  · intro h
    exact (mem_of_mem_use h).imp id fun hx => ⟨hx, fun _ => h⟩
  · rintro (rfl | ⟨hx, h⟩)
    · exact l.mem_use hcap x
    · exact h hx

/-- A use of a key that is held moves it to the front. -/
theorem mem_use_of_mem {l : Lru κ cap} {k : κ} (h : k ∈ l.keys) (x : κ) :
    x ∈ (l.use k).keys ↔ x ∈ l.keys := by
  have hlen : (k :: l.keys.erase k).length ≤ cap := by
    rw [List.length_cons, List.length_erase_add_one h]
    exact l.length_le
  show x ∈ (k :: l.keys.erase k).take cap ↔ x ∈ l.keys
  rw [List.take_of_length_le hlen]
  exact (List.perm_cons_erase h).symm.mem_iff

/-! ## Uses of distinct keys -/

/-- The keys used stand in front, the last one first. -/
theorem prefix_keys_uses (l : Lru κ cap) {ks : List κ} (hks : ks.Nodup) :
    ks.reverse.take cap <+: (l.uses ks).keys := by
  induction ks using List.reverseRecOn with
  | nil => simp
  | append_singleton ks k ih =>
    rw [← List.concat_eq_append, List.nodup_concat] at hks
    obtain ⟨rest, hrest⟩ := ih hks.2
    have hnew : k ∉ ks.reverse.take cap := fun hm =>
      hks.1 (List.mem_reverse.mp (List.mem_of_mem_take hm))
    have hkeys : (l.uses (ks ++ [k])).keys =
        (k :: (ks.reverse.take cap ++ rest.erase k)).take cap := by
      rw [uses, List.foldl_concat, ← List.erase_append_right _ hnew, hrest]
      rfl
    rw [hkeys, List.reverse_concat]
    cases cap with
    | zero => exact List.nil_prefix
    | succ n =>
      rw [List.take_succ_cons, List.take_succ_cons, List.cons_prefix_cons, List.take_append,
        List.take_take, Nat.min_eq_left (Nat.le_succ n)]
      exact ⟨rfl, List.prefix_append _ _⟩

theorem keys_uses (l : Lru κ cap) {ks : List κ} (hks : ks.Nodup) (hlen : cap ≤ ks.length) :
    (l.uses ks).keys = ks.reverse.take cap := by
  refine ((l.prefix_keys_uses hks).eq_of_length_le ?_).symm
  rw [List.length_take, List.length_reverse, Nat.min_eq_left hlen]
  exact (l.uses ks).length_le

/-- A key is gone after uses of `cap` others. -/
theorem notMem_uses (l : Lru κ cap) {ks : List κ} (hks : ks.Nodup) (hlen : cap ≤ ks.length) {k : κ}
    (hk : k ∉ ks) : k ∉ (l.uses ks).keys := by
  rw [l.keys_uses hks hlen]
  exact fun hm => hk (List.mem_reverse.mp (List.mem_of_mem_take hm))

end Lru
