import Mathlib.Logic.Relation
import Mathlib.Data.List.Basic

/-!
# Copying with short reads and writes

The loop that every Unix program has: read into a buffer until a read returns 0, and
write what was read, as many calls as it takes. The kernel may transfer less than it is
asked for, or fail, at every call: `Calls` says what it does at each of them, and a read
returns 0 at the end of the file only.

Results:
1. `run_ends`: the loop ends, whatever the calls do; `Ends.unique`: it has one end.
2. `Reaches.conserved`: on the way, what has been written, what is in the buffer and
   what is still to be read make up the file; `Ends.eof_target` and
   `Ends.readFailed_target`: what that means when the loop ends.
-/

namespace CopyLoop

variable {α : Type}

/-! ## The loop -/

/-- What the calls do: the `i`-th read and the `i`-th write fail (`none`) or transfer
about so many bytes. -/
structure Calls where
  read : Nat → Option Nat
  write : Nat → Option Nat

/-- A transfer of about `k` bytes where `room` are asked for: at least one, and no more
than asked for. -/
def transferred (k room : Nat) : Nat := min (max k 1) room

/-- The variables of the loop: `rest` is what is left of the file, `buf` what the last
read returned, `o` how much of it has been written, `target` what has been written in
all. -/
structure Copy (α : Type) where
  rest : List α
  buf : List α
  o : Nat
  target : List α
  reads : Nat
  writes : Nat

def Copy.start (content : List α) : Copy α := ⟨content, [], 0, [], 0, 0⟩

/-- Why a loop ends. -/
inductive Ended where
  | eof
  | readFailed
  | writeFailed
deriving DecidableEq, Repr

/-- One call: a write while there is something to write, else a read of up to `cap`
bytes. -/
def Copy.step (cap : Nat) (calls : Calls) (c : Copy α) : Except Ended (Copy α) :=
  if c.o < c.buf.length then
    match calls.write c.writes with
    | none => .error .writeFailed
    | some k =>
      let w := transferred k (c.buf.length - c.o)
      .ok { c with
        o := c.o + w, target := c.target ++ (c.buf.drop c.o).take w, writes := c.writes + 1 }
  else
    match calls.read c.reads with
    | none => .error .readFailed
    | some k =>
      let n := transferred k (min cap c.rest.length)
      if n = 0 then .error .eof
      else .ok { c with rest := c.rest.drop n, buf := c.rest.take n, o := 0, reads := c.reads + 1 }

/-- The loop, for `fuel` calls at most. -/
def run (cap : Nat) (calls : Calls) : Nat → Copy α → Option (Ended × Copy α)
  | 0, _ => none
  | fuel + 1, c =>
    match c.step cap calls with
    | .error e => some (e, c)
    | .ok c' => run cap calls fuel c'

/-- The loop comes from one state to the other. -/
def Reaches (cap : Nat) (calls : Calls) : Copy α → Copy α → Prop :=
  Relation.ReflTransGen fun c c' => c.step cap calls = .ok c'

/-- The loop ends in a state it comes to. -/
structure Ends (cap : Nat) (calls : Calls) (c : Copy α) (e : Ended) (c' : Copy α) : Prop where
  reaches : Reaches cap calls c c'
  ends : c'.step cap calls = .error e

/-! ## One call -/

section Step

variable {cap : Nat} {calls : Calls} {c c' : Copy α} {e : Ended}

theorem transferred_le (k room : Nat) : transferred k room ≤ room := Nat.min_le_right _ _

theorem transferred_pos (k : Nat) {room : Nat} (h : 0 < room) : 0 < transferred k room :=
  Nat.lt_min.mpr ⟨Nat.lt_of_lt_of_le Nat.one_pos (Nat.le_max_right k 1), h⟩

/-- A call that transfers something: a write of the next bytes, or a read. -/
theorem step_ok_cases (h : c.step cap calls = .ok c') :
    (c.o < c.buf.length ∧ ∃ w, 0 < w ∧ w ≤ c.buf.length - c.o ∧
      c' = { c with
        o := c.o + w, target := c.target ++ (c.buf.drop c.o).take w, writes := c.writes + 1 }) ∨
    (¬ c.o < c.buf.length ∧ ∃ n, 0 < n ∧ n ≤ c.rest.length ∧
      c' = { c with
        rest := c.rest.drop n, buf := c.rest.take n, o := 0, reads := c.reads + 1 }) := by
  unfold Copy.step at h
  split at h
  · next ho =>
    cases hw : calls.write c.writes with
    | none => rw [hw] at h; cases h
    | some k =>
      rw [hw] at h
      cases h
      exact Or.inl ⟨ho, _, transferred_pos k (Nat.sub_pos_of_lt ho), transferred_le _ _, rfl⟩
  · next ho =>
    cases hr : calls.read c.reads with
    | none => rw [hr] at h; cases h
    | some k =>
      rw [hr] at h
      dsimp only at h
      split at h
      · cases h
      · next hn =>
        cases h
        refine Or.inr ⟨ho, _, Nat.pos_of_ne_zero hn, ?_, rfl⟩
        exact Nat.le_trans (transferred_le _ _) (Nat.min_le_right _ _)

/-- A loop that does not end in a write has written what it has read. -/
theorem step_error_cases (hcap : 0 < cap) (h : c.step cap calls = .error e) :
    (e = .writeFailed ∧ c.o < c.buf.length) ∨
    (e = .readFailed ∧ ¬ c.o < c.buf.length ∧ calls.read c.reads = none) ∨
    (e = .eof ∧ ¬ c.o < c.buf.length ∧ calls.read c.reads ≠ none ∧ c.rest = []) := by
  unfold Copy.step at h
  split at h
  · next ho =>
    cases hw : calls.write c.writes with
    | none => rw [hw] at h; cases h; exact Or.inl ⟨rfl, ho⟩
    | some k => rw [hw] at h; cases h
  · next ho =>
    cases hr : calls.read c.reads with
    | none => rw [hr] at h; cases h; exact Or.inr (Or.inl ⟨rfl, ho, rfl⟩)
    | some k =>
      rw [hr] at h
      dsimp only at h
      split at h
      · next hn =>
        cases h
        refine Or.inr (Or.inr ⟨rfl, ho, Option.some_ne_none k, ?_⟩)
        rcases List.eq_nil_or_concat c.rest with hnil | ⟨init, last, hcons⟩
        · exact hnil
        · have hlen : 0 < c.rest.length := by simp [hcons]
          exact absurd hn (Nat.ne_of_gt (transferred_pos k (Nat.lt_min.mpr ⟨hcap, hlen⟩)))
      · cases h

/-- A failed read ends the loop where it happens. -/
theorem step_readFailed (ho : ¬ c.o < c.buf.length) (hr : calls.read c.reads = none) :
    c.step cap calls = .error .readFailed := by
  rw [Copy.step, if_neg ho, hr]

end Step

/-! ## 1. The loop ends -/

/-- What is left to do, in calls. -/
def Copy.work (c : Copy α) : Nat := 2 * c.rest.length + (c.buf.length - c.o)

theorem work_step {cap : Nat} {calls : Calls} {c c' : Copy α} (h : c.step cap calls = .ok c') :
    c'.work < c.work := by
  rcases step_ok_cases h with ⟨ho, w, hpos, hle, rfl⟩ | ⟨ho, n, hpos, hle, rfl⟩
  · exact Nat.add_lt_add_left (by dsimp only; omega) _
  · simp only [Copy.work, List.length_drop, List.length_take]
    omega

/-- Enough fuel for the work gives a result. -/
theorem run_ends (cap : Nat) (calls : Calls) {fuel : Nat} :
    ∀ {c : Copy α}, c.work < fuel → ∃ e c', run cap calls fuel c = some (e, c') := by
  induction fuel with
  | zero => exact fun h => absurd h (Nat.not_lt_zero _)
  | succ fuel ih =>
    intro c h
    rw [run]
    cases hstep : c.step cap calls with
    | error e => exact ⟨e, c, rfl⟩
    | ok c₁ => exact ih (Nat.lt_of_lt_of_le (work_step hstep) (Nat.le_of_lt_succ h))

/-- A result is an end of the loop. -/
theorem run_some {cap : Nat} {calls : Calls} {fuel : Nat} {e : Ended} {c' : Copy α} :
    ∀ {c : Copy α}, run cap calls fuel c = some (e, c') → Ends cap calls c e c' := by
  induction fuel with
  | zero => exact fun h => nomatch h
  | succ fuel ih =>
    intro c h
    rw [run] at h
    cases hstep : c.step cap calls with
    | error e₁ =>
      rw [hstep] at h
      cases h
      exact ⟨Relation.ReflTransGen.refl, hstep⟩
    | ok c₁ =>
      rw [hstep] at h
      have hends := ih h
      exact ⟨hends.reaches.head hstep, hends.ends⟩

/-- A loop has one end. -/
theorem Ends.unique {cap : Nat} {calls : Calls} {c c₁ c₂ : Copy α} {e₁ e₂ : Ended}
    (h₁ : Ends cap calls c e₁ c₁) (h₂ : Ends cap calls c e₂ c₂) : e₁ = e₂ ∧ c₁ = c₂ := by
  obtain ⟨hreach, hend⟩ := h₁
  induction hreach using Relation.ReflTransGen.head_induction_on with
  | refl =>
    rcases h₂.reaches.cases_head with rfl | ⟨c', hstep, -⟩
    · rw [h₂.ends] at hend
      exact ⟨(Except.error.inj hend).symm, rfl⟩
    · rw [hend] at hstep
      cases hstep
  | head hstep _ ih =>
    refine ih ⟨?_, h₂.ends⟩
    rcases h₂.reaches.cases_head with rfl | ⟨c', hstep', hreach'⟩
    · rw [h₂.ends] at hstep
      cases hstep
    · rw [hstep] at hstep'
      cases hstep'
      exact hreach'

/-! ## 2. Nothing is lost -/

/-- Written, in the buffer and unread bytes make up the file. -/
def Copy.Conserves (content : List α) (c : Copy α) : Prop :=
  c.target ++ c.buf.drop c.o ++ c.rest = content

theorem conserves_step {cap : Nat} {calls : Calls} {content : List α} {c c' : Copy α}
    (hc : c.Conserves content) (h : c.step cap calls = .ok c') : c'.Conserves content := by
  rcases step_ok_cases h with ⟨-, w, -, -, rfl⟩ | ⟨ho, n, -, -, rfl⟩
  · have hsplit : (c.buf.drop c.o).take w ++ c.buf.drop (c.o + w) = c.buf.drop c.o := by
      rw [← List.drop_drop, List.take_append_drop]
    rw [Copy.Conserves, List.append_assoc c.target, hsplit]
    exact hc
  · rw [Copy.Conserves, List.drop_eq_nil_of_le (Nat.not_lt.mp ho), List.append_nil] at hc
    rw [Copy.Conserves, List.drop_zero, List.append_assoc, List.take_append_drop]
    exact hc

theorem Reaches.conserved {cap : Nat} {calls : Calls} {content : List α} {c : Copy α}
    (h : Reaches cap calls (Copy.start content) c) : c.Conserves content := by
  induction h with
  | refl => rfl
  | tail _ hstep ih => exact conserves_step ih hstep

/-- With the buffer written, what is missing is unread. -/
theorem Reaches.target_append {cap : Nat} {calls : Calls} {content : List α} {c : Copy α}
    (h : Reaches cap calls (Copy.start content) c) (ho : ¬ c.o < c.buf.length) :
    c.target ++ c.rest = content := by
  have hc := h.conserved
  rwa [Copy.Conserves, List.drop_eq_nil_of_le (Nat.not_lt.mp ho), List.append_nil] at hc

/-- At the end of the file the copy is complete. -/
theorem Ends.eof_target {cap : Nat} {calls : Calls} {content : List α} {c : Copy α} (hcap : 0 < cap)
    (h : Ends cap calls (Copy.start content) .eof c) : c.target = content := by
  rcases step_error_cases hcap h.ends with ⟨he, -⟩ | ⟨he, -⟩ | ⟨-, ho, -, hrest⟩
  · cases he
  · cases he
  · rw [← h.reaches.target_append ho, hrest, List.append_nil]

/-- When a read fails the copy is complete if nothing was left to be read. -/
theorem Ends.readFailed_target {cap : Nat} {calls : Calls} {content : List α} {c : Copy α}
    (hcap : 0 < cap)
    (h : Ends cap calls (Copy.start content) .readFailed c) : c.target = content ↔ c.rest = [] := by
  rcases step_error_cases hcap h.ends with ⟨he, -⟩ | ⟨-, ho, -⟩ | ⟨he, -⟩
  · cases he
  · rw [← h.reaches.target_append ho]
    exact List.self_eq_append_right
  · cases he

end CopyLoop
