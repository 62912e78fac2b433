import Mathlib.Data.List.Basic
import Mathlib.Data.List.Nodup
import Mathlib.Data.List.FinRange

/-!
# Interleaved streams

Several producers, each with a finite stream of records, write to one queue. A
queue that merges the streams is a list of records tagged with their producers
in which the records of each producer are its stream, in order.

* `own i xs` are the records of producer `i` in `xs`;
* `Merges streams xs`: `xs` is an interleaving of all the streams;
* `InFlight streams pre i`: the stream of `i` has begun in `pre` and not ended.
-/

namespace Interleave

variable {ι α : Type} [DecidableEq ι]

/-- The records of producer `i`. -/
def own (i : ι) (xs : List (ι × α)) : List α := (xs.filter fun x => x.1 = i).map Prod.snd

/-- `xs` is an interleaving of the streams. -/
def Merges (streams : ι → List α) (xs : List (ι × α)) : Prop := ∀ i, own i xs = streams i

/-- The stream of `i` has begun and not ended. -/
def InFlight (streams : ι → List α) (pre : List (ι × α)) (i : ι) : Prop :=
  own i pre ≠ [] ∧ own i pre ≠ streams i

instance [DecidableEq α] (streams : ι → List α) (pre : List (ι × α)) (i : ι) :
    Decidable (InFlight streams pre i) :=
  inferInstanceAs (Decidable (_ ∧ _))

@[simp] theorem own_nil (i : ι) : own i ([] : List (ι × α)) = [] := rfl

theorem own_append (i : ι) (xs ys : List (ι × α)) : own i (xs ++ ys) = own i xs ++ own i ys := by
  simp [own]

theorem own_cons (i : ι) (x : ι × α) (xs : List (ι × α)) :
    own i (x :: xs) = if x.1 = i then x.2 :: own i xs else own i xs := by
  unfold own
  rw [List.filter_cons]
  split <;> simp_all

theorem own_snoc_self (x : ι × α) (xs : List (ι × α)) :
    own x.1 (xs ++ [x]) = own x.1 xs ++ [x.2] := by
  rw [own_append, own_cons, if_pos rfl, own_nil]

theorem length_own_snoc (x : ι × α) (xs : List (ι × α)) :
    (own x.1 (xs ++ [x])).length = (own x.1 xs).length + 1 := by
  rw [own_snoc_self, List.length_append, List.length_singleton]

theorem own_snoc_ne {i : ι} {x : ι × α} (h : i ≠ x.1) (xs : List (ι × α)) :
    own i (xs ++ [x]) = own i xs := by
  rw [own_append, own_cons, if_neg (Ne.symm h), own_nil, List.append_nil]

/-- The next record of a producer is the one its stream has at that place. -/
theorem Merges.next {streams : ι → List α} {pre post : List (ι × α)} {x : ι × α}
    (h : Merges streams (pre ++ x :: post)) :
    (streams x.1)[(own x.1 pre).length]? = some x.2 := by
  have hx := h x.1
  rw [own_append, own_cons, if_pos rfl] at hx
  rw [← hx]
  simp

/-- What came so far is a prefix of the stream. -/
theorem Merges.take {streams : ι → List α} {pre post : List (ι × α)}
    (h : Merges streams (pre ++ post)) (i : ι) :
    own i pre = (streams i).take (own i pre).length := by
  rw [← h i, own_append, List.take_left]

/-- A producer that still has a record to come has not ended. -/
theorem Merges.not_ended {streams : ι → List α} {pre post : List (ι × α)} {x : ι × α}
    (h : Merges streams (pre ++ x :: post)) : own x.1 pre ≠ streams x.1 := by
  intro he
  have hx := h.next
  rw [he] at hx
  simp at hx

/-- A record ends its stream if it is the last one. -/
theorem Merges.ended_iff {streams : ι → List α} {pre post : List (ι × α)} {x : ι × α}
    (h : Merges streams (pre ++ x :: post)) :
    own x.1 (pre ++ [x]) = streams x.1 ↔ (own x.1 pre).length + 1 = (streams x.1).length := by
  have hlen := length_own_snoc x pre
  have hsnoc : Merges streams ((pre ++ [x]) ++ post) := by rwa [← List.append_cons]
  constructor
  · intro he
    rw [← hlen, he]
  · intro hm
    rw [hsnoc.take x.1, hlen, hm, List.take_length]

/-- The producers whose stream has ended, when one more ends. -/
theorem ended_snoc {n : Nat} {streams : Fin n → List α} [DecidableEq α]
    {pre : List (Fin n × α)} {x : Fin n × α} (hx : own x.1 pre ≠ streams x.1) :
    ((List.finRange n).filter fun i => own i (pre ++ [x]) = streams i).Perm
      (if own x.1 (pre ++ [x]) = streams x.1 then
        x.1 :: (List.finRange n).filter fun i => own i pre = streams i
      else (List.finRange n).filter fun i => own i pre = streams i) := by
  have hnd := List.nodup_finRange n
  split
  · next he =>
    refine (List.perm_ext_iff_of_nodup (hnd.filter _) ?_).mpr fun i => ?_
    · exact List.nodup_cons.mpr ⟨by simp [hx], hnd.filter _⟩
    · by_cases hi : i = x.1
      · subst hi
        simp [he]
      · simp [hi, own_snoc_ne hi]
  · next he =>
    refine (List.perm_ext_iff_of_nodup (hnd.filter _) (hnd.filter _)).mpr fun i => ?_
    by_cases hi : i = x.1
    · subst hi
      simp [he, hx]
    · simp [own_snoc_ne hi]

end Interleave
