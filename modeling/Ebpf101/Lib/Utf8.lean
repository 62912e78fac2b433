import Mathlib.Data.List.Basic

/-!
# UTF-8 with replacement

A decoder that never fails: what is no sequence of UTF-8 becomes U+FFFD, one for
each byte that can begin no sequence and one for each sequence that is broken
off, by a byte that does not continue it or by the end of the text. The byte that
breaks a sequence off is read again.

* `encode` and `decode` between characters and bytes;
* `Valid bs`: the bytes are the encoding of some text;
* `decode_encode`, `encode_decode`: the two are inverse on valid bytes;
* `decode_take_encode`: a text cut off after some bytes is decoded to its first
  characters, and to one replacement more if the cut is inside a character.
-/

namespace Utf8

/-! ## Definitions -/

/-- U+FFFD. -/
def replacement : Char := Char.ofNat 0xFFFD

/-- A sequence that has begun: how many bytes are left, the bits so far, and the
range of the next byte. -/
structure Begun where
  left : Nat
  bits : Nat
  lo : Nat
  hi : Nat

/-- A byte between two sequences. The ranges of the second byte exclude overlong
forms, surrogates and what is beyond U+10FFFF. -/
def lead (b : Nat) : List Char × Option Begun :=
  if b < 0x80 then ([Char.ofNat b], none)
  else if b < 0xC2 then ([replacement], none)
  else if b < 0xE0 then ([], some ⟨1, b - 0xC0, 0x80, 0xBF⟩)
  else if b < 0xF0 then
    ([], some ⟨2, b - 0xE0, if b = 0xE0 then 0xA0 else 0x80, if b = 0xED then 0x9F else 0xBF⟩)
  else if b < 0xF5 then
    ([], some ⟨3, b - 0xF0, if b = 0xF0 then 0x90 else 0x80, if b = 0xF4 then 0x8F else 0xBF⟩)
  else ([replacement], none)

/-- A byte inside a sequence. -/
def next (p : Begun) (b : Nat) : List Char × Option Begun :=
  if p.lo ≤ b ∧ b ≤ p.hi then
    if p.left ≤ 1 then ([Char.ofNat (p.bits * 64 + (b - 0x80))], none)
    else ([], some ⟨p.left - 1, p.bits * 64 + (b - 0x80), 0x80, 0xBF⟩)
  else (replacement :: (lead b).1, (lead b).2)

def step (s : Option Begun) (b : UInt8) : List Char × Option Begun :=
  match s with
  | none => lead b.toNat
  | some p => next p b.toNat

def decodeFrom : Option Begun → List UInt8 → List Char
  | none, [] => []
  | some _, [] => [replacement]
  | s, b :: bs => (step s b).1 ++ decodeFrom (step s b).2 bs

def decode (bs : List UInt8) : List Char := decodeFrom none bs

def encode (cs : List Char) : List UInt8 := cs.flatMap String.utf8EncodeChar

/-- The bytes encode some text. -/
def Valid (bs : List UInt8) : Prop := ∃ cs, bs = encode cs

/-! ## Bytes of a sequence -/

theorem decodeFrom_lead {b : Nat} (hb : b < 256) (bs : List UInt8) :
    decodeFrom none (UInt8.ofNat b :: bs) = (lead b).1 ++ decodeFrom (lead b).2 bs := by
  rw [decodeFrom, step, UInt8.toNat_ofNat_of_lt' hb]

/-- The first of two bytes. -/
theorem lead_two {x : Nat} (hlo : 2 ≤ x) (hhi : x < 32) :
    lead (x + 192) = ([], some ⟨1, x, 0x80, 0xBF⟩) := by
  rw [lead, if_neg (by omega), if_neg (by omega), if_pos (by omega), Nat.add_sub_cancel]

/-- The first of three bytes; the second one is neither overlong nor a surrogate. -/
theorem lead_three {x y : Nat} (hx : x < 16) (hy : y < 64) (hshort : x = 0 → 32 ≤ y)
    (hsurr : x = 13 → y < 32) :
    ∃ lo hi, lead (x + 224) = ([], some ⟨2, x, lo, hi⟩) ∧ lo ≤ y + 128 ∧ y + 128 ≤ hi := by
  rw [lead, if_neg (by omega), if_neg (by omega), if_neg (by omega), if_pos (by omega),
    Nat.add_sub_cancel]
  refine ⟨_, _, rfl, ?_, ?_⟩ <;> split <;> omega

/-- The first of four bytes; the second one is neither overlong nor too large. -/
theorem lead_four {x y : Nat} (hx : x < 5) (hy : y < 64) (hshort : x = 0 → 16 ≤ y)
    (hlarge : x = 4 → y < 16) :
    ∃ lo hi, lead (x + 240) = ([], some ⟨3, x, lo, hi⟩) ∧ lo ≤ y + 128 ∧ y + 128 ≤ hi := by
  rw [lead, if_neg (by omega), if_neg (by omega), if_neg (by omega), if_neg (by omega),
    if_pos (by omega), Nat.add_sub_cancel]
  refine ⟨_, _, rfl, ?_, ?_⟩ <;> split <;> omega

section Tail

variable {bits lo hi b : Nat} (hlo : lo ≤ b + 128) (hhi : b + 128 ≤ hi) (hb : b < 64)
  (bs : List UInt8)
include hlo hhi hb

/-- A byte that continues a sequence without ending it. -/
theorem decodeFrom_more (left : Nat) :
    decodeFrom (some ⟨left + 2, bits, lo, hi⟩) (UInt8.ofNat (b + 128) :: bs) =
      decodeFrom (some ⟨left + 1, bits * 64 + b, 0x80, 0xBF⟩) bs := by
  rw [decodeFrom, step, UInt8.toNat_ofNat_of_lt' (show b + 128 < 256 by omega)]
  simp only [next]
  rw [if_pos ⟨hlo, hhi⟩, if_neg (by omega), Nat.add_sub_cancel]
  rfl

/-- The byte that ends a sequence. -/
theorem decodeFrom_last :
    decodeFrom (some ⟨1, bits, lo, hi⟩) (UInt8.ofNat (b + 128) :: bs) =
      Char.ofNat (bits * 64 + b) :: decodeFrom none bs := by
  rw [decodeFrom, step, UInt8.toNat_ofNat_of_lt' (show b + 128 < 256 by omega)]
  simp only [next]
  rw [if_pos ⟨hlo, hhi⟩, if_pos (Nat.le_refl 1), Nat.add_sub_cancel]
  rfl

end Tail

/-! ## Round trips -/

/-- The sequence of a character, by the number of its bytes. -/
theorem decodeFrom_encodeChar (c : Char) (bs : List UInt8) :
    decodeFrom none (String.utf8EncodeChar c ++ bs) = c :: decodeFrom none bs := by
  have hc : Char.ofNat c.val.toNat = c := Char.ofNat_toNat c
  have hvalid : c.val.toNat < 0xD800 ∨ 0xDFFF < c.val.toNat ∧ c.val.toNat < 0x110000 := c.valid
  unfold String.utf8EncodeChar
  generalize c.val.toNat = v at hc hvalid
  simp only
  split
  · next h =>
    rw [List.singleton_append, decodeFrom_lead (by omega), lead, if_pos (by omega), hc]
    rfl
  split
  · next h1 h2 =>
    have hbits : v / 64 % 32 * 64 + v % 64 = v := by omega
    show decodeFrom none (UInt8.ofNat (v / 64 % 32 + 192) :: UInt8.ofNat (v % 64 + 128) :: bs) = _
    rw [decodeFrom_lead (by omega), lead_two (by omega) (by omega)]
    show decodeFrom (some _) _ = _
    rw [decodeFrom_last (by omega) (by omega) (by omega), hbits, hc]
  split
  · next h1 h2 h3 =>
    have hbits : (v / 4096 % 16 * 64 + v / 64 % 64) * 64 + v % 64 = v := by omega
    obtain ⟨lo, hi, hlead, hlo, hhi⟩ :=
      lead_three (x := v / 4096 % 16) (y := v / 64 % 64) (by omega) (by omega) (by omega) (by omega)
    show decodeFrom none (UInt8.ofNat (v / 4096 % 16 + 224) :: UInt8.ofNat (v / 64 % 64 + 128) ::
      UInt8.ofNat (v % 64 + 128) :: bs) = _
    rw [decodeFrom_lead (by omega), hlead]
    show decodeFrom (some _) _ = _
    rw [decodeFrom_more hlo hhi (by omega) _ 0,
      decodeFrom_last (by omega) (by omega) (by omega), hbits, hc]
  · next h1 h2 h3 =>
    have hbits : ((v / 262144 % 8 * 64 + v / 4096 % 64) * 64 + v / 64 % 64) * 64 + v % 64 = v := by
      omega
    obtain ⟨lo, hi, hlead, hlo, hhi⟩ :=
      lead_four (x := v / 262144 % 8) (y := v / 4096 % 64) (by omega) (by omega) (by omega)
        (by omega)
    show decodeFrom none (UInt8.ofNat (v / 262144 % 8 + 240) ::
      UInt8.ofNat (v / 4096 % 64 + 128) :: UInt8.ofNat (v / 64 % 64 + 128) ::
      UInt8.ofNat (v % 64 + 128) :: bs) = _
    rw [decodeFrom_lead (by omega), hlead]
    show decodeFrom (some _) _ = _
    rw [decodeFrom_more hlo hhi (by omega) _ 1,
      decodeFrom_more (by omega) (by omega) (by omega) _ 0,
      decodeFrom_last (by omega) (by omega) (by omega), hbits, hc]

theorem decode_encode (cs : List Char) : decode (encode cs) = cs := by
  induction cs with
  | nil => rfl
  | cons c cs ih =>
    show decodeFrom none (String.utf8EncodeChar c ++ encode cs) = c :: cs
    rw [decodeFrom_encodeChar]
    exact congrArg (c :: ·) ih

/-- The first byte of a sequence. -/
theorem decodeFrom_begun {b : Nat} {p : Begun} (hb : b < 256) (hlead : lead b = ([], some p))
    (bs : List UInt8) : decodeFrom none (UInt8.ofNat b :: bs) = decodeFrom (some p) bs := by
  rw [decodeFrom_lead hb, hlead]
  rfl

/-- A sequence that is broken off by the end of the text. -/
theorem decode_take_encodeChar (c : Char) {n : Nat} (hn : n < (String.utf8EncodeChar c).length) :
    decode ((String.utf8EncodeChar c).take n) = if n = 0 then [] else [replacement] := by
  have hvalid : c.val.toNat < 0xD800 ∨ 0xDFFF < c.val.toNat ∧ c.val.toNat < 0x110000 := c.valid
  unfold String.utf8EncodeChar at hn ⊢
  generalize c.val.toNat = v at hvalid hn
  simp only at hn ⊢
  rcases Nat.eq_zero_or_pos n with rfl | hpos
  · rw [if_pos rfl, List.take_zero]
    rfl
  rw [if_neg (Nat.ne_of_gt hpos)]
  split at hn
  · next h1 => simp at hn; omega
  split at hn
  · next h1 h2 =>
    rw [if_neg h1, if_pos h2]
    obtain rfl : n = 1 := by simp at hn; omega
    exact decodeFrom_begun (by omega) (lead_two (x := v / 64 % 32) (by omega) (by omega)) []
  split at hn
  · next h1 h2 h3 =>
    rw [if_neg h1, if_neg h2, if_pos h3]
    obtain ⟨lo, hi, hlead, hlo, hhi⟩ :=
      lead_three (x := v / 4096 % 16) (y := v / 64 % 64) (by omega) (by omega) (by omega) (by omega)
    have hall := decodeFrom_begun (by omega) hlead
    obtain rfl | rfl : n = 1 ∨ n = 2 := by simp at hn; omega
    · exact hall []
    · exact (hall _).trans (decodeFrom_more hlo hhi (by omega) [] 0)
  · next h1 h2 h3 =>
    rw [if_neg h1, if_neg h2, if_neg h3]
    obtain ⟨lo, hi, hlead, hlo, hhi⟩ :=
      lead_four (x := v / 262144 % 8) (y := v / 4096 % 64) (by omega) (by omega) (by omega)
        (by omega)
    have hall := decodeFrom_begun (by omega) hlead
    obtain rfl | rfl | rfl : n = 1 ∨ n = 2 ∨ n = 3 := by simp at hn; omega
    · exact hall []
    · exact (hall _).trans (decodeFrom_more hlo hhi (by omega) [] 1)
    · exact ((hall _).trans (decodeFrom_more hlo hhi (by omega) _ 1)).trans
        (decodeFrom_more (b := v / 64 % 64) (by omega) (by omega) (by omega) [] 0)

/-- The number of whole characters in the first `n` bytes. -/
def wholeChars (n : Nat) : List Char → Nat
  | [] => 0
  | c :: cs =>
    if (String.utf8EncodeChar c).length ≤ n then
      wholeChars (n - (String.utf8EncodeChar c).length) cs + 1
    else 0

theorem decode_take_encode (cs : List Char) (n : Nat) :
    decode ((encode cs).take n) =
      cs.take (wholeChars n cs) ++
        if (encode (cs.take (wholeChars n cs))).length = min n (encode cs).length then []
        else [replacement] := by
  induction cs generalizing n with
  | nil => simp [encode, decode, decodeFrom]
  | cons c cs ih =>
    have hcons : encode (c :: cs) = String.utf8EncodeChar c ++ encode cs := List.flatMap_cons
    rw [wholeChars, hcons]
    split
    · next hle =>
      have hrest := ih (n - (String.utf8EncodeChar c).length)
      have hfirst : encode (c :: cs.take (wholeChars (n - (String.utf8EncodeChar c).length) cs)) =
          String.utf8EncodeChar c ++
            encode (cs.take (wholeChars (n - (String.utf8EncodeChar c).length) cs)) :=
        List.flatMap_cons
      rw [List.take_append, List.take_of_length_le hle, decode, decodeFrom_encodeChar,
        List.take_succ_cons, hfirst, List.length_append, List.length_append, List.cons_append]
      refine congrArg (c :: ·) (hrest.trans (congrArg _ (if_congr ?_ rfl rfl)))
      omega
    · next hgt =>
      have hlt := Nat.lt_of_not_le hgt
      rw [List.take_append_of_le_length (Nat.le_of_lt hlt), decode_take_encodeChar c hlt,
        List.take_zero, List.nil_append, List.length_append]
      refine if_congr ?_ rfl rfl
      show n = 0 ↔ 0 = min n _
      omega

/-- The whole characters are as many as fit. -/
theorem wholeChars_spec (cs : List Char) (n : Nat) :
    (encode (cs.take (wholeChars n cs))).length ≤ n ∧
    (wholeChars n cs < cs.length → n < (encode (cs.take (wholeChars n cs + 1))).length) ∧
    ((encode cs).length ≤ n → wholeChars n cs = cs.length) := by
  induction cs generalizing n with
  | nil => exact ⟨Nat.zero_le n, fun h => absurd h (Nat.not_lt_zero _), fun _ => rfl⟩
  | cons c cs ih =>
    have hcons : ∀ ds, (encode (c :: ds)).length = (String.utf8EncodeChar c).length +
        (encode ds).length :=
      fun ds => by rw [encode, List.flatMap_cons, List.length_append]; rfl
    rw [wholeChars]
    split
    · next hle =>
      obtain ⟨hfit, hmax, hwhole⟩ := ih (n - (String.utf8EncodeChar c).length)
      rw [List.take_succ_cons, List.take_succ_cons, hcons, hcons, hcons, List.length_cons]
      exact ⟨by omega, fun h => by have := hmax (by omega); omega, fun h => by
        rw [hwhole (by omega)]⟩
    · next hgt =>
      rw [List.take_succ_cons, hcons, hcons]
      refine ⟨Nat.zero_le n, fun _ => ?_, fun h => ?_⟩ <;> omega

theorem encode_decode {bs : List UInt8} (h : Valid bs) : encode (decode bs) = bs := by
  obtain ⟨cs, rfl⟩ := h
  rw [decode_encode]

end Utf8
