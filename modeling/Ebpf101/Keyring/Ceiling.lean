import Mathlib.Data.List.Basic
import Ebpf101.Lib.Bisect

/-!
# How large a key may be

Chapter 25, `25-fileless-lab/tests/keyring_probe.sh`. `kr_bisect` measures the largest payload
that `add_key` takes: it doubles the size until a key is refused and then bisects. The
script reads the number from the line that is printed and says whether a payload fits.
Quotas and other users of the keyring may have the kernel answer differently at each try.

Results:
1. `ladder_observed`: whatever the kernel answers, the program makes at most 72 tries, and
   when it prints a ceiling, that size was accepted and the next one refused, with the
   error that is printed.
2. `verdict_right_iff`: for a kernel that takes payloads up to a fixed size, the verdict of
   the script is right if and only if a key of one byte is accepted, and the ceiling is
   below 2 TiB or the payload fits.
   `refused_fits`: where `add_key` is refused altogether, everything is said to fit.
-/

namespace Ebpf101.Keyring

open Bisect

/-! ## kr_bisect -/

variable {σ : Type}

/-- The kernel, and what has been tried so far. -/
structure Tried (σ : Type) where
  kernel : σ
  tries : List (Nat × Int)

/-- `try_`: the answer is 0 or a negated error number. -/
def try_ (K : σ → Nat → σ × Int) : Probe (Tried σ) Int := fun t n =>
  (⟨(K t.kernel n).1, t.tries ++ [(n, (K t.kernel n).2)]⟩,
    if (K t.kernel n).2 = 0 then none else some (K t.kernel n).2)

/-- What `main` prints. -/
inductive Outcome where
  | evenOneFails (err : Int)
  | noCeiling (lo : Nat)
  | ceiling (lo hi : Nat) (err : Int)
deriving DecidableEq, Repr

/-- The sanity cap, 1 TiB. -/
def CAP : Nat := 1099511627776

/-- `main`, after the first try. -/
def search (K : σ → Nat → σ × Int) (t : Tried σ) : Tried σ × Outcome :=
  match grow (try_ K) CAP t 1 4096 (by decide) with
  | (t, .capped lo) => (t, .noCeiling lo)
  | (t, .failed lo hi err) =>
    match bisect (try_ K) t lo hi err with
    | (t, lo, hi, err) => (t, .ceiling lo hi err)

/-- `main`. -/
def krBisect (K : σ → Nat → σ × Int) (s : σ) : Tried σ × Outcome :=
  match try_ K ⟨s, []⟩ 1 with
  | (t, some err) => (t, .evenOneFails err)
  | (t, none) => search K t

def text (s : String) : List Char := s.toList

/-- `%zu`. -/
def decimal (n : Nat) : List Char := Nat.toDigits 10 n

/-- The line that is printed for a key type. -/
def Outcome.line (strerror : Int → List Char) (type : List Char) : Outcome → List Char
  | .evenOneFails err => text "  " ++ type ++ text ": even 1 byte fails: " ++ strerror err
  | .noCeiling lo =>
    text "  " ++ type ++ text ": max payload >= " ++ decimal lo ++
      text " bytes (no ceiling found below 1 TiB)"
  | .ceiling lo hi err =>
    text "  " ++ type ++ text ": " ++
      (text "max payload = " ++ (decimal lo ++ (text " bytes (at " ++
      decimal hi ++ text ": " ++ strerror err ++ text ")")))

/-! ## The script -/

/-- What follows the last occurrence of `pat`. -/
def lastAfter (pat : List Char) : List Char → Option (List Char)
  | [] => none
  | c :: cs =>
    match lastAfter pat cs with
    | some rest => some rest
    | none => if pat <+: c :: cs then some ((c :: cs).drop pat.length) else none

/-- `sed -n 's/.*max payload = \([0-9]*\).*/\1/p'` on a line: `.*` takes as much as it can. -/
def maxPayload (line : List Char) : List Char :=
  ((lastAfter (text "max payload = ") line).map (·.takeWhile Char.isDigit)).getD []

inductive Verdict where
  | exceeds
  | fits
deriving DecidableEq, Repr

/-- The verdict on a payload of `hsz` bytes. -/
def verdictQ2 (hsz : Nat) (maxu : List Char) : Verdict :=
  if maxu ≠ [] ∧ Nat.ofDigitChars 10 maxu 0 < hsz then .exceeds else .fits

/-- The whole of Q2. -/
def q2 (strerror : Int → List Char) (K : σ → Nat → σ × Int) (s : σ) (hsz : Nat) : Verdict :=
  verdictQ2 hsz (maxPayload ((krBisect K s).2.line strerror (text "user")))

/-! ## Statements -/

/-- The outcome agrees with what was tried. -/
def Observed (t : Tried σ) : Outcome → Prop
  | .evenOneFails err => (1, err) ∈ t.tries ∧ err ≠ 0
  | .noCeiling lo => (lo, 0) ∈ t.tries
  | .ceiling lo hi err => hi = lo + 1 ∧ (lo, 0) ∈ t.tries ∧ (hi, err) ∈ t.tries ∧ err ≠ 0

/-- The kernel takes payloads of up to `c` bytes. -/
def TakesUpTo (K : σ → Nat → σ × Int) (c : Nat) : Prop := ∀ s n, (K s n).2 = 0 ↔ n ≤ c

namespace CeilingLemmas

/-! ## What tries tell -/

/-- They are on record. -/
theorem tells_record (K : σ → Nat → σ × Int) :
    Tells (try_ K) (fun t n => (n, 0) ∈ t.tries) (fun t n e => (n, e) ∈ t.tries ∧ e ≠ 0) where
  good t n h := by
    have hzero : (K t.kernel n).2 = 0 := by
      by_contra hne
      simp [try_, hne] at h
    simp [try_, hzero]
  bad t n e h := by
    by_cases hzero : (K t.kernel n).2 = 0
    · simp [try_, hzero] at h
    · simp only [try_, if_neg hzero, Option.some.injEq] at h
      subst h
      exact ⟨List.mem_append_right _ List.mem_cons_self, hzero⟩
  good_stays t n m h := List.mem_append_left _ h
  bad_stays t n e m h := ⟨List.mem_append_left _ h.1, h.2⟩

/-- They tell on which side of the ceiling the size is. -/
theorem tells_ceiling {K : σ → Nat → σ × Int} {c : Nat} (hK : TakesUpTo K c) :
    Tells (try_ K) (fun _ n => n ≤ c) (fun _ n e => c < n ∧ e ≠ 0) where
  good t n h := by
    refine (hK t.kernel n).mp ?_
    by_contra hne
    simp [try_, hne] at h
  bad t n e h := by
    by_cases hzero : (K t.kernel n).2 = 0
    · simp [try_, hzero] at h
    · simp only [try_, if_neg hzero, Option.some.injEq] at h
      subst h
      exact ⟨Nat.lt_of_not_le fun hle => hzero ((hK t.kernel n).mpr hle), hzero⟩
  good_stays _ _ _ h := h
  bad_stays _ _ _ _ h := h

/-! ## The loops -/

/-- What an outcome reports, given what tries tell. -/
def Reports (Good : Tried σ → Nat → Prop) (Bad : Tried σ → Nat → Int → Prop) (t : Tried σ) :
    Outcome → Prop
  | .evenOneFails err => Bad t 1 err
  | .noCeiling lo => lo = 2 * CAP ∧ Good t lo
  | .ceiling lo hi err => hi = lo + 1 ∧ hi ≤ 2 * CAP ∧ Good t lo ∧ Bad t hi err

theorem reports_search {K : σ → Nat → σ × Int} {Good : Tried σ → Nat → Prop}
    {Bad : Tried σ → Nat → Int → Prop} (h : Tells (try_ K) Good Bad) {t : Tried σ}
    (hone : Good t 1) :
    Reports Good Bad (search K t).1 (search K t).2 := by
  have hgrown := grow_tells h CAP t 1 4096 (by decide) (by decide) (by decide) hone
  unfold search
  split
  next t' lo hg =>
    rw [hg] at hgrown
    obtain ⟨hover, hle, hgood⟩ := hgrown
    obtain ⟨k, rfl⟩ := grow_capped t 1 4096 (by decide) (congrArg Prod.snd hg)
    have hk : k = 29 := by
      have hlow : 28 < k := (Nat.pow_lt_pow_iff_right (by decide : 1 < 2)).mp
        (Nat.lt_of_mul_lt_mul_left (show 4096 * 2 ^ 28 < 4096 * 2 ^ k from hover))
      have hhigh : k ≤ 29 := (Nat.pow_le_pow_iff_right (by decide : 1 < 2)).mp
        (Nat.le_of_mul_le_mul_left (show 4096 * 2 ^ k ≤ 4096 * 2 ^ 29 from hle) (by decide))
      omega
    subst hk
    exact ⟨rfl, hgood⟩
  next t' lo hi err hg =>
    rw [hg] at hgrown
    obtain ⟨hlt, hle, hgood, hbad⟩ := hgrown
    obtain ⟨hnext, hlo, hhi⟩ := bisect_tells h t' lo hi err hlt hgood hbad
    have hwithin := (bisect_within (try_ K) t' lo hi err).2
    exact ⟨hnext, Nat.le_trans hwithin hle, hlo, hhi⟩

theorem reports_krBisect {K : σ → Nat → σ × Int} {Good : Tried σ → Nat → Prop}
    {Bad : Tried σ → Nat → Int → Prop} (h : Tells (try_ K) Good Bad) (s : σ) :
    Reports Good Bad (krBisect K s).1 (krBisect K s).2 := by
  unfold krBisect
  split
  next t err ht =>
    have hbad := h.bad ⟨s, []⟩ 1 err (by rw [ht])
    rwa [ht] at hbad
  next t ht =>
    have hgood := h.good ⟨s, []⟩ 1 (by rw [ht])
    rw [ht] at hgood
    exact reports_search h hgood

/-- The number of tries. -/
def made (t : Tried σ) : Nat := t.tries.length

theorem made_try (K : σ → Nat → σ × Int) (t : Tried σ) (n : Nat) :
    made (try_ K t n).1 ≤ made t + 1 := by
  simp [made, try_]

theorem made_search (K : σ → Nat → σ × Int) (t : Tried σ) : made (search K t).1 ≤ made t + 71 := by
  have hgrow := grow_tries made (made_try K) CAP 29 t 1 4096 (by decide) (by decide)
  have hknown := grow_tells (tells_nothing (try_ K)) CAP t 1 4096 (by decide)
    (by decide) (by decide)
    trivial
  unfold search
  split
  next t' lo hg =>
    rw [hg] at hgrow
    exact Nat.le_trans hgrow (by omega)
  next t' lo hi err hg =>
    rw [hg] at hgrow hknown
    have hwidth : hi - lo ≤ 2 ^ 41 := Nat.le_trans (Nat.sub_le _ _) hknown.2.1
    have hbisect := bisect_tries made (made_try K) 41 t' lo hi err hwidth
    exact Nat.le_trans hbisect (by simp only at hgrow; omega)

theorem made_krBisect (K : σ → Nat → σ × Int) (s : σ) : made (krBisect K s).1 ≤ 72 := by
  have hfirst := made_try K ⟨s, []⟩ 1
  unfold krBisect
  split
  next t err ht =>
    rw [ht] at hfirst
    exact Nat.le_trans hfirst (Nat.le_add_left 1 71)
  next t ht =>
    rw [ht] at hfirst
    exact Nat.le_trans (made_search K t) (Nat.add_le_add_right hfirst 71)

theorem one_accepted {K : σ → Nat → σ × Int} {s : σ}
    (h : ∀ err, (krBisect K s).2 ≠ .evenOneFails err) : (K s 1).2 = 0 := by
  by_contra hne
  exact h (K s 1).2 (by simp [krBisect, try_, hne])

/-! ## The line -/

theorem lastAfter_of_notMem {pat s : List Char} {x : Char} (hx : x ∈ pat) (hs : x ∉ s) :
    lastAfter pat s = none := by
  induction s with
  | nil => rfl
  | cons c cs ih =>
    rw [lastAfter, ih fun h => hs (List.mem_cons_of_mem c h), if_neg fun hp => hs (hp.subset hx)]

/-- Text without the first letter is skipped. -/
theorem lastAfter_append (p : Char) (ps : List Char) {pre : List Char} (h : p ∉ pre)
    (s : List Char) :
    lastAfter (p :: ps) (pre ++ s) = lastAfter (p :: ps) s := by
  induction pre with
  | nil => rfl
  | cons c cs ih =>
    have hc : ¬ p :: ps <+: c :: (cs ++ s) := fun hp =>
      h (List.mem_cons.mpr (.inl (List.cons_prefix_cons.mp hp).1))
    rw [List.cons_append, lastAfter, ih fun hm => h (List.mem_cons_of_mem c hm), if_neg hc]
    cases lastAfter (p :: ps) s <;> rfl

theorem lastAfter_here {p : Char} {ps : List Char} (hps : p ∉ ps) {post : List Char}
    (hpost : lastAfter (p :: ps) post = none) :
    lastAfter (p :: ps) (p :: ps ++ post) = some post := by
  have hprefix : p :: ps <+: p :: (ps ++ post) := List.prefix_append (p :: ps) post
  rw [List.cons_append, lastAfter, lastAfter_append p ps hps, hpost, if_pos hprefix]
  simp

theorem isDigit_decimal {n : Nat} {c : Char} (h : c ∈ decimal n) : c.isDigit = true :=
  Nat.isDigit_of_mem_toDigits (by decide) (by decide) h

theorem notMem_decimal {c : Char} (h : c.isDigit = false) (n : Nat) : c ∉ decimal n := fun hc =>
  Bool.false_ne_true (h.symm.trans (isDigit_decimal hc))

variable {strerror : Int → List Char}

/-- What follows the type in a line has the text once, or not at all. -/
theorem lastAfter_line (s : List Char) :
    lastAfter (text "max payload = ") (text "  " ++ text "user" ++ text ": " ++ s) =
      lastAfter (text "max payload = ") s :=
  lastAfter_append 'm' (text "ax payload = ") (by decide) s

theorem maxPayload_ceiling (hmsg : ∀ e, '=' ∉ strerror e) (lo hi : Nat) (err : Int) :
    maxPayload ((Outcome.ceiling lo hi err).line strerror (text "user")) = decimal lo := by
  have hpost : '=' ∉ decimal lo ++ (text " bytes (at " ++ decimal hi ++ text ": " ++ strerror err ++
      text ")") := by
    simp only [List.mem_append, not_or]
    exact ⟨notMem_decimal rfl lo,
      ⟨⟨⟨by decide, notMem_decimal rfl hi⟩, by decide⟩, hmsg err⟩, by decide⟩
  have hnone : lastAfter (text "max payload = ") _ = none := lastAfter_of_notMem (by decide) hpost
  have hlast := lastAfter_here (by decide) hnone
  rw [maxPayload, Outcome.line, lastAfter_line]
  refine (congrArg (fun o => (Option.map (·.takeWhile Char.isDigit) o).getD []) hlast).trans ?_
  show (decimal lo ++ ' ' :: _).takeWhile Char.isDigit = decimal lo
  rw [List.takeWhile_append_of_pos fun c hc => isDigit_decimal hc]
  exact List.append_nil _

theorem maxPayload_noCeiling (lo : Nat) :
    maxPayload ((Outcome.noCeiling lo).line strerror (text "user")) = [] := by
  have hrest : 'm' ∉ text "ax payload >= " ++ decimal lo ++
      text " bytes (no ceiling found below 1 TiB)" := by
    simp only [List.mem_append, not_or]
    exact ⟨⟨by decide, notMem_decimal rfl lo⟩, by decide⟩
  have hnone : lastAfter (text "max payload = ") ('m' :: (text "ax payload >= " ++ decimal lo ++
      text " bytes (no ceiling found below 1 TiB)")) = none := by
    rw [lastAfter, lastAfter_of_notMem (by decide) hrest, if_neg]
    rintro ⟨post, hp⟩
    have hchar : some '=' = some '>' := congrArg (fun l => l[12]?) hp
    cases hchar
  have hline : (Outcome.noCeiling lo).line strerror (text "user") =
      text "  " ++ text "user" ++ text ": " ++ ('m' :: (text "ax payload >= " ++ decimal lo ++
        text " bytes (no ceiling found below 1 TiB)")) := by
    simp only [Outcome.line, List.append_assoc]
    rfl
  rw [maxPayload, hline, lastAfter_line, hnone]
  rfl

theorem maxPayload_evenOneFails (hmsg : ∀ e, '=' ∉ strerror e) (err : Int) :
    maxPayload ((Outcome.evenOneFails err).line strerror (text "user")) = [] := by
  have hline : '=' ∉ (Outcome.evenOneFails err).line strerror (text "user") := by
    simp only [Outcome.line, List.mem_append, not_or]
    exact ⟨⟨⟨by decide, by decide⟩, by decide⟩, hmsg err⟩
  rw [maxPayload, lastAfter_of_notMem (by decide) hline]
  rfl

end CeilingLemmas

open CeilingLemmas

/-! ## 1. What was tried -/

/-- For every kernel, in every state and with any memory of the tries before. -/
theorem ladder_observed (K : σ → Nat → σ × Int) (s : σ) :
    Observed (krBisect K s).1 (krBisect K s).2 ∧ (krBisect K s).1.tries.length ≤ 72 := by
  refine ⟨?_, made_krBisect K s⟩
  have hreports := reports_krBisect (tells_record K) s
  cases hout : (krBisect K s).2 with
  | evenOneFails err =>
    rw [hout] at hreports
    exact hreports
  | noCeiling lo =>
    rw [hout] at hreports
    exact hreports.2
  | ceiling lo hi err =>
    rw [hout] at hreports
    obtain ⟨hnext, -, hlo, hhi⟩ := hreports
    exact ⟨hnext, hlo, hhi⟩

/-! ## 2. The verdict -/

/-- For a payload that was built and error texts without an equals sign. -/
theorem verdict_right_iff {strerror : Int → List Char} (hmsg : ∀ e, '=' ∉ strerror e)
    {K : σ → Nat → σ × Int} {c : Nat} (hK : TakesUpTo K c) (s : σ) {hsz : Nat} (hpos : 0 < hsz) :
    (q2 strerror K s hsz = .exceeds ↔ c < hsz) ↔ c ≠ 0 ∧ (c < 2 * CAP ∨ hsz ≤ c) := by
  have hreports := reports_krBisect (tells_ceiling hK) s
  have hone : (∀ err, (krBisect K s).2 ≠ .evenOneFails err) → 1 ≤ c := fun h =>
    (hK s 1).mp (one_accepted h)
  unfold q2
  cases hout : (krBisect K s).2 with
  | evenOneFails err =>
    rw [hout] at hreports
    have hzero : c < 1 := hreports.1
    rw [maxPayload_evenOneFails hmsg, verdictQ2, if_neg fun h => h.1 rfl]
    simp only [reduceCtorEq, false_iff]
    omega
  | noCeiling lo =>
    rw [hout] at hreports hone
    obtain ⟨rfl, hle⟩ := hreports
    have hc := hone (by simp)
    rw [maxPayload_noCeiling, verdictQ2, if_neg fun h => h.1 rfl]
    simp only [reduceCtorEq, false_iff]
    omega
  | ceiling lo hi err =>
    rw [hout] at hreports hone
    obtain ⟨rfl, hcap, hlo, hhi, -⟩ := hreports
    have hc := hone (by simp)
    have heq : lo = c := Nat.le_antisymm hlo (Nat.le_of_lt_succ hhi)
    subst heq
    have hverdict : verdictQ2 hsz (decimal lo) = if lo < hsz then .exceeds else .fits := by
      simp only [verdictQ2, decimal, Nat.ofDigitChars_toDigits, ne_eq, Nat.toDigits_ne_nil,
        not_false_eq_true, true_and, Nat.reduceLT, Nat.reduceLeDiff]
    have hright : verdictQ2 hsz (decimal lo) = .exceeds ↔ lo < hsz := by
      rw [hverdict]
      split <;> simp_all
    rw [maxPayload_ceiling hmsg]
    exact iff_of_true hright ⟨Nat.ne_of_gt hc, .inl hcap⟩

/-- The errors that occur below. -/
def exStrerror (err : Int) : List Char :=
  if err = -22 then text "Invalid argument" else text "Operation not permitted"

/-- A kernel that takes keys of the type "user", of up to 32767 bytes. -/
def exKernel (_ : Unit) (n : Nat) : Unit × Int := ((), if n ≤ 32767 then 0 else -22)

theorem exKernel_verdict : q2 exStrerror exKernel () 704512 = .exceeds := by
  have hmsg : ∀ e, '=' ∉ exStrerror e := by
    intro e
    unfold exStrerror
    split <;> decide
  have hK : TakesUpTo exKernel 32767 := by
    intro s n
    unfold exKernel
    split <;> simp_all
  exact ((verdict_right_iff hmsg hK () (by decide)).mpr (by decide)).mpr (by decide)

/-- Where a filter refuses `add_key`, a payload of any size is said to fit. -/
theorem refused_fits (hsz : Nat) :
    q2 exStrerror (fun (_ : Unit) _ => ((), -1)) () hsz = .fits := by
  rfl

end Ebpf101.Keyring
