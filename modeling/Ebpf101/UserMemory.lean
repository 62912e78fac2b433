import Mathlib.Data.List.TakeWhile
import Ebpf101.Basic

/-!
# Reading user memory

The helpers by which a probe copies from the memory of the traced process.
-/

namespace Ebpf101

/-! ## Strings -/

/-- A string in user memory, without its terminating NUL. -/
structure CString where
  bytes : List UInt8
  nul_free : 0 ∉ bytes
deriving DecidableEq

/-- A buffer read as a C string. -/
def cstr (buf : List UInt8) : List UInt8 := buf.takeWhile (· ≠ 0)

theorem zero_not_mem_cstr (buf : List UInt8) : 0 ∉ cstr buf := by
  intro h
  simpa using List.mem_takeWhile_imp h

/-- The string that starts a buffer. -/
def CString.ofBytes (buf : List UInt8) : CString where
  bytes := cstr buf
  nul_free := zero_not_mem_cstr buf

/-- What a buffer of `size` bytes has room for of a string, beside the NUL;
nothing of one that cannot be read. -/
def cut (size : Nat) : Option CString → List UInt8
  | none => []
  | some s => s.bytes.take (size - 1)

/-- `bpf_probe_read_user_str` into the `size` bytes of `buf`: the string and a
NUL, or all zeros when it cannot be read. -/
def probeReadUserStr (size : Nat) (buf : List UInt8) : Option CString → List UInt8
  | none => List.replicate size 0
  | some s =>
    let got := s.bytes.take (size - 1) ++ [0]
    got ++ buf.drop got.length

theorem cstr_append_zero {s : List UInt8} (h : 0 ∉ s) (rest : List UInt8) :
    cstr (s ++ 0 :: rest) = s := by
  unfold cstr
  have hne : ∀ b ∈ s, decide (b ≠ 0) = true := fun b hb =>
    decide_eq_true fun he => h (he ▸ hb)
  rw [List.takeWhile_append_of_pos hne]
  simp

theorem length_cut_le (size : Nat) (a : Option CString) : (cut size a).length ≤ size - 1 := by
  cases a with
  | none => exact Nat.zero_le _
  | some s => exact List.length_take_le _ _

theorem zero_not_mem_cut (size : Nat) (a : Option CString) : 0 ∉ cut size a := by
  cases a with
  | none => exact List.not_mem_nil
  | some s => exact fun h => s.nul_free (List.mem_of_mem_take h)

/-- The string that a read leaves in the buffer. -/
theorem cstr_probeReadUserStr (size : Nat) (buf : List UInt8) (a : Option CString) :
    cstr (probeReadUserStr size buf a) = cut size a := by
  have hz := zero_not_mem_cut size a
  cases a with
  | none => cases size <;> rfl
  | some s =>
    simp only [probeReadUserStr, List.append_assoc, List.singleton_append]
    exact cstr_append_zero hz _

/-! ## Bytes -/

/-- The bytes of a process, by address; `none` where nothing is mapped. -/
abbrev UserMem := Nat → Option UInt8

/-- The `n` bytes at `addr`, all of which are mapped. -/
def Mapped (mem : UserMem) (n addr : Nat) : Prop := ∀ i < n, (mem (addr + i)).isSome

instance (mem : UserMem) (n addr : Nat) : Decidable (Mapped mem n addr) :=
  inferInstanceAs (Decidable (∀ i < n, _))

/-- The `n` bytes at `addr`, zeros where nothing is mapped. -/
def bytesAt (mem : UserMem) (n addr : Nat) : List UInt8 :=
  (List.range n).map fun i => (mem (addr + i)).getD 0

/-- `bpf_probe_read_user` of `n` bytes into a zeroed buffer: all of them, or none
if one is not mapped. -/
def probeReadUser (mem : UserMem) (n addr : Nat) : List UInt8 :=
  if Mapped mem n addr then bytesAt mem n addr else List.replicate n 0

@[simp] theorem length_probeReadUser (mem : UserMem) (n addr : Nat) :
    (probeReadUser mem n addr).length = n := by
  unfold probeReadUser bytesAt
  split <;> simp

end Ebpf101
