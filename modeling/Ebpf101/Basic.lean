import Mathlib.Algebra.Group.Nat.Defs
import Mathlib.Data.List.Basic
import Mathlib.Tactic.Common

/-!
# What the tools share

Constants of the shared headers, the task that is current when a probe fires,
its `comm` buffer, the 64-bit arithmetic of the counters, and byte order.
-/

namespace Ebpf101

/-- A process id, as user space means it: the tgid. -/
abbrev Pid := Nat

/-- The address of a `struct sock`, used as a map key. -/
abbrev SkAddr := Nat

def TASK_COMM_LEN : Nat := 16

def AF_INET : Nat := 2

def AF_INET6 : Nat := 10

def ETH_P_IP : UInt16 := 0x0800

def IPPROTO_TCP : UInt8 := 6

def IPPROTO_UDP : UInt8 := 17

/-- A `comm` buffer as `bpf_get_current_comm` fills it: `TASK_COMM_LEN` bytes,
the last of them NUL. -/
structure Comm where
  bytes : List UInt8
  length_eq : bytes.length = TASK_COMM_LEN
  terminated : bytes[TASK_COMM_LEN - 1]? = some 0
deriving DecidableEq

/-- The name `s`, cut to 15 bytes and padded with NULs. -/
def Comm.ofBytes (s : List UInt8) : Comm where
  bytes := (s ++ List.replicate TASK_COMM_LEN 0).take (TASK_COMM_LEN - 1) ++ [0]
  length_eq := by simp [TASK_COMM_LEN]
  terminated := by simp [TASK_COMM_LEN]

/-- `memcpy` of a `comm` followed by a store of NUL into its last byte. -/
def Comm.terminate (c : Comm) : Comm where
  bytes := c.bytes.set (TASK_COMM_LEN - 1) 0
  length_eq := by simpa using c.length_eq
  terminated := by simp [c.length_eq, TASK_COMM_LEN]

/-- The store changes nothing: the byte was NUL already. -/
@[simp] theorem Comm.terminate_eq (c : Comm) : c.terminate = c := by
  obtain ⟨bytes, hlen, hterm⟩ := c
  obtain ⟨h, hget⟩ := List.getElem?_eq_some_iff.mp hterm
  simp only [terminate, Comm.mk.injEq]
  conv_rhs => rw [← List.set_getElem_self h, hget]

/-- The task that is current when a probe fires. -/
structure Task where
  pid : Pid
  comm : Comm
deriving DecidableEq

/-- `a + b` on 64-bit unsigned integers, as `__sync_fetch_and_add` computes it. -/
def u64Add (a b : Nat) : Nat := (a + b) % 2 ^ 64

theorem u64Add_eq {a b : Nat} (h : a + b < 2 ^ 64) : u64Add a b = a + b :=
  Nat.mod_eq_of_lt h

/-- `a - b` on 64-bit unsigned integers. -/
def u64Sub (a b : Nat) : Nat := (a + 2 ^ 64 - b) % 2 ^ 64

theorem u64Sub_eq {a b : Nat} (hle : b ≤ a) (ha : a < 2 ^ 64) : u64Sub a b = a - b := by
  unfold u64Sub
  omega

/-! ## Byte order -/

/-- A 16-bit load at byte `i` of a buffer, on a little-endian machine. -/
def load16 (bs : List UInt8) (i : Nat) : UInt16 :=
  (bs.getD i 0).toUInt16 ||| ((bs.getD (i + 1) 0).toUInt16 <<< 8)

/-- A 32-bit load. -/
def load32 (bs : List UInt8) (i : Nat) : UInt32 :=
  (load16 bs i).toUInt32 ||| ((load16 bs (i + 2)).toUInt32 <<< 16)

/-- `ntohs` on a little-endian machine: swap the two bytes. -/
def ntohs (x : UInt16) : UInt16 := (x <<< 8) ||| (x >>> 8)

theorem ntohs_ntohs (x : UInt16) : ntohs (ntohs x) = x := by
  apply UInt16.eq_of_toBitVec_eq
  simp only [ntohs, UInt16.toBitVec_or, UInt16.toBitVec_shiftLeft, UInt16.toBitVec_shiftRight]
  generalize x.toBitVec = b
  -- both bytes move by eight places and back
  show (b <<< 8 ||| b >>> 8) <<< 8 ||| (b <<< 8 ||| b >>> 8) >>> 8 = b
  grind

theorem ntohs_eq_iff {x y : UInt16} : ntohs x = y ↔ x = ntohs y := by
  constructor
  · rintro rfl
    exact (ntohs_ntohs x).symm
  · rintro rfl
    exact ntohs_ntohs y

/-- `ntohl` on a little-endian machine: reverse the four bytes. -/
def ntohl (x : UInt32) : UInt32 :=
  (x <<< 24) ||| ((x <<< 8) &&& (0xff0000 : UInt32)) |||
    ((x >>> 8) &&& (0xff00 : UInt32)) ||| (x >>> 24)

end Ebpf101
