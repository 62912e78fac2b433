import Mathlib.Tactic.IntervalCases
import Ebpf101.Syscall.Netsnoop

/-!
# Where netsnoop says a call connects to

A `sockaddr_in` has 16 bytes and a `sockaddr_in6` has 28; the entry hook of chapter 11
reads 128 bytes from either. Its comment calls that harmless, "the extra bytes are zeroes
from buf's initialisation". But the helper copies all bytes or none: if one of the 128 is
not mapped the copy stays zero, its family is then neither of the two, and the call is
skipped like one on a Unix socket.

Results:
1. `sockaddr_decoded_iff`: a `connect` with a mapped socket address is printed with its
   port and address if and only if all 128 bytes are mapped, or the stash still holds an
   entry for the pid that says the same.
   `page_end_missed`: an address at the end of a page is not reported.
-/

namespace Ebpf101

/-! ## Words in memory -/

/-- The bytes of a word in memory, on a little-endian machine. -/
def bytes32 (x : UInt32) : List UInt8 :=
  [x.toUInt8, (x >>> 8).toUInt8, (x >>> 16).toUInt8, (x >>> 24).toUInt8]

theorem or_shiftLeft_of_lt {a k : Nat} (h : a < 2 ^ k) (b : Nat) :
    a ||| b <<< k = a + 2 ^ k * b := by
  rw [Nat.or_comm, ← Nat.shiftLeft_add_eq_or_of_lt h, Nat.shiftLeft_eq, Nat.mul_comm, Nat.add_comm]

theorem toNat_load16 (bs : List UInt8) (i : Nat) :
    (load16 bs i).toNat = (bs.getD i 0).toNat + 2 ^ 8 * (bs.getD (i + 1) 0).toNat := by
  have hhigh : (bs.getD (i + 1) 0).toNat <<< 8 < 2 ^ 16 := by
    rw [Nat.shiftLeft_eq]
    exact Nat.mul_lt_mul_of_pos_right (bs.getD (i + 1) 0).toNat_lt (by decide)
  rw [load16, UInt16.toNat_or, UInt16.toNat_shiftLeft, UInt8.toNat_toUInt16, UInt8.toNat_toUInt16,
    show (8 : UInt16).toNat % 16 = 8 from rfl, Nat.mod_eq_of_lt hhigh]
  exact or_shiftLeft_of_lt (bs.getD i 0).toNat_lt _

theorem toNat_load32 (bs : List UInt8) (i : Nat) :
    (load32 bs i).toNat = (load16 bs i).toNat + 2 ^ 16 * (load16 bs (i + 2)).toNat := by
  have hhigh : (load16 bs (i + 2)).toNat <<< 16 < 2 ^ 32 := by
    rw [Nat.shiftLeft_eq]
    exact Nat.mul_lt_mul_of_pos_right (load16 bs (i + 2)).toNat_lt (by decide)
  rw [load32, UInt32.toNat_or, UInt32.toNat_shiftLeft, UInt16.toNat_toUInt32, UInt16.toNat_toUInt32,
    show (16 : UInt32).toNat % 32 = 16 from rfl, Nat.mod_eq_of_lt hhigh]
  exact or_shiftLeft_of_lt (load16 bs i).toNat_lt _

theorem toNat_shifted_byte (x : UInt32) {k : UInt32} (hk : k.toNat < 32) :
    (x >>> k).toUInt8.toNat = x.toNat / 2 ^ k.toNat % 2 ^ 8 := by
  rw [UInt32.toNat_toUInt8, UInt32.toNat_shiftRight, Nat.mod_eq_of_lt hk, Nat.shiftRight_eq_div_pow]

/-- A word that was loaded is stored as it was. -/
theorem bytes32_load32 (bs : List UInt8) (i : Nat) :
    bytes32 (load32 bs i) =
      [bs.getD i 0, bs.getD (i + 1) 0, bs.getD (i + 2) 0, bs.getD (i + 3) 0] := by
  have hword := toNat_load32 bs i
  rw [toNat_load16, toNat_load16, show i + 2 + 1 = i + 3 from rfl] at hword
  have h0 := (bs.getD i 0).toNat_lt
  have h1 := (bs.getD (i + 1) 0).toNat_lt
  have h2 := (bs.getD (i + 2) 0).toNat_lt
  have h3 := (bs.getD (i + 3) 0).toNat_lt
  simp only [bytes32, List.cons.injEq, and_true, ← UInt8.toNat_inj]
  rw [toNat_shifted_byte _ (by decide), toNat_shifted_byte _ (by decide),
    toNat_shifted_byte _ (by decide), UInt32.toNat_toUInt8, hword]
  show _ ∧ _ / 2 ^ 8 % 2 ^ 8 = _ ∧ _ / 2 ^ 16 % 2 ^ 8 = _ ∧ _ / 2 ^ 24 % 2 ^ 8 = _
  refine ⟨?_, ?_, ?_, ?_⟩ <;> omega

/-- The word at `i` is the four bytes from there, if there are as many. -/
theorem bytes32_load32_eq_take {bs : List UInt8} {i : Nat} (h : i + 4 ≤ bs.length) :
    bytes32 (load32 bs i) = (bs.drop i).take 4 := by
  have hlen : 4 = ((bs.drop i).take 4).length := by
    rw [List.length_take, List.length_drop, Nat.min_eq_left (Nat.le_sub_of_add_le' h)]
  rw [bytes32_load32]
  refine List.ext_getElem hlen fun j hj _ => ?_
  have hj4 : j < 4 := hj
  have hget : ∀ n < 4, i + n < bs.length := fun n hn =>
    Nat.lt_of_lt_of_le (Nat.add_lt_add_left hn i) h
  have h0 : i < bs.length := hget 0 (by decide)
  interval_cases j <;> simp [List.getD_eq_getElem?_getD, hget, h0]

/-- `htonl` undoes `ntohl`; here both reverse the bytes. -/
theorem ntohl_ntohl (x : UInt32) : ntohl (ntohl x) = x := by
  apply UInt32.eq_of_toBitVec_eq
  simp only [ntohl, UInt32.toBitVec_or, UInt32.toBitVec_and, UInt32.toBitVec_shiftLeft,
    UInt32.toBitVec_shiftRight]
  generalize x.toBitVec = b
  refine BitVec.eq_of_getLsbD_eq fun i hi => ?_
  simp only [BitVec.getLsbD_or, BitVec.getLsbD_and, BitVec.shiftLeft_eq', BitVec.ushiftRight_eq',
    BitVec.getLsbD_shiftLeft, BitVec.getLsbD_ushiftRight]
  -- bit by bit: each mask lets through one of the four shifts
  interval_cases i <;> simp

end Ebpf101

namespace Ebpf101.Netsnoop

/-! ## User space -/

inductive Status where
  | ok
  | inprogress
  | err
deriving DecidableEq, Repr

/-- Where a line says that a call connects to: what `inet_ntop` is given to format, and
the port. -/
structure Dest where
  af : Nat
  addr : List UInt8
  port : UInt16
deriving DecidableEq

/-- A line of the output. -/
structure Line where
  pid : Pid
  uid : UInt32
  comm : Comm
  dest : Dest
  status : Status
  ret : Int32
deriving DecidableEq

/-- `handle_event`. -/
def handleEvent (e : Event) : Line where
  pid := e.pid
  uid := e.uid
  comm := e.comm
  dest :=
    -- `htonl` and `ntohl` are the same function
    if e.family.toNat = AF_INET then ⟨AF_INET, bytes32 (ntohl e.addr4), e.port⟩
    else ⟨AF_INET6, e.addr6, e.port⟩
  status := if e.ret = 0 then .ok else if e.ret = -115 then .inprogress else .err
  ret := e.ret

/-! ## Statements -/

/-- What the bytes of a socket address say: the address as it stands there, the port in
host order. -/
def destOf (sockaddr : List UInt8) : Dest :=
  if (load16 sockaddr 0).toNat = AF_INET then
    ⟨AF_INET, (sockaddr.drop 4).take 4, ntohs (load16 sockaddr 2)⟩
  else ⟨AF_INET6, (sockaddr.drop 8).take 16, ntohs (load16 sockaddr 2)⟩

/-- The pointer of a call is to a mapped `sockaddr_in` or `sockaddr_in6`. -/
def Call.HasSockaddr (c : Call) : Prop :=
  (c.family.toNat = AF_INET ∧ Mapped c.mem 16 c.uaddr) ∨
  (c.family.toNat = AF_INET6 ∧ Mapped c.mem 28 c.uaddr)

/-- The stash has an entry for the pid, or room for one. -/
def HasRoom (stash : Stash) (pid : Pid) : Prop :=
  (stash.lookupElem pid).isSome ∨ stash.size < STASH_ENTRIES

/-- A call that enters and returns is printed with its own address and port. -/
def Decoded (stash : Stash) (pid : Pid) (c : Call) (x : Exit) : Prop :=
  ∃ w, (traceExit (traceEnter stash pid c) pid x).2 = some w ∧
    (handleEvent w).dest = destOf c.sockaddr

/-- All the bytes that the entry hook asks for can be read. -/
def Call.Readable (c : Call) : Prop := c.uaddr ≠ 0 ∧ Mapped c.mem ADDR_BUF_LEN c.uaddr

/-- The stash holds an entry for the pid that names the destination of the call. -/
def SameEntry (stash : Stash) (pid : Pid) (c : Call) : Prop :=
  ∃ saved, stash.lookupElem pid = some saved ∧ destOf saved.bytes = destOf c.sockaddr

namespace SockaddrLemmas

open NetsnoopLemmas

/-- What is printed of a record is what the saved bytes say. -/
theorem dest_record (e : Event) (pid : Pid) (x : Exit) (saved : AddrBuf) :
    (handleEvent (record e pid x saved)).dest = destOf saved.bytes := by
  have hfam : saved.family = load16 saved.bytes 0 := rfl
  unfold handleEvent record destOf
  rw [hfam]
  split
  · next h4 =>
    have hword : bytes32 (load32 saved.bytes 4) = (saved.bytes.drop 4).take 4 :=
      bytes32_load32_eq_take (by rw [saved.length_eq]; decide)
    simp [h4, ntohl_ntohl, hword]
  · next h4 => simp [h4]

theorem exit_of_lookup {stash : Stash} {pid : Pid} {saved : AddrBuf} {x : Exit} {e : Event}
    (h : stash.lookupElem pid = some saved) (hx : x.reserve = some e) :
    (traceExit stash pid x).2 = some (record e pid x saved) := by
  simp only [traceExit, h, hx]

/-- A call whose bytes can be read is stashed as memory has it. -/
theorem enter_readable {stash : Stash} {pid : Pid} {c : Call} (hread : c.Readable)
    (haddr : c.HasSockaddr) (hroom : HasRoom stash pid) :
    ∃ saved, (traceEnter stash pid c).lookupElem pid = some saved ∧ saved.bytes = c.sockaddr := by
  have hbuf : c.buf.bytes = c.sockaddr := if_pos hread.2
  have hfam : c.buf.family = c.family := congrArg (load16 · 0) hbuf
  have hinet : ¬ (c.buf.family.toNat ≠ AF_INET ∧ c.buf.family.toNat ≠ AF_INET6) := by
    rw [hfam]
    rintro ⟨h4, h6⟩
    rcases haddr with h | h
    · exact h4 h.1
    · exact h6 h.1
  refine ⟨c.buf, ?_, hbuf⟩
  rw [traceEnter, if_neg hread.1, if_neg hinet, BpfMap.lookupElem_updateElem_any,
    if_pos ⟨rfl, hroom⟩]

/-- Any other call is skipped. -/
theorem enter_unreadable {stash : Stash} {pid : Pid} {c : Call} (h : ¬ c.Readable) :
    traceEnter stash pid c = stash := by
  unfold traceEnter
  split
  · rfl
  · next hnull =>
    have hunmapped : ¬ Mapped c.mem ADDR_BUF_LEN c.uaddr := fun hm => h ⟨hnull, hm⟩
    have hzero : c.buf.family = 0 := by
      have hbytes : c.buf.bytes = List.replicate ADDR_BUF_LEN 0 := if_neg hunmapped
      rw [AddrBuf.family, hbytes]
      exact family_zero
    rw [hzero, if_pos (by decide)]

end SockaddrLemmas

open SockaddrLemmas

/-! ## 1. What is printed of a call -/

/-- For every memory, every call with a mapped socket address, and every stash and ring
with room. -/
theorem sockaddr_decoded_iff {stash : Stash} {pid : Pid} {c : Call} {x : Exit} {e : Event}
    (haddr : c.HasSockaddr) (hroom : HasRoom stash pid) (hring : x.reserve = some e) :
    Decoded stash pid c x ↔ c.Readable ∨ SameEntry stash pid c := by
  rcases Classical.em c.Readable with hread | hread
  · obtain ⟨saved, hlook, hbytes⟩ := enter_readable hread haddr hroom
    refine iff_of_true ⟨_, exit_of_lookup hlook hring, ?_⟩ (Or.inl hread)
    rw [dest_record, hbytes]
  · rw [Decoded, enter_unreadable hread, or_iff_right hread, SameEntry]
    cases hlook : stash.lookupElem pid with
    | none => simp [traceExit, hlook]
    | some saved =>
      rw [exit_of_lookup hlook hring]
      constructor
      · rintro ⟨w, hw, hdest⟩
        cases hw
        exact ⟨saved, rfl, by rw [← hdest, dest_record]⟩
      · rintro ⟨s, hs, hdest⟩
        cases hs
        exact ⟨_, rfl, by rw [dest_record, hdest]⟩

/-- `connect` to 1.2.3.4, port 80, as `exInet`, the address being the last 16 bytes that
are mapped. -/
def exPageEnd : Call :=
  ⟨4080, fun a => if a < 4096 then exMem [2, 0, 0, 80, 1, 2, 3, 4] (a - 4079) else none⟩

/-- It is not reported. -/
theorem page_end_missed :
    exPageEnd.HasSockaddr ∧ HasRoom BpfMap.empty 5 ∧
    (traceExit (traceEnter BpfMap.empty 5 exPageEnd) 5 exOk).2 = none ∧
    ¬ Decoded BpfMap.empty 5 exPageEnd exOk := by
  have hnone : (traceExit (traceEnter BpfMap.empty 5 exPageEnd) 5 exOk).2 = none := by
    decide +kernel
  refine ⟨Or.inl ⟨by decide +kernel, by decide +kernel⟩, Or.inr (by decide), hnone, ?_⟩
  rintro ⟨w, hw, -⟩
  rw [hnone] at hw
  cases hw

/-- With the rest of the page behind it, it is. -/
theorem exInet_decoded :
    exInet.HasSockaddr ∧ destOf exInet.sockaddr = ⟨AF_INET, [1, 2, 3, 4], 80⟩ ∧
    Decoded BpfMap.empty 5 exInet exOk := by
  have haddr : exInet.HasSockaddr := Or.inl ⟨by decide +kernel, by decide +kernel⟩
  have hread : exInet.Readable := ⟨by decide, by decide +kernel⟩
  exact ⟨haddr, by decide +kernel,
    (sockaddr_decoded_iff haddr (Or.inr (by decide)) rfl).mpr (Or.inl hread)⟩

end Ebpf101.Netsnoop
