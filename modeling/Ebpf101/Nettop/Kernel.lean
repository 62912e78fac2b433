import Ebpf101.Basic
import Ebpf101.Lib.BpfMap

/-!
# nettop: the kernel side

`27-nettop/nettop.bpf.c` keeps one row of running totals for each pid
(`proc_stats_map`) and remembers which pid last used a socket (`sock_owner`),
for the one hook that runs outside process context.

A hook fires on a `Kernel` state. What it reads from its context (the current
task, the socket, the clock) is its argument. Where a new map entry lands in
the walk order is the argument `pos`: the hash decides it.
-/

namespace Ebpf101.Nettop

/-- `MAX_PROCS`, the size of `proc_stats_map`. -/
def MAX_PROCS : Nat := 4096

/-- `struct proc_stats`: the running totals of one pid. -/
structure ProcStats where
  txBytes : Nat
  rxBytes : Nat
  txCalls : Nat
  rxCalls : Nat
  retransPkts : Nat
  lastNs : Nat
  comm : Comm
deriving DecidableEq

/-- The two maps. -/
structure Kernel where
  procStats : BpfMap Pid ProcStats
  sockOwner : BpfMap SkAddr Pid
deriving DecidableEq

/-- What a hook reads of `struct sock`. -/
structure Sock where
  addr : SkAddr
  family : Nat
deriving DecidableEq, Repr

/-- The clock at a firing, and the places a new row and a new owner entry take. -/
structure HookEnv where
  ktime : Nat
  rowPos : Nat
  ownerPos : Nat
deriving DecidableEq, Repr

def Kernel.empty : Kernel := ⟨BpfMap.empty, BpfMap.empty⟩

/-! ## Hooks -/

/-- A new row: everything zero, the creator's comm. -/
def ProcStats.init (comm : Comm) : ProcStats := ⟨0, 0, 0, 0, 0, 0, comm⟩

/-- The two atomic adds of one direction, and the store to `last_ns`. -/
def ProcStats.count (ps : ProcStats) (bytes : Nat) (isTx : Bool) (now : Nat) : ProcStats :=
  if isTx then
    { ps with
      txBytes := u64Add ps.txBytes bytes
      txCalls := u64Add ps.txCalls 1
      lastNs := now }
  else
    { ps with
      rxBytes := u64Add ps.rxBytes bytes
      rxCalls := u64Add ps.rxCalls 1
      lastNs := now }

/-- The atomic add of the retransmit hook. It leaves `last_ns` alone. -/
def ProcStats.countRetrans (ps : ProcStats) : ProcStats :=
  { ps with retransPkts := u64Add ps.retransPkts 1 }

/-- Fetch-or-create: the row of `cur` exists afterwards unless the map is full. -/
def fetchOrCreate (m : BpfMap Pid ProcStats) (cur : Task) (pos : Nat) :
    BpfMap Pid ProcStats :=
  match m.lookupElem cur.pid with
  | some _ => m
  | none => m.updateElem MAX_PROCS pos cur.pid (ProcStats.init cur.comm) .noexist

/-- `account`: charge `bytes` in one direction to the current task. -/
def account (k : Kernel) (cur : Task) (sk : Sock) (bytes : Nat) (isTx : Bool) (env : HookEnv) :
    Kernel :=
  if cur.pid = 0 then k
  else if sk.family ≠ AF_INET ∧ sk.family ≠ AF_INET6 then k
  else
    -- `sock_owner` is an LRU map, so this update never fails
    let owner := k.sockOwner.setElem env.ownerPos sk.addr cur.pid
    let m := fetchOrCreate k.procStats cur env.rowPos
    -- a second lookup that finds nothing means the map is full; `modify` of an
    -- absent key changes nothing, as the early return does
    ⟨m.modify cur.pid fun ps => ps.count bytes isTx env.ktime, owner⟩

/-- The send hooks hand the requested size to `account`. -/
def handleSend (k : Kernel) (cur : Task) (sk : Sock) (size : Nat) (env : HookEnv) : Kernel :=
  account k cur sk size true env

def handleTcpSendmsg := handleSend

def handleUdpSendmsg := handleSend

def handleUdpv6Sendmsg := handleSend

/-- The receive hooks ignore a length that is not positive. -/
def handleRecv (k : Kernel) (cur : Task) (sk : Sock) (copied : Int) (env : HookEnv) : Kernel :=
  if copied ≤ 0 then k else account k cur sk copied.toNat false env

def handleTcpCleanupRbuf := handleRecv

def handleSkbConsumeUdp := handleRecv

/-- `tcp_retransmit_skb` runs in softirq: the pid charged is the recorded owner. -/
def handleTcpRetransmit (k : Kernel) (sk : SkAddr) : Kernel :=
  match k.sockOwner.lookupElem sk with
  | none => k
  | some pid => { k with procStats := k.procStats.modify pid ProcStats.countRetrans }

def handleTcpClose (k : Kernel) (sk : SkAddr) : Kernel :=
  { k with sockOwner := k.sockOwner.deleteElem sk }

/-! ## Firings -/

/-- The probes that run in the context of the process they charge, with the length
each is called with. -/
inductive Probe where
  | tcpSendmsg (size : Nat)
  | udpSendmsg (len : Nat)
  | udpv6Sendmsg (len : Nat)
  | tcpCleanupRbuf (copied : Int)
  | skbConsumeUdp (len : Int)
deriving DecidableEq

def Kernel.runProbe (k : Kernel) (cur : Task) (sk : Sock) (env : HookEnv) : Probe → Kernel
  | .tcpSendmsg size => handleTcpSendmsg k cur sk size env
  | .udpSendmsg len => handleUdpSendmsg k cur sk len env
  | .udpv6Sendmsg len => handleUdpv6Sendmsg k cur sk len env
  | .tcpCleanupRbuf copied => handleTcpCleanupRbuf k cur sk copied env
  | .skbConsumeUdp len => handleSkbConsumeUdp k cur sk len env

/-- What can happen on the kernel side between two steps of the poller. `evict`
is the LRU map dropping an entry of its own accord. -/
inductive Firing where
  | probe (p : Probe) (cur : Task) (sk : Sock) (env : HookEnv)
  | retransmit (sk : SkAddr)
  | close (sk : SkAddr)
  | evict (sk : SkAddr)
deriving DecidableEq

def Kernel.fire (k : Kernel) : Firing → Kernel
  | .probe p cur sk env => k.runProbe cur sk env p
  | .retransmit sk => handleTcpRetransmit k sk
  | .close sk => handleTcpClose k sk
  | .evict sk => { k with sockOwner := k.sockOwner.deleteElem sk }

end Ebpf101.Nettop
