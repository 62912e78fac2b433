import Ebpf101.Basic
import Ebpf101.Lib.BpfMap

/-!
# TCP state transitions

Chapters 12 and 13 hook the same kernel function, `tcp_set_state(sk, state)`.
A `Transition` is one call of it: the socket's address, what the probes read of
the socket, the new state, and the context the probe runs in. Between two calls
an LRU map may drop an entry.
-/

namespace Ebpf101.Tcp

/-- The kernel's TCP states. -/
inductive TcpState where
  | established
  | synSent
  | synRecv
  | finWait1
  | finWait2
  | timeWait
  | close
  | closeWait
  | lastAck
  | listen
  | closing
  | newSynRecv
deriving DecidableEq, Repr

/-- Their numbers in `vmlinux.h`. -/
def TcpState.num : TcpState → Nat
  | .established => 1
  | .synSent => 2
  | .synRecv => 3
  | .finWait1 => 4
  | .finWait2 => 5
  | .timeWait => 6
  | .close => 7
  | .closeWait => 8
  | .lastAck => 9
  | .listen => 10
  | .closing => 11
  | .newSynRecv => 12

/-- The fields of `struct sock` and `struct tcp_sock` that the probes read.
Addresses and `dport` are in network order. -/
structure SockView where
  family : Nat
  state : TcpState
  num : UInt16
  dport : UInt16
  rcvSaddr : List UInt8
  daddr : List UInt8
  v6RcvSaddr : List UInt8
  v6Daddr : List UInt8
  bytesAcked : Nat
  bytesReceived : Nat
  totalRetrans : Nat
  srttUs : Nat
deriving DecidableEq

/-- One call of `tcp_set_state`: the task that is current, the clock, and
whether the ring buffer has room for a record. -/
structure Transition where
  sk : SkAddr
  sock : SockView
  state : TcpState
  now : Nat
  cur : Task
  room : Bool
deriving DecidableEq

/-- The probes ignore sockets of other families. -/
def isInet (family : Nat) : Bool := !(family != AF_INET && family != AF_INET6)

end Ebpf101.Tcp
