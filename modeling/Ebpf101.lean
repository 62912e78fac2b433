import Ebpf101.Basic
import Ebpf101.Lib.Runs
import Ebpf101.Lib.BpfMap
import Ebpf101.Nettop.Kernel
import Ebpf101.Nettop.Sample
import Ebpf101.Nettop.Pass
import Ebpf101.Nettop.Poller
import Ebpf101.Nettop.Conservation
import Ebpf101.Nettop.Attribution
import Ebpf101.Tcp.Basic
import Ebpf101.Tcp.Tcplife
import Ebpf101.Ids.Rules
import Ebpf101.Ids.FlowTable
import Ebpf101.Ids.Beacon
import Ebpf101.Ids.Portscan
import Ebpf101.Ids.Tap
import Ebpf101.Exec.Execsnoop
import Ebpf101.Lib.Interleave
import Ebpf101.Exec.RoundTrip
import Ebpf101.Exec.BackPressure
import Ebpf101.Lib.Pairing
import Ebpf101.Syscall.Opensnoop
import Ebpf101.Syscall.Netsnoop
import Ebpf101.Lib.Threads
import Ebpf101.Nettop.Labels
import Ebpf101.Opencount
import Ebpf101.ExecGate
import Ebpf101.Nettop.Concurrent
import Ebpf101.Tcp.Tcpstates
import Ebpf101.Xdp.Firewall
import Ebpf101.Xdp.Parsers
import Ebpf101.Exec.Dictionary
import Ebpf101.Exec.Collisions
import Ebpf101.Ids.Signature
import Ebpf101.Tcp.Opener
import Ebpf101.Tcp.Spans
import Ebpf101.Ids.GapRing
import Ebpf101.Ids.Records
import Ebpf101.Syscall.Sockaddr
import Ebpf101.Nettop.Frame
import Ebpf101.Nettop.Interleaved
import Ebpf101.Lib.Lru
import Ebpf101.Nettop.OwnerSlots
import Ebpf101.Fileless.Loaders
import Ebpf101.Verifier.LogTail
import Ebpf101.Xdp.Totals
import Ebpf101.Keyring
import Ebpf101.Tc.Tcstat
import Ebpf101.Xdp.Loader
import Ebpf101.Lib.Text
import Ebpf101.Lsm.ActiveCheck
import Ebpf101.Lib.Keyword
import Ebpf101.Lsm.Grub
import Ebpf101.Exec.PerfBuffer
import Ebpf101.ExecCount
import Ebpf101.Ids.Isolation
import Ebpf101.Ids.Jitter
import Ebpf101.Ids.Serial
import Ebpf101.Tailcall
import Ebpf101.Tc.Account
import Ebpf101.ExecGate.Approvals
import Ebpf101.Fileless.ExtractBlocks
import Ebpf101.Keyring.Ceiling
import Ebpf101.Fileless.Preflight
import Ebpf101.Lib.Printed
import Ebpf101.Nettop.Display
import Ebpf101.Nettop.Screen
import Ebpf101.Lib.SharedKey
import Ebpf101.Opencount.Pins
import Ebpf101.Syscall.OpenThreads
import Ebpf101.Xdp.Takeover
