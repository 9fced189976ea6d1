import OriaOS.Heap.Memory
import OriaOS.Heap.Placement
import OriaOS.Tcp.Receive
import OriaOS.Tcp.Send
import OriaOS.Tcp.Retransmit
import OriaOS.Tcp.Table
import OriaOS.Tcp.Slots
import OriaOS.Tls.Recv
import OriaOS.Tls.Framing
import OriaOS.Tls.Hostname
import OriaOS.Tls.Ghash
import OriaOS.Fs.Access
import OriaOS.Fs.Store
import OriaOS.Fs.Streams
import OriaOS.Sched.Spaces
import OriaOS.Sched.Wait
import OriaOS.Sched.Cpu
import OriaOS.Ipc.Stream
import OriaOS.Ipc.Queue
import OriaOS.Ipc.Terminals
import OriaOS.Ipc.Mailbox
import OriaOS.Ipc.Poll
import OriaOS.Ipc.Reuse
import OriaOS.Ipc.Keyboard
import OriaOS.Console.Cursor
import OriaOS.Ext2.Directory
import OriaOS.Shell.Editor
import OriaOS.Shell.Vars
import OriaOS.Shell.Calls
import OriaOS.Shell.Control
import OriaOS.Sync.Condvar
import OriaOS.Sync.Futex
import OriaOS.Sync.Counting
import OriaOS.Vmm.Frames
import OriaOS.Vmm.Leak
import OriaOS.Vmm.Backing
import OriaOS.Vmm.Boundary
import OriaOS.Lib.Decimal
import OriaOS.Sched.Sleep
import OriaOS.Sched.Argv
import OriaOS.Fs.Resolve
import OriaOS.Ipc.Chunks
import OriaOS.Fs.Failed
import OriaOS.Vmm.Translation
import OriaOS.Elf.Image
import OriaOS.Vmm.Failing
import OriaOS.Dns.Answers
import OriaOS.Dns.Question
import OriaOS.Tls.Inside
import OriaOS.Dhcp.Exchange
import OriaOS.Fs.Listing
import OriaOS.Fs.Atomic
import OriaOS.Tcp.Frames
import OriaOS.Tcp.Wire
import OriaOS.Http.Get
import OriaOS.WebSocket.Frame
import OriaOS.Tls.KeySchedule
import OriaOS.Shell.Expansion
import OriaOS.Rtl8139.Recv
import OriaOS.Libc.Sort
import OriaOS.Shell.Errexit
import OriaOS.Ntp.Sync
import OriaOS.Tls.GcmInPlace
