import Xv6.Param
import Xv6.Lib.Transition
import Xv6.Lib.Ring
import Xv6.Lib.Bytes
import Xv6.Lib.Owned
import Xv6.Lib.Keyed
import Xv6.Lib.Links
import Xv6.Bcache.Model
import Xv6.Bcache.Commit
import Xv6.Bcache.Clients
import Xv6.Bcache.Shape
import Xv6.Bcache.Flat
import Xv6.Bcache.Lru
import Xv6.Pipe.Model
import Xv6.Pipe.Fifo
import Xv6.Pipe.Wakeups
import Xv6.Log.Model
import Xv6.Log.Crash
import Xv6.Lib.Count
import Xv6.Lib.Program
import Xv6.Log.Bracket
import Xv6.Log.Unsplit
import Xv6.Log.Reserve
import Xv6.Proc.Model
import Xv6.Proc.Steps
import Xv6.Proc.Shape
import Xv6.Proc.Slots
import Xv6.Proc.Pids
import Xv6.Proc.Family
import Xv6.Proc.ExitWait
import Xv6.Sched.Model
import Xv6.Sched.Shape
import Xv6.Sched.Steps
import Xv6.Sched.Cpus
import Xv6.Sched.Wakeups
import Xv6.Virtio.Model
import Xv6.Virtio.Chains
import Xv6.Virtio.Shape
import Xv6.Virtio.Steps
import Xv6.Virtio.Protocol
import Xv6.Vm.Model
import Xv6.Vm.Tables
import Xv6.Vm.Strings
import Xv6.Vm.Faults
import Xv6.Vm.Copies
import Xv6.Vm.Loops
import Xv6.Vm.Regions
import Xv6.Vm.Owning
import Xv6.Vm.Changes
import Xv6.Vm.Freeing
import Xv6.Vm.Sbrk
import Xv6.Vm.Fork
import Xv6.Vm.Paging
import Xv6.Exec.Model
import Xv6.Exec.Loading
import Xv6.Exec.Stack
import Xv6.Exec.Kexec
import Xv6.Exec.Segments
import Xv6.Exec.Arguments
import Xv6.Fs.Calls
import Xv6.Fs.Format
import Xv6.Fs.Inodes
import Xv6.Fs.Entries
import Xv6.Fs.Text
import Xv6.Fs.Blocks
import Xv6.Fs.Contents
import Xv6.Fs.Logged
import Xv6.Fs.Owners
import Xv6.Fs.Reclaim
import Xv6.Fs.Volume
import Xv6.Fs.Growth
import Xv6.Fs.Transfers
import Xv6.Fs.Shortfall
import Xv6.Fs.Directories
import Xv6.Console.Model
import Xv6.Console.Discipline
import Xv6.Console.Losses
import Xv6.Fs.Reading
import Xv6.Itable.Model
import Xv6.Itable.Shape
import Xv6.Itable.Steps
import Xv6.Itable.Reuse
import Xv6.Lib.Threads
import Xv6.Fs.Ledger
import Xv6.Fs.Custody
import Xv6.Fs.Keeping
import Xv6.Fs.Holders
import Xv6.Mkfs.Model
import Xv6.Mkfs.Layout
import Xv6.Mkfs.Image
import Xv6.Mkfs.Checks
import Xv6.Mkfs.Lookup
import Xv6.Ulib.Memmove
import Xv6.Ulib.Printint
import Xv6.Ulib.Strings
import Xv6.Grep.Regex
import Xv6.Grep.Filter
import Xv6.Sh.Model
import Xv6.Sh.Tokens
import Xv6.Sh.Grammar
import Xv6.Sh.Parser
import Xv6.Sh.Terminate
