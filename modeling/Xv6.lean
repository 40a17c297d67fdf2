import Xv6.Log.Reserve
import Xv6.Log.Crash
import Xv6.Log.Coherence
import Xv6.Console.Lines
import Xv6.Cpu.Occupancy
import Xv6.Cpu.Wakeup
import Xv6.Pipe.Sleep
import Xv6.Bio.Demand
import Xv6.Fs.Demand
import Xv6.Proc.Nproc
import Xv6.Cpu.Interrupts
import Xv6.Virtio.Protocol
import Xv6.File.Lifetime
import Xv6.Trace.Lines
import Xv6.Mkfs.Fit
import Xv6.Sh.Print
import Xv6.Vm.Fork
import Xv6.Vm.Args
import Xv6.Vm.Resize
import Xv6.File.Read
import Xv6.Fs.Footprint
import Xv6.Fs.Resolve
import Xv6.Vm.Table
import Xv6.User.Memmove
import Xv6.User.Grep
import Xv6.User.Malloc
import Xv6.User.Printf
import Xv6.Vm.Freelist
import Xv6.Fs.Safety
import Xv6.Cpu.Kill
import Xv6.Cpu.Spinlock
import Xv6.Startup
import Xv6.Vm.Sbrk
import Xv6.Vm.Words
import Xv6.Vm.Agree
