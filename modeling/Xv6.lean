import Xv6.Log.Reservation
import Xv6.Log.Durable
import Xv6.Ide.Status
import Xv6.Ide.Refinement
import Xv6.Fs.Chunk
import Xv6.Fs.Consistency
import Xv6.Fs.LastPut
import Xv6.Ptable.Pick
import Xv6.Ptable.Kill
import Xv6.Ptable.Pids
import Xv6.Ptable.Dump
import Xv6.Ptable.Cred
import Xv6.Ptable.Intr
import Xv6.Ptable.Sleeplock
import Xv6.Pipe.Waiters
import Xv6.File.Calls
import Xv6.Exec.Arguments
import Xv6.Console.Refine
import Xv6.Syscall.Args
import Xv6.Grep.Lines
import Xv6.Sh.Nulterminate
import Xv6.Sh.Redirect
import Xv6.Boot.Bootmain
import Xv6.Boot.Mp
import Xv6.Console.Cprintf
import Xv6.Ulib.Memmove
import Xv6.Vm.Dealloc
import Xv6.Vm.Isolation
