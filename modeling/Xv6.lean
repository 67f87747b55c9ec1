import Xv6.Bcache
import Xv6.Fs.Directory
import Xv6.Fs.Undo
import Xv6.Grep
import Xv6.Intr
import Xv6.Log.Pins
import Xv6.Log.Reserve
import Xv6.Memmove
import Xv6.Pipe.Read
import Xv6.Printf
import Xv6.Sched.Exit
import Xv6.Sched.Kill
import Xv6.Sched.Slots
import Xv6.Sleeplock
import Xv6.Uart
import Xv6.Umalloc.Sbrk
import Xv6.Virtio.Runs
import Xv6.Vm.Args
import Xv6.Vm.Elf
import Xv6.Vm.Isolate
