import Xv6.Proc.Orphans
import Xv6.Proc.Pids
import Xv6.Log.Crash
import Xv6.Log.Supply
import Xv6.Fs.Paths
import Xv6.Fs.Full
import Xv6.Fs.Reserve
import Xv6.Refs.Counts
import Xv6.User.Getprocs
import Xv6.User.Memmove
import Xv6.User.Numbers
import Xv6.User.Grep
import Xv6.Pipe.Fifo
import Xv6.Mkfs.Image
import Xv6.Malloc.Runs
import Xv6.Bio.Refine
import Xv6.Proc.Period
import Xv6.Vm.Fork
import Xv6.Exec.Caller
import Xv6.Console.Editor
import Xv6.Ide.Queue
