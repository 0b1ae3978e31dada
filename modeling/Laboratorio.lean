import Laboratorio.Bio.Exhaustion
import Laboratorio.Buffer.Handoff
import Laboratorio.Console.Lines
import Laboratorio.Fs.Booted
import Laboratorio.Fs.DirectoryMap
import Laboratorio.Fs.Output
import Laboratorio.Grep.Lines
import Laboratorio.Histograma
import Laboratorio.Ide.Requests
import Laboratorio.Log.Reservation
import Laboratorio.Memmove
import Laboratorio.Mp
import Laboratorio.Msgbox
import Laboratorio.Paging.Input
import Laboratorio.Paging.Storage
import Laboratorio.Pipe.Ready
import Laboratorio.Procs.Pids
import Laboratorio.Procs.Wakeups
import Laboratorio.Shell.Agreement
import Laboratorio.Shell.Input
import Laboratorio.Shell.Redirection
import Laboratorio.Umalloc.Sbrk
import Laboratorio.Uthread.Contexts
import Laboratorio.Uthread.RoundRobin
import Laboratorio.Vm.Dealloc
import Laboratorio.Vm.ExecCall
import Laboratorio.Vm.Growproc
import Laboratorio.WordStack.Deadlock
import Laboratorio.WordStack.Push
