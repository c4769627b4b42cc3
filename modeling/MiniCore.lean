import MiniCore.Mm.HeapRuns
import MiniCore.Fs.Cwd
import MiniCore.Mm.SpaceLists
import MiniCore.Kernel.Log
import MiniCore.Kernel.ExecStack
import MiniCore.Kernel.HeapHistory
import MiniCore.Kernel.Reaping
import MiniCore.Kernel.FdFamily
import MiniCore.Kernel.Exec
import MiniCore.Kernel.Listing
import MiniCore.Kernel.WaitQueues
import MiniCore.Kernel.RoundRobin
import MiniCore.Kernel.ActiveTable
import MiniCore.Mm.KernelMap
import MiniCore.Platform.DtbRefine
import MiniCore.User.ShellParse
