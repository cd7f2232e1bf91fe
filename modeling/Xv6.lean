import Xv6.Bytes
import Xv6.CString
import Xv6.LogCrash
import Xv6.ProcKill
import Xv6.SandboxTree
import Xv6.WaitProtocol
import Xv6.Hoare
import Xv6.PageTree
import Xv6.VmModel
import Xv6.VmTable
import Xv6.VmUser
import Xv6.VmCopy
import Xv6.MemModel
import Xv6.MemSpace
import Xv6.MemExec
import Xv6.MemFiles
import Xv6.MemInv
import Xv6.MemCalls
import Xv6.ExecSafe
import Xv6.ExecImage
import Xv6.PipeModel
import Xv6.PipeQueue
import Xv6.PipeWakeup
import Xv6.LogCapacity
import Xv6.FsLayout
import Xv6.FsModel
import Xv6.FsReclaim
import Xv6.ConsoleLine
import Xv6.BcacheLru
import Xv6.VirtioProtocol
import Xv6.SchedWakeup
import Xv6.FileRuns
import Xv6.MkfsWell
import Xv6.GrepLines
import Xv6.Printf
import Xv6.Sixfive
import Xv6.Memmove
import Xv6.IntrNesting
import Xv6.PipeRead
import Xv6.ShStrings
import Xv6.UmallocSizes
import Xv6.FindPaths
import Xv6.DirFail
import Xv6.FileLevels
import Xv6.LinkSafe
