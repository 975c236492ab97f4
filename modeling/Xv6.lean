import Xv6.BioCommit
import Xv6.ConsRun
import Xv6.CowRun
import Xv6.FsChunk
import Xv6.FsCrash
import Xv6.FsDirMap
import Xv6.FsMode
import Xv6.FsRead
import Xv6.Grep
import Xv6.ItabRun
import Xv6.LifeKill
import Xv6.LifeMutex
import Xv6.LifeReap
import Xv6.LockModel
import Xv6.LogReserve
import Xv6.MkfsSound
import Xv6.Printf
import Xv6.SchedQueue
import Xv6.SchedRq
import Xv6.Trap
import Xv6.Uthread
import Xv6.VirtioRun
import Xv6.VmFork
import Xv6.VmGrow
import Xv6.VmIsolate
import Xv6.VmReplace
import Xv6.VmString
