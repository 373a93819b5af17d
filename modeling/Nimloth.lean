import Nimloth.Runs
import Nimloth.PipeRing
import Nimloth.PipeCalls
import Nimloth.Signal
import Nimloth.SignalReturn
import Nimloth.Kernel
import Nimloth.KernelFiles
import Nimloth.Bitmap
import Nimloth.BlockManager
import Nimloth.Durability
import Nimloth.FileContent
import Nimloth.FileRuns
import Nimloth.ForkSpace
import Nimloth.Geometry
import Nimloth.LogClients
import Nimloth.LogCodec
import Nimloth.ShortTransfers
import Nimloth.ShellParse
import Nimloth.SignalExec
import Nimloth.SignalStage
import Nimloth.SigreturnGuard
import Nimloth.KillLaw
import Nimloth.LevelLaw
import Nimloth.Descriptors
import Nimloth.SpaceRuns
import Nimloth.UserAccess
import Nimloth.Unmapped
import Nimloth.ElfLayout
import Nimloth.PushedArea
import Nimloth.ElfLoad
import Nimloth.ExecArgs
import Nimloth.UserStrings
import Nimloth.SysExec
import Nimloth.UserNames
import Nimloth.UserBuffers
import Nimloth.BufferTermination
import Nimloth.UserPages
import Nimloth.BitmapSet
import Nimloth.BlockAccounting
import Nimloth.IndexGrowth
import Nimloth.KernelSpace
import Nimloth.Lifecycle
import Nimloth.LifecycleFrames
import Nimloth.LifecycleSteps
import Nimloth.PageTableRuns
import Nimloth.PidLifecycle
import Nimloth.Directory
import Nimloth.DirectoryLaw
import Nimloth.OSInode
import Nimloth.OpenFile
import Nimloth.SplitIO
import Nimloth.ZeroWrite
import Nimloth.Locking
import Nimloth.FrameExclusivity
import Nimloth.FrameRuns
import Nimloth.RiscV
import Nimloth.Switch
import Nimloth.Trap
import Nimloth.Sv39
import Nimloth.Encoding
import Nimloth.TablePointers
import Nimloth.Walkable
import Nimloth.ImageFrames
import Nimloth.HardwareAccess
import Nimloth.KernelAccess
import Nimloth.Threads
import Nimloth.VirtioHal
import Nimloth.Trampoline
import Nimloth.TrapContexts
import Nimloth.TrapRuns
import Nimloth.UserStart
import Nimloth.ImagePack
