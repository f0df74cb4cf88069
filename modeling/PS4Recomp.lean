import PS4Recomp.Library.AddCarry
import PS4Recomp.Library.ByteMemory
import PS4Recomp.Arm64.Run
import PS4Recomp.Arm64.Adder
import PS4Recomp.Lifter.Tso
import PS4Recomp.Lifter.PartialWritesExact
import PS4Recomp.X86.Inst
import PS4Recomp.Disasm.CarryExact
import PS4Recomp.Disasm.BlockPartition
import PS4Recomp.Runtime.GuestMutexSafe
import PS4Recomp.Runtime.GuestCond
import PS4Recomp.Runtime.DirectMem
import PS4Recomp.Runtime.VmOrdered
import PS4Recomp.Runtime.VmFree
import PS4Recomp.Elf.StaticTls
import PS4Recomp.Lifter.Lines
import PS4Recomp.Runtime.OneTimeInit
import PS4Recomp.Elf.MergeImages
import PS4Recomp.Disasm.Resolutions
import PS4Recomp.Runtime.SyncObjects
import PS4Recomp.Runtime.DeletedWaiters
import PS4Recomp.Runtime.GuestThreadSafe
import PS4Recomp.Runtime.FiberEndpoints
import PS4Recomp.Runtime.JmpRecords
import PS4Recomp.Runtime.Dispatch
import PS4Recomp.Runtime.ReadPathsAgree
import PS4Recomp.Runtime.MountTableSafe
import PS4Recomp.Runtime.VideoOutSafe
import PS4Recomp.Gnm.PendingWritesScan
import PS4Recomp.Gnm.CommandQueuesSafe
import PS4Recomp.Lifter.Division
import PS4Recomp.Lifter.BitScan
import PS4Recomp.Lifter.Multiply
import PS4Recomp.Disasm.SkipFlagsSound
import PS4Recomp.Disasm.WalkReachable
import PS4Recomp.Disasm.TableRead
import PS4Recomp.Disasm.TraceSound
import PS4Recomp.Disasm.CountPaths
import PS4Recomp.Runtime.StringCompare
import PS4Recomp.Disasm.BoundSound
import PS4Recomp.Lifter.UpperHalves
import PS4Recomp.Elf.FuncExtents
import PS4Recomp.Runtime.DirectMemBytes
import PS4Recomp.Runtime.DirectMappings
import PS4Recomp.Runtime.VmFixed
import PS4Recomp.Runtime.VmProtect
import PS4Recomp.Runtime.MapDirect
import PS4Recomp.Elf.SelfCopies
import PS4Recomp.Elf.EhFrameSafe
import PS4Recomp.Runtime.EqueueList
import PS4Recomp.Lifter.Rdtsc
import PS4Recomp.Runtime.BatchMap
import PS4Recomp.Lifter.FpToInt
import PS4Recomp.Lifter.X87RoundTrip
import PS4Recomp.Runtime.ThreadKeysSafe
import PS4Recomp.Runtime.PakIndex
import PS4Recomp.Runtime.PakFiles
import PS4Recomp.Runtime.PathSpelling
import PS4Recomp.Runtime.DirListingSafe
import PS4Recomp.Runtime.FileMappings
import PS4Recomp.Lifter.Sse4a
import PS4Recomp.Runtime.RtcCivil
import PS4Recomp.Runtime.Sfo
import PS4Recomp.Runtime.JsonSerialize
