import Viy.Abi.Input
import Viy.Abi.Placement
import Viy.Config.EnvNumber
import Viy.Deobf.ArmConditions
import Viy.Deobf.BlockConstants
import Viy.Deobf.DispatchLocal
import Viy.Deobf.GetPcValues
import Viy.Deobf.Predicate
import Viy.Deobf.Sink
import Viy.Emu.CFunctions
import Viy.Emu.FailedCalls
import Viy.Emu.Heap
import Viy.Emu.MappedImage
import Viy.Emu.Rollback
import Viy.Emu.TraceOrder
import Viy.Facts.Canonical
import Viy.Facts.Sha256
import Viy.Facts.UtfText
import Viy.Lifecycle.Allocation
import Viy.Lifecycle.CacheHits
import Viy.Native.KnownFlags
import Viy.Native.MemoryValues
import Viy.Persist.Recovery
import Viy.Program.FunctionContent
import Viy.Runtime.FinalWrites
import Viy.Runtime.Pointers
import Viy.Runtime.StringGroups
import Viy.Workers.Backpressure
import Viy.Workers.BatchOrder
import Viy.Workers.Cancellation
import Viy.Workers.Fingerprint
import Viy.Workers.RecordedRuns
