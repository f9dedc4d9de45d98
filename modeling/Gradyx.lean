import Gradyx.Lib.Behavior
import Gradyx.Lib.Potential
import Gradyx.Lib.Simulation
import Gradyx.Lib.Monitor
import Gradyx.Lib.Tally
import Gradyx.Lib.Locked
import Gradyx.Lib.LockedRefinement
import Gradyx.Lib.RelyGuarantee
import Gradyx.Lib.HappensBefore
import Gradyx.Lib.Ownership
import Gradyx.Lib.Rounding
import Gradyx.Lib.DoubleRounding
import Gradyx.Lib.Nearest
import Gradyx.Lib.MixedRadix
import Gradyx.Lib.FromChars
import Gradyx.Lib.ToDecimal
import Gradyx.Lib.Text
import Gradyx.Lib.Trap
import Gradyx.Core.Status
import Gradyx.Core.Result
import Gradyx.Core.IntType
import Gradyx.Core.CheckedMath
import Gradyx.Core.CheckedEval
import Gradyx.Core.Shape
import Gradyx.Core.Addressing
import Gradyx.Core.Contiguity
import Gradyx.Core.DType
import Gradyx.Core.DTypeTable
import Gradyx.Core.Scalar
import Gradyx.Core.ScalarNumber
import Gradyx.Core.ScalarDatum
import Gradyx.Core.ScalarComplex
import Gradyx.Core.ScalarNearest
import Gradyx.Core.Device
import Gradyx.Core.DeviceParse
import Gradyx.Core.DeviceStr
import Gradyx.Core.DeviceHash
import Gradyx.Core.DataPtr
import Gradyx.Core.DataPtrReentrant
import Gradyx.Core.IntrusivePtr.Machine
import Gradyx.Core.IntrusivePtr.Ready
import Gradyx.Core.IntrusivePtr.Counted
import Gradyx.Core.IntrusivePtr.Safety
import Gradyx.Core.IntrusivePtr.Expiry
import Gradyx.Core.IntrusivePtr.Relaxed
import Gradyx.Core.IntrusivePtr.RelaxedSteps
import Gradyx.Core.IntrusivePtr.Ordered
import Gradyx.Core.IntrusivePtr.StaleExpiry
import Gradyx.Core.IntrusivePtr.Saturation
import Gradyx.Core.IntrusivePtr.Progress
import Gradyx.Core.IntrusivePtr.Heap
import Gradyx.Core.IntrusivePtr.HeapCounted
import Gradyx.Core.IntrusivePtr.Reachability
import Gradyx.Core.IntrusivePtr.Cascade
import Gradyx.Core.IntrusivePtr.MoveAssign
import Gradyx.Core.IntrusivePtr.WeakHeap
import Gradyx.Core.IntrusivePtr.WeakProjection
import Gradyx.Core.IntrusivePtr.WeakCounted
import Gradyx.Core.IntrusivePtr.WeakRefinement
import Gradyx.Core.IntrusivePtr.WeakRuns
import Gradyx.Core.IntrusivePtr.WeakLifetimes
import Gradyx.Runtime.Registry
import Gradyx.Runtime.RegistryLock
import Gradyx.Backend.CpuRuntime
import Gradyx.Backend.CpuEventLock
import Gradyx.Backend.DefaultRegistry
import Gradyx.Backend.CpuAllocator
import Gradyx.Backend.CpuMemory
import Gradyx.Backend.ElementPlacement
