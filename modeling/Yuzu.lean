import Yuzu.Kernel.DeviceShare
import Yuzu.Kernel.DynamicPageManager
import Yuzu.Kernel.HandleTable
import Yuzu.VideoCore.MemoryTracker
import Yuzu.VideoCore.MacroStraightLine
import Yuzu.Service.BufferQueueFrames
import Yuzu.Service.BufferQueueWakeup
import Yuzu.Service.NvHostAsGpuBooks
import Yuzu.Service.NvHostAsGpuFree
import Yuzu.ShaderRecompiler.ConstantPropagationPass
import Yuzu.Core.DeviceContinuity
import Yuzu.Common.HeapTrackerRefinement
import Yuzu.AudioCore.NodeStatesSearch
import Yuzu.Common.RingBufferFifo
import Yuzu.Kernel.ResourceLimitConserved
import Yuzu.VideoCore.SyncpointActions
import Yuzu.Service.HeapMapperPages
import Yuzu.VideoCore.VpxRoundTrip
import Yuzu.VideoCore.Vp9Probabilities
import Yuzu.Core.CheatStructured
import Yuzu.Core.CheatSafety
import Yuzu.VideoCore.InvalidationAccumulator
import Yuzu.Common.RangeMapFrame
import Yuzu.Kernel.FindFreeArea
import Yuzu.Common.OverlapRangeSet
import Yuzu.Kernel.OptimizedAllocation
import Yuzu.Kernel.PriorityInheritanceRuns
import Yuzu.VideoCore.RangeQueries
import Yuzu.VideoCore.SwizzleSubrect
import Yuzu.ShaderRecompiler.XmadFolds
import Yuzu.ShaderRecompiler.LowerInt64
import Yuzu.Service.NvMapEviction
import Yuzu.Service.NvHostAsGpuAtomic
import Yuzu.FileSys.AesSplitReads
import Yuzu.FileSys.ConcatenatedVfsFile
import Yuzu.FileSys.AlignmentMatchingStorage
import Yuzu.FileSys.IntegrityVerificationStorage
import Yuzu.FileSys.RomFsLookup
import Yuzu.FileSys.PathNormalForm
import Yuzu.Common.SlotVector
import Yuzu.Common.LruCache
import Yuzu.Core.CoreTimingAdvance
import Yuzu.Core.DevicePageCaching
import Yuzu.Kernel.WorkConservation
import Yuzu.Common.ParamPackage
import Yuzu.FileSys.IPSwitchCompiler
import Yuzu.VideoCore.DrawManager
import Yuzu.Kernel.PageHeapStorage
import Yuzu.VideoCore.VpxBitStreamWriter
import Yuzu.VideoCore.H264BitWriter
import Yuzu.VideoCore.TransformFeedback
import Yuzu.Kernel.MemoryRegionTree
import Yuzu.VideoCore.Maxwell3DStream
