import Scicompute.Transition
import Scicompute.Word
import Scicompute.SignedWord
import Scicompute.RingBuffer
import Scicompute.LinkedStack
import Scicompute.Holding
import Scicompute.Ownership
import Scicompute.Monitor
import Scicompute.Supply
import Scicompute.DepthFirst
import Scicompute.BreadthFirst
import Scicompute.MpscQueue
import Scicompute.BoundedFifo
import Scicompute.MpscQueueRuns
import Scicompute.MpscQueueAnswers
import Scicompute.MpscQueueCalls
import Scicompute.SpscQueue
import Scicompute.SpscQueueRuns
import Scicompute.SpscQueueCalls
import Scicompute.QueueSizes
import Scicompute.MemoryPool
import Scicompute.MemoryPoolLayout
import Scicompute.MemoryPoolRuns
import Scicompute.FreeList
import Scicompute.MemoryPoolHistory
import Scicompute.MemoryPoolGeometry
import Scicompute.MemoryPoolFailures
import Scicompute.MemoryPoolStarvation
import Scicompute.TlsCache
import Scicompute.SlabPoolBridge
import Scicompute.SlabPoolHistory
import Scicompute.SlabAllocators
import Scicompute.FixedSizePoolBridge
import Scicompute.TaskGraph
import Scicompute.TaskGraphEdges
import Scicompute.TaskGraphPaths
import Scicompute.TopologicalSort
import Scicompute.GraphExecutor
import Scicompute.GraphExecutorJobs
import Scicompute.GraphExecutorRuns
import Scicompute.GraphExecutorLaws
import Scicompute.ThreadPool
import Scicompute.ThreadPoolRuns
import Scicompute.ThreadPoolWakeups
import Scicompute.ThreadPoolCompletion
import Scicompute.LegacyThreadPool
import Scicompute.LegacyThreadPoolRuns
import Scicompute.LegacyThreadPoolShutdown
import Scicompute.LegacyThreadPoolProgress
import Scicompute.PausedPools
import Scicompute.SharedMemory
import Scicompute.GpuScheduler
import Scicompute.Registry
import Scicompute.DeviceCallbacks
import Scicompute.RowMajor
import Scicompute.RowMajorOrder
import Scicompute.BlockMemory
import Scicompute.ShapeSlots
import Scicompute.Tensor
import Scicompute.TensorIndexing
import Scicompute.TensorBuffers
import Scicompute.Contiguity
import Scicompute.TensorViews
import Scicompute.BufferHandle
import Scicompute.DeviceTable
import Scicompute.DeviceTensors
import Scicompute.DeviceTransfers
import Scicompute.TransferFailures
import Scicompute.Expected
import Scicompute.Softmax
import Scicompute.SoftmaxRows
import Scicompute.Json
import Scicompute.BenchmarkReport
import Scicompute.SizeMap
import Scicompute.HostAllocator
import Scicompute.CudaAllocator
import Scicompute.BufferClones
import Scicompute.TensorBufferResizes
import Scicompute.LittleEndian
import Scicompute.ScalarFills
import Scicompute.ColumnMajor
import Scicompute.GpuTensorViews
import Scicompute.GemmTask
import Scicompute.GpuStreams
import Scicompute.Elementwise
import Scicompute.GpuTensorAssignments
import Scicompute.SoftmaxValues
import Scicompute.CheckedLoop
import Scicompute.Reductions
import Scicompute.MatrixLoops
import Scicompute.FloatArrays
import Scicompute.Hardmax
import Scicompute.Normalization
import Scicompute.NormalizedShapes
import Scicompute.LoopIndices
import Scicompute.Commuting
import Scicompute.Simt
import Scicompute.Folding
import Scicompute.SimtRuns
import Scicompute.SimtPaths
import Scicompute.Strides
import Scicompute.BlockReductions
import Scicompute.DeviceKernels
import Scicompute.ElementwiseKernels
import Scicompute.CudaKernelBridge
import Scicompute.ReductionKernels
import Scicompute.RowKernels
import Scicompute.NormKernels
import Scicompute.SoftmaxKernels
import Scicompute.BridgeElementwise
import Scicompute.BenchmarkRanges
import Scicompute.SegmentCreation
import Scicompute.CurrentDevice
import Scicompute.HotPlug
import Scicompute.Tally
import Scicompute.MemoryPoolCounters
import Scicompute.TaskGraphQueries
import Scicompute.GraphExecutorAlone
import Scicompute.PoolCaches
import Scicompute.PoolManager
import Scicompute.Dataflow
import Scicompute.GraphExecutorResults
import Scicompute.WorkQueue
import Scicompute.PoolOrder
import Scicompute.Statistics
import Scicompute.BenchmarkRuns
import Scicompute.Delimited
import Scicompute.StreamFormat
import Scicompute.BenchmarkTables
import Scicompute.ElementwisePrograms
import Scicompute.Gibbs
import Scicompute.SoftmaxTemperature
import Scicompute.ChangeFeed
import Scicompute.DeviceEvents
import Scicompute.CriticalSections
import Scicompute.SpinLock
import Scicompute.NormStatistics
import Scicompute.Attention
import Scicompute.Binary32
import Scicompute.GpuFills
