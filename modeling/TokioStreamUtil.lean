import TokioStreamUtil.Lib.Transition
import TokioStreamUtil.Lib.BrokenChain
import TokioStreamUtil.Lib.DoublyLinked
import TokioStreamUtil.FuturesUnordered.ReadyToRunQueue
import TokioStreamUtil.FuturesUnordered.ReadyToRunQueueLinks
import TokioStreamUtil.FuturesUnordered.ReadyToRunQueueFifo
import TokioStreamUtil.FuturesUnordered.AllList
import TokioStreamUtil.FuturesUnordered.Model
import TokioStreamUtil.FuturesUnordered.Moves
import TokioStreamUtil.FuturesUnordered.Flags
import TokioStreamUtil.FuturesUnordered.Places
import TokioStreamUtil.FuturesUnordered.Invariant
import TokioStreamUtil.FuturesUnordered.QueuedFlag
import TokioStreamUtil.FuturesUnordered.Ledger
import TokioStreamUtil.FuturesUnordered.ExactlyOnce
import TokioStreamUtil.FuturesUnordered.Wakeups
import TokioStreamUtil.FuturesUnordered.Frame
import TokioStreamUtil.FuturesUnordered.Resting
import TokioStreamUtil.FuturesUnordered.Sound
import TokioStreamUtil.Lib.MaxHeap
import TokioStreamUtil.FuturesOrdered.Model
import TokioStreamUtil.FuturesOrdered.Deque
import TokioStreamUtil.FuturesOrdered.Tracking
import TokioStreamUtil.FuturesOrdered.Refinement
import TokioStreamUtil.TryStream.IntoFuseStream
import TokioStreamUtil.TryStream.Buffered
import TokioStreamUtil.TryStream.BufferedLimit
import TokioStreamUtil.FlattenUnordered.SharedPollState
import TokioStreamUtil.FlattenUnordered.Exclusion
import TokioStreamUtil.FlattenUnordered.Model
import TokioStreamUtil.FlattenUnordered.Moves
import TokioStreamUtil.FlattenUnordered.Invariant
import TokioStreamUtil.FlattenUnordered.Wakeups
import TokioStreamUtil.FlattenUnordered.Taken
import TokioStreamUtil.FlattenUnordered.Items
import TokioStreamUtil.TryStream.TryFlattenUnordered
import TokioStreamUtil.TryStream.WithinLimit
import TokioStreamUtil.FlattenUnordered.Recovery
import TokioStreamUtil.FlattenUnordered.Asleep
import TokioStreamUtil.FuturesUnordered.Shared
import TokioStreamUtil.FuturesUnordered.SharedInvariant
import TokioStreamUtil.FuturesUnordered.SharedLen
import TokioStreamUtil.Lib.PollLoop
import TokioStreamUtil.TryStream.Poll
import TokioStreamUtil.TryStream.Chunks
import TokioStreamUtil.TryStream.WholeChunks
import TokioStreamUtil.TryStream.TryFlatten
import TokioStreamUtil.TryStream.IntoAsyncRead
import TokioStreamUtil.TryStream.TryForward
import TokioStreamUtil.Lib.FusedLoop
import TokioStreamUtil.TryStream.OneAtATime
import TokioStreamUtil.TryStream.Fused
import TokioStreamUtil.FuturesUnordered.Termination
import TokioStreamUtil.FuturesUnordered.Delivery
import TokioStreamUtil.FuturesOrdered.Delivery
import TokioStreamUtil.FuturesUnordered.Drained
import TokioStreamUtil.FuturesOrdered.Drained
import TokioStreamUtil.TryStream.BufferedCalls
import TokioStreamUtil.TryStream.BufferedBooks
import TokioStreamUtil.TryStream.BufferedOrder
import TokioStreamUtil.TryStream.BufferedEnd
import TokioStreamUtil.FlattenUnordered.Fused
import TokioStreamUtil.TryStream.FusedContract
import TokioStreamUtil.FuturesUnordered.References
import TokioStreamUtil.FuturesUnordered.Clear
import TokioStreamUtil.FuturesUnordered.IntoIter
import TokioStreamUtil.FuturesUnordered.Handover
import TokioStreamUtil.FuturesUnordered.Listed
import TokioStreamUtil.FuturesUnordered.Lifetime
import TokioStreamUtil.Lib.SizeHint
import TokioStreamUtil.TryStream.SizeHint
import TokioStreamUtil.TryStream.ChunkHints
import TokioStreamUtil.Lib.OneByOne
import TokioStreamUtil.TryStream.Listwise
import TokioStreamUtil.TryStream.FilterMap
import TokioStreamUtil.TryStream.While
import TokioStreamUtil.TryStream.Consuming
import TokioStreamUtil.FuturesUnordered.Budget
import TokioStreamUtil.FuturesOrdered.Unwinding
import TokioStreamUtil.FuturesUnordered.Asleep
import TokioStreamUtil.FuturesOrdered.Asleep
import TokioStreamUtil.TryStream.BufferedAsleep
import TokioStreamUtil.TryStream.BufferedWaker
import TokioStreamUtil.FuturesUnordered.Touches
import TokioStreamUtil.FuturesUnordered.Alive
import TokioStreamUtil.Lib.Line
import TokioStreamUtil.FuturesUnordered.Line
import TokioStreamUtil.TryStream.Resolves
import TokioStreamUtil.TryStream.Unfold
import TokioStreamUtil.FlattenUnordered.InOrder
import TokioStreamUtil.FlattenUnordered.Coalesce
import TokioStreamUtil.FuturesUnordered.SetCall
import TokioStreamUtil.FuturesOrdered.Budget
import TokioStreamUtil.FlattenUnordered.Budget
import TokioStreamUtil.FuturesUnordered.FusedSet
import TokioStreamUtil.FuturesOrdered.FusedQueue
import TokioStreamUtil.FuturesUnordered.IterMut
import TokioStreamUtil.Lib.Stacked
import TokioStreamUtil.TryStream.Mapped
import TokioStreamUtil.Lib.FusedStack
import TokioStreamUtil.TryStream.Chain
import TokioStreamUtil.TryStream.FusedChain
import TokioStreamUtil.TryStream.ChainWork
import TokioStreamUtil.TryStream.ChainCalls
