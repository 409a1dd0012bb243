import FastEventSystem.GuardedRuns
import FastEventSystem.PartyTotals
import FastEventSystem.SortedVector
import FastEventSystem.SlotTable
import FastEventSystem.AcyclicFlow
import FastEventSystem.CursorWalk
import FastEventSystem.MoveCells
import FastEventSystem.FeedbackQueue
import FastEventSystem.CircularWords
import FastEventSystem.TicketFates
import FastEventSystem.LinkedNodes
import FastEventSystem.LinearProbing
import FastEventSystem.EndlessRuns
import FastEventSystem.MessageOrder
import FastEventSystem.SemaphoreThreads
import FastEventSystem.DelayChannel
import FastEventSystem.DispatchLayers
import FastEventSystem.DelayCalls
import FastEventSystem.DelayDelivery
import FastEventSystem.DelayFailure
import FastEventSystem.DelayTiming
import FastEventSystem.FastChannel
import FastEventSystem.DelayFifo
import FastEventSystem.DelayBridges
import FastEventSystem.BindObject
import FastEventSystem.FastThreads
import FastEventSystem.FastAccounting
import FastEventSystem.FastPolling
import FastEventSystem.FastYield
import FastEventSystem.FastFailure
import FastEventSystem.Coroutines
import FastEventSystem.SyncRegistry
import FastEventSystem.DisconnectSteps
import FastEventSystem.ConnectionObjects
import FastEventSystem.ErasedCallables
import FastEventSystem.RegistryOrder
import FastEventSystem.ConnectionOwnership
import FastEventSystem.SyncLifetime
import FastEventSystem.DispatchLoop
import FastEventSystem.DispatchSafety
import FastEventSystem.DispatchTermination
import FastEventSystem.ChannelNetwork
import FastEventSystem.NetworkSound
import FastEventSystem.NetworkFlow
import FastEventSystem.NetworkDelivery
import FastEventSystem.NetworkDelay
import FastEventSystem.ForwardedArguments
import FastEventSystem.ForwardRefinement
import FastEventSystem.ForwardReceipts
import FastEventSystem.SelfConnected
import FastEventSystem.LightweightSemaphore
import FastEventSystem.SubqueueClaims
import FastEventSystem.SubqueueDelivery
import FastEventSystem.BlockingQueue
import FastEventSystem.BlockingSupply
import FastEventSystem.BlockingProgress
import FastEventSystem.FastOverQueue
import FastEventSystem.FastQueueRefinement
import FastEventSystem.BlockFreeList
import FastEventSystem.ProducerTable
import FastEventSystem.ProducerLookup
import FastEventSystem.ProducerProgress
