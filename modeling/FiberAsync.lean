import FiberAsync.Library.Runs
import FiberAsync.Library.Counting
import FiberAsync.Library.Locks
import FiberAsync.Library.OrderedSet
import FiberAsync.Library.Pipeline
import FiberAsync.EventAccounting
import FiberAsync.EventRefinement
import FiberAsync.EventThreads
import FiberAsync.EventExclusion
import FiberAsync.TableIdentity
import FiberAsync.EventDispatch
import FiberAsync.TimerDeadlines
import FiberAsync.SchedulerDrain
import FiberAsync.WakeUp
import FiberAsync.HandoffSafety
import FiberAsync.FiberSwitching
import FiberAsync.EpollValidity
import FiberAsync.Reregistration
import FiberAsync.TimerAnnouncements
import FiberAsync.TimerFrames
import FiberAsync.Pool
import FiberAsync.PoolFirings
import FiberAsync.CancelledTimers
import FiberAsync.DeadlineOrder
import FiberAsync.PoolStopping
import FiberAsync.FdManager
import FiberAsync.Hook
import FiberAsync.StatusFlags
import FiberAsync.HookedFlags
import FiberAsync.KernelNonblock
import FiberAsync.NonblockView
import FiberAsync.HookFrames
import FiberAsync.HookedIo
import FiberAsync.ClosedDescriptors
import FiberAsync.InterestMasks
import FiberAsync.TimerBases
import FiberAsync.TimerCalls
import FiberAsync.QueueOrder
import FiberAsync.RunningFiber
import FiberAsync.FdThreads
import FiberAsync.Library.Programs
import FiberAsync.HookPrograms
import FiberAsync.LockDiscipline
import FiberAsync.HookExecution
import FiberAsync.DisabledHooks
import FiberAsync.ThreadJoin
import FiberAsync.TimedWorkers
import FiberAsync.Oversleeping
import FiberAsync.DueTimers
import FiberAsync.TimerExpiry
import FiberAsync.IdleTimeouts
import FiberAsync.SleepDurations
import FiberAsync.EventCancellation
import FiberAsync.OptionCalls
import FiberAsync.SocketTimeouts
import FiberAsync.IoTimeouts
import FiberAsync.FdRefinement
import FiberAsync.LockedTable
import FiberAsync.DescriptorArguments
import FiberAsync.SchedulerSlot
import FiberAsync.Library.Ownership
import FiberAsync.FiberOwnership
import FiberAsync.FiberLifetimes
import FiberAsync.OwnershipSteps
import FiberAsync.FiberDestruction
import FiberAsync.FiberLeaks
import FiberAsync.ConcurrentAccounting
import FiberAsync.CopyConservation
import FiberAsync.Library.Linearization
import FiberAsync.TimerLinearization
import FiberAsync.EventLinearization
import FiberAsync.RecurringTimers
import FiberAsync.Library.Queues
import FiberAsync.QueueTurns
import FiberAsync.ContextDestruction
import FiberAsync.EventProgress
import FiberAsync.SuspendedFibers
import FiberAsync.Library.Retries
import FiberAsync.BlockingCalls
import FiberAsync.Library.Contracts
import FiberAsync.DescriptorIsolation
