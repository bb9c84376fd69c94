import OperatingSystemLabs.Foundation.Transition
import OperatingSystemLabs.Foundation.Loop
import OperatingSystemLabs.Foundation.Interleaving
import OperatingSystemLabs.Foundation.Insertion
import OperatingSystemLabs.Foundation.Keyed
import OperatingSystemLabs.Foundation.Links
import OperatingSystemLabs.Foundation.Wiring
import OperatingSystemLabs.Foundation.Heap
import OperatingSystemLabs.Foundation.Rounding
import OperatingSystemLabs.Foundation.Text
import OperatingSystemLabs.Foundation.BuddyTree
import OperatingSystemLabs.Foundation.LockOrder
import OperatingSystemLabs.Foundation.PrefixCode
import OperatingSystemLabs.Foundation.Correspondence
import OperatingSystemLabs.Foundation.Service
import OperatingSystemLabs.Foundation.ShortestFirst
import OperatingSystemLabs.Foundation.FixedPriority
import OperatingSystemLabs.Foundation.Descriptors
import OperatingSystemLabs.Foundation.StandardStreams
import OperatingSystemLabs.Fault
import OperatingSystemLabs.Scheduler.Priqueue
import OperatingSystemLabs.Scheduler.PriqueueOrder
import OperatingSystemLabs.Scheduler.PriqueueRemove
import OperatingSystemLabs.Scheduler.PriqueueAnswers
import OperatingSystemLabs.Scheduler.PriqueueNodes
import OperatingSystemLabs.Scheduler.PriqueueMemory
import OperatingSystemLabs.Scheduler.PriqueueLeaks
import OperatingSystemLabs.Scheduler.Library
import OperatingSystemLabs.Scheduler.Board
import OperatingSystemLabs.Scheduler.Assignment
import OperatingSystemLabs.Scheduler.Dispatch
import OperatingSystemLabs.Scheduler.Occupancy
import OperatingSystemLabs.Scheduler.Loops
import OperatingSystemLabs.Scheduler.Refinement
import OperatingSystemLabs.Scheduler.Arrival
import OperatingSystemLabs.Scheduler.Records
import OperatingSystemLabs.Scheduler.Protocol
import OperatingSystemLabs.Scheduler.QueueBounds
import OperatingSystemLabs.Scheduler.CoreAssignment
import OperatingSystemLabs.Scheduler.Ranking
import OperatingSystemLabs.Scheduler.PriorityOrder
import OperatingSystemLabs.Scheduler.ShortestRemaining
import OperatingSystemLabs.Scheduler.RoundRobin
import OperatingSystemLabs.Scheduler.Totals
import OperatingSystemLabs.Scheduler.Responses
import OperatingSystemLabs.Scheduler.Eviction
import OperatingSystemLabs.Scheduler.Fifo
import OperatingSystemLabs.Scheduler.Masked
import OperatingSystemLabs.Scheduler.RunningFirst
import OperatingSystemLabs.Scheduler.Comparers
import OperatingSystemLabs.Simulator.Machine
import OperatingSystemLabs.Simulator.Assignment
import OperatingSystemLabs.Simulator.Coupling
import OperatingSystemLabs.Simulator.Moves
import OperatingSystemLabs.Simulator.Tracking
import OperatingSystemLabs.Simulator.Phases
import OperatingSystemLabs.Simulator.Agreement
import OperatingSystemLabs.Simulator.Completion
import OperatingSystemLabs.Simulator.Chronicle
import OperatingSystemLabs.Simulator.Quantum
import OperatingSystemLabs.Simulator.Termination
import OperatingSystemLabs.Simulator.Accounting
import OperatingSystemLabs.Simulator.Response
import OperatingSystemLabs.Simulator.Undercut
import OperatingSystemLabs.Simulator.Diagram
import OperatingSystemLabs.Simulator.Backlog
import OperatingSystemLabs.Simulator.Contiguity
import OperatingSystemLabs.Simulator.Tickets
import OperatingSystemLabs.Simulator.DispatchOrder
import OperatingSystemLabs.Simulator.Lockstep
import OperatingSystemLabs.Simulator.LargeQuantum
import OperatingSystemLabs.Simulator.Timeline
import OperatingSystemLabs.Simulator.RowOrder
import OperatingSystemLabs.Simulator.FloatTotals
import OperatingSystemLabs.Simulator.Leftover
import OperatingSystemLabs.Simulator.ShortestFirst
import OperatingSystemLabs.Simulator.FixedPriority
import OperatingSystemLabs.Simulator.BoundedWait
import OperatingSystemLabs.Simulator.Decoding
import OperatingSystemLabs.Simulator.SwapDeletion
import OperatingSystemLabs.Simulator.Loader
import OperatingSystemLabs.Simulator.Buffers
import OperatingSystemLabs.Simulator.CommandLine
import OperatingSystemLabs.Philosophers.Asymmetric
import OperatingSystemLabs.Philosophers.Ownership
import OperatingSystemLabs.Philosophers.DeadlockFreedom
import OperatingSystemLabs.Philosophers.Shutdown
import OperatingSystemLabs.Philosophers.Discipline
import OperatingSystemLabs.Philosophers.Symmetric
import OperatingSystemLabs.Philosophers.Release
import OperatingSystemLabs.Philosophers.Waiter
import OperatingSystemLabs.Philosophers.Exclusion
import OperatingSystemLabs.Philosophers.Availability
import OperatingSystemLabs.Threads.Counter
import OperatingSystemLabs.Threads.Finishing
import OperatingSystemLabs.Finder.Pipeline
import OperatingSystemLabs.Finder.Plumbing
import OperatingSystemLabs.Finder.DeadlockFreedom
import OperatingSystemLabs.Finder.Composition
import OperatingSystemLabs.Buddy.Memory
import OperatingSystemLabs.Buddy.Layout
import OperatingSystemLabs.Buddy.Search
import OperatingSystemLabs.Buddy.Splitting
import OperatingSystemLabs.Buddy.Allocation
import OperatingSystemLabs.Buddy.Tiling
import OperatingSystemLabs.Buddy.BestFit
import OperatingSystemLabs.Buddy.Grants
import OperatingSystemLabs.Buddy.BackLinks
import OperatingSystemLabs.Buddy.Bookkeeping
import OperatingSystemLabs.Pages.Memory
import OperatingSystemLabs.Pages.Allocation
import OperatingSystemLabs.Pages.Arena
import OperatingSystemLabs.Pages.RequestSizes
import OperatingSystemLabs.Pages.KernelList
import OperatingSystemLabs.Pages.Traversal
import OperatingSystemLabs.Pages.Dump
