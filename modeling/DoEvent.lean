import DoEvent.Transition.Run
import DoEvent.Event
import DoEvent.Uaccess
import DoEvent.Copies
import DoEvent.WaitQueue
import DoEvent.Machine
import DoEvent.Frame
import DoEvent.Pointers
import DoEvent.Ids
import DoEvent.Waiters
import DoEvent.Reuse
import DoEvent.Wakeups
import DoEvent.WaitCall
import DoEvent.Closing
import DoEvent.Freed
import DoEvent.Calls
import DoEvent.Sequential
import DoEvent.Effects
import DoEvent.IdCalls
import DoEvent.Queries
import DoEvent.Reopen
import DoEvent.Release
import DoEvent.Confinement
import DoEvent.Validity
import DoEvent.Destroy
import DoEvent.Transition.Linear
import DoEvent.History
import DoEvent.Linearization
import DoEvent.Counting
import DoEvent.Owners
import DoEvent.Domains
import DoEvent.InfoArray
import DoEvent.Transition.Commute
import DoEvent.Commuting
import DoEvent.Shared.Ring
import DoEvent.Shared.RwLock
import DoEvent.Locked.Machine
import DoEvent.Locked.Discipline
import DoEvent.Locked.Invariant
import DoEvent.Locked.Snapshot
import DoEvent.Locked.Sequence
import DoEvent.Locked.Refinement
import DoEvent.Transition.Simulation
import DoEvent.Shared.Total
import DoEvent.X86.RwLock
import DoEvent.X86.Machine
import DoEvent.X86.Refinement
import DoEvent.Locked.Abstraction
import DoEvent.Locked.Atomicity
import DoEvent.X86.Serial
import DoEvent.X86.Table
import DoEvent.Queue.Machine
import DoEvent.Queue.Invariant
import DoEvent.Queue.Preservation
import DoEvent.Queue.WakeLoop
import DoEvent.Queue.CountLoop
import DoEvent.Queue.Refinement
import DoEvent.Shared.Ticket
import DoEvent.Queue.Ticket
import DoEvent.Queue.Fairness
import DoEvent.Registry
