import DoomFishUtils.Library.Transition
import DoomFishUtils.Library.History
import DoomFishUtils.Library.Ledger
import DoomFishUtils.Library.LapCursor
import DoomFishUtils.Library.Words
import DoomFishUtils.Library.Text
import DoomFishUtils.Library.Utf8
import DoomFishUtils.Library.SortedEntries
import DoomFishUtils.Library.Registry
import DoomFishUtils.Library.Outcome
import DoomFishUtils.Library.Cells
import DoomFishUtils.Library.Pools
import DoomFishUtils.Library.Unwind
import DoomFishUtils.Library.Traced
import DoomFishUtils.Library.Sections
import DoomFishUtils.Library.Custody
import DoomFishUtils.Library.Views
import DoomFishUtils.Waker
import DoomFishUtils.Registration
import DoomFishUtils.AtomicWaker.Protocol
import DoomFishUtils.AtomicWaker.Exclusion
import DoomFishUtils.AtomicWaker.Atomic
import DoomFishUtils.AtomicWaker.Linearization
import DoomFishUtils.AtomicWaker.Orderings
import DoomFishUtils.AtomicWaker.Waiting
import DoomFishUtils.AtomicWaker.Wakeups
import DoomFishUtils.AtomicWaker.Users
import DoomFishUtils.FfiString.Model
import DoomFishUtils.FfiString.Buffers
import DoomFishUtils.FfiString.Owned
import DoomFishUtils.FourCharCode
import DoomFishUtils.PanicSafe.Model
import DoomFishUtils.PanicSafe.Containment
import DoomFishUtils.CallbackContext.Model
import DoomFishUtils.CallbackContext.Lifetime
import DoomFishUtils.Spsc.Ring
import DoomFishUtils.Spsc.Protocol
import DoomFishUtils.Spsc.Invariant
import DoomFishUtils.Spsc.Solo
import DoomFishUtils.Spsc.Steps
import DoomFishUtils.Spsc.Accesses
import DoomFishUtils.Spsc.Exclusion
import DoomFishUtils.Spsc.Answers
import DoomFishUtils.Spsc.WeakMemory
import DoomFishUtils.Spsc.RaceFree
import DoomFishUtils.Spsc.Length
import DoomFishUtils.Spsc.Consumer
import DoomFishUtils.Spsc.Delivery
import DoomFishUtils.Spsc.Words
import DoomFishUtils.Spsc.Sequential
import DoomFishUtils.Spsc.SharedWords
import DoomFishUtils.Stream.Model
import DoomFishUtils.Stream.Sections
import DoomFishUtils.Stream.Waiters
import DoomFishUtils.Stream.Conservation
import DoomFishUtils.Stream.Producers
import DoomFishUtils.Stream.Closing
import DoomFishUtils.Stream.Calls
import DoomFishUtils.Mpsc.Model
import DoomFishUtils.Mpsc.Accounting
import DoomFishUtils.Mpsc.Wakeups
import DoomFishUtils.Oneshot.Model
import DoomFishUtils.Oneshot.Delivery
import DoomFishUtils.Oneshot.Wakeups
import DoomFishUtils.Completion.Model
import DoomFishUtils.Completion.Balance
import DoomFishUtils.Completion.UnitCompletion
import DoomFishUtils.Completion.Waiting
import DoomFishUtils.Mutex.Model
import DoomFishUtils.Mutex.Exclusion
import DoomFishUtils.Mutex.Calls
import DoomFishUtils.JoinAll.Model
import DoomFishUtils.JoinAll.Outputs
import DoomFishUtils.Futures.Model
import DoomFishUtils.Futures.Contract
import DoomFishUtils.Futures.Tasks
import DoomFishUtils.SlotMap.Model
import DoomFishUtils.SlotMap.FreeList
import DoomFishUtils.SlotMap.Lookup
import DoomFishUtils.SlotMap.Refinement
import DoomFishUtils.SlotMap.Unwinding
import DoomFishUtils.SlotMap.Generations
import DoomFishUtils.SlotMap.Consistency
import DoomFishUtils.SlotMap.Secondary
import DoomFishUtils.SlotMap.Ages
import DoomFishUtils.SlotMap.Disjoint
import DoomFishUtils.SlotMap.Occupancy
import DoomFishUtils.ArrayVec.Model
import DoomFishUtils.ArrayVec.Storage
import DoomFishUtils.ArrayVec.Runs
import DoomFishUtils.ArrayVec.Refinement
import DoomFishUtils.ArrayVec.Soundness
import DoomFishUtils.SmallVec.Model
import DoomFishUtils.SmallVec.Runs
import DoomFishUtils.SmallVec.Dedup
import DoomFishUtils.SmallVec.Refinement
import DoomFishUtils.SmallVec.Equivalence
import DoomFishUtils.SmallVec.Unwinding
import DoomFishUtils.ArrayVec.Unwinding
import DoomFishUtils.ArrayVec.Leaks
import DoomFishUtils.ArrayVec.Survival
import DoomFishUtils.Json.Value
import DoomFishUtils.Json.Reader
import DoomFishUtils.Json.Grammar
import DoomFishUtils.Json.Boundary
import DoomFishUtils.Json.Numbers
import DoomFishUtils.Json.Strings
import DoomFishUtils.Json.Sound
import DoomFishUtils.Json.Complete
import DoomFishUtils.Json.RoundTrip
import DoomFishUtils.Json.Trace
import DoomFishUtils.Json.Safety
import DoomFishUtils.Json.Integers
import DoomFishUtils.Json.Decoding
