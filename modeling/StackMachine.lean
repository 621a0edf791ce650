import StackMachine.Assembly.Basic
import StackMachine.Assembly.Load
import StackMachine.Chunk.Basic
import StackMachine.Chunk.Decode
import StackMachine.Chunk.Emit
import StackMachine.Config
import StackMachine.Decimal.Basic
import StackMachine.Decimal.Shortest
import StackMachine.Error
import StackMachine.Event
import StackMachine.Heap.Allocate
import StackMachine.Heap.Basic
import StackMachine.Heap.Collect
import StackMachine.Heap.Mark
import StackMachine.Listing
import StackMachine.Machine.Basic
import StackMachine.Machine.Call
import StackMachine.Machine.Exec
import StackMachine.Machine.Run
import StackMachine.Machine.Step
import StackMachine.Natives
import StackMachine.Number
import StackMachine.Object
import StackMachine.Opcode
import StackMachine.Proofs.Chunk.Building
import StackMachine.Proofs.Chunk.Decoding
import StackMachine.Proofs.Chunk.Patching
import StackMachine.Proofs.Chunk.Refusal
import StackMachine.Proofs.Chunk.Roundtrip
import StackMachine.Proofs.Heap.Accounting
import StackMachine.Proofs.Heap.Collection
import StackMachine.Proofs.Heap.Correspondence
import StackMachine.Proofs.Heap.Generations
import StackMachine.Proofs.Heap.History
import StackMachine.Proofs.Heap.Interning
import StackMachine.Proofs.Heap.Limit
import StackMachine.Proofs.Heap.Marking
import StackMachine.Proofs.Heap.Reach
import StackMachine.Proofs.Heap.RootOrder
import StackMachine.Proofs.Heap.Settling
import StackMachine.Proofs.Heap.Stability
import StackMachine.Proofs.Heap.Storage
import StackMachine.Proofs.Machine.Atomicity
import StackMachine.Proofs.Machine.Closed
import StackMachine.Proofs.Machine.Containment
import StackMachine.Proofs.Machine.Dangling
import StackMachine.Proofs.Machine.Depth
import StackMachine.Proofs.Machine.Dispatch
import StackMachine.Proofs.Machine.Ends
import StackMachine.Proofs.Machine.Globals
import StackMachine.Proofs.Machine.Hosting
import StackMachine.Proofs.Machine.Isolation
import StackMachine.Proofs.Machine.Landing
import StackMachine.Proofs.Machine.Limits
import StackMachine.Proofs.Machine.Lockstep
import StackMachine.Proofs.Machine.Pins
import StackMachine.Proofs.Machine.Returns
import StackMachine.Proofs.Machine.Stocks
import StackMachine.Proofs.Machine.Strings
import StackMachine.Proofs.Machine.Traces
import StackMachine.Proofs.Machine.Transition
import StackMachine.Proofs.Machine.Tuning
import StackMachine.Proofs.Machine.Verified
import StackMachine.Proofs.Number.Display
import StackMachine.Proofs.Number.Numerals
import StackMachine.Proofs.Number.Rounding
import StackMachine.Proofs.Number.Shortest
import StackMachine.Value
