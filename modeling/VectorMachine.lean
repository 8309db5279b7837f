import VectorMachine.Contract.Naming
import VectorMachine.Contract.Suite
import VectorMachine.Log.Channel
import VectorMachine.Main
import VectorMachine.Proofs.Accelerator.Cacheability
import VectorMachine.Proofs.Accelerator.Runs
import VectorMachine.Proofs.Allocatability
import VectorMachine.Proofs.ArraySizes
import VectorMachine.Proofs.Bindings
import VectorMachine.Proofs.CallDiscipline
import VectorMachine.Proofs.Cancellation
import VectorMachine.Proofs.Elementwise
import VectorMachine.Proofs.Engine.Activation
import VectorMachine.Proofs.Engine.Results
import VectorMachine.Proofs.Faults
import VectorMachine.Proofs.FloatText
import VectorMachine.Proofs.Framing
import VectorMachine.Proofs.GreatestTyping
import VectorMachine.Proofs.HostValues
import VectorMachine.Proofs.IntegerLiterals
import VectorMachine.Proofs.Landings
import VectorMachine.Proofs.Program.Declarations
import VectorMachine.Proofs.Program.ErrorLines
import VectorMachine.Proofs.Program.Listing
import VectorMachine.Proofs.Program.Rendering
import VectorMachine.Proofs.Progress
import VectorMachine.Proofs.Reexecution
import VectorMachine.Proofs.Refinement
import VectorMachine.Proofs.Rewinding
import VectorMachine.Proofs.ShortCircuit
import VectorMachine.Proofs.Store.Nesting
import VectorMachine.Proofs.Store.Representation
import VectorMachine.Proofs.TextLiterals
import VectorMachine.Proofs.Transfers
