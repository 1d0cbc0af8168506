import FlowIR.Proofs.Build.Repeat
import FlowIR.Proofs.Convention.Registers
import FlowIR.Proofs.Emit.Evaluates
import FlowIR.Proofs.Emit.MarkedFunction
import FlowIR.Proofs.Emit.Named
import FlowIR.Proofs.Emit.Returned
import FlowIR.Proofs.Emit.Twin
import FlowIR.Proofs.Emit.Unwinding
import FlowIR.Proofs.Machine.Verified
import FlowIR.Proofs.Perform.Cases
import FlowIR.Proofs.Perform.Outcome
import FlowIR.Proofs.Text
