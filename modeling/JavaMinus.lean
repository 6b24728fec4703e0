import JavaMinus.Source.Occurrence
import JavaMinus.Files.Tree
import JavaMinus.Main
import JavaMinus.Proofs.Typing.Passing
import JavaMinus.Proofs.Typing.Scoping
import JavaMinus.Proofs.Evaluation.Execution
import JavaMinus.Proofs.Evaluation.Order
import JavaMinus.Proofs.Lowering.Names
import JavaMinus.Proofs.Parentheses.Alike
import JavaMinus.Proofs.Parentheses.Checks
import JavaMinus.Proofs.Parentheses.Lowering
import JavaMinus.Proofs.Parentheses.Transparency
import JavaMinus.Proofs.Assembly.Receivers
import JavaMinus.Proofs.Assembly.Depths
import JavaMinus.Proofs.Assembly.Endings
import JavaMinus.Proofs.Assembly.Invocations
import JavaMinus.Proofs.Assembly.Linking
import JavaMinus.Proofs.Lowering.ControlFlow
import JavaMinus.Proofs.Assembly.Labels
import JavaMinus.Proofs.Lowering.Decoding
import JavaMinus.Proofs.Ir.RoundTrip
import JavaMinus.Proofs.Lowering.Temporaries
import JavaMinus.Proofs.Typing.Resolution
import JavaMinus.Proofs.Typing.Agreement
import JavaMinus.Proofs.Assembly.Headers
import JavaMinus.Proofs.Source.Parsing
import JavaMinus.Proofs.Assembly.Returns
import JavaMinus.Proofs.Assembly.Dispatch
import JavaMinus.Proofs.Assembly.Storage
import JavaMinus.Proofs.Machine.Assignments
import JavaMinus.Proofs.Machine.Comparisons
import JavaMinus.Proofs.Source.RoundTrip
import JavaMinus.Proofs.Lowering.Constants
import JavaMinus.Proofs.Typing.Conditions
import JavaMinus.Proofs.Typing.Reporting
import JavaMinus.Proofs.Typing.Independence
import JavaMinus.Proofs.Typing.Chains
import JavaMinus.Proofs.Typing.Annotations
import JavaMinus.Proofs.Source.Postorder
import JavaMinus.Proofs.Source.Progress
import JavaMinus.Proofs.Assembly.Registers
import JavaMinus.Proofs.Assembly.Apart
