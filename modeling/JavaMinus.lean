import JavaMinus.Compiler
import JavaMinus.Tree.Form
import JavaMinus.Proofs.ThreeAddress.Meaning
import JavaMinus.Proofs.Assembly.Meaning
import JavaMinus.Proofs.Assembly.Balance
import JavaMinus.Proofs.Acceptance
import JavaMinus.Proofs.ThreeAddress.Consistency
import JavaMinus.Proofs.ThreeAddress.TypedExpressions
import JavaMinus.Proofs.ThreeAddress.Soundness
import JavaMinus.Proofs.ThreeAddress.Expansion
import JavaMinus.Proofs.ThreeAddress.Temporaries
import JavaMinus.Proofs.ThreeAddress.Capture
import JavaMinus.Proofs.ThreeAddress.Agreement
import JavaMinus.Proofs.ThreeAddress.Effects
import JavaMinus.Proofs.Completion
import JavaMinus.Proofs.Scopes
import JavaMinus.Proofs.Unbound
import JavaMinus.Proofs.Crossing
import JavaMinus.Proofs.ThreeAddress.Emitted
import JavaMinus.Proofs.ThreeAddress.Faults
import JavaMinus.Proofs.ThreeAddress.Paths
import JavaMinus.Proofs.Arguments
import JavaMinus.Proofs.ThreeAddress.Headers
import JavaMinus.Proofs.ThreeAddress.Passing
import JavaMinus.Proofs.ThreeAddress.Signatures
import JavaMinus.Proofs.ThreeAddress.Mentions
import JavaMinus.Proofs.ThreeAddress.Silent
import JavaMinus.Proofs.ThreeAddress.Static
import JavaMinus.Proofs.Listing
import JavaMinus.Proofs.Graph.Registers
import JavaMinus.Proofs.ThreeAddress.Returns
import JavaMinus.Proofs.Assembly.Labels
import JavaMinus.Proofs.ThreeAddress.Spelling
import JavaMinus.Proofs.Assembly.Arrays
import JavaMinus.Proofs.ThreeAddress.Invocations
import JavaMinus.Proofs.Gate
import JavaMinus.Proofs.Tree.Forest
import JavaMinus.Proofs.ThreeAddress.Resolution
import JavaMinus.Proofs.Tree.Traversal
import JavaMinus.Proofs.Literals
import JavaMinus.Proofs.Requirements
import JavaMinus.Proofs.Assembly.Emittable
import JavaMinus.Proofs.ThreeAddress.Literals
import JavaMinus.Proofs.Loops
import JavaMinus.Proofs.Sinks
import JavaMinus.Proofs.Duplicates
import JavaMinus.Proofs.OpenTails
import JavaMinus.Proofs.Assembly.Locals
import JavaMinus.Proofs.ThreeAddress.Tags
import JavaMinus.Proofs.Assembly.Descriptors
import JavaMinus.Proofs.Imports
import JavaMinus.Proofs.Assignments
import JavaMinus.Proofs.Assembly.Constants
