import StackCompiler.Main
import StackCompiler.Proofs.Grammar
import StackCompiler.Proofs.Reading
import StackCompiler.Proofs.Levels
import StackCompiler.Proofs.Soundness
import StackCompiler.Proofs.Completeness
import StackCompiler.Proofs.Bindings
import StackCompiler.Proofs.Nodes
import StackCompiler.Proofs.Checked
import StackCompiler.Proofs.Lowered
import StackCompiler.Proofs.Limits
import StackCompiler.Proofs.Agreement
import StackCompiler.Proofs.Sessions
import StackCompiler.Proofs.StackDepth
import StackCompiler.Proofs.Accesses
import StackCompiler.Proofs.Initialization
import StackCompiler.Proofs.Decoding
import StackCompiler.Proofs.Comparison
import StackCompiler.Proofs.Execution
import StackCompiler.Proofs.Folding
import StackCompiler.Proofs.Relocation
import StackCompiler.Proofs.Scanning
import StackCompiler.Proofs.Joining
import StackCompiler.Proofs.Pooling
import StackCompiler.Proofs.Constancy
import StackCompiler.Proofs.Layout
import StackCompiler.Proofs.Diagnostics
import StackCompiler.Proofs.WellFormed
import StackCompiler.Proofs.Renaming
import StackCompiler.Proofs.Widths
import StackCompiler.Proofs.NormalForm
import StackCompiler.Proofs.Exactness
import StackCompiler.Proofs.Sequences
import StackCompiler.Proofs.Members
import StackCompiler.Proofs.Values
import StackCompiler.Proofs.Merging
import StackCompiler.Proofs.Overflow
import StackCompiler.Proofs.Effects
import StackCompiler.Proofs.Scopes
import StackCompiler.Proofs.Spacing
import StackCompiler.Proofs.Ranges
import StackCompiler.Proofs.Jumps
import StackCompiler.Proofs.Numerals
import StackCompiler.Proofs.Immediates
