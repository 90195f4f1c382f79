import LamaRv.Compiler.Emit
import LamaRv.Compiler.EmitSpec
import LamaRv.Compiler.Flow
import LamaRv.Compiler.Worklist
import LamaRv.Compiler.Heights
import LamaRv.Compiler.Completeness
import LamaRv.Compiler.Frames
import LamaRv.Lib.Rv64Stack
import LamaRv.Lib.TaggedInt
import LamaRv.Compiler.CallExec
import LamaRv.Compiler.CallTransparent
import LamaRv.Compiler.Arguments
import LamaRv.Runtime.Sexp
import LamaRv.Runtime.Infix
import LamaRv.Compiler.Constructors
import LamaRv.Bytecode
import LamaRv.Compiler.CodeExec
import LamaRv.Compiler.Operators
import LamaRv.Compiler.Locations
import LamaRv.Compiler.StackOps
import LamaRv.Compiler.Variables
import LamaRv.Compiler.FrameWords
import LamaRv.Disasm
import LamaRv.DecodersAgree
import LamaRv.Compiler.Contract
import LamaRv.Lib.Marking
import LamaRv.Runtime.Compact
import LamaRv.Runtime.References
import LamaRv.Runtime.Relocate
import LamaRv.Compiler.Immediates
import LamaRv.Compiler.StringText
import LamaRv.Lib.Pages
import LamaRv.Lib.WordBytes
import LamaRv.Lib.WrappedOrder
import LamaRv.Loading
import LamaRv.Runtime.AddressSpace
import LamaRv.Runtime.Calls
import LamaRv.Runtime.Comparison
import LamaRv.Runtime.Construct
import LamaRv.Runtime.Hashing
import LamaRv.Runtime.Slide
import LamaRv.Runtime.StringBuf
import LamaRv.Runtime.Printing
import LamaRv.Runtime.Graph
import LamaRv.Runtime.HeapRuns
import LamaRv.Compiler.Functions
import LamaRv.Lib.Interaction
import LamaRv.Runtime.Access
import LamaRv.Runtime.ObjectStore
import LamaRv.Runtime.Shown
import LamaRv.Runtime.Transparency
import LamaRv.Compiler.FileMachine
import LamaRv.Runtime.Commands
import LamaRv.Compiler.FrameSound
import LamaRv.Compiler.OutputLabels
