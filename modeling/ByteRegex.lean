import ByteRegex.Proofs.Automaton
import ByteRegex.Proofs.Basic
import ByteRegex.Proofs.Bounds
import ByteRegex.Proofs.Buffer.Cursor
import ByteRegex.Proofs.Buffer.Lines
import ByteRegex.Proofs.Buffer.Partition
import ByteRegex.Proofs.Buffer.Place
import ByteRegex.Proofs.Byte.Packed
import ByteRegex.Proofs.Byte.Runs
import ByteRegex.Proofs.Compose
import ByteRegex.Proofs.Expression
import ByteRegex.Proofs.Failure
import ByteRegex.Proofs.Fragment.Edges
import ByteRegex.Proofs.Fragment.Language
import ByteRegex.Proofs.Fragment.Live
import ByteRegex.Proofs.Fragment.Refine
import ByteRegex.Proofs.Fragment.Trim
import ByteRegex.Proofs.Fragment.WellFormed
import ByteRegex.Proofs.Graph.Basic
import ByteRegex.Proofs.Graph.Closure
import ByteRegex.Proofs.Graph.Exact
import ByteRegex.Proofs.Graph.Prune
import ByteRegex.Proofs.Graph.Reduce
import ByteRegex.Proofs.Graph.Renumber
import ByteRegex.Proofs.Graph.Shape
import ByteRegex.Proofs.Literal
import ByteRegex.Proofs.Matrix
import ByteRegex.Proofs.Matrix.Listing
import ByteRegex.Proofs.Merge
import ByteRegex.Proofs.Path
import ByteRegex.Proofs.Pattern.Bracket
import ByteRegex.Proofs.Pattern.Build
import ByteRegex.Proofs.Pattern.Compose
import ByteRegex.Proofs.Pattern.Count
import ByteRegex.Proofs.Pattern.Denotation
import ByteRegex.Proofs.Pattern.Failure
import ByteRegex.Proofs.Pattern.Grammar
import ByteRegex.Proofs.Pattern.Items
import ByteRegex.Proofs.Pattern.Join
import ByteRegex.Proofs.Pattern.Layout
import ByteRegex.Proofs.Pattern.Lexer
import ByteRegex.Proofs.Pattern.Literal
import ByteRegex.Proofs.Pattern.Members
import ByteRegex.Proofs.Pattern.Online
import ByteRegex.Proofs.Pattern.Order
import ByteRegex.Proofs.Pattern.Parse
import ByteRegex.Proofs.Pattern.Postorder
import ByteRegex.Proofs.Pattern.Rearrange
import ByteRegex.Proofs.Pattern.Stream
import ByteRegex.Proofs.Pattern.Walk
import ByteRegex.Proofs.Regex
import ByteRegex.Proofs.Scan.Agree
import ByteRegex.Proofs.Scan.Leftmost
import ByteRegex.Proofs.Scan.Multiline
import ByteRegex.Proofs.Scan.Occurrences
import ByteRegex.Proofs.Scan.Place
import ByteRegex.Proofs.Scan.Run
import ByteRegex.Proofs.Scan.Stream
import ByteRegex.Proofs.Scan.Whole
import ByteRegex.Proofs.Search.Abandoned
import ByteRegex.Proofs.Search.Attempts
import ByteRegex.Proofs.Search.Bounds
import ByteRegex.Proofs.Search.Exploration
import ByteRegex.Proofs.Search.Loop
import ByteRegex.Proofs.Search.Reuse
import ByteRegex.Proofs.Search.Slice
import ByteRegex.Proofs.Search.Trail
import ByteRegex.Proofs.Search.Word
import ByteRegex.Proofs.SortedSet
import ByteRegex.Proofs.StateSet
import ByteRegex.Proofs.Text.Bytes
import ByteRegex.Proofs.Thompson
import ByteRegex.Proofs.Thompson.Built
import ByteRegex.Proofs.Thompson.Failure
import ByteRegex.Proofs.Thompson.FastUnion
import ByteRegex.Proofs.Thompson.Operations
import ByteRegex.Proofs.Thompson.Recursion
import ByteRegex.Proofs.Thompson.Size
import ByteRegex.Proofs.Thompson.Slots
import ByteRegex.Regex
