import Cocolog.Lib.Runs
import Cocolog.Lib.Ledger
import Cocolog.Lib.Scan
import Cocolog.Lib.Probe
import Cocolog.Lib.Arrays
import Cocolog.Lib.Trees
import Cocolog.Lib.TreeOrder
import Cocolog.Lib.Words
import Cocolog.Lib.Double
import Cocolog.Lib.Wire
import Cocolog.Lib.Alike
import Cocolog.Lib.Hashed
import Cocolog.Lib.Ring
import Cocolog.Lib.Loop
import Cocolog.Text.Utf8
import Cocolog.Arith.Exact
import Cocolog.Arith.Evaluate
import Cocolog.Arith.Integers
import Cocolog.Arith.Rationals
import Cocolog.Arith.Powm
import Cocolog.Term.Cell
import Cocolog.Term.Memory
import Cocolog.Term.Views
import Cocolog.Term.Unify
import Cocolog.Term.Number
import Cocolog.Term.Knots
import Cocolog.Term.Order
import Cocolog.Term.Compare
import Cocolog.Term.Standard
import Cocolog.Term.Total
import Cocolog.Store.Index
import Cocolog.Store.Pred
import Cocolog.Store.Records
import Cocolog.Store.Invariant
import Cocolog.Store.Edits
import Cocolog.Store.Select
import Cocolog.Store.Keys
import Cocolog.Store.Answers
import Cocolog.Store.View
import Cocolog.Store.Snapshot
import Cocolog.Store.Updates
import Cocolog.Store.Freeze
import Cocolog.Gc.Bits
import Cocolog.Lib.Sites
import Cocolog.Gc.Machine
import Cocolog.Gc.Mark
import Cocolog.Gc.Collect
import Cocolog.Gc.Moves
import Cocolog.Gc.Trail
import Cocolog.Gc.Chain
import Cocolog.Gc.Preserve
import Cocolog.Heap.Undo
import Cocolog.Heap.Unify
import Cocolog.State.Image
import Cocolog.State.Thaw
import Cocolog.State.Decode
import Cocolog.State.Restore
import Cocolog.State.Sections
import Cocolog.State.RoundTrip
import Cocolog.State.Closed
import Cocolog.State.WellFormed
import Cocolog.State.Upgrade
import Cocolog.Copy.Laid
import Cocolog.Copy.Build
import Cocolog.Copy.Put
import Cocolog.Copy.Acyclic
import Cocolog.Copy.Factor
import Cocolog.Copy.Meetings
import Cocolog.Copy.Factors
import Cocolog.Copy.Mend
import Cocolog.Copy.Get
import Cocolog.Copy.Weight
import Cocolog.Copy.RoundTrip
import Cocolog.Copy.Reread
import Cocolog.Copy.Occurs
import Cocolog.Copy.Shared
import Cocolog.Copy.Ceiling
import Cocolog.Copy.Varmap
import Cocolog.Copy.Epochs
import Cocolog.Green.Barrier
import Cocolog.Green.Exclusive
import Cocolog.Green.World
import Cocolog.Green.Bounds
import Cocolog.Green.Runs
import Cocolog.Green.Channels
import Cocolog.Green.Delivery
import Cocolog.Green.Status
import Cocolog.Green.Resumes
import Cocolog.Compact.Walks
import Cocolog.Compact.Granted
import Cocolog.Compact.Model
import Cocolog.Compact.Failure
import Cocolog.Compact.Copies
import Cocolog.Compact.Codes
import Cocolog.Compact.Roots
import Cocolog.Compact.Rekey
import Cocolog.Compact.Renewal
import Cocolog.Tables.Reclaim
import Cocolog.Tables.Sharing
import Cocolog.Lib.Pipeline
import Cocolog.Zigurat.Window
import Cocolog.Zigurat.Batch
import Cocolog.Lib.Spans
import Cocolog.Regex.Global
import Cocolog.Json.Numbers
import Cocolog.Lib.Answers
import Cocolog.Lib.Intake
import Cocolog.Lib.Json
import Cocolog.Json.Reader
import Cocolog.Json.Accepts
import Cocolog.Json.Documents
import Cocolog.Json.Writer
import Cocolog.Json.RoundTrip
import Cocolog.Lib.Taking
import Cocolog.WebSocket.Frame
import Cocolog.WebSocket.RoundTrip
import Cocolog.WebSocket.Utf8
import Cocolog.WebSocket.Conversation
import Cocolog.WebSocket.Closing
import Cocolog.WebSocket.Messages
import Cocolog.WebSocket.Delivery
import Cocolog.Zigurat.Conn
import Cocolog.Zigurat.Fields
import Cocolog.Zigurat.Reads
import Cocolog.Lib.Strides
import Cocolog.Syntax.Chars
import Cocolog.Syntax.Lexer
import Cocolog.Syntax.Parser
import Cocolog.Syntax.RawWalk
import Cocolog.Syntax.Literals
import Cocolog.Syntax.Progress
import Cocolog.Syntax.Moves
import Cocolog.Syntax.Loads
import Cocolog.Syntax.Loads
import Cocolog.Arith.Reduce
import Cocolog.Lib.Gaps
import Cocolog.Compact.Drops
import Cocolog.Lib.Brent
import Cocolog.Copy.ListCycles
import Cocolog.Tables.Names
import Cocolog.Store.Ordinals
import Cocolog.Lib.Sha1
import Cocolog.Arith.Naturals
import Cocolog.WebSocket.Base64
import Cocolog.WebSocket.Digest
import Cocolog.Units.Model
import Cocolog.Units.Numbering
import Cocolog.Units.Links
import Cocolog.Units.Environment
import Cocolog.Lib.Search
import Cocolog.Engine.Model
import Cocolog.Engine.Meaning
import Cocolog.Engine.Frames
import Cocolog.Engine.Fulfils
import Cocolog.Engine.Control
import Cocolog.Engine.Answers
import Cocolog.Engine.Marks
import Cocolog.Engine.Adequacy
import Cocolog.Engine.Findall
import Cocolog.Engine.Forall
import Cocolog.Engine.Loops
