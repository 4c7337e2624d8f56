import Cascade.Main
import Cascade.Walk
import Cascade.NameTable
import Cascade.Sheet.Query
import Cascade.Sheet.Read
import Cascade.Sheet.Store
import Cascade.Sheet.Bench
import Cascade.Sheet.Gather
import Cascade.Sink
import Cascade.Tool.Run
import Cascade.Proofs.Stable
import Cascade.Proofs.Reader.Language
import Cascade.Proofs.Reader.Lines
import Cascade.Proofs.Sheet.Reading
import Cascade.Proofs.Sheet.Chunks
import Cascade.Proofs.Sheet.RoundTrip
import Cascade.Proofs.Walk.Placement
import Cascade.Proofs.Builder.Rules
import Cascade.Proofs.Sheet.Winner
import Cascade.Proofs.Sheet.Reformat
import Cascade.Proofs.Names
import Cascade.Proofs.Sheet.Entries
import Cascade.Proofs.Tool.Again
import Cascade.Proofs.Sheet.Genuine
import Cascade.Proofs.Sheet.History
import Cascade.Proofs.Sheet.Earliest
import Cascade.Proofs.Sheet.Multiset
import Cascade.Proofs.Reader.Refusal
import Cascade.Proofs.Reader.Token
import Cascade.Proofs.Reader.Pieces
import Cascade.Proofs.Builder.Tokens
import Cascade.Proofs.Reader.Stream
import Cascade.Proofs.Sheet.Concat
import Cascade.Proofs.Selector.WellFormed
import Cascade.Proofs.Reader.Completion
import Cascade.Proofs.Walk.Search
import Cascade.Proofs.Sheet.Renumbered
import Cascade.Proofs.Sheet.Undisturbed
import Cascade.Proofs.Sheet.Appended
import Cascade.Proofs.Reader.Stop
import Cascade.Proofs.Reader.Braces
import Cascade.Proofs.Selector.Rank
import Cascade.Proofs.Selector.Readback
import Cascade.Proofs.Walk.Relaxed
import Cascade.Proofs.Walk.Calls
import Cascade.Proofs.Sheet.Guarded
import Cascade.Proofs.Sheet.Partition
import Cascade.Proofs.Sheet.Delivery
import Cascade.Proofs.Tool.Frame
