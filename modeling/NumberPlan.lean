import NumberPlan.Checked
import NumberPlan.Digit
import NumberPlan.DigitSet
import NumberPlan.Pattern.Basic
import NumberPlan.Pattern.Reading
import NumberPlan.Automaton.Basic
import NumberPlan.Automaton.Subset
import NumberPlan.Automaton.Merge
import NumberPlan.Automaton.Numbering
import NumberPlan.Program.MapField
import NumberPlan.Program.Instruction
import NumberPlan.Program.Execution
import NumberPlan.Program.Access
import NumberPlan.Program.Listing
import NumberPlan.Program.Blocks
import NumberPlan.Program.Layout
import NumberPlan.Program.Compile
import NumberPlan.Regex.CharSet
import NumberPlan.Regex.Expr
import NumberPlan.Regex.Search
import NumberPlan.Regex.Escape
import NumberPlan.Regex.Bracket
import NumberPlan.Regex.Term
import NumberPlan.Regex.Reading
import NumberPlan.Regex.Cache
import NumberPlan.Regex.Lru
import NumberPlan.Text.Space
import NumberPlan.Text.Word
import NumberPlan.Text.Utf8
import NumberPlan.Text.SortedTable
import NumberPlan.Wire.BigEndian
import NumberPlan.Wire.Varint
import NumberPlan.Wire.Message
import NumberPlan.Record.Basic
import NumberPlan.Record.Encoding
import NumberPlan.Region
import NumberPlan.Matching
import NumberPlan.Classify
import NumberPlan.Classifier
import NumberPlan.Metadata.Error
import NumberPlan.Metadata.Collection
import NumberPlan.Metadata.FileName
import NumberPlan.Metadata.Registry
import NumberPlan.Metadata.Store
import NumberPlan.Metadata.Archive
import NumberPlan.Metadata.Source
import NumberPlan.Metadata.Session
import NumberPlan.Threads.Guarded
import NumberPlan.Regex.SharedCache
import NumberPlan.Metadata.Loading
import NumberPlan.Prefixes.Error
import NumberPlan.Prefixes.ModifiedUtf8
import NumberPlan.Prefixes.Decoder
import NumberPlan.Prefixes.Storage
import NumberPlan.Prefixes.Map
import NumberPlan.Prefixes.Text
import NumberPlan.Prefixes.Access
import NumberPlan.Prefixes.Mapping
import NumberPlan.Prefixes.FileReader
import NumberPlan.Prefixes.Requests
import NumberPlan.Prefixes.SharedReader
import NumberPlan.Proofs.Digit
import NumberPlan.Proofs.Checked
import NumberPlan.Proofs.Text.Entries
import NumberPlan.Proofs.Text.Runs
import NumberPlan.Proofs.Text.SortedTable
import NumberPlan.Proofs.Text.Utf8
import NumberPlan.Proofs.Pattern.Slots
import NumberPlan.Proofs.Pattern.Grammar
import NumberPlan.Proofs.Pattern.Language
import NumberPlan.Proofs.Automaton.Minimal
import NumberPlan.Proofs.Automaton.Subset
import NumberPlan.Proofs.Automaton.Merge
import NumberPlan.Proofs.Automaton.Traversal
import NumberPlan.Proofs.Automaton.Canonical
import NumberPlan.Proofs.Automaton.Isomorphism
import NumberPlan.Proofs.Wire.BigEndian
import NumberPlan.Proofs.Wire.Message
import NumberPlan.Proofs.Record.Encoding
import NumberPlan.Proofs.Program.MapField
import NumberPlan.Proofs.Program.BlockShape
import NumberPlan.Proofs.Program.Execution
import NumberPlan.Proofs.Program.Instruction
import NumberPlan.Proofs.Program.Canonical
import NumberPlan.Proofs.Program.Trace
import NumberPlan.Proofs.Program.LongerInput
import NumberPlan.Proofs.Program.Access
import NumberPlan.Proofs.Program.GroupIndices
import NumberPlan.Proofs.Program.Sizing
import NumberPlan.Proofs.Program.Emission
import NumberPlan.Proofs.Program.Listing
import NumberPlan.Proofs.Program.Placement
import NumberPlan.Proofs.Program.Correctness
import NumberPlan.Proofs.Program.Language
import NumberPlan.Proofs.Program.Compile
import NumberPlan.Proofs.Program.PatternAutomaton
import NumberPlan.Proofs.Program.Merging
import NumberPlan.Proofs.Program.LeastSizes
import NumberPlan.Proofs.Program.WellFormed
import NumberPlan.Proofs.Regex.Cache
import NumberPlan.Proofs.Regex.Lru
import NumberPlan.Proofs.Regex.Recency
import NumberPlan.Proofs.Regex.SharedCache
import NumberPlan.Proofs.Regex.Places
import NumberPlan.Proofs.Regex.Language
import NumberPlan.Proofs.Regex.Steady
import NumberPlan.Proofs.Regex.Groups
import NumberPlan.Proofs.Regex.Anchoring
import NumberPlan.Proofs.Matching
import NumberPlan.Proofs.Classifier
import NumberPlan.Proofs.Prefixes.Search
import NumberPlan.Proofs.Prefixes.ModifiedUtf8
import NumberPlan.Proofs.Prefixes.Decoder
import NumberPlan.Proofs.Prefixes.Storage
import NumberPlan.Proofs.Prefixes.Build
import NumberPlan.Proofs.Prefixes.Layouts
import NumberPlan.Proofs.Prefixes.RoundTrip
import NumberPlan.Proofs.Prefixes.Saving
import NumberPlan.Proofs.Prefixes.Lines
import NumberPlan.Proofs.Prefixes.Access
import NumberPlan.Proofs.Prefixes.Lookup
import NumberPlan.Proofs.Prefixes.Candidates
import NumberPlan.Proofs.Prefixes.Truncation
import NumberPlan.Proofs.Prefixes.Mapping
import NumberPlan.Proofs.Prefixes.Locale
import NumberPlan.Proofs.Prefixes.Dump
import NumberPlan.Proofs.Prefixes.Requests
import NumberPlan.Proofs.Prefixes.AreaCodes
import NumberPlan.Proofs.Metadata.Registry
import NumberPlan.Proofs.Metadata.Store
import NumberPlan.Proofs.Metadata.Archive
import NumberPlan.Proofs.Metadata.Session
import NumberPlan.Proofs.Metadata.History
import NumberPlan.Proofs.Threads.Guarded
import NumberPlan.Proofs.Regex.Sharing
import NumberPlan.Proofs.Prefixes.Sharing
import NumberPlan.Proofs.Metadata.Loading
