import SpanTree.Main
import SpanTree.Proofs.Growth
import SpanTree.Proofs.Nameless
import SpanTree.Proofs.Normalization
import SpanTree.Proofs.Safety
import SpanTree.Tree.Lookup
import SpanTree.Tree.Walk
import SpanTree.Proofs.Acceptance
import SpanTree.Proofs.NameTable
import SpanTree.Proofs.Rollback
import SpanTree.Proofs.History
import SpanTree.Proofs.Agreement
import SpanTree.Proofs.Truncation
import SpanTree.Proofs.Bench
import SpanTree.Proofs.Bounds
import SpanTree.Proofs.Context
import SpanTree.Proofs.Arrangement
import SpanTree.Proofs.Compression
import SpanTree.Proofs.Records
import SpanTree.Proofs.Archive
import SpanTree.Proofs.Ending
import SpanTree.Proofs.Reordering
import SpanTree.Proofs.Limits
import SpanTree.Proofs.References
import SpanTree.Proofs.Occurrences
import SpanTree.Proofs.Repetition
import SpanTree.Proofs.Merging
import SpanTree.Proofs.Addressing
import SpanTree.Proofs.Likeness
import SpanTree.Proofs.Programs
import SpanTree.Proofs.Views
import SpanTree.Proofs.FullMatch
import SpanTree.Proofs.Visiting
import SpanTree.Proofs.Iteration
import SpanTree.Proofs.JsonView
import SpanTree.Proofs.NameGrammar
import SpanTree.Proofs.Rewinding
import SpanTree.Proofs.Words
import SpanTree.Proofs.Packing
import SpanTree.Proofs.ClosingQuote
