import TripleIndex.Command.Run
import TripleIndex.Decimal.Basic
import TripleIndex.Filter
import TripleIndex.Http.Service
import TripleIndex.Identifier
import TripleIndex.Json.Reader
import TripleIndex.Json.Writer
import TripleIndex.Log
import TripleIndex.Main
import TripleIndex.NTriples
import TripleIndex.Proofs.Alias
import TripleIndex.Proofs.Ancestry
import TripleIndex.Proofs.Batch
import TripleIndex.Proofs.Catalog
import TripleIndex.Proofs.Changes
import TripleIndex.Proofs.Composition
import TripleIndex.Proofs.Confinement
import TripleIndex.Proofs.Consistency
import TripleIndex.Proofs.Dictionary
import TripleIndex.Proofs.Failure
import TripleIndex.Proofs.Fetching
import TripleIndex.Proofs.Files
import TripleIndex.Proofs.Filter
import TripleIndex.Proofs.FilterOrder
import TripleIndex.Proofs.Generality
import TripleIndex.Proofs.Ingestion
import TripleIndex.Proofs.Iri
import TripleIndex.Proofs.Json.Number
import TripleIndex.Proofs.Json.Reading
import TripleIndex.Proofs.Json.Spelling
import TripleIndex.Proofs.Layout
import TripleIndex.Proofs.Lines
import TripleIndex.Proofs.Listing
import TripleIndex.Proofs.Loading
import TripleIndex.Proofs.Log
import TripleIndex.Proofs.Lookup
import TripleIndex.Proofs.Mirror
import TripleIndex.Proofs.NTriples
import TripleIndex.Proofs.Neighbours
import TripleIndex.Proofs.Numbering
import TripleIndex.Proofs.Order
import TripleIndex.Proofs.PatternLine
import TripleIndex.Proofs.Printing
import TripleIndex.Proofs.Query
import TripleIndex.Proofs.QueryLine
import TripleIndex.Proofs.Refinement
import TripleIndex.Proofs.Replay
import TripleIndex.Proofs.RunComparison
import TripleIndex.Proofs.Seams
import TripleIndex.Proofs.Service
import TripleIndex.Proofs.Sharing
import TripleIndex.Proofs.Submission
import TripleIndex.Proofs.TripleStore
import TripleIndex.Proofs.TypedSubjects
import TripleIndex.QueryLine
import TripleIndex.Resolution
import TripleIndex.Settings
import TripleIndex.Term
import TripleIndex.Text.Blank
import TripleIndex.Text.Lines
import TripleIndex.Text.Printable
import TripleIndex.Text.Utf8
import TripleIndex.TripleStore
