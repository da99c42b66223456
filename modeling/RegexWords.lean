import RegexWords.Captures
import RegexWords.CodeRange
import RegexWords.CommandLine
import RegexWords.Enumeration
import RegexWords.Json
import RegexWords.Main
import RegexWords.Notice
import RegexWords.Options
import RegexWords.Options.Encoding
import RegexWords.Pattern
import RegexWords.Pattern.Fault
import RegexWords.Pattern.Lexeme
import RegexWords.Pattern.Reader
import RegexWords.Plan
import RegexWords.Plan.Texts
import RegexWords.Provenance
import RegexWords.Provenance.Encoding
import RegexWords.Provenance.Outline
import RegexWords.Provenance.Snapshot
import RegexWords.Pull
import RegexWords.Session
import RegexWords.Source
import RegexWords.Source.Odometer
import RegexWords.Source.Repetition
import RegexWords.Text.Digits
import RegexWords.Text.Printable
import RegexWords.Text.Quoted
import RegexWords.Text.Replace
import RegexWords.Proofs.Trail
import RegexWords.Proofs.Trail.Product
import RegexWords.Proofs.Trail.Power
import RegexWords.Proofs.Trail.Plan
import RegexWords.Proofs.Trail.Listing
import RegexWords.Proofs.Trail.Pattern
import RegexWords.Proofs.Words
import RegexWords.Proofs.Trail.Values
import RegexWords.Proofs.Language
import RegexWords.Proofs.Agreement
import RegexWords.Proofs.Leaks
import RegexWords.Proofs.Record
import RegexWords.Proofs.Resolution
import RegexWords.Proofs.Run
import RegexWords.Proofs.Backreferences
import RegexWords.Proofs.Recall
import RegexWords.Proofs.Rendering
import RegexWords.Proofs.Reading.Braces
import RegexWords.Proofs.Rendering.Lexeme
import RegexWords.Proofs.Rendering.RoundTrip
import RegexWords.Proofs.Reading
import RegexWords.Proofs.Reading.WellFormed
import RegexWords.Proofs.Reading.Pieces
import RegexWords.Proofs.Reading.Continuation
import RegexWords.Proofs.Reading.Failure
import RegexWords.Proofs.Reading.Locality
import RegexWords.Proofs.Isolation
import RegexWords.Proofs.Trail.Nesting
import RegexWords.Proofs.Trail.Append
import RegexWords.Proofs.Trail.Size
import RegexWords.Proofs.ClosedForm
import RegexWords.Proofs.Trail.History
import RegexWords.Proofs.Trail.Watched
import RegexWords.Proofs.Demand
import RegexWords.Proofs.Replacement
import RegexWords.Proofs.Nesting
import RegexWords.Proofs.Assertions
import RegexWords.Proofs.Renumbering
import RegexWords.Proofs.Reading.Alternation
import RegexWords.Proofs.Alternation
import RegexWords.Proofs.Derivation
import RegexWords.Proofs.Counting
import RegexWords.Proofs.Endless
import RegexWords.Proofs.Quoted
import RegexWords.Proofs.Outline
import RegexWords.Proofs.Outline.Unambiguous
import RegexWords.Proofs.Json
import RegexWords.Proofs.CommandLine
import RegexWords.Proofs.Reading.Quantifiers
import RegexWords.Proofs.Trail.Relay
import RegexWords.Proofs.Effects
import RegexWords.Proofs.Reading.Progress
