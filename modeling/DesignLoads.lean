import DesignLoads.Alternative
import DesignLoads.Combination
import DesignLoads.CommandLine.Arguments
import DesignLoads.CommandLine.Report
import DesignLoads.Decimal.Basic
import DesignLoads.Decimal.Layout
import DesignLoads.Decimal.Shortest
import DesignLoads.Extremes
import DesignLoads.Factor
import DesignLoads.Failure
import DesignLoads.Failure.Form
import DesignLoads.Formula.Basic
import DesignLoads.Formula.Expansion
import DesignLoads.Formula.Fault
import DesignLoads.Formula.Operand
import DesignLoads.Formula.Reading
import DesignLoads.Json.Basic
import DesignLoads.Json.Source
import DesignLoads.LoadCase
import DesignLoads.Main
import DesignLoads.NameMap
import DesignLoads.Pattern
import DesignLoads.Proofs.FirstOccurrences
import DesignLoads.Proofs.Formula.Expansion
import DesignLoads.Proofs.Formula.Places
import DesignLoads.Proofs.NotANumber
import DesignLoads.Proofs.Rulebook.Circles
import DesignLoads.Proofs.Rulebook.Inlining
import DesignLoads.Proofs.Rulebook.Marks
import DesignLoads.Proofs.Rulebook.Memoization
import DesignLoads.Proofs.Rulebook.Recomputation
import DesignLoads.Proofs.Rulebook.References
import DesignLoads.Proofs.Session.History
import DesignLoads.Regex.Automaton.Draft
import DesignLoads.Regex.Automaton.Sets
import DesignLoads.Regex.Automaton.Size
import DesignLoads.Regex.Basic
import DesignLoads.Regex.CharSet
import DesignLoads.Regex.Class
import DesignLoads.Regex.Escape
import DesignLoads.Regex.Fault
import DesignLoads.Regex.Library
import DesignLoads.Regex.Reading
import DesignLoads.Regex.Search
import DesignLoads.Rule
import DesignLoads.RuleSet.Basic
import DesignLoads.RuleSet.Version
import DesignLoads.Rulebook.Basic
import DesignLoads.Rulebook.Resolution
import DesignLoads.Session
import DesignLoads.Storage.Disk
import DesignLoads.Storage.Documents
import DesignLoads.Storage.Path
import DesignLoads.Storage.Saving
import DesignLoads.Timestamp
import DesignLoads.Unicode.Alphabetic
import DesignLoads.Unicode.Digit
import DesignLoads.Unicode.Encoding
import DesignLoads.Unicode.Folding
import DesignLoads.Unicode.WhiteSpace
import DesignLoads.Unicode.Word
import DesignLoads.Proofs.Decimal.Magnitude
import DesignLoads.Proofs.Decimal.Numerals
import DesignLoads.Proofs.Formula.Grammar
import DesignLoads.Proofs.Formula.Unambiguity
import DesignLoads.Proofs.Formula.Meaning
import DesignLoads.Proofs.Formula.Soundness
import DesignLoads.Proofs.Formula.Completeness
import DesignLoads.Proofs.Rulebook.Limits
import DesignLoads.Proofs.Rulebook.Locality
import DesignLoads.Proofs.Rulebook.Closure
import DesignLoads.Proofs.Rulebook.Requests
import DesignLoads.Proofs.Session.States
import DesignLoads.Proofs.Formula.Folding
import DesignLoads.Proofs.Formula.Printing
import DesignLoads.Proofs.Formula.NormalForm
import DesignLoads.Proofs.Formula.Leftover
import DesignLoads.Proofs.Decimal.Rounding
import DesignLoads.Proofs.Rule
import DesignLoads.Proofs.Factor
import DesignLoads.Proofs.Decimal.Packing
import DesignLoads.Proofs.Decimal.ToFloat
import DesignLoads.Proofs.Decimal.Arithmetic
import DesignLoads.Proofs.LoadCase
import DesignLoads.Proofs.Hashing
import DesignLoads.Proofs.Rulebook.Invariants
import DesignLoads.Proofs.Session.Bulk
import DesignLoads.Proofs.Session.Canonical
import DesignLoads.Proofs.Combination.Expansion
import DesignLoads.Proofs.Session.Printing
import DesignLoads.Proofs.Json.Numerals
import DesignLoads.Proofs.Json.Strings
import DesignLoads.Proofs.Json.Texts
import DesignLoads.Proofs.Timestamp
import DesignLoads.Proofs.Json.Meaning
import DesignLoads.Proofs.Json.Documents
import DesignLoads.Proofs.Session.Expansion
import DesignLoads.Proofs.Session.Places
import DesignLoads.Proofs.Session.Families
import DesignLoads.Proofs.Session.Factors
import DesignLoads.Proofs.Session.Commutation
import DesignLoads.Proofs.Finiteness
import DesignLoads.Proofs.Session.Magnitude
import DesignLoads.Proofs.Session.Overflow
import DesignLoads.Proofs.RuleSet.Compilation
import DesignLoads.Proofs.Decimal.Order
import DesignLoads.Proofs.Extremes
import DesignLoads.Proofs.LoadCase.Addition
import DesignLoads.Proofs.Combination.Governing
import DesignLoads.Proofs.Session.Attachments
import DesignLoads.Proofs.Storage.Path
import DesignLoads.Proofs.Storage.Disk
import DesignLoads.Proofs.Storage.Saving
