import RuleCardinality.Chooser
import RuleCardinality.Config
import RuleCardinality.Config.Check
import RuleCardinality.Config.Source
import RuleCardinality.Context
import RuleCardinality.Count
import RuleCardinality.Data.Config
import RuleCardinality.Data.Context
import RuleCardinality.Data.Count
import RuleCardinality.Data.Diagnostic
import RuleCardinality.Data.Object
import RuleCardinality.Decimal.Nearest
import RuleCardinality.Decimal.Plain
import RuleCardinality.Decimal.Shortest
import RuleCardinality.Diagnostic
import RuleCardinality.Event
import RuleCardinality.Fault
import RuleCardinality.Incident
import RuleCardinality.Json.Number
import RuleCardinality.Json.Printer
import RuleCardinality.Json.Reader
import RuleCardinality.Json.Record
import RuleCardinality.Json.Value
import RuleCardinality.Object
import RuleCardinality.Quantities
import RuleCardinality.Random.ChaCha
import RuleCardinality.Random.SipHash
import RuleCardinality.Random.SplitMix
import RuleCardinality.Random.Words
import RuleCardinality.Registry
import RuleCardinality.Rule.Basic
import RuleCardinality.Rule.Draft
import RuleCardinality.Rule.Order
import RuleCardinality.Rule.Render
import RuleCardinality.Rule.Spec
import RuleCardinality.Saturating
import RuleCardinality.Search.Greedy
import RuleCardinality.Search.Odometer
import RuleCardinality.Search.Solve
import RuleCardinality.Search.Splits
import RuleCardinality.Search.Step
import RuleCardinality.Search.Sweep
import RuleCardinality.Search.Transfer
import RuleCardinality.Sum
import RuleCardinality.Text.Blank
import RuleCardinality.Text.Word
import RuleCardinality.Toml.Document
import RuleCardinality.Toml.Scalar
import RuleCardinality.Toml.Table
import RuleCardinality.Validator.Basic
import RuleCardinality.Validator.Check
import RuleCardinality.Validator.Examine
import RuleCardinality.Validator.Validate
import RuleCardinality.View.Basic
import RuleCardinality.View.Demand
import RuleCardinality.View.Range
import RuleCardinality.View.Query
import RuleCardinality.View.Reads
import RuleCardinality.Window
import RuleCardinality.WordSize
import RuleCardinality.Proofs.Shares
import RuleCardinality.Proofs.Search.Splits
import RuleCardinality.Proofs.Search.Contest
import RuleCardinality.Proofs.Search.Greedy
import RuleCardinality.Proofs.Search.Transfer
import RuleCardinality.Proofs.Search.Step
import RuleCardinality.Proofs.Search.Odometer
import RuleCardinality.Proofs.Search.Sweep
import RuleCardinality.Proofs.Search.Lexicographic
import RuleCardinality.Proofs.Search.Solve
import RuleCardinality.Proofs.Search.Pace
import RuleCardinality.Proofs.Validator.Targets
import RuleCardinality.Proofs.Validator.Plan
import RuleCardinality.Proofs.Validator.Check
import RuleCardinality.Proofs.Validator.Examine
import RuleCardinality.Proofs.Validator.Validate
import RuleCardinality.Proofs.View.Unguarded
import RuleCardinality.Proofs.Validator.Uncontested
import RuleCardinality.Proofs.View.Child
import RuleCardinality.Proofs.View.Filled
import RuleCardinality.Proofs.View.Flow
import RuleCardinality.Proofs.View.Grouped
import RuleCardinality.Proofs.Validator.Groups
import RuleCardinality.Proofs.Rule.Choice
import RuleCardinality.Proofs.View.Chosen
import RuleCardinality.Proofs.Validator.Alternatives
import RuleCardinality.Proofs.Rule.Derivation
import RuleCardinality.Proofs.Validator.Derivations
import RuleCardinality.Proofs.Validator.Branches
import RuleCardinality.Proofs.Validator.Contents
import RuleCardinality.Proofs.Search.Steady
import RuleCardinality.Proofs.View.Flat
import RuleCardinality.Proofs.Validator.Flat
import RuleCardinality.Proofs.Rule.Without
import RuleCardinality.Proofs.View.Without
import RuleCardinality.Proofs.Validator.Without
import RuleCardinality.Proofs.Validator.Selection
import RuleCardinality.Proofs.Rule.Additions
import RuleCardinality.Proofs.Rule.Common
import RuleCardinality.Proofs.View.Reads
import RuleCardinality.Proofs.Validator.Stages
import RuleCardinality.Proofs.View.Active
import RuleCardinality.Proofs.View.Apart
import RuleCardinality.Proofs.Validator.Searchless
import RuleCardinality.Proofs.Validator.Steps
import RuleCardinality.Proofs.Validator.Implied
import RuleCardinality.Proofs.Validator.Written
import RuleCardinality.Proofs.View.Query
import RuleCardinality.Proofs.View.Involved
import RuleCardinality.Proofs.View.Tied
import RuleCardinality.Proofs.View.Hard
import RuleCardinality.Proofs.View.Monotone
import RuleCardinality.Proofs.Rule.Document
import RuleCardinality.Proofs.Rule.Dependency
import RuleCardinality.Proofs.Search.Repair
import RuleCardinality.Proofs.Search.SplitCount
import RuleCardinality.Proofs.Search.Spare
import RuleCardinality.Proofs.Search.Words
import RuleCardinality.Proofs.Validator.Trail
import RuleCardinality.Proofs.View.Exclusion
import RuleCardinality.Proofs.View.Misfits
import RuleCardinality.Proofs.Search.Tickets
