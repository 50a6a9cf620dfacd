import MobSkills.Catalog.Basic
import MobSkills.Catalog.File
import MobSkills.Catalog.Registry
import MobSkills.Catalog.Schema
import MobSkills.Catalog.Search
import MobSkills.Catalog.Standard
import MobSkills.Command.Arguments
import MobSkills.Command.Files
import MobSkills.Command.Run
import MobSkills.Command.Settings
import MobSkills.Completion.Context
import MobSkills.Completion.Suggestion
import MobSkills.Definition
import MobSkills.Json.Basic
import MobSkills.Json.Definition
import MobSkills.Json.Line
import MobSkills.Json.Read
import MobSkills.Json.Write
import MobSkills.Line.Basic
import MobSkills.Line.Block
import MobSkills.Line.Group
import MobSkills.Line.Listing
import MobSkills.Line.Params
import MobSkills.Line.Parse
import MobSkills.Line.Problem
import MobSkills.Line.Render
import MobSkills.Line.Token
import MobSkills.Line.Value
import MobSkills.Main
import MobSkills.Number.Binary64
import MobSkills.Number.Decimal
import MobSkills.Number.Rounding
import MobSkills.Number.Shortest
import MobSkills.Project.Format
import MobSkills.Project.Load
import MobSkills.Project.Source
import MobSkills.Text.Ascii
import MobSkills.Text.Blank
import MobSkills.Text.Bytes
import MobSkills.Text.Lines
import MobSkills.Text.Printable
import MobSkills.Text.Reader
import MobSkills.Toml.Basic
import MobSkills.Toml.Decode
import MobSkills.Toml.Parse
import MobSkills.Toml.Print
import MobSkills.Toml.Quote
import MobSkills.Toml.Scalar
import MobSkills.Toml.Tables
import MobSkills.Toml.Text
import MobSkills.Validation.Cycles
import MobSkills.Validation.Definition
import MobSkills.Validation.Issue
import MobSkills.Validation.Project
import MobSkills.Validation.Skill
import MobSkills.Proofs.Number.Rounding
import MobSkills.Proofs.Text.Keyed
import MobSkills.Proofs.Line.Lexeme
import MobSkills.Proofs.Line.Balance
import MobSkills.Proofs.Validation.Cycles
import MobSkills.Proofs.Line.Clauses
import MobSkills.Proofs.Line.Acceptance
import MobSkills.Proofs.Line.Spelling
import MobSkills.Proofs.Line.Braces
import MobSkills.Proofs.Line.RoundTrip
import MobSkills.Proofs.Line.Canonical
import MobSkills.Proofs.Line.TriggerText
import MobSkills.Proofs.Line.ConditionText
import MobSkills.Proofs.Line.TailText
import MobSkills.Proofs.Validation.Export
import MobSkills.Proofs.Catalog.Index
import MobSkills.Proofs.Catalog.Alias
import MobSkills.Proofs.Line.Stability
import MobSkills.Proofs.Project.Format
import MobSkills.Proofs.Line.TriggerSplit
import MobSkills.Proofs.Project.Leniency
import MobSkills.Proofs.Validation.Reference
import MobSkills.Proofs.Completion.Reading
import MobSkills.Proofs.Completion.Slot
import MobSkills.Proofs.Completion.Choice
import MobSkills.Proofs.Line.Quoting
import MobSkills.Proofs.Line.Tiling
import MobSkills.Proofs.Line.BrokenLine
import MobSkills.Proofs.Completion.Reference
import MobSkills.Proofs.Line.Lockstep
import MobSkills.Proofs.Line.Pointing
import MobSkills.Proofs.Line.Layout
import MobSkills.Proofs.Line.EndMarker
import MobSkills.Proofs.Line.Seams
import MobSkills.Proofs.Catalog.Repetition
import MobSkills.Proofs.Number.Overflow
import MobSkills.Proofs.Line.ValueLine
import MobSkills.Proofs.Line.NumberText
import MobSkills.Proofs.Line.BareText
import MobSkills.Proofs.Line.Sealed
import MobSkills.Proofs.Line.Block
import MobSkills.Proofs.Line.KeyOrder
import MobSkills.Proofs.Validation.Parts
import MobSkills.Proofs.Validation.Blanks
import MobSkills.Proofs.Validation.Reordering
import MobSkills.Proofs.Validation.LetterCase
import MobSkills.Proofs.Line.Strays
import MobSkills.Proofs.Project.Loading
import MobSkills.Proofs.Text.Reader
import MobSkills.Proofs.Toml.Limits
import MobSkills.Proofs.Toml.Itemized
import MobSkills.Proofs.Toml.Equality
import MobSkills.Proofs.Toml.Traversal
import MobSkills.Proofs.Project.Decoding
import MobSkills.Proofs.Project.Frame
import MobSkills.Proofs.Project.Coverage
import MobSkills.Proofs.Validation.Accounting
import MobSkills.Proofs.Validation.Warnings
import MobSkills.Proofs.Completion.Splice
import MobSkills.Proofs.Completion.Agreement
import MobSkills.Proofs.Catalog.Search
import MobSkills.Proofs.Line.Respacing
import MobSkills.Proofs.Json.Syntax
import MobSkills.Proofs.Json.Number
import MobSkills.Proofs.Json.Record
import MobSkills.Proofs.Json.Storage
