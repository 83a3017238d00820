import PolicyDialects.Text.Chars
import PolicyDialects.Text.Search
import PolicyDialects.Text.Numeral
import PolicyDialects.Text.Quoted
import PolicyDialects.Text.Shown
import PolicyDialects.Binary64.Basic
import PolicyDialects.Binary64.Decimal
import PolicyDialects.Json.Reader
import PolicyDialects.Names
import PolicyDialects.Filter.Expression
import PolicyDialects.Filter.Token
import PolicyDialects.Filter.Grammar
import PolicyDialects.Filter.Parser
import PolicyDialects.Cel.Tree
import PolicyDialects.Cel.Token
import PolicyDialects.Cel.Parser
import PolicyDialects.Cel.Meaning
import PolicyDialects.Cel.Evaluation
import PolicyDialects.Condition
import PolicyDialects.Idql.Subject
import PolicyDialects.Idql.Policy
import PolicyDialects.Idql.Meaning
import PolicyDialects.Gcp.Mapping
import PolicyDialects.Store
import PolicyDialects.Cedar.Document
import PolicyDialects.Cedar.Trial
import PolicyDialects.Cedar.Lexical
import PolicyDialects.Cedar.Reader
import PolicyDialects.Cedar.Meaning
import PolicyDialects.Provider
import PolicyDialects.Cedar.Language.Token
import PolicyDialects.Cedar.Language.Check
import PolicyDialects.Proofs.Text.Literals
import PolicyDialects.Proofs.Text.Joined
import PolicyDialects.Proofs.Text.Search
import PolicyDialects.Proofs.Binary64.RoundTrip
import PolicyDialects.Proofs.Filter.Word
import PolicyDialects.Proofs.Filter.Canonical
import PolicyDialects.Proofs.Filter.Tokens
import PolicyDialects.Proofs.Filter.Reading
import PolicyDialects.Proofs.Filter.RoundTrip
import PolicyDialects.Proofs.Outcome
import PolicyDialects.Proofs.Cel.Names
import PolicyDialects.Proofs.Cel.Import
import PolicyDialects.Proofs.Condition.Import
import PolicyDialects.Proofs.Cel.Tokens
import PolicyDialects.Proofs.Cel.Literals
import PolicyDialects.Proofs.Cel.Reading
import PolicyDialects.Proofs.Cel.Grammar
import PolicyDialects.Proofs.Cel.Fragment
import PolicyDialects.Proofs.Cel.Spelling
import PolicyDialects.Proofs.Condition.Export
import PolicyDialects.Proofs.Filter.Soundness
import PolicyDialects.Proofs.Condition.RoundTrip
import PolicyDialects.Proofs.Cedar.Lexical
import PolicyDialects.Proofs.Cedar.Reading
import PolicyDialects.Proofs.Cedar.Bodies
import PolicyDialects.Proofs.Cedar.Export
import PolicyDialects.Proofs.Filter.Completeness
import PolicyDialects.Proofs.Cedar.RoundTrip
import PolicyDialects.Proofs.Cedar.Folding
import PolicyDialects.Proofs.Cedar.ThroughIdql
import PolicyDialects.Proofs.Filter.Paths
import PolicyDialects.Proofs.Condition.Refusal
import PolicyDialects.Proofs.Filter.Reread
import PolicyDialects.Proofs.Filter.Stability
import PolicyDialects.Proofs.Condition.Usable
import PolicyDialects.Proofs.Condition.Importable
import PolicyDialects.Proofs.Cel.Scanned
import PolicyDialects.Proofs.Condition.PlainPaths
import PolicyDialects.Proofs.Condition.Settling
import PolicyDialects.Proofs.Cedar.Permissions
import PolicyDialects.Proofs.Cedar.Recovery
import PolicyDialects.Proofs.Cedar.Settling
import PolicyDialects.Proofs.Cedar.Survival
import PolicyDialects.Proofs.Cedar.OpenQuotes
import PolicyDialects.Proofs.Cedar.Reprinting
import PolicyDialects.Proofs.Gcp.Grouping
import PolicyDialects.Proofs.Gcp.RoundTrip
import PolicyDialects.Proofs.Json.Reading
import PolicyDialects.Proofs.Json.Records
import PolicyDialects.Proofs.Gcp.Text
import PolicyDialects.Proofs.Store.Programs
import PolicyDialects.Proofs.Store.Entries
import PolicyDialects.Proofs.Provider.Contents
import PolicyDialects.Proofs.Provider.Reconciling
import PolicyDialects.Proofs.Provider.Runs
import PolicyDialects.Proofs.Store.Age
import PolicyDialects.Proofs.Store.Operations
import PolicyDialects.Proofs.Store.Listing
import PolicyDialects.Proofs.Store.Replacing
import PolicyDialects.Proofs.Provider.AllOrNothing
import PolicyDialects.Proofs.Provider.StableEntries
import PolicyDialects.Proofs.Names.Building
import PolicyDialects.Proofs.Names.Renaming
import PolicyDialects.Proofs.Cedar.EntityLiterals
import PolicyDialects.Proofs.Cedar.Scopes
import PolicyDialects.Proofs.Exchange
import PolicyDialects.Proofs.Cedar.ActionEntities
import PolicyDialects.Proofs.Condition.Integers
import PolicyDialects.Proofs.Condition.NegatedOperands
import PolicyDialects.Proofs.Condition.Depth
import PolicyDialects.Proofs.Filter.Diagnostics
import PolicyDialects.Proofs.Condition.Constants
import PolicyDialects.Proofs.Cedar.Layout
import PolicyDialects.Proofs.Cedar.Spelling
import PolicyDialects.Proofs.Cedar.Spacing
import PolicyDialects.Proofs.Cedar.Language.Locality
import PolicyDialects.Proofs.Cedar.Language.Scanning
import PolicyDialects.Proofs.Cedar.Language.DocumentTokens
import PolicyDialects.Proofs.Cedar.Language.Entities
import PolicyDialects.Proofs.Cedar.Language.Policies
import PolicyDialects.Proofs.Cedar.Seen
import PolicyDialects.Proofs.Cedar.Validity
import PolicyDialects.Proofs.Condition.ExportLevels
import PolicyDialects.Proofs.Cedar.PrefixedEntities
import PolicyDialects.Proofs.Cedar.Containment
