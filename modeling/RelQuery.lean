import RelQuery.Bindings.Json
import RelQuery.Bytes.Compile
import RelQuery.Dialect.Document
import RelQuery.Execution
import RelQuery.Request.Json
import RelQuery.Version
import RelQuery.Proofs.Text.Cutting
import RelQuery.Proofs.Text.Lexing
import RelQuery.Proofs.Text.Nesting
import RelQuery.Proofs.Text.OpenQuote
import RelQuery.Proofs.Text.Outside
import RelQuery.Proofs.Text.Pieces
import RelQuery.Proofs.Text.Replacing
import RelQuery.Proofs.Text.Search
import RelQuery.Proofs.Text.Trim
import RelQuery.Proofs.Text.Words
import RelQuery.Proofs.Bindings.History
import RelQuery.Proofs.Bindings.Merge
import RelQuery.Proofs.Bindings.Union
import RelQuery.Proofs.Bytes.Compile
import RelQuery.Proofs.Bytes.Cursor
import RelQuery.Proofs.Bytes.Parts
import RelQuery.Proofs.Bytes.Safety
import RelQuery.Proofs.Bytes.Scanner
import RelQuery.Proofs.Bytes.Slices
import RelQuery.Proofs.Bytes.Units
import RelQuery.Proofs.Condition.Acceptance
import RelQuery.Proofs.Condition.Alternation
import RelQuery.Proofs.Condition.Column
import RelQuery.Proofs.Condition.Compile
import RelQuery.Proofs.Condition.Composition
import RelQuery.Proofs.Condition.Containment
import RelQuery.Proofs.Condition.Dangling
import RelQuery.Proofs.Condition.Draft
import RelQuery.Proofs.Condition.Expression
import RelQuery.Proofs.Condition.Grammar
import RelQuery.Proofs.Condition.Leaf
import RelQuery.Proofs.Condition.Literals
import RelQuery.Proofs.Condition.Outline
import RelQuery.Proofs.Condition.Parameters
import RelQuery.Proofs.Condition.Parentheses
import RelQuery.Proofs.Condition.Parts
import RelQuery.Proofs.Condition.Place
import RelQuery.Proofs.Condition.Printing
import RelQuery.Proofs.Condition.Qualified
import RelQuery.Proofs.Condition.Quotes
import RelQuery.Proofs.Condition.Reading
import RelQuery.Proofs.Condition.Replacement
import RelQuery.Proofs.Condition.Seam
import RelQuery.Proofs.Condition.Spans
import RelQuery.Proofs.Condition.Sql
import RelQuery.Proofs.Condition.SqlReading
import RelQuery.Proofs.Condition.Trimming
import RelQuery.Proofs.Entity.Columns
import RelQuery.Proofs.Entity.Declared
import RelQuery.Proofs.Filter.Dangling
import RelQuery.Proofs.Filter.Lambda
import RelQuery.Proofs.Filter.Literals
import RelQuery.Proofs.Include.Attempts
import RelQuery.Proofs.Include.Joins
import RelQuery.Proofs.Include.Parameters
import RelQuery.Proofs.Include.Passes
import RelQuery.Proofs.Json.Escape
import RelQuery.Proofs.Json.Printing
import RelQuery.Proofs.Order.RoundTrip
import RelQuery.Proofs.Request.Json
import RelQuery.Proofs.Request.Paging
import RelQuery.Proofs.Request.QueryString
import RelQuery.Proofs.Script.Blank
import RelQuery.Proofs.Script.Bound
import RelQuery.Proofs.Script.Dangling
import RelQuery.Proofs.Script.Origins
import RelQuery.Proofs.Script.Paging
import RelQuery.Proofs.Script.Play
import RelQuery.Proofs.Script.Projection
import RelQuery.Proofs.Script.Stages
import RelQuery.Proofs.Script.Trace
