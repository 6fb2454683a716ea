import TemplateIdl.Decl
import TemplateIdl.Decl.Class
import TemplateIdl.Decl.Free
import TemplateIdl.Decl.Signature
import TemplateIdl.Decl.Template
import TemplateIdl.Diagnostic.Expansion
import TemplateIdl.Diagnostic.Failure
import TemplateIdl.Diagnostic.Syntax
import TemplateIdl.Expand.Class
import TemplateIdl.Expand.Expansion
import TemplateIdl.Expand.Free
import TemplateIdl.Expand.Index
import TemplateIdl.Expand.Interface
import TemplateIdl.Expand.Naming
import TemplateIdl.Expand.Product
import TemplateIdl.Expand.Registry
import TemplateIdl.Expand.Substitution
import TemplateIdl.Grammar.Arguments
import TemplateIdl.Grammar.Class
import TemplateIdl.Grammar.Declaration
import TemplateIdl.Grammar.Default
import TemplateIdl.Grammar.Enum
import TemplateIdl.Grammar.Parse
import TemplateIdl.Grammar.Stream
import TemplateIdl.Grammar.Type
import TemplateIdl.Proofs.Decl.Arguments
import TemplateIdl.Proofs.Decl.ClassImage
import TemplateIdl.Proofs.Decl.ClassRead
import TemplateIdl.Proofs.Decl.FileImage
import TemplateIdl.Proofs.Decl.FileRead
import TemplateIdl.Proofs.Decl.Image
import TemplateIdl.Proofs.Decl.Legible
import TemplateIdl.Proofs.Decl.Read
import TemplateIdl.Proofs.Decl.RoundTrip
import TemplateIdl.Proofs.Decl.Spans
import TemplateIdl.Proofs.Decl.Text
import TemplateIdl.Proofs.Decl.WellFormed
import TemplateIdl.Proofs.Decl.Words
import TemplateIdl.Proofs.Expand.Blocks
import TemplateIdl.Proofs.Expand.Collision
import TemplateIdl.Proofs.Expand.Describe
import TemplateIdl.Proofs.Expand.Outcome
import TemplateIdl.Proofs.Expand.Product
import TemplateIdl.Proofs.Expand.Registry
import TemplateIdl.Proofs.Grammar.Capture
import TemplateIdl.Proofs.Grammar.Closing
import TemplateIdl.Proofs.Grammar.Default
import TemplateIdl.Proofs.Grammar.Inclusion
import TemplateIdl.Proofs.Grammar.Repeat
import TemplateIdl.Proofs.Grammar.Run
import TemplateIdl.Proofs.Grammar.Sound
import TemplateIdl.Proofs.Token.Bite
import TemplateIdl.Proofs.Token.Legible
import TemplateIdl.Proofs.Token.Lexes
import TemplateIdl.Proofs.Token.Proper
import TemplateIdl.Proofs.TypeExpr.Image
import TemplateIdl.Proofs.TypeExpr.Read
import TemplateIdl.Proofs.TypeExpr.RoundTrip
import TemplateIdl.Proofs.TypeExpr.Words
import TemplateIdl.Span
import TemplateIdl.Text.Blank
import TemplateIdl.Text.Lines
import TemplateIdl.Text.Position
import TemplateIdl.Text.Uppercase
import TemplateIdl.Token
import TemplateIdl.Token.Fault
import TemplateIdl.Token.Lexed
import TemplateIdl.Token.Piece
import TemplateIdl.TypeExpr
import TemplateIdl.TypeExpr.Conventions
import TemplateIdl.TypeExpr.Cpp
import TemplateIdl.TypeExpr.Printer
import TemplateIdl.Wrap
import TemplateIdl.Proofs.Expand.Lookup
import TemplateIdl.Proofs.Expand.Policy
import TemplateIdl.Proofs.Expand.Order
import TemplateIdl.Proofs.Expand.Instance
import TemplateIdl.Proofs.Expand.Parameters
import TemplateIdl.Proofs.Grammar.Moves
import TemplateIdl.Proofs.Text.Place
import TemplateIdl.Proofs.Token.Layout
import TemplateIdl.Proofs.Grammar.Equation
import TemplateIdl.Proofs.Decl.Relocate
import TemplateIdl.Proofs.Grammar.Compare
import TemplateIdl.Proofs.Decl.Compare
import TemplateIdl.Proofs.Grammar.Extent
import TemplateIdl.Proofs.Decl.Places
import TemplateIdl.Proofs.Grammar.Report
import TemplateIdl.Proofs.Expand.Report
import TemplateIdl.Proofs.Grammar.Mimic
import TemplateIdl.Proofs.Decl.Local
import TemplateIdl.Proofs.Decl.Slice
import TemplateIdl.Proofs.Token.Concat
import TemplateIdl.Proofs.Decl.Concat
import TemplateIdl.Proofs.Decl.Scopes
import TemplateIdl.Proofs.Expand.Types
import TemplateIdl.Proofs.Expand.Concrete
import TemplateIdl.Proofs.Expand.Uses
import TemplateIdl.Proofs.Expand.This
import TemplateIdl.Proofs.Expand.Held
import TemplateIdl.Proofs.Expand.Clash
import TemplateIdl.Proofs.Expand.Faults
import TemplateIdl.Proofs.Expand.Made
import TemplateIdl.Proofs.Expand.Origin
import TemplateIdl.Proofs.Expand.Again
import TemplateIdl.Proofs.TypeExpr.Derivation
import TemplateIdl.Proofs.TypeExpr.Consumes
import TemplateIdl.Proofs.TypeExpr.Accepts
import TemplateIdl.Proofs.Expand.Splice
import TemplateIdl.Proofs.Grammar.Brackets
import TemplateIdl.Proofs.Expand.Spelling
import TemplateIdl.Proofs.Expand.Closed
import TemplateIdl.Proofs.Expand.Copy
import TemplateIdl.Proofs.Expand.Self
import TemplateIdl.Proofs.Expand.Qualifiers
import TemplateIdl.Proofs.Expand.Renaming
import TemplateIdl.Proofs.Expand.Siblings
import TemplateIdl.Proofs.Expand.NewName
import TemplateIdl.Proofs.Expand.Precedence
import TemplateIdl.Proofs.Expand.FirstClash
import TemplateIdl.Proofs.Decl.Names
import TemplateIdl.Proofs.Expand.BasicFlag
import TemplateIdl.Proofs.Expand.Identifiers
import TemplateIdl.Proofs.Token.Spaced
import TemplateIdl.Proofs.Expand.CallName
import TemplateIdl.Proofs.TypeExpr.Conventions
import TemplateIdl.Proofs.Grammar.Directive
import TemplateIdl.Proofs.Grammar.Buffer
import TemplateIdl.Proofs.Grammar.Termination
import TemplateIdl.Proofs.Diagnostic.Caret
