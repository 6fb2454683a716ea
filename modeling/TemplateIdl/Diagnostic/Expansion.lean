import TemplateIdl.Span

/-!
# Expansion errors — why templates cannot be expanded

- `ExpansionFault`, the causes
- `ExpansionError`, a cause with its place, and its `message`
-/

namespace TemplateIdl

/-- Why a declaration cannot be expanded. -/
inductive ExpansionFault where
  /-- A template got another number of types than it has parameters. -/
  | arityMismatch (name : String) (expected got : Nat)
  /-- `This` stands where no class encloses it. -/
  | unresolvedSelf (declaration : String)
  /-- A typedef names a declaration that does not exist. -/
  | unresolvedTarget (name : String)
  /-- A typedef names several declarations. -/
  | ambiguousTarget (name : String) (count : Nat)
  /-- Two different instances generate one name. -/
  | nameCollision (name first second : String)
deriving DecidableEq

/-- A cause and the place that it concerns. -/
structure ExpansionError where
  fault : ExpansionFault
  span : Span
deriving DecidableEq

/-- What is wrong, without the place. -/
def ExpansionFault.text : ExpansionFault → String
  | .arityMismatch name expected got =>
    "template '" ++ name ++ "' expects " ++ expected.repr ++ " argument(s), got " ++ got.repr
  | .unresolvedSelf declaration =>
    "'This' used outside of a class in '" ++ declaration ++ "'"
  | .unresolvedTarget name => "typedef target '" ++ name ++ "' not found"
  | .ambiguousTarget name count =>
    "typedef target '" ++ name ++ "' is ambiguous (" ++ count.repr ++ " candidates)"
  | .nameCollision name first second =>
    "generated name '" ++ name ++ "' is produced by both " ++ first ++ " and " ++ second

/-- The message for a reader. -/
def ExpansionError.message (e : ExpansionError) : String :=
  "at " ++ e.span.text ++ ": " ++ e.fault.text

end TemplateIdl
