import TemplateIdl.Diagnostic.Failure
import TemplateIdl.Expand.Interface
import TemplateIdl.Grammar.Declaration

/-!
# Wrap — from a source text to concrete declarations

- `Interface.wrap`, an interface file parsed and expanded
-/

namespace TemplateIdl

/-- The text of an interface file, parsed and expanded. A text that fails in either step gives
no declarations at all. -/
def Interface.wrap (policy : CollisionPolicy) (source : String) : Except Failure Interface := do
  let m ← (Interface.parse source).mapError .parse
  (m.instantiate policy).mapError .expansion

end TemplateIdl
