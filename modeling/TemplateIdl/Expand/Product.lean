import TemplateIdl.Decl.Template

/-!
# Product — choices from several lists

- `product`, every way to choose one element from each list, where the first list varies slowest
- `Template.combinations`, the bindings listed in a template header
-/

namespace TemplateIdl

/-- Every way to choose one element from each list. The first list varies slowest. -/
def product {α : Type} : List (List α) → List (List α)
  | [] => [[]]
  | xs :: rest => xs.flatMap fun x => (product rest).map (x :: ·)

/-- The bindings that a template header lists. -/
def Template.combinations (t : Template) : List (List TypeExpr) :=
  product t.choices

/-- The bindings under which a declaration stands for instances by itself: those that its header
lists, or no bindings once if it has no header. -/
def combinationsOf : Option Template → List (List TypeExpr)
  | some t => t.combinations
  | none => [[]]

end TemplateIdl
