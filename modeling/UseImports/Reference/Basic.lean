import UseImports.Name.Basic
import UseImports.Text.Span

/-!
# References

A reference is a place of the code where a name is used as a type or called as a function. Each
reference is found by one rule.
-/

namespace UseImports

/-- What a name is used as. -/
inductive ReferenceKind where
  | type
  | function
deriving DecidableEq, Repr

/-- The rules by which references are found (`UsageRule`). -/
inductive Rule where
  /-- `new A`, `instanceof A` -/
  | keywordSingle
  /-- `extends A, B`, `implements A, B` -/
  | keywordList
  /-- `catch (A | B` -/
  | catchClause
  /-- `A::` -/
  | staticAccess
  /-- `(A $x`, `, A&B ...$x` -/
  | parameterHint
  /-- `): A {`, `): A;`, `): A =>` -/
  | returnType
  /-- `private readonly A $x` -/
  | propertyType
  /-- `#[A` -/
  | attribute
  /-- `use A, B;` in the body of a class -/
  | traitUse
  /-- `f(` for an imported function -/
  | functionCall
deriving DecidableEq, Repr

/-- The name of a rule. -/
def Rule.label : Rule → String
  | .keywordSingle => "keyword_single"
  | .keywordList => "keyword_list"
  | .catchClause => "catch_clause"
  | .staticAccess => "static_access"
  | .parameterHint => "parameter_hint"
  | .returnType => "return_type"
  | .propertyType => "property_type"
  | .attribute => "attribute"
  | .traitUse => "trait_use"
  | .functionCall => "function_call"

/-- A use of a name (`UsageReference`). -/
structure Reference where
  span : Span
  name : String
  kind : ReferenceKind
  rule : Rule
deriving DecidableEq, Repr

/-- The name has a single segment (`is_bare`). -/
def Reference.isBare (r : Reference) : Bool :=
  UseImports.isBare r.name

/-- What is referred to, and how: a reference without its place. -/
def Reference.meaning (r : Reference) : String × ReferenceKind × Rule :=
  (r.name, r.kind, r.rule)

end UseImports
