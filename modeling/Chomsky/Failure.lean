import Chomsky.Grammar.Validity

/-!
# Failures

Why an operation on a grammar gives no result.
-/

namespace Chomsky

inductive Failure where
  /-- The grammar, or what would become of it, is not well formed. -/
  | malformed (defect : Malformed)
  /-- A rule has more nullable positions than are allowed. -/
  | expansionLimit (r : Rule) (positions : Nat) (limit : Int)
  /-- A new nonterminal would have the name of another symbol. -/
  | nameTaken (name : String)
  /-- New nonterminals would have no name but their number. -/
  | emptyStem
  /-- A rule that stops binarization. -/
  | notReduced (r : Rule)
  /-- The grammar generates no strings. -/
  | emptyLanguage (start : Nonterminal)
  /-- A nonterminal is looked up that the grammar does not declare. -/
  | undeclared (A : Nonterminal)
  | negativeLength
deriving DecidableEq, Repr

def Failure.message : Failure → String
  | malformed defect => defect.message
  | expansionLimit r positions limit =>
    s!"rule {r.text} has {positions} nullable positions, more than the limit of {limit}"
  | nameTaken name =>
    s!"cannot introduce nonterminal {Text.quoted name}; the name is already in use"
  | emptyStem => "prefix cannot be empty"
  | notReduced r => s!"grammar may not contain epsilon rules or unary rules: {r.text}"
  | emptyLanguage start => s!"the start symbol {start.name} does not generate any strings"
  | undeclared A => A.describe
  | negativeLength => "max_length cannot be negative"

/-- The grammar itself, if it is well formed. -/
def Grammar.checked (g : Grammar) : Except Failure Grammar := g.validated.mapError .malformed

end Chomsky
