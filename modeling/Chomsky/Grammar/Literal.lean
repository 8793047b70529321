import Chomsky.Grammar.Validity
import Chomsky.Json.Printer
import Chomsky.Json.Reader

/-!
# Grammar literals

The literal of a grammar is a JSON object with the names of its nonterminals (`VN`) and terminals
(`VT`), its productions (`P`), each a pair of a name and a list of names, and the name of its start
symbol (`S`). An empty right side is written as the list of the one name ε, which no symbol may
have. A name in a literal means the nonterminal of that name if there is one, and else the terminal.

`ofLiteral` names the first thing that is wrong with a value. Most messages about it show what was
found, and where that cannot be shown, this is what the value fails with (`loadLiteral`).
-/

namespace Chomsky

/-- A list of names in a literal. -/
inductive NameList where
  | nonterminals
  | terminals
  | rightOf (production : Json)

def NameList.text : NameList → String
  | nonterminals => "VN"
  | terminals => "VT"
  | rightOf production => s!"right side of production {production.describe}"

/-- The production that the text of a list of names shows. -/
def NameList.shown : NameList → List Json
  | nonterminals => []
  | terminals => []
  | rightOf production => [production]

/-- Why a JSON value is not the literal of a grammar. -/
inductive LiteralError where
  | missingField (key : String)
  | notAnObject (found : Json)
  | namesExpected (place : NameList)
  | nameExpected (place : NameList) (found : Json)
  | productionsExpected
  | startNameExpected (found : Json)
  | epsilonDeclared
  | pairExpected (production : Json)
  | leftNameExpected (production : Json)
  | rightListExpected (production : Json)
  | undeclaredName (name : String)
  | leftNotNonterminal (production : Json)
  | epsilonNotAlone (production : Json)
  | undeclaredStartName (name : String)
  | startNotNonterminal (name : String)
  | malformed (defect : Malformed)

/-- Why a value that is no object has no fields. -/
def fieldsUnsupported : Json → String
  | .array _ => "list indices must be integers or slices, not str"
  | .string _ => "string indices must be integers, not 'str'"
  | value => s!"{Text.quoted value.typeName} object is not subscriptable"

def LiteralError.message : LiteralError → String
  | missingField key => s!"grammar literal is missing field {Text.quoted key}"
  | notAnObject found => s!"grammar literal is missing field {fieldsUnsupported found}"
  | namesExpected place => s!"{place.text} must be a list of symbol names"
  | nameExpected place found =>
    s!"{place.text} contains {found.describe}, which is not a symbol name"
  | productionsExpected => "P must be a list of productions"
  | startNameExpected found => s!"S must be a symbol name, not {found.describe}"
  | epsilonDeclared => s!"{epsilon} cannot be declared as a symbol"
  | pairExpected production => s!"production {production.describe} is not an [lhs, rhs] pair"
  | leftNameExpected production =>
    s!"left side of production {production.describe} must be a symbol name"
  | rightListExpected production =>
    s!"right side of production {production.describe} must be a non-empty list"
  | undeclaredName name => s!"symbol {Text.quoted name} is not declared"
  | leftNotNonterminal production =>
    s!"left side of production {production.describe} is not a nonterminal"
  | epsilonNotAlone production =>
    s!"{epsilon} must be the only symbol in production {production.describe}"
  | undeclaredStartName name => s!"start symbol {Text.quoted name} is not declared"
  | startNotNonterminal name => s!"start symbol {Text.quoted name} is not a nonterminal"
  | malformed defect => defect.message

/-- The values that the message of an error shows, in their order. -/
def LiteralError.shown : LiteralError → List Json
  | missingField _ => []
  | notAnObject _ => []
  | namesExpected place => place.shown
  | nameExpected place found => place.shown ++ [found]
  | productionsExpected => []
  | startNameExpected found => [found]
  | epsilonDeclared => []
  | pairExpected production => [production]
  | leftNameExpected production => [production]
  | rightListExpected production => [production]
  | undeclaredName _ => []
  | leftNotNonterminal production => [production]
  | epsilonNotAlone production => [production]
  | undeclaredStartName _ => []
  | startNotNonterminal _ => []
  | malformed _ => []

/-- What a value fails with that is not the literal of a grammar. -/
inductive LiteralFault where
  /-- The grammar is malformed, and the message says why. -/
  | malformed (error : LiteralError)
  /-- The message cannot show what was found. -/
  | unshown (fault : Json.ShowFault)

/-- What comes of an error where messages have room for so many levels. -/
def LiteralError.fault (room : Nat) (error : LiteralError) : LiteralFault :=
  match error.shown.findSome? (Json.showFault? room) with
  | none => .malformed error
  | some fault => .unshown fault

/-- The levels of a production: the pair, its right side, and the names there. There is always room
for them. -/
def productionLevels : Nat := 3

/-- The production with these names on its two sides. -/
def productionLiteral (left : Nonterminal) (right : List String) : Json :=
  .array [.string left.name, .ofStrings (if right.isEmpty then [epsilon] else right)]

/-- The literal with these productions. -/
def grammarLiteral (start : Nonterminal) (productions : List Json) (nonterminals : List Nonterminal)
    (terminals : List Terminal) : Json :=
  .object
    [("VN", .ofStrings (nonterminals.map Nonterminal.name)),
     ("VT", .ofStrings (terminals.map Terminal.name)),
     ("P", .array productions),
     ("S", .string start.name)]

/-- The text of the document that holds a literal. -/
def documentText (literal : Json) : String := literal.indented 0 ++ "\n"

/-- The pieces in which the document is written to a file. -/
def documentPieces (literal : Json) : List String := literal.pieces 0 ++ ["\n"]

namespace Grammar

def ruleLiteral (r : Rule) : Json := productionLiteral r.left (r.right.map Symbol.name)

def toLiteral (g : Grammar) : Json :=
  grammarLiteral g.start (g.rules.map ruleLiteral) g.nonterminals g.terminals

def literalField (literal : Json) (key : String) : Except LiteralError Json :=
  match literal with
  | .object fields =>
    match fields.lookup key with
    | some value => .ok value
    | none => .error (.missingField key)
  | found => .error (.notAnObject found)

/-- The names in a list of names. -/
def literalNames (place : NameList) : Json → Except LiteralError (List String)
  | .array items => items.mapM fun item =>
    match item with
    | .string name => .ok name
    | found => .error (.nameExpected place found)
  | _ => .error (.namesExpected place)

/-- The symbol that a name stands for in a literal. -/
def literalSymbol (nonterminals terminals : List String) (name : String) :
    Except LiteralError Symbol :=
  if nonterminals.contains name then .ok (.nonterminal ⟨name⟩)
  else if terminals.contains name then .ok (.terminal ⟨name⟩)
  else .error (.undeclaredName name)

/-- The two halves of a production. A text of two characters and an object with two fields have two
halves too. -/
def productionHalves? : Json → Option (Json × Json)
  | .array [left, right] => some (left, right)
  | .string s =>
    match s.toList with
    | [left, right] => some (.string (String.singleton left), .string (String.singleton right))
    | _ => none
  | .object [left, right] => some (.string left.1, .string right.1)
  | _ => none

def ruleOfLiteral (nonterminals terminals : List String) (production : Json) :
    Except LiteralError Rule :=
  match productionHalves? production with
  | none => .error (.pairExpected production)
  | some (.string left, .array (first :: rest)) => do
    let names ← literalNames (.rightOf production) (.array (first :: rest))
    match ← literalSymbol nonterminals terminals left with
    | .terminal _ => .error (.leftNotNonterminal production)
    | .nonterminal left =>
      if names.contains epsilon then
        if names.length = 1 then .ok ⟨left, []⟩ else .error (.epsilonNotAlone production)
      else return ⟨left, ← names.mapM (literalSymbol nonterminals terminals)⟩
  | some (.string _, _) => .error (.rightListExpected production)
  | some _ => .error (.leftNameExpected production)

/-- The start symbol. A literal that declares no nonterminal and has no rule need not declare it. -/
def startOfLiteral (nonterminals terminals : List String) (rules : List Rule) (name : String) :
    Except LiteralError Nonterminal :=
  if nonterminals.contains name then .ok ⟨name⟩
  else if terminals.contains name then .error (.startNotNonterminal name)
  else if nonterminals.isEmpty && rules.isEmpty then .ok ⟨name⟩
  else .error (.undeclaredStartName name)

/-- The grammar that a literal stands for. -/
def ofLiteral (literal : Json) : Except LiteralError Grammar := do
  let nonterminals ← literalField literal "VN"
  let terminals ← literalField literal "VT"
  let productions ← literalField literal "P"
  let start ← literalField literal "S"
  let nonterminals ← literalNames .nonterminals nonterminals
  let terminals ← literalNames .terminals terminals
  match productions, start with
  | .array productions, .string start =>
    if nonterminals.contains epsilon || terminals.contains epsilon then throw .epsilonDeclared
    let rules ← productions.mapM (ruleOfLiteral nonterminals terminals)
    let start ← startOfLiteral nonterminals terminals rules start
    let g : Grammar := ⟨start, rules, nonterminals.map .mk, terminals.map .mk⟩
    g.validated.mapError .malformed
  | .array _, found => throw (.startNameExpected found)
  | _, _ => throw .productionsExpected

/-- The grammar that a literal stands for, where messages have room for so many levels beside those
of a production. -/
def loadLiteral (spare : Nat) (literal : Json) : Except LiteralFault Grammar :=
  (ofLiteral literal).mapError (LiteralError.fault (productionLevels + spare))

/-- The text of a grammar document. -/
def write (g : Grammar) : String := documentText g.toLiteral

/-- The pieces of that text, as a file is given them. -/
def pieces (g : Grammar) : List String := documentPieces g.toLiteral

end Grammar

/-- Why a text is not a grammar document. -/
inductive ReadError where
  | json (flaw : Json.Flaw)
  | literal (fault : LiteralError)

/-- The grammar that a document holds. No integer of too many digits comes out of a document. -/
def Grammar.read (document : String) : Except ReadError Grammar :=
  match Json.read document.toList with
  | .error flaw => .error (.json flaw)
  | .ok literal => (ofLiteral literal).mapError .literal

end Chomsky
