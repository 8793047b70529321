import Chomsky.CommandLine.Disk
import Chomsky.NormalForm
import Chomsky.Text.Numeral

/-!
# Options

The words of the command line are read in two passes. The first one tells options from operands, and
completes long options that are cut short; the second one gives options their values, from left to
right. The command takes no operands. The last of several values for one option counts.
-/

namespace Chomsky.CommandLine

/-- An option without a value. -/
inductive Flag where
  | augmentStart
  | noDeduplicate
  | failOnEmpty
deriving DecidableEq, Repr

/-- An option with a value. -/
inductive Field where
  | input
  | output
  | log
  | freshPrefix
  | maxNullablePositions
deriving DecidableEq, Repr

inductive Switch where
  | help
  | flag (f : Flag)
  | field (f : Field)
deriving DecidableEq, Repr

namespace Switch

/-- The options in the order in which the usage names them. -/
def all : List Switch :=
  [help, field .input, field .output, field .log, flag .augmentStart, flag .noDeduplicate,
   field .freshPrefix, field .maxNullablePositions, flag .failOnEmpty]

def name : Switch → String
  | help => "--help"
  | field .input => "--input"
  | field .output => "--output"
  | field .log => "--log"
  | flag .augmentStart => "--augment-start"
  | flag .noDeduplicate => "--no-deduplicate"
  | field .freshPrefix => "--fresh-prefix"
  | field .maxNullablePositions => "--max-nullable-positions"
  | flag .failOnEmpty => "--fail-on-empty"

/-- How errors name an option. -/
def label : Switch → String
  | help => "-h/--help"
  | s => s.name

/-- The option of which this is the full name. -/
def ofName? (name : String) : Option Switch :=
  if name = "-h" then some help else all.find? (·.name = name)

/-- The options whose names begin like this. -/
def completions (start : List Char) : List Switch :=
  all.filter fun s => start.isPrefixOf s.name.toList

end Switch

/-- What is wrong with a command line. -/
inductive UsageError where
  | ambiguous (word : String) (candidates : List Switch)
  | unrecognized (words : List String)
  | valueMissing (s : Switch)
  | notInteger (s : Switch) (value : String)
  /-- An option without a value is given one. -/
  | valueIgnored (s : Switch) (value : String)
deriving DecidableEq, Repr

def UsageError.message : UsageError → String
  | ambiguous word candidates =>
    s!"ambiguous option: {word} could match " ++ ", ".intercalate (candidates.map Switch.name)
  | unrecognized words => "unrecognized arguments: " ++ " ".intercalate words
  | valueMissing s => s!"argument {s.label}: expected one argument"
  | notInteger s value => s!"argument {s.label}: invalid int value: {Text.quoted value}"
  | valueIgnored s value => s!"argument {s.label}: ignored explicit argument {Text.quoted value}"

/-- What a word of the command line is. -/
inductive Word where
  | operand (text : String)
  /-- An option, and the value that is attached to it with an equals sign. -/
  | switch (s : Switch) (attached : Option String)
  /-- The short option for help, with more short options attached. -/
  | cluster (more : List Char)
  | unknown (text : String)
deriving DecidableEq, Repr

namespace Word

/-- Splits a word at its first equals sign. -/
def splitValue (cs : List Char) : List Char × Option String :=
  match cs.dropWhile (· ≠ '=') with
  | [] => (cs, none)
  | _ :: value => (cs.takeWhile (· ≠ '='), some (String.ofList value))

/-- Digits, or a decimal point with digits behind it and perhaps in front of it. -/
def isUnsignedNumber (cs : List Char) : Bool :=
  let isDigit (c : Char) : Bool := (Text.digit? c).isSome
  match cs.dropWhile isDigit with
  | [] => !cs.isEmpty
  | '.' :: decimals => !decimals.isEmpty && decimals.all isDigit
  | _ => false

/-- A number behind a minus sign. One line feed at the end does not count. -/
def isNegativeNumber (cs : List Char) : Bool :=
  match if cs.getLast? = some '\n' then cs.dropLast else cs with
  | '-' :: digits => isUnsignedNumber digits
  | _ => false

/-- A word that begins with a dash and is no option. Negative numbers and texts with spaces are
meant as operands. -/
def notOption (cs : List Char) : Word :=
  let text := String.ofList cs
  if isNegativeNumber cs || cs.contains ' ' then operand text else unknown text

/-- An option with a value attached to its full name. The characters of a value of the short option
for help count as more short options. -/
def attach (name : List Char) (s : Switch) (value : String) : Word :=
  if name = ['-', 'h'] && !value.isEmpty then cluster value.toList else switch s (some value)

/-- A word that begins with a dash but is not the full name of an option. -/
def ofDashed (cs : List Char) : Except UsageError Word :=
  let (name, value) := splitValue cs
  match Switch.ofName? (String.ofList name), value with
  | some s, some value => .ok (attach name s value)
  | _, _ =>
    match cs with
    | '-' :: '-' :: _ =>
      match Switch.completions name with
      | [] => .ok (notOption cs)
      | [s] => .ok (.switch s value)
      | candidates => .error (.ambiguous (String.ofList cs) candidates)
    | '-' :: 'h' :: more => .ok (.cluster more)
    | _ => .ok (notOption cs)

def ofString (word : String) : Except UsageError Word :=
  match Switch.ofName? word with
  | some s => .ok (.switch s none)
  | none =>
    match word.toList with
    | '-' :: c :: more => ofDashed ('-' :: c :: more)
    | _ => .ok (.operand word)

/-- The words of a command line. Behind a double dash, which is no option itself, there are only
operands. -/
def ofStrings : List String → Except UsageError (List Word)
  | [] => .ok []
  | word :: rest =>
    if word = "--" then .ok (.unknown word :: rest.map .operand)
    else do return (← ofString word) :: (← ofStrings rest)

end Word

/-- What the command is asked to do. -/
structure Settings where
  input : Option Path := none
  output : Option Path := none
  log : Option Path := none
  config : Config := {}
deriving DecidableEq, Repr

namespace Settings

def setFlag (c : Settings) : Flag → Settings
  | .augmentStart =>
    { c with config := { c.config with epsilon := { c.config.epsilon with augmentStart := true } } }
  | .noDeduplicate => { c with config := { c.config with deduplicate := false } }
  | .failOnEmpty => { c with config := { c.config with allowEmpty := false } }

def setField (c : Settings) (f : Field) (value : String) : Except UsageError Settings :=
  match f with
  | .input => .ok { c with input := some (.ofString value) }
  | .output => .ok { c with output := some (.ofString value) }
  | .log => .ok { c with log := some (.ofString value) }
  | .freshPrefix => .ok { c with config := { c.config with stem := value } }
  | .maxNullablePositions =>
    match Text.integer? value with
    | none => .error (.notInteger (.field f) value)
    | some n =>
      let epsilon := { c.config.epsilon with maxNullablePositions := some n }
      .ok { c with config := { c.config with epsilon } }

end Settings

inductive Request where
  | help
  | normalize (settings : Settings)
deriving DecidableEq, Repr

namespace Request

/-- The characters attached to a short option for help that it has no use for, if any. An `h` repeats
the option, so they begin with the first other character. -/
def ignoredValue? (more : List Char) : Option String :=
  match more.dropWhile (· = 'h') with
  | [] => none
  | rest => some (String.ofList rest)

/-- Acts on the words from left to right. `strays` are the words so far that are not options. -/
def ofWords (c : Settings) (strays : List String) : List Word → Except UsageError Request
  | [] => if strays.isEmpty then .ok (.normalize c) else .error (.unrecognized strays)
  | .operand text :: rest => ofWords c (strays ++ [text]) rest
  | .unknown text :: rest => ofWords c (strays ++ [text]) rest
  | .cluster more :: _ =>
    match ignoredValue? more with
    | none => .ok .help
    | some value => .error (.valueIgnored .help value)
  | .switch (.field f) (some value) :: rest => do ofWords (← c.setField f value) strays rest
  | .switch (.field f) none :: .operand value :: rest => do
    ofWords (← c.setField f value) strays rest
  | .switch (.field f) none :: _ => .error (.valueMissing (.field f))
  | .switch s (some value) :: _ => .error (.valueIgnored s value)
  | .switch .help none :: _ => .ok .help
  | .switch (.flag f) none :: rest => ofWords (c.setFlag f) strays rest

def ofArguments (args : List String) : Except UsageError Request := do
  ofWords {} [] (← Word.ofStrings args)

end Request

end Chomsky.CommandLine
