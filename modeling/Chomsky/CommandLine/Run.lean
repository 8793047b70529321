import Chomsky.CommandLine.Options
import Chomsky.CommandLine.Usage
import Chomsky.Event.Recorder
import Chomsky.Grammar.Example
import Chomsky.Grammar.Literal

/-!
# Running the command

The command reads a grammar, brings it into normal form and writes the result. `run` says what comes
of a command line in given `Surroundings` and on a given disk: how the command ends, what it prints,
and the disk afterwards. A wrong argument or grammar ends it with a message; some faults, such as a
missing file, end it at once.

Files are written as the command goes along: the log event by event, the result piece by piece. What
is written before a fault stays.
-/

namespace Chomsky.CommandLine

/-- What ends the command without a message of its own. -/
inductive Fault where
  | disk (fault : Disk.Fault)
  | clock (fault : Event.TimeFault)
  | normalization (failure : Failure)
  /-- A number in the grammar document has too many digits. -/
  | longInteger (cause : Json.Cause)
  /-- A text that is to be written to a file holds lone surrogates. -/
  | unencodable (position : Nat) (surrogates : List Nat)
deriving DecidableEq, Repr

/-- What is said of a text with these surrogates in one run from this position on. -/
def encodingMessage (position : Nat) : List Nat → String
  | [code] =>
    let digits := String.ofList (Text.hex 4 code)
    s!"'utf-8' codec can't encode character '\\u{digits}' in position {position}: " ++
      "surrogates not allowed"
  | codes =>
    s!"'utf-8' codec can't encode characters in position {position}-" ++
      s!"{position + codes.length - 1}: surrogates not allowed"

def Fault.message : Fault → String
  | disk fault => fault.message
  | clock fault => fault.message
  | normalization failure => failure.message
  | longInteger cause => cause.message
  | unencodable position surrogates => encodingMessage position surrogates

/-- What the command finds around it, besides its arguments and the disk. -/
structure Surroundings where
  /-- What the clock shows each time it is looked at. -/
  clock : Nat → Except Event.TimeFault Event.Timestamp
  /-- The lone surrogate for which a character stands. Bytes of an argument that are no UTF-8 reach
  the command as lone surrogates. They can be printed, but a file cannot hold them. -/
  surrogate? : Char → Option Nat := fun _ => none
  /-- The characters of the basic plane stand for themselves. -/
  le_of_surrogate : ∀ c, (surrogate? c).isSome = true → 0x10000 ≤ c.toNat := by simp

namespace Surroundings

/-- Why a file cannot hold the text, if so: the first surrogates in it that stand together. -/
def encodingFault? (w : Surroundings) (text : String) : Option Fault :=
  match text.toList.dropWhile fun c => (w.surrogate? c).isNone with
  | [] => none
  | rest =>
    let run := rest.takeWhile fun c => (w.surrogate? c).isSome
    some (.unencodable (text.length - rest.length) (run.filterMap w.surrogate?))

/-- What a file holds when these texts have been written to it, one after the other, up to the first
one that it cannot hold. -/
def kept (w : Surroundings) (texts : List String) : String :=
  String.join (texts.takeWhile fun text => (w.encodingFault? text).isNone)

/-- The line of the log for the milestone that comes behind so many others. -/
def eventLine (w : Surroundings) (count : Nat) (m : Milestone) : Except Fault String := do
  let now ← (w.clock count).mapError .clock
  let line := (Event.ofMilestone now m).line
  match w.encodingFault? line with
  | none => return line
  | some fault => throw fault

end Surroundings

inductive Ending where
  | exit (status : Nat)
  | fault (fault : Fault)
deriving DecidableEq, Repr

/-- What the command has printed so far, and the disk. -/
structure Console where
  out : String := ""
  err : String := ""
  disk : Disk
deriving DecidableEq, Repr

/-- A part of a run of the command, which may end the run. -/
abbrev Command := ExceptT Ending (StateM Console)

namespace Command

def print (text : String) : Command Unit :=
  modify fun console => { console with out := console.out ++ text }

def printLine (text : String) : Command Unit := print (text ++ "\n")

def warn (line : String) : Command Unit :=
  modify fun console => { console with err := console.err ++ line ++ "\n" }

/-- Ends the run because of what the user asked for. -/
def refuse {α : Type} (message : String) : Command α := do
  modify fun console => { console with err := console.err ++ usage }
  warn s!"normalize_grammar: error: {message}"
  throw (.exit 2)

def orFault {ε α : Type} (fault : ε → Fault) (result : Except ε α) : Command α :=
  match result with
  | .ok a => pure a
  | .error e => throw (.fault (fault e))

def writeFile (p : Path) (text : String) : Command Unit := do
  let disk ← orFault .disk ((← get).disk.write p text)
  modify fun console => { console with disk }

/-- The text with a line feed at the end of every line, whatever ends its lines. -/
def unifyLines : List Char → List Char
  | '\r' :: '\n' :: rest => '\n' :: unifyLines rest
  | '\r' :: rest => '\n' :: unifyLines rest
  | c :: rest => c :: unifyLines rest
  | [] => []

/-- The grammar in a file. -/
def readGrammar (p : Path) : Command Grammar := do
  let text ← orFault .disk ((← get).disk.read p)
  let document := unifyLines text.toList
  match Grammar.read (String.ofList document) with
  | .ok g => return g
  | .error (.literal error) => refuse s!"invalid grammar in {p.text}: {error.message}"
  | .error (.json flaw) =>
    match flaw.cause with
    | .longInteger digits => throw (.fault (.longInteger (.longInteger digits)))
    | _ => refuse s!"invalid grammar in {p.text}: {flaw.message document}"

def inputGrammar : Option Path → Command Grammar
  | some p => do
    printLine s!"reading grammar from {p.text}"
    readGrammar p
  | none => do
    printLine "using the built-in example grammar"
    return Grammar.workedExample

/-- Writes texts to a file, one after the other. -/
def writePieces (w : Surroundings) (p : Path) (pieces : List String) : Command Unit := do
  writeFile p (w.kept pieces)
  if let some fault := pieces.findSome? w.encodingFault? then throw (.fault fault)

/-- Warns of an empty language. -/
def announce : Milestone → Command Unit
  | .emptyLanguage A => warn (Diagnostic.emptyLanguage A).text
  | _ => pure ()

/-- Records the milestones in the log, which holds a text with so many lines by then. A warning
comes before its event. -/
def record (w : Surroundings) (p : Path) (count : Nat) (text : String) :
    List Milestone → Command Unit
  | [] => pure ()
  | m :: rest => do
    announce m
    let line ← orFault id (w.eventLine count m)
    writeFile p (text ++ line)
    record w p (count + 1) (text ++ line) rest

/-- Goes along with a normalization, and keeps a log if there is a path for it. -/
def follow (w : Surroundings) (log : Option Path) (milestones : List Milestone) : Command Unit :=
  match log with
  | none => milestones.forM announce
  | some p => do
    writeFile p ""
    record w p 0 "" milestones

/-- Whether a failure is one that the user's grammar and options may well bring about. -/
def isForeseen : Failure → Bool
  | .emptyLanguage _ => true
  | .expansionLimit _ _ _ => true
  | .nameTaken _ => true
  | _ => false

/-- The grammar that a normalization gives. -/
def conclude : Except Failure Grammar → Command Grammar
  | .ok g => return g
  | .error failure =>
    if isForeseen failure then refuse failure.message
    else throw (.fault (.normalization failure))

def sizeText (g : Grammar) : String :=
  s!"{g.nonterminals.length} nonterminals, {g.rules.length} rules"

/-- Prints the result, and writes it to a file if there is a path for it. -/
def publish (w : Surroundings) (r : Grammar) (output : Option Path) : Command Unit := do
  printLine s!"output: {sizeText r}"
  print r.write
  if let some p := output then
    writePieces w p r.pieces
    printLine s!"wrote {p.text}"

def normalize (w : Surroundings) (settings : Settings) : Command Unit := do
  let g ← inputGrammar settings.input
  printLine s!"input: {sizeText g}"
  let report := g.normalize settings.config
  follow w settings.log report.milestones
  let r ← conclude report.result
  publish w r settings.output

/-- Does what the arguments ask for. -/
def obey (args : List String) (w : Surroundings) : Command Unit :=
  match Request.ofArguments args with
  | .error error => refuse error.message
  | .ok .help => print help
  | .ok (.normalize settings) => normalize w settings

end Command

/-- How a command line ends, and what it leaves behind. -/
def run (args : List String) (w : Surroundings) (disk : Disk) : Ending × Console :=
  match (Command.obey args w).run.run { disk } with
  | (.ok (), console) => (.exit 0, console)
  | (.error ending, console) => (ending, console)

end Chomsky.CommandLine
