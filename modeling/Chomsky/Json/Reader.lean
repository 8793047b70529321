import Chomsky.Json.Token

/-!
# Reading JSON

The reader walks over the tokens of a document once, with a stack of the arrays and objects that are
still open. Of two fields with one key the position of the first and the value of the last count.
-/

namespace Chomsky.Json

/-- An array or object that is still open. -/
inductive Frame where
  /-- The items read so far, last first. -/
  | items (done : List Json)
  /-- The fields read so far, and the key of the value that is being read. -/
  | fields (done : List (String × Json)) (key : String)

/-- What may stand next. -/
inductive Expectation where
  | value
  /-- The first item of an array, or its end. -/
  | item
  /-- A key of the object with these fields. -/
  | key (done : List (String × Json))
  /-- The first key of an object, or its end. -/
  | firstKey
  | colon (done : List (String × Json)) (key : String)
  /-- What follows a complete value: a comma, an end, or nothing if no array or object is open. -/
  | separator (value : Json)

structure State where
  stack : List Frame
  expectation : Expectation

/-- A value stands where one may stand. -/
def startValue (stack : List Frame) (here : Nat) : Token → Except Flaw State
  | .openArray => .ok ⟨stack, .item⟩
  | .openObject => .ok ⟨stack, .firstKey⟩
  | .text s => .ok ⟨stack, .separator (.string s)⟩
  | .scalar v => .ok ⟨stack, .separator v⟩
  | .broken flaw => .error flaw
  | _ => .error ⟨.valueExpected, here⟩

def readKey (stack : List Frame) (done : List (String × Json)) (here : Nat) :
    Token → Except Flaw State
  | .text s => .ok ⟨stack, .colon done s⟩
  | .broken flaw =>
    match flaw.cause with
    | .longInteger _ => .error ⟨.keyExpected, here⟩
    | _ => .error flaw
  | _ => .error ⟨.keyExpected, here⟩

/-- The step behind a complete value. -/
def afterValue (stack : List Frame) (v : Json) (here : Nat) (t : Token) : Except Flaw State :=
  match stack, t with
  | [], _ => .error ⟨.extraData, here⟩
  | .items done :: stack, .comma => .ok ⟨.items (v :: done) :: stack, .value⟩
  | .items done :: stack, .closeArray => .ok ⟨stack, .separator (.array (v :: done).reverse)⟩
  | .fields done key :: stack, .comma => .ok ⟨stack, .key (setField done key v)⟩
  | .fields done key :: stack, .closeObject =>
    .ok ⟨stack, .separator (.object (setField done key v))⟩
  | _, _ => .error ⟨.commaExpected, here⟩

def step (s : State) (here : Nat) (t : Token) : Except Flaw State :=
  match s.expectation with
  | .value => startValue s.stack here t
  | .item =>
    match t with
    | .closeArray => .ok ⟨s.stack, .separator (.array [])⟩
    | t => startValue (.items [] :: s.stack) here t
  | .key done => readKey s.stack done here t
  | .firstKey =>
    match t with
    | .closeObject => .ok ⟨s.stack, .separator (.object [])⟩
    | t => readKey s.stack [] here t
  | .colon done key =>
    match t with
    | .colon => .ok ⟨.fields done key :: s.stack, .value⟩
    | _ => .error ⟨.colonExpected, here⟩
  | .separator v => afterValue s.stack v here t

/-- The value of a document that ends at `stop`. -/
def finish (s : State) (stop : Nat) : Except Flaw Json :=
  match s.expectation, s.stack with
  | .separator v, [] => .ok v
  | .separator _, _ => .error ⟨.commaExpected, stop⟩
  | .value, _ => .error ⟨.valueExpected, stop⟩
  | .item, _ => .error ⟨.valueExpected, stop⟩
  | .key _, _ => .error ⟨.keyExpected, stop⟩
  | .firstKey, _ => .error ⟨.keyExpected, stop⟩
  | .colon _ _, _ => .error ⟨.colonExpected, stop⟩

def run (stop : Nat) : State → List (Nat × Token) → Except Flaw Json
  | s, [] => finish s stop
  | s, (here, t) :: rest => do run stop (← step s here t) rest

/-- The value that a document writes. A byte order mark is not accepted. -/
def read (document : List Char) : Except Flaw Json :=
  if document.head? = some '\ufeff' then .error ⟨.byteOrderMark, 0⟩
  else run document.length ⟨[], .value⟩ (tokens document)

def Cause.message : Cause → String
  | valueExpected => "Expecting value"
  | keyExpected => "Expecting property name enclosed in double quotes"
  | colonExpected => "Expecting ':' delimiter"
  | commaExpected => "Expecting ',' delimiter"
  | extraData => "Extra data"
  | unterminatedString => "Unterminated string starting at"
  | controlCharacter => "Invalid control character at"
  | unknownEscape => "Invalid \\escape"
  | badCodePoint => "Invalid \\uXXXX escape"
  | byteOrderMark => "Unexpected UTF-8 BOM (decode using utf-8-sig)"
  | longInteger digits =>
    s!"Exceeds the limit ({Text.maxIntegerDigits} digits) for integer string conversion: " ++
      s!"value has {digits} digits; use sys.set_int_max_str_digits() to increase the limit"

/-- What is wrong with a document, with line and column of the place. -/
def Flaw.message (document : List Char) (flaw : Flaw) : String :=
  let before := document.take flaw.position
  let line := before.count '\n' + 1
  let column := (before.reverse.takeWhile (· != '\n')).length + 1
  s!"{flaw.cause.message}: line {line} column {column} (char {flaw.position})"

end Chomsky.Json
