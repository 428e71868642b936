import Staging.Options

namespace Staging

/-- What the command writes. -/
inductive Emit where
  /-- The regions made legal. -/
  | ir
  /-- The levels of their nodes. -/
  | levels
  /-- Their dependences as a graph. -/
  | graph
  /-- What was done to make them legal. -/
  | report
deriving DecidableEq

/-- What the arguments of the command ask for. -/
structure Invocation where
  source : String
  /-- The file to write; without one the text goes to the standard output. -/
  output : Option String
  emit : Emit
  overrides : Overrides
  /-- A file with options. -/
  config : Option String
  verbose : Bool
deriving DecidableEq

/-- The arguments read so far. -/
structure Arguments where
  source : Option String
  output : Option String
  emit : Option Emit
  insertCopy : Option Bool
  minGran : Option Nat
  config : Option String
  verbose : Bool

/-- What arguments come to. -/
inductive Request where
  | run (invocation : Invocation)
  | version
  | help
  /-- They are not understood. -/
  | misuse

/-- The options that take a value. -/
inductive ValueOption where
  | output
  | emit
  | insertCopy
  | minGran
  | config
deriving DecidableEq

def Arguments.empty : Arguments :=
  ⟨none, none, none, none, none, none, false⟩

def Emit.ofText? : String → Option Emit
  | "ir" => some .ir
  | "levels" => some .levels
  | "graph" => some .graph
  | "report" => some .report
  | _ => none

def boolOfText? : String → Option Bool
  | "true" => some true
  | "false" => some false
  | _ => none

/-- The value of decimal digits, of which there has to be one. -/
def digitsValue? (digits : List Char) : Option Nat :=
  if !digits.isEmpty && digits.all Char.isDigit then some (Nat.ofDigitChars 10 digits 0) else none

/-- A granularity in decimal digits, which may have a sign in front. -/
def granOfText? (s : String) : Option Nat :=
  match s.toList with
  | '+' :: digits => (digitsValue? digits).filter fitsGran
  | '-' :: digits => (digitsValue? digits).filter (· = 0)
  | digits => (digitsValue? digits).filter fitsGran

/-- A path, which is not empty. -/
def pathOfText? (s : String) : Option String :=
  if s.isEmpty then none else some s

def ValueOption.ofName? : String → Option ValueOption
  | "output" => some .output
  | "emit" => some .emit
  | "insert-copy" => some .insertCopy
  | "min-gran" => some .minGran
  | "config" => some .config
  | _ => none

/-- Fills an argument that may be given once. -/
def fillOnce {α : Type} (old new : Option α) : Option (Option α) :=
  match old, new with
  | none, some a => some (some a)
  | _, _ => none

def Arguments.setSource (a : Arguments) (s : String) : Option Arguments :=
  (fillOnce a.source (pathOfText? s)).map fun source => { a with source }

def Arguments.setOption (a : Arguments) (s : String) : ValueOption → Option Arguments
  | .output => (fillOnce a.output (pathOfText? s)).map fun output => { a with output }
  | .emit => (fillOnce a.emit (Emit.ofText? s)).map fun emit => { a with emit }
  | .insertCopy =>
    (fillOnce a.insertCopy (boolOfText? s)).map fun insertCopy => { a with insertCopy }
  | .minGran => (fillOnce a.minGran (granOfText? s)).map fun minGran => { a with minGran }
  | .config => (fillOnce a.config (pathOfText? s)).map fun config => { a with config }

/-- What a single argument is. -/
inductive ArgumentForm where
  /-- `--`, behind which nothing is an option. -/
  | escape
  /-- `--name` or `--name=value`. -/
  | long (name : String) (value : Option String)
  /-- `-x`, with whatever follows the letter. -/
  | short (letter : Char) (rest : List Char)
  | plain

def Argument.form (s : String) : ArgumentForm :=
  match s.toList with
  | ['-', '-'] => .escape
  | '-' :: '-' :: cs =>
    let name := String.ofList (cs.takeWhile (· ≠ '='))
    match cs.dropWhile (· ≠ '=') with
    | _ :: value => .long name (some (String.ofList value))
    | [] => .long name none
  | '-' :: c :: cs => .short c cs
  | _ => .plain

/-- The value that stands with the letter of an option. -/
def attachedValue : List Char → Option String
  | [] => none
  | '=' :: cs => some (String.ofList cs)
  | cs => some (String.ofList cs)

def Arguments.finish (a : Arguments) : Request :=
  match a.source with
  | some source =>
    .run ⟨source, a.output, a.emit.getD .ir, ⟨a.insertCopy, a.minGran⟩, a.config, a.verbose⟩
  | none => .misuse

/-- Reads arguments among which there are no options. -/
def Arguments.readPlain (a : Arguments) : List String → Request
  | [] => a.finish
  | arg :: args =>
    match a.setSource arg with
    | some a => a.readPlain args
    | none => .misuse

/-- Where the reading of arguments stands behind one of them. -/
inductive ArgumentStep where
  /-- It goes on; `pending` is an option whose value comes next. -/
  | next (a : Arguments) (pending : Option ValueOption)
  /-- No option follows. -/
  | plain (a : Arguments)
  | stop (request : Request)

/-- Goes on with what an argument was good for. -/
def ArgumentStep.ofFilled : Option Arguments → ArgumentStep
  | some a => .next a none
  | none => .stop .misuse

/-- Takes an option, with its value if it stands in the same argument. -/
def Arguments.takeOption (a : Arguments) (value : Option String) :
    Option ValueOption → ArgumentStep
  | some option =>
    match value with
    | some value => .ofFilled (a.setOption value option)
    | none => .next a (some option)
  | none => .stop .misuse

/-- Takes an argument of the form `--name` or `--name=value`. -/
def Arguments.takeLong (a : Arguments) (name : String) (value : Option String) : ArgumentStep :=
  if name = "verbose" && value.isNone && !a.verbose then .next { a with verbose := true } none
  else if name = "version" && value.isNone then .stop .version
  else if name = "help" && value.isNone then .stop .help
  else a.takeOption value (ValueOption.ofName? name)

/-- Takes an argument of the form `-x`. -/
def Arguments.takeShort (a : Arguments) (letter : Char) (rest : List Char) : ArgumentStep :=
  if letter = 'o' then a.takeOption (attachedValue rest) (some .output)
  else if letter = 'V' then .stop .version
  else if letter = 'h' then .stop .help
  else .stop .misuse

/-- Takes one argument. -/
def Arguments.take (a : Arguments) (pending : Option ValueOption) (arg : String) : ArgumentStep :=
  match pending, Argument.form arg with
  | some option, .plain => .ofFilled (a.setOption arg option)
  | some _, _ => .stop .misuse
  | none, .plain => .ofFilled (a.setSource arg)
  | none, .escape => .plain a
  | none, .long name value => a.takeLong name value
  | none, .short letter rest => a.takeShort letter rest

/-- Reads arguments from first to last. `pending` is an option whose value comes next. -/
def Arguments.read (a : Arguments) (pending : Option ValueOption) : List String → Request
  | [] => if pending.isSome then .misuse else a.finish
  | arg :: args =>
    match a.take pending arg with
    | .next a pending => a.read pending args
    | .plain a => a.readPlain args
    | .stop request => request

/-- What the arguments of the command ask for. -/
def Request.ofArguments (args : List String) : Request :=
  Arguments.empty.read none args

end Staging
