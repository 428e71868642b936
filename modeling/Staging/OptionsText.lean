import Staging.Double
import Staging.Options

namespace Staging

/-- What is wrong with a JSON text that should hold options. -/
inductive JsonFault where
  /-- It is not JSON. -/
  | malformed
  /-- It ends too early. -/
  | ended
  /-- It is JSON of another shape. -/
  | mismatched
deriving DecidableEq

/-- A reader of JSON text. It goes from left to right and stops at the first fault. -/
abbrev JsonReader := StateT (List Char) (Except JsonFault)

def isJsonBlank (c : Char) : Bool :=
  c = ' ' || c = '\n' || c = '\t' || c = '\r'

/-- The next character behind blanks, which is left in place. -/
def JsonReader.peek : JsonReader (Option Char) := do
  modify (List.dropWhile isJsonBlank)
  return (← get).head?

def JsonReader.skip : JsonReader Unit :=
  modify List.tail

/-- Reads the rest of a fixed word. -/
def JsonReader.word : List Char → JsonReader Unit
  | [] => return ()
  | c :: cs => do
    match ← get with
    | [] => throw .ended
    | d :: rest =>
      if d ≠ c then throw .malformed
      set rest
      word cs

/-- The value of a hexadecimal digit. -/
def hexDigit? (c : Char) : Option Nat :=
  if c.isDigit then some (c.toNat - '0'.toNat)
  else if 'a' ≤ c && c ≤ 'f' then some (c.toNat - 'a'.toNat + 10)
  else if 'A' ≤ c && c ≤ 'F' then some (c.toNat - 'A'.toNat + 10)
  else none

def hexValue? (digits : List Char) : Option Nat :=
  digits.foldlM (fun n c => (hexDigit? c).map fun d => 16 * n + d) 0

/-- The fault of an escape that lacks its four hexadecimal digits. -/
def shortEscape (cs : List Char) : JsonFault :=
  if byteLength cs < 4 then .ended else .malformed

def isHighSurrogate (n : Nat) : Bool :=
  0xD800 ≤ n && n ≤ 0xDBFF

def isLowSurrogate (n : Nat) : Bool :=
  0xDC00 ≤ n && n ≤ 0xDFFF

/-- The character of two surrogates. -/
def joinSurrogates (high low : Nat) : Char :=
  Char.ofNat ((high - 0xD800) * 0x400 + (low - 0xDC00) + 0x10000)

def simpleEscape? : Char → Option Char
  | '"' => some '"'
  | '\\' => some '\\'
  | '/' => some '/'
  | 'b' => some '\x08'
  | 'f' => some '\x0c'
  | 'n' => some '\n'
  | 'r' => some '\r'
  | 't' => some '\t'
  | _ => none

/-- Puts a character in front of what a string goes on with. -/
def consString (c : Char) (rest : Except JsonFault (List Char × List Char)) :
    Except JsonFault (List Char × List Char) :=
  rest.map fun (inside, cs) => (c :: inside, cs)

/-- The inside of a string and the text behind its closing quote. -/
def jsonString : List Char → Except JsonFault (List Char × List Char)
  | [] => .error .ended
  | '"' :: cs => .ok ([], cs)
  | ['\\'] => .error .ended
  | '\\' :: 'u' :: a :: b :: c :: d :: cs =>
    match hexValue? [a, b, c, d] with
    | none => .error .malformed
    | some n =>
      if isLowSurrogate n then .error .malformed
      else if isHighSurrogate n then
        match cs with
        | [] => .error .ended
        | ['\\'] => .error .ended
        | '\\' :: 'u' :: a :: b :: c :: d :: cs =>
          match hexValue? [a, b, c, d] with
          | none => .error .malformed
          | some low =>
            if isLowSurrogate low then consString (joinSurrogates n low) (jsonString cs)
            else .error .malformed
        | '\\' :: 'u' :: cs => .error (shortEscape cs)
        | _ => .error .malformed
      else consString (Char.ofNat n) (jsonString cs)
  | '\\' :: 'u' :: cs => .error (shortEscape cs)
  | '\\' :: c :: cs =>
    match simpleEscape? c with
    | some e => consString e (jsonString cs)
    | none => .error .malformed
  | c :: cs => if c.toNat < 0x20 then .error .malformed else consString c (jsonString cs)

/-- Reads a string behind its opening quote. -/
def JsonReader.string : JsonReader String := do
  let (inside, rest) ← jsonString (← get)
  set rest
  return String.ofList inside

/-- Takes the digits that come next. -/
def JsonReader.digits : JsonReader (List Char) := do
  let cs ← get
  set (cs.dropWhile Char.isDigit)
  return cs.takeWhile Char.isDigit

/-- Takes one or more digits. -/
def JsonReader.someDigits : JsonReader (List Char) := do
  let cs ← get
  match cs.head? with
  | none => throw .ended
  | some c => if c.isDigit then digits else throw .malformed

/-- Reads a fraction, if one follows. -/
def JsonReader.fraction : JsonReader (List Char) := do
  if (← get).head? = some '.' then
    skip
    someDigits
  else return []

/-- Reads an exponent, if one follows. -/
def JsonReader.exponent : JsonReader (Option Int) := do
  let c := (← get).head?
  if c = some 'e' || c = some 'E' then
    skip
    let sign := (← get).head?
    if sign = some '+' || sign = some '-' then skip
    let n : Int := Nat.ofDigitChars 10 (← someDigits) 0
    return some (if sign = some '-' then -n else n)
  else return none

/-- Reads an unsigned number. It is an integer if it has no fraction and no exponent and fits
into 64 bits. -/
def JsonReader.number : JsonReader (Option Nat) := do
  let start := (← get).head?
  let whole ← someDigits
  if start = some '0' && 1 < whole.length then throw .malformed
  let fraction ← fraction
  let exponent ← exponent
  let value := (Decimal.ofDigits whole fraction).scale (exponent.getD 0)
  if value.overflows then throw .malformed
  let n := Nat.ofDigitChars 10 whole 0
  return if fraction.isEmpty && exponent.isNone && n < Nat.pow 2 64 then some n else none

/-- Fails on a value of a type that is not wanted, once the start of it has been read. -/
def JsonReader.mismatch {α : Type} : JsonReader α := do
  match ← peek with
  | none => throw .ended
  | some 'n' => do skip; word ['u', 'l', 'l']
  | some 't' => do skip; word ['r', 'u', 'e']
  | some 'f' => do skip; word ['a', 'l', 's', 'e']
  | some '-' => do
    skip
    let _ ← number
  | some '"' => do
    skip
    let _ ← string
  | some c =>
    if c.isDigit then
      let _ ← number
    else if c ≠ '[' && c ≠ '\x7b' then throw .malformed
  throw .mismatched

def JsonReader.bool : JsonReader Bool := do
  match ← peek with
  | some 't' =>
    skip
    word ['r', 'u', 'e']
    return true
  | some 'f' =>
    skip
    word ['a', 'l', 's', 'e']
    return false
  | _ => mismatch

def JsonReader.gran : JsonReader Nat := do
  match ← peek with
  | some c =>
    if c.isDigit then
      match ← number with
      | some n => if fitsGran n then return n else throw .mismatched
      | none => throw .mismatched
    else mismatch
  | none => mismatch

/-- Reads a value, which may be null where `nullable`. -/
def JsonReader.field {α : Type} (nullable : Bool) (p : JsonReader α) : JsonReader (Option α) := do
  if nullable && (← peek) = some 'n' then
    skip
    word ['u', 'l', 'l']
    return none
  return some (← p)

/-- The fields read so far, each of which may have been null. -/
structure OptionFields where
  insertCopy : Option (Option Bool)
  minGran : Option (Option Nat)

/-- Reads the colon and the value behind a key. -/
def JsonReader.member {α : Type} (nullable : Bool) (p : JsonReader α) : JsonReader (Option α) := do
  match ← peek with
  | none => throw .ended
  | some ':' =>
    skip
    field nullable p
  | some _ => throw .malformed

/-- Reads the value behind a key into its field, which has to be a new one. -/
def OptionFields.readValue (nullable : Bool) (fields : OptionFields) (key : String) :
    JsonReader OptionFields := do
  if key = "insert_copy" && fields.insertCopy.isNone then
    return { fields with insertCopy := some (← JsonReader.member nullable .bool) }
  if key = "min_gran" && fields.minGran.isNone then
    return { fields with minGran := some (← JsonReader.member nullable .gran) }
  throw .mismatched

/-- Goes on to the next key of an object, if there is one. -/
def JsonReader.nextKey (first : Bool) : JsonReader (Option String) := do
  let key := fun (c : Option Char) => match c with
    | none => throw .ended
    | some '"' => do
      skip
      return some (← string)
    | some _ => throw .malformed
  match ← peek with
  | some '\x7d' =>
    skip
    return none
  | none => throw .ended
  | some c =>
    if first then key (some c)
    else if c = ',' then
      skip
      key (← peek)
    else throw .malformed

/-- Reads the members of an object. There are at most as many as there are fields, and `count`
of them are still to come. -/
def OptionFields.readMembers (nullable : Bool) : Nat → Bool → OptionFields →
    JsonReader OptionFields
  | 0, _, _ => throw .mismatched
  | count + 1, first, fields => do
    match ← JsonReader.nextKey first with
    | none => return fields
    | some key => readMembers nullable count false (← fields.readValue nullable key)

/-- Whether an array goes on with another element. -/
def JsonReader.nextElement (first : Bool) : JsonReader Bool := do
  match ← peek with
  | none => throw .ended
  | some ']' => return false
  | some c =>
    if first then return true
    if c ≠ ',' then throw .malformed
    skip
    match ← peek with
    | none => throw .ended
    | some ']' => throw .malformed
    | some _ => return true

/-- Reads an element of an array. One that is left out is null where `required` is not set. -/
def JsonReader.element {α : Type} (nullable required first : Bool) (p : JsonReader α) :
    JsonReader (Option (Option α)) := do
  if ← nextElement first then return some (← field nullable p)
  if required then throw .mismatched
  return none

def JsonReader.closeArray : JsonReader Unit := do
  match ← peek with
  | none => throw .ended
  | some ']' => skip
  | some _ => throw .malformed

/-- Reads the fields from an array, in order. -/
def OptionFields.readElements (nullable : Bool) : JsonReader OptionFields := do
  let insertCopy ← JsonReader.element nullable nullable true .bool
  let minGran ← JsonReader.element nullable nullable insertCopy.isNone .gran
  JsonReader.closeArray
  return ⟨insertCopy, minGran⟩

/-- Reads the fields from an object or an array with nothing behind it. -/
def OptionFields.read (nullable : Bool) : JsonReader OptionFields := do
  let fields ← match ← JsonReader.peek with
    | some '\x7b' => do
      JsonReader.skip
      readMembers nullable 3 true ⟨none, none⟩
    | some '[' => do
      JsonReader.skip
      readElements nullable
    | _ => JsonReader.mismatch
  match ← JsonReader.peek with
  | none => return fields
  | some _ => throw .malformed

/-- The options in a JSON text. Fields that are left out keep their defaults. -/
def Options.ofJson (text : String) : Except JsonFault Options := do
  let (fields, _) ← (OptionFields.read false).run text.toList
  return Options.default.apply ⟨fields.insertCopy.join, fields.minGran.join⟩

/-- The overrides in a JSON text. Fields that are left out or null set nothing. -/
def Overrides.ofJson (text : String) : Except JsonFault Overrides := do
  let (fields, _) ← (OptionFields.read true).run text.toList
  return ⟨fields.insertCopy.join, fields.minGran.join⟩

end Staging
