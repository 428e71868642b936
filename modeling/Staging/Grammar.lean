import Staging.Attempt
import Staging.Tree

namespace Staging

def parseToken (token : Token) : Attempt Unit :=
  .take (.fixed token.text) fun t => if t.token = token then some () else none

def parseKeyword (word : Keyword) : Attempt Unit :=
  parseToken (.keyword word)

def parseMark (mark : Mark) : Attempt Unit :=
  parseToken (.mark mark)

def parseNewline : Attempt Unit :=
  parseToken .newline

/-- Any number of line ends. -/
def parseNewlines : Attempt Unit := do
  let _ ← Attempt.many parseNewline

/-- One or more line ends. -/
def parseBreak : Attempt Unit := do
  parseNewline
  parseNewlines

def parseIdent : Attempt Name :=
  .take (.fixed "<ident>") fun t =>
    match t.token with
    | .ident name => some ⟨name, t.span⟩
    | _ => none

def parseValue : Attempt Name :=
  .take .somethingElse fun t =>
    match t.token with
    | .value name => some ⟨name, t.span⟩
    | _ => none

def parseSymbol : Attempt Name :=
  .take .somethingElse fun t =>
    match t.token with
    | .symbol name => some ⟨name, t.span⟩
    | _ => none

def parseInt : Attempt Int :=
  .take .somethingElse fun t =>
    match t.token with
    | .int v => some v
    | _ => none

def parseText : Attempt String :=
  .take .somethingElse fun t =>
    match t.token with
    | .string s => some s
    | _ => none

def parseShaped : Attempt TypeExpr :=
  .take .somethingElse fun t =>
    match t.token with
    | .shaped s => some (.shaped s t.span)
    | _ => none

def parseType : Attempt TypeExpr :=
  parseShaped.orElse (parseIdent.bind fun name => .pure (.named name))

def parseColonType : Attempt TypeExpr := do
  parseMark .colon
  parseType

/-- The items between an opening and a closing mark. -/
def between {α : Type} (opening closing : Mark) (p : Attempt α) : Attempt α := do
  parseMark opening
  let a ← p
  parseMark closing
  return a

def parseComma : Attempt Unit :=
  parseMark .comma

def parseAttrValue : Attempt Attr :=
  .take .somethingElse fun t =>
    match t.token with
    | .int v => some (.int v)
    | .keyword .yes => some (.bool true)
    | .keyword .no => some (.bool false)
    | .string s => some (.text s)
    | _ => none

def parseAttrEntry : Attempt AttrEntry :=
  .spanned do
    let key ← parseIdent
    parseMark .equals
    let value ← parseAttrValue
    return fun span => ⟨key, value, span⟩

def parseAttrs : Attempt (List AttrEntry) :=
  between .lbrace .rbrace (.sepBy parseComma parseAttrEntry)

def parseOperands : Attempt (List Name) :=
  .sepBy parseComma parseValue

def parseResults : Attempt (List Name) := do
  let names ← Attempt.sepBy1 parseComma parseValue
  parseMark .equals
  return names

/-- A list of items, empty where the items are left out. -/
def orEmpty {α : Type} (p : Attempt (List α)) : Attempt (List α) := do
  let items ← p.optional
  return items.getD []

def parseAlloc : Attempt Op := do
  let stack ← ((parseKeyword .alloc).bind fun _ => .pure false).orElse
    ((parseKeyword .alloca).bind fun _ => .pure true)
  let type ← parseColonType
  return .alloc stack type

def parseConstant : Attempt Op := do
  parseKeyword .constant
  let value ← parseInt
  let type ← parseColonType
  return .constant value type

def parseConvert : Attempt Op := do
  let conversion ← ((parseKeyword .toTensor).bind fun _ => .pure Conversion.toTensor).orElse
    ((parseKeyword .toMemref).bind fun _ => .pure Conversion.toMemref)
  let operand ← parseValue
  let type ← parseColonType
  return .convert conversion operand type

def parseRet : Attempt Op := do
  parseKeyword .ret
  let operands ← parseOperands
  return .ret operands

def parseCompute : Attempt Op := do
  parseKeyword .op
  let name ← parseText
  let operands ← between .lparen .rparen parseOperands
  let types ← orEmpty do
    parseMark .colon
    Attempt.sepBy1 parseComma parseType
  return .compute name operands types

def parseLoad : Attempt Op := do
  parseKeyword .load
  let memref ← parseValue
  let type ← parseColonType
  return .load memref type

def parseStore : Attempt Op := do
  parseKeyword .store
  let value ← parseValue
  parseComma
  let memref ← parseValue
  return .store value memref

/-- A copy has a source and may have a target. -/
def parseCopy : Attempt Op := do
  parseKeyword .copy
  let source ← parseValue
  let target ← Attempt.optional do
    parseComma
    parseValue
  let type ← parseColonType.optional
  return .copy (source :: target.toList) type

/-- A statement before its results, attributes and span are known. -/
def Op.toStmt (op : Op) (results : List Name) (attrs : List AttrEntry) (span : Span) : Stmt :=
  .op results op attrs span

def parseBlock (stmt : Attempt Stmt) : Attempt (List Stmt) :=
  between .lbrace .rbrace do
    parseNewlines
    let body ← Attempt.sepBy parseBreak stmt
    parseNewlines
    return body

def parseLoop (stmt : Attempt Stmt) :
    Attempt (List Name → List AttrEntry → Span → Stmt) := do
  parseKeyword .loop
  let iv ← parseValue
  parseMark .equals
  let lower ← parseInt
  parseKeyword .upTo
  let upper ← parseInt
  let body ← parseBlock stmt
  return fun results attrs span => .loop results iv lower upper body attrs span

def parseOp : Attempt Op :=
  .firstOf [parseAlloc, parseConstant, parseConvert, parseRet, parseCompute, parseLoad, parseStore,
    parseCopy]

/-- A statement whose loops are nested less than `depth` deep. -/
def parseStmt : Nat → Attempt Stmt
  | 0 => .firstOf []
  | depth + 1 =>
    .spanned do
      let results ← orEmpty parseResults
      let make ← (parseOp.bind fun op => .pure op.toStmt).orElse (parseLoop (parseStmt depth))
      let attrs ← orEmpty parseAttrs
      return make results attrs

def parseArg : Attempt ArgDecl := do
  let name ← parseValue
  let type ← parseColonType
  return ⟨name, type⟩

def parseFunc (depth : Nat) : Attempt Item :=
  .spanned do
    parseKeyword .func
    let name ← parseSymbol
    let args ← between .lparen .rparen (.sepBy parseComma parseArg)
    let attrs ← orEmpty do
      parseKeyword .attributes
      parseAttrs
    let body ← parseBlock (parseStmt depth)
    return fun span => .func ⟨name, args, attrs, body, span⟩

def parseSettingLiteral : Attempt (SettingValue × Span) :=
  .take .somethingElse fun t =>
    match t.token with
    | .int v => some (.int v, t.span)
    | .keyword .yes => some (.bool true, t.span)
    | .keyword .no => some (.bool false, t.span)
    | .string s => some (.text s, t.span)
    | _ => none

def parseSettingValue : Attempt (SettingValue × Span) :=
  parseSettingLiteral.orElse (parseIdent.bind fun name => .pure (.ident name.text, name.span))

def parseSetting : Attempt Item :=
  .spanned do
    parseKeyword .setting
    let name ← parseIdent
    parseMark .equals
    let value ← parseSettingValue
    return fun span => .setting ⟨name, value.1, value.2, span⟩

/-- A whole source text. -/
def parseItems (depth : Nat) : Attempt (List Item) := do
  parseNewlines
  let items ← Attempt.sepBy parseBreak (parseSetting.orElse (parseFunc depth))
  parseNewlines
  Attempt.finish
  return items

end Staging
