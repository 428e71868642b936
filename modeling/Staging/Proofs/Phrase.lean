import Staging.Parse
import Staging.Proofs.Layout

namespace Staging

def TypeExpr.span : TypeExpr → Span
  | .named name => name.span
  | .shaped _ span => span

def SettingValue.token : SettingValue → Token
  | .int v => .int v
  | .bool b => .keyword (if b then .yes else .no)
  | .text s => .string s
  | .ident name => .ident name

namespace Lexed

def word (k : Keyword) (span : Span) : Lexed :=
  ⟨.keyword k, span⟩

def mark (m : Mark) (span : Span) : Lexed :=
  ⟨.mark m, span⟩

def line (span : Span) : Lexed :=
  ⟨.newline, span⟩

def value (n : Name) : Lexed :=
  ⟨.value n.text, n.span⟩

def ident (n : Name) : Lexed :=
  ⟨.ident n.text, n.span⟩

def symbol (n : Name) : Lexed :=
  ⟨.symbol n.text, n.span⟩

def int (v : Int) (span : Span) : Lexed :=
  ⟨.int v, span⟩

def string (s : String) (span : Span) : Lexed :=
  ⟨.string s, span⟩

def type (t : TypeExpr) : Lexed :=
  ⟨t.token, t.span⟩

end Lexed

/-- The span of a phrase, from its first to its last token. -/
def spanOf (ts : List Lexed) : Span :=
  (coverSpan ts).getD ⟨0, 0⟩

/-- One or more items with commas between them. -/
structure Series (α : Type) where
  first : α
  others : List (Span × α)

def Series.items {α : Type} (s : Series α) : List α :=
  s.first :: s.others.map Prod.snd

/-- The items behind the first one, each after its comma. -/
def laterItems {α : Type} (each : α → List Lexed) (others : List (Span × α)) : List Lexed :=
  others.flatMap fun other => .mark .comma other.1 :: each other.2

def Series.tokens {α : Type} (each : α → List Lexed) (s : Series α) : List Lexed :=
  each s.first ++ laterItems each s.others

/-- The items of a list that may be left out. -/
def itemsOf {α : Type} (s : Option (Series α)) : List α :=
  (s.map Series.items).getD []

/-- The tokens of a phrase that may be left out. -/
def optional {τ : Type} (tokens : τ → List Lexed) (phrase : Option τ) : List Lexed :=
  (phrase.map tokens).getD []

def valueTokens (names : Option (Series Name)) : List Lexed :=
  optional (Series.tokens fun n => [.value n]) names

/-- `: type` -/
def typeTokens (phrase : Span × TypeExpr) : List Lexed :=
  [.mark .colon phrase.1, .type phrase.2]

/-- `key = value` -/
structure EntryPhrase where
  key : Name
  equals : Span
  value : Attr
  place : Span

def EntryPhrase.tokens (p : EntryPhrase) : List Lexed :=
  [.ident p.key, .mark .equals p.equals, ⟨p.value.token, p.place⟩]

def EntryPhrase.entry (p : EntryPhrase) : AttrEntry :=
  ⟨p.key, p.value, spanOf p.tokens⟩

/-- An attribute dictionary in its braces. -/
structure AttrsPhrase where
  lbrace : Span
  entries : Option (Series EntryPhrase)
  rbrace : Span

def AttrsPhrase.tokens (p : AttrsPhrase) : List Lexed :=
  .mark .lbrace p.lbrace :: optional (Series.tokens EntryPhrase.tokens) p.entries ++
    [.mark .rbrace p.rbrace]

def AttrsPhrase.attrs (p : AttrsPhrase) : List AttrEntry :=
  (itemsOf p.entries).map EntryPhrase.entry

def attrsOf (p : Option AttrsPhrase) : List AttrEntry :=
  (p.map AttrsPhrase.attrs).getD []

/-- `names =` -/
structure ResultsPhrase where
  names : Series Name
  equals : Span

def ResultsPhrase.tokens (p : ResultsPhrase) : List Lexed :=
  p.names.tokens (fun n => [.value n]) ++ [.mark .equals p.equals]

def resultsOf (p : Option ResultsPhrase) : List Name :=
  (p.map fun p => p.names.items).getD []

/-- An operation without a body. -/
inductive OpPhrase where
  | alloc (stack : Bool) (word : Span) (type : Span × TypeExpr)
  | constant (word : Span) (value : Int) (place : Span) (type : Span × TypeExpr)
  | convert (conversion : Conversion) (word : Span) (operand : Name) (type : Span × TypeExpr)
  | ret (word : Span) (operands : Option (Series Name))
  | compute (word : Span) (name : String) (place lparen : Span) (operands : Option (Series Name))
    (rparen : Span) (types : Option (Span × Series TypeExpr))
  | load (word : Span) (memref : Name) (type : Span × TypeExpr)
  | store (word : Span) (value : Name) (comma : Span) (memref : Name)
  | copy (word : Span) (source : Name) (target : Option (Span × Name))
    (type : Option (Span × TypeExpr))

def OpPhrase.tokens : OpPhrase → List Lexed
  | .alloc stack word type => .word (if stack then .alloca else .alloc) word :: typeTokens type
  | .constant word value place type => .word .constant word :: .int value place :: typeTokens type
  | .convert conversion word operand type =>
    .word conversion.keyword word :: .value operand :: typeTokens type
  | .ret word operands => .word .ret word :: valueTokens operands
  | .compute word name place lparen operands rparen types =>
    .word .op word :: .string name place :: .mark .lparen lparen :: (valueTokens operands ++
      .mark .rparen rparen :: optional (fun types => .mark .colon types.1 ::
        types.2.tokens fun t => [.type t]) types)
  | .load word memref type => .word .load word :: .value memref :: typeTokens type
  | .store word value comma memref =>
    [.word .store word, .value value, .mark .comma comma, .value memref]
  | .copy word source target type =>
    .word .copy word :: .value source ::
      (optional (fun target => [.mark .comma target.1, .value target.2]) target ++
        optional typeTokens type)

def OpPhrase.op : OpPhrase → Op
  | .alloc stack _ type => .alloc stack type.2
  | .constant _ value _ type => .constant value type.2
  | .convert conversion _ operand type => .convert conversion operand type.2
  | .ret _ operands => .ret (itemsOf operands)
  | .compute _ name _ _ operands _ types =>
    .compute name (itemsOf operands) ((types.map fun types => types.2.items).getD [])
  | .load _ memref type => .load memref type.2
  | .store _ value _ memref => .store value memref
  | .copy _ source target type =>
    .copy (source :: (target.map Prod.snd).toList) (type.map Prod.snd)

/-- One or more line ends. -/
structure Break where
  first : Span
  more : List Span

def Break.tokens (b : Break) : List Lexed :=
  .line b.first :: b.more.map .line

/-- Items on lines of their own, with line ends around them. Where there are no items, all line ends are
one run, so that they are read in one way only. -/
inductive Lines (α : Type) where
  | blank (newlines : List Span)
  | full (before : List Span) (first : α) (others : List (Break × α)) (after : List Span)

def Lines.items {α : Type} : Lines α → List α
  | .blank _ => []
  | .full _ first others _ => first :: others.map Prod.snd

/-- The items behind the first one, each after its line ends. -/
def laterLines {α : Type} (each : α → List Lexed) (others : List (Break × α)) : List Lexed :=
  others.flatMap fun other => other.1.tokens ++ each other.2

def Lines.tokens {α : Type} (each : α → List Lexed) : Lines α → List Lexed
  | .blank newlines => newlines.map .line
  | .full before first others after =>
    before.map .line ++ (each first ++ (laterLines each others ++ after.map .line))

/-- A loop up to its body. -/
structure LoopHead where
  word : Span
  iv : Name
  equals : Span
  lower : Int
  lowerPlace : Span
  upTo : Span
  upper : Int
  upperPlace : Span
  lbrace : Span

def LoopHead.tokens (p : LoopHead) : List Lexed :=
  [.word .loop p.word, .value p.iv, .mark .equals p.equals, .int p.lower p.lowerPlace,
    .word .upTo p.upTo, .int p.upper p.upperPlace, .mark .lbrace p.lbrace]

inductive StmtPhrase where
  | op (results : Option ResultsPhrase) (op : OpPhrase) (attrs : Option AttrsPhrase)
  | loop (results : Option ResultsPhrase) (head : LoopHead) (body : Lines StmtPhrase)
    (rbrace : Span) (attrs : Option AttrsPhrase)

mutual

def StmtPhrase.tokens : StmtPhrase → List Lexed
  | .op results op attrs =>
    optional ResultsPhrase.tokens results ++ (op.tokens ++ optional AttrsPhrase.tokens attrs)
  | .loop results head body rbrace attrs =>
    optional ResultsPhrase.tokens results ++ (head.tokens ++ (bodyTokens body ++
      .mark .rbrace rbrace :: optional AttrsPhrase.tokens attrs))

def bodyTokens : Lines StmtPhrase → List Lexed
  | .blank newlines => newlines.map .line
  | .full before first others after =>
    before.map .line ++ (first.tokens ++ (laterTokens others ++ after.map .line))

def laterTokens : List (Break × StmtPhrase) → List Lexed
  | [] => []
  | (b, stmt) :: others => b.tokens ++ stmt.tokens ++ laterTokens others

end

mutual

def StmtPhrase.stmt : StmtPhrase → Stmt
  | .op results op attrs =>
    .op (resultsOf results) op.op (attrsOf attrs) (spanOf (StmtPhrase.tokens (.op results op attrs)))
  | .loop results head body rbrace attrs =>
    .loop (resultsOf results) head.iv head.lower head.upper (bodyStmts body) (attrsOf attrs)
      (spanOf (StmtPhrase.tokens (.loop results head body rbrace attrs)))

def bodyStmts : Lines StmtPhrase → List Stmt
  | .blank _ => []
  | .full _ first others _ => first.stmt :: laterStmts others

def laterStmts : List (Break × StmtPhrase) → List Stmt
  | [] => []
  | (_, stmt) :: others => stmt.stmt :: laterStmts others

end

/-- `%name: type` -/
structure ArgPhrase where
  name : Name
  type : Span × TypeExpr

def ArgPhrase.tokens (p : ArgPhrase) : List Lexed :=
  .value p.name :: typeTokens p.type

def ArgPhrase.arg (p : ArgPhrase) : ArgDecl :=
  ⟨p.name, p.type.2⟩

structure FuncPhrase where
  word : Span
  name : Name
  lparen : Span
  args : Option (Series ArgPhrase)
  rparen : Span
  attrs : Option (Span × AttrsPhrase)
  lbrace : Span
  body : Lines StmtPhrase
  rbrace : Span

def FuncPhrase.tokens (p : FuncPhrase) : List Lexed :=
  .word .func p.word :: .symbol p.name :: .mark .lparen p.lparen ::
    (optional (Series.tokens ArgPhrase.tokens) p.args ++ .mark .rparen p.rparen ::
      (optional (fun attrs => .word .attributes attrs.1 :: attrs.2.tokens) p.attrs ++
        .mark .lbrace p.lbrace :: (p.body.tokens StmtPhrase.tokens ++ [.mark .rbrace p.rbrace])))

def FuncPhrase.func (p : FuncPhrase) : Func :=
  ⟨p.name, (itemsOf p.args).map ArgPhrase.arg, attrsOf (p.attrs.map Prod.snd),
    p.body.items.map StmtPhrase.stmt, spanOf p.tokens⟩

/-- `set name = value` -/
structure SettingPhrase where
  word : Span
  name : Name
  equals : Span
  value : SettingValue
  place : Span

def SettingPhrase.tokens (p : SettingPhrase) : List Lexed :=
  [.word .setting p.word, .ident p.name, .mark .equals p.equals, ⟨p.value.token, p.place⟩]

def SettingPhrase.setting (p : SettingPhrase) : Setting :=
  ⟨p.name, p.value, p.place, spanOf p.tokens⟩

inductive ItemPhrase where
  | setting (setting : SettingPhrase)
  | func (func : FuncPhrase)

def ItemPhrase.tokens : ItemPhrase → List Lexed
  | .setting p => p.tokens
  | .func p => p.tokens

def ItemPhrase.item : ItemPhrase → Item
  | .setting p => .setting p.setting
  | .func p => .func p.func

/-- A whole source text. -/
abbrev SourcePhrase := Lines ItemPhrase

def SourcePhrase.tokens (p : SourcePhrase) : List Lexed :=
  Lines.tokens ItemPhrase.tokens p

/-- The program of a source text of `size` bytes. One without tokens stands at its end. -/
def SourcePhrase.program (p : SourcePhrase) (size : Nat) : Program :=
  ⟨p.items.map ItemPhrase.item, (coverSpan p.tokens).getD ⟨size, size⟩⟩

theorem laterTokens_eq (others : List (Break × StmtPhrase)) :
    laterTokens others = laterLines StmtPhrase.tokens others := by
  induction others with
  | nil => rfl
  | cons other others ih => rw [laterTokens, laterLines, List.flatMap_cons, ih, laterLines]

theorem bodyTokens_eq (body : Lines StmtPhrase) : bodyTokens body = body.tokens StmtPhrase.tokens := by
  cases body with
  | blank newlines => rfl
  | full before first others after => rw [bodyTokens, laterTokens_eq, Lines.tokens]

theorem laterStmts_eq (others : List (Break × StmtPhrase)) :
    laterStmts others = others.map fun other => other.2.stmt := by
  induction others with
  | nil => rfl
  | cons other others ih => rw [laterStmts, List.map_cons, ih]

theorem bodyStmts_eq (body : Lines StmtPhrase) : bodyStmts body = body.items.map StmtPhrase.stmt := by
  cases body with
  | blank newlines => rfl
  | full before first others after =>
    rw [bodyStmts, laterStmts_eq, Lines.items, List.map_cons, List.map_map]
    rfl

end Staging
