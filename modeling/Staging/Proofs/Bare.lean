import Staging.Region

namespace Staging

/-- A name without its place in the source. -/
def Name.bare (n : Name) : Name :=
  { n with span := default }

def TypeExpr.bare : TypeExpr → TypeExpr
  | .named name => .named name.bare
  | .shaped shape _ => .shaped shape default

def AttrEntry.bare (e : AttrEntry) : AttrEntry :=
  ⟨e.key.bare, e.value, default⟩

def Op.bare : Op → Op
  | .alloc stack type => .alloc stack type.bare
  | .constant value type => .constant value type.bare
  | .convert conversion operand type => .convert conversion operand.bare type.bare
  | .ret operands => .ret (operands.map Name.bare)
  | .compute name operands types => .compute name (operands.map Name.bare) (types.map TypeExpr.bare)
  | .load memref type => .load memref.bare type.bare
  | .store value memref => .store value.bare memref.bare
  | .copy operands type => .copy (operands.map Name.bare) (type.map TypeExpr.bare)

mutual

/-- A statement without its places in the source. -/
def Stmt.bare : Stmt → Stmt
  | .op results op attrs _ =>
    .op (results.map Name.bare) op.bare (attrs.map AttrEntry.bare) default
  | .loop results iv lower upper body attrs _ =>
    .loop (results.map Name.bare) iv.bare lower upper (bareBlock body) (attrs.map AttrEntry.bare)
      default

def bareBlock : List Stmt → List Stmt
  | [] => []
  | stmt :: stmts => stmt.bare :: bareBlock stmts

end

def ArgDecl.bare (arg : ArgDecl) : ArgDecl :=
  ⟨arg.name.bare, arg.type.bare⟩

/-- A function without its places in the source. -/
def Func.bare (f : Func) : Func :=
  ⟨f.name.bare, f.args.map ArgDecl.bare, f.attrs.map AttrEntry.bare, bareBlock f.body, default⟩

def Setting.bare (s : Setting) : Setting :=
  ⟨s.name.bare, s.value, default, default⟩

def Item.bare : Item → Item
  | .setting s => .setting s.bare
  | .func f => .func f.bare

/-- A program without its places in the source. -/
def Program.bare (p : Program) : Program :=
  ⟨p.items.map Item.bare, default⟩

def Node.bare (node : Node) : Node :=
  { node with span := default }

/-- A region without the places in the source that it comes from. -/
def Region.bare (r : Region) : Region :=
  { r with span := default, nodes := r.nodes.map Node.bare }

/-- A copy has one or two operands. -/
def Op.Formed : Op → Prop
  | .copy operands _ => operands.length = 1 ∨ operands.length = 2
  | _ => True

mutual

def Stmt.Formed : Stmt → Prop
  | .op _ op _ _ => op.Formed
  | .loop _ _ _ _ body _ _ => BlockFormed body

def BlockFormed : List Stmt → Prop
  | [] => True
  | stmt :: stmts => stmt.Formed ∧ BlockFormed stmts

end

theorem bareBlock_eq_map (stmts : List Stmt) : bareBlock stmts = stmts.map Stmt.bare := by
  induction stmts with
  | nil => rfl
  | cons stmt stmts ih => rw [bareBlock, ih, List.map_cons]

end Staging
