import Orchestrion.Tree.Decl

/-!
# Nodes

The nodes of a tree in the order of the text: every node before its children, and the children from
left to right.

A node is named by its path from the root, innermost step first. A step is the number of a child;
children that come in a list have the number of the list and then their place in it, so that no two
nodes of a tree share a path.
-/

namespace Orchestrion

abbrev Path := List Nat

/-- A node of any kind. -/
inductive Node where
  | orchestra (o : OrchestraTree)
  | global (b : GlobalBlock)
  | instrument (i : Instrument)
  | opcode (o : Opcode)
  | template (t : Instrument)
  | setting (s : Setting)
  | vars (d : VariableDecl)
  | table (d : TableDecl)
  | tags (t : Tags)
  | type (t : TypeName)
  | names (l : NameList)
  | declared (n : DeclaredName)
  | target (t : Target)
  | stmt (s : Stmt)
  | expr (e : Expr)
deriving Repr, Inhabited

namespace Node

def span : Node → Span
  | orchestra n => n.span
  | global n => n.span
  | instrument n => n.span
  | opcode n => n.span
  | template n => n.span
  | setting n => n.span
  | vars n => n.span
  | table n => n.span
  | tags n => n.span
  | type n => n.span
  | names n => n.span
  | declared n => n.span
  | target n => n.span
  | stmt n => n.span
  | expr n => n.span

def kind : Node → String
  | orchestra _ => "orchestra"
  | global _ => "global block"
  | instrument _ => "instrument declaration"
  | opcode _ => "opcode declaration"
  | template _ => "template declaration"
  | setting s => s.kind
  | vars _ => "variable declaration"
  | table _ => "table declaration"
  | tags _ => "tag list"
  | type _ => "type"
  | names _ => "name list"
  | declared n => n.shape.kind
  | target _ => "lvalue"
  | stmt s => s.kind
  | expr e => e.kind

end Node

def InstrumentParam.node (p : InstrumentParam) : Node := .expr (.name p.span p.ident)

section Walk

-- Which nodes to look into: the children of all others are left out.
variable (enter : Node → Bool)

def Node.before (path : Path) (n : Node) (children : List (Path × Node)) : List (Path × Node) :=
  (path, n) :: if enter n then children else []

mutual

def Expr.walk (path : Path) : Expr → List (Path × Node)
  | e@(.constant _ _) => Node.before enter path (.expr e) []
  | e@(.name _ _) => Node.before enter path (.expr e) []
  | e@(.element _ _ index) => Node.before enter path (.expr e) (index.walk (0 :: path))
  | e@(.call _ _ args) => Node.before enter path (.expr e) (Expr.walkAll path 0 args)
  | e@(.binary _ _ left right) =>
    Node.before enter path (.expr e) (left.walk (0 :: path) ++ right.walk (1 :: path))
  | e@(.unary _ _ operand) => Node.before enter path (.expr e) (operand.walk (0 :: path))
  | e@(.conditional _ guard yes no) =>
    Node.before enter path (.expr e)
      (guard.walk (0 :: path) ++ yes.walk (1 :: path) ++ no.walk (2 :: path))

def Expr.walkAll (path : Path) (i : Nat) : List Expr → List (Path × Node)
  | [] => []
  | e :: es => e.walk (i :: path) ++ Expr.walkAll path (i + 1) es

end

def Target.walk (path : Path) (t : Target) : List (Path × Node) :=
  Node.before enter path (.target t) <|
    match t.index with
    | some index => index.walk enter (0 :: path)
    | none => []

mutual

def Stmt.walk (path : Path) : Stmt → List (Path × Node)
  | s@(.assign _ target value) =>
    Node.before enter path (.stmt s)
      (target.walk enter (0 :: path) ++ value.walk enter (1 :: path))
  | s@(.eval _ value) => Node.before enter path (.stmt s) (value.walk enter (0 :: path))
  | s@(.ifThen _ guard body) =>
    Node.before enter path (.stmt s)
      (guard.walk enter (0 :: path) ++ Stmt.walkAll (1 :: path) 0 body)
  | s@(.ifElse _ guard yes no) =>
    Node.before enter path (.stmt s)
      (guard.walk enter (0 :: path) ++ Stmt.walkAll (1 :: path) 0 yes
        ++ Stmt.walkAll (2 :: path) 0 no)
  | s@(.loop _ guard body) =>
    Node.before enter path (.stmt s)
      (guard.walk enter (0 :: path) ++ Stmt.walkAll (1 :: path) 0 body)
  | s@(.output _ args) => Node.before enter path (.stmt s) (Expr.walkAll enter path 0 args)
  | s@(.extend _ seconds) => Node.before enter path (.stmt s) (seconds.walk enter (0 :: path))
  | s@(.turnoff _) => Node.before enter path (.stmt s) []
  | s@(.ret _ values) => Node.before enter path (.stmt s) (Expr.walkAll enter path 0 values)

def Stmt.walkAll (path : Path) (i : Nat) : List Stmt → List (Path × Node)
  | [] => []
  | s :: ss => s.walk (i :: path) ++ Stmt.walkAll path (i + 1) ss

end

def walkList {α : Type} (path : Path) (walk : Path → α → List (Path × Node)) (xs : List α) :
    List (Path × Node) :=
  xs.zipIdx.flatMap fun (x, i) => walk (i :: path) x

def Tags.walk (path : Path) (tags : Option Tags) : List (Path × Node) :=
  match tags with
  | some t => Node.before enter path (.tags t) []
  | none => []

def VariableDecl.walk (path : Path) (d : VariableDecl) : List (Path × Node) :=
  Node.before enter path (.vars d) <|
    Tags.walk enter (0 :: path) d.tags
      ++ Node.before enter (1 :: path) (.type d.type) []
      ++ Node.before enter (2 :: path) (.names d.names)
        (walkList (2 :: path) (fun p n => Node.before enter p (.declared n) []) d.names.names)

def TableDecl.walk (path : Path) (d : TableDecl) : List (Path × Node) :=
  Node.before enter path (.table d) <|
    Tags.walk enter (0 :: path) d.tags ++ Expr.walkAll enter (1 :: path) 0 d.args

def Decl.walk (path : Path) : Decl → List (Path × Node)
  | .vars d => d.walk enter path
  | .table d => d.walk enter path

def GlobalItem.walk (path : Path) : GlobalItem → List (Path × Node)
  | .setting s => Node.before enter path (.setting s) []
  | .decl d => d.walk enter path

def GlobalBlock.walk (path : Path) (i : Nat) (b : GlobalBlock) : List (Path × Node) :=
  Node.before enter path (.global b) <|
    (b.items.zipIdx i).flatMap fun (item, i) => item.walk enter (i :: path)

def Instrument.walkInside (path : Path) (i : Instrument) : List (Path × Node) :=
  walkList (0 :: path) (fun p param => Node.before enter p param.node []) i.params
    ++ walkList (1 :: path) (Decl.walk enter) i.decls
    ++ Stmt.walkAll enter (2 :: path) 0 i.body

def Opcode.walk (path : Path) (o : Opcode) : List (Path × Node) :=
  Node.before enter path (.opcode o) <|
    walkList (0 :: path) (VariableDecl.walk enter) o.params
      ++ walkList (1 :: path) (Decl.walk enter) o.decls
      ++ Stmt.walkAll enter (2 :: path) 0 o.body

def Item.walk (path : Path) : Item → List (Path × Node)
  | .global b => b.walk enter path 0
  | .instrument i => Node.before enter path (.instrument i) (i.walkInside enter path)
  | .opcode o => o.walk enter path
  | .template t => Node.before enter path (.template t) (t.walkInside enter path)

def OrchestraTree.walk (path : Path) (o : OrchestraTree) : List (Path × Node) :=
  Node.before enter path (.orchestra o) (walkList path (Item.walk enter) o.items)

end Walk

end Orchestrion
