import Orchestrion.Tree.Node

/-!
# Printing trees

The canonical form of a tree: one declaration or statement a line, four blanks of indentation for
each level, and parentheses around every operation.
-/

namespace Orchestrion

/-- A line of the canonical form. -/
structure Line where
  /-- The number of levels around it. -/
  depth : Nat
  /-- What stands in it behind the blanks of its level. -/
  content : Text
deriving DecidableEq, Repr

def indentation (depth : Nat) : Text := List.replicate (4 * depth) 32

def Line.print (l : Line) : Text := indentation l.depth ++ l.content ++ "\n"

mutual

def Expr.printBefore (rest : Text) : Expr → Text
  | .constant _ l => l.spelling ++ rest
  | .name _ x => x ++ rest
  | .element _ x i => x ++ "[" ++ i.printBefore ("]" ++ rest)
  | .call _ f args => f ++ "(" ++ Expr.printListBefore (")" ++ rest) args
  | .binary _ op l r =>
    "(" ++ l.printBefore (" " ++ op.punctuation.spelling ++ " " ++ r.printBefore (")" ++ rest))
  | .unary _ op x => "(" ++ op.punctuation.spelling ++ x.printBefore (")" ++ rest)
  | .conditional _ c y n =>
    "(" ++ c.printBefore (" ? " ++ y.printBefore (" : " ++ n.printBefore (")" ++ rest)))

def Expr.printListBefore (rest : Text) : List Expr → Text
  | [] => rest
  | [e] => e.printBefore rest
  | e :: es => e.printBefore (", " ++ Expr.printListBefore rest es)

end

def Expr.print (e : Expr) : Text := e.printBefore []

def Expr.printList (es : List Expr) : Text := Expr.printListBefore [] es

mutual

theorem Expr.printBefore_append (a b : Text) :
    ∀ e : Expr, e.printBefore (a ++ b) = e.printBefore a ++ b
  | .constant .. => by simp [Expr.printBefore]
  | .name .. => by simp [Expr.printBefore]
  | .element _ _ i => by
    simp only [Expr.printBefore, ← List.append_assoc, Expr.printBefore_append _ _ i]
  | .call _ _ args => by
    simp only [Expr.printBefore, ← List.append_assoc, Expr.printListBefore_append _ _ args]
  | .binary _ _ l r => by
    simp only [Expr.printBefore, ← List.append_assoc, Expr.printBefore_append _ _ l,
      Expr.printBefore_append _ _ r]
  | .unary _ _ x => by
    simp only [Expr.printBefore, ← List.append_assoc, Expr.printBefore_append _ _ x]
  | .conditional _ c y n => by
    simp only [Expr.printBefore, ← List.append_assoc, Expr.printBefore_append _ _ c,
      Expr.printBefore_append _ _ y, Expr.printBefore_append _ _ n]

theorem Expr.printListBefore_append (a b : Text) :
    ∀ es : List Expr, Expr.printListBefore (a ++ b) es = Expr.printListBefore a es ++ b
  | [] => rfl
  | [e] => by simp only [Expr.printListBefore, Expr.printBefore_append _ _ e]
  | e :: e' :: es => by
    simp only [Expr.printListBefore, ← List.append_assoc, Expr.printBefore_append _ _ e,
      Expr.printListBefore_append _ _ (e' :: es)]

end

theorem Expr.printBefore_eq_append (e : Expr) (rest : Text) :
    e.printBefore rest = e.print ++ rest :=
  Expr.printBefore_append [] rest e

theorem Expr.printListBefore_eq_append (es : List Expr) (rest : Text) :
    Expr.printListBefore rest es = Expr.printList es ++ rest :=
  Expr.printListBefore_append [] rest es

theorem Expr.print_constant (s : Span) (l : Literal) : (Expr.constant s l).print = l.spelling := by
  simp [Expr.print, Expr.printBefore]

theorem Expr.print_name (s : Span) (x : Text) : (Expr.name s x).print = x := by
  simp [Expr.print, Expr.printBefore]

theorem Expr.print_element (s : Span) (x : Text) (i : Expr) :
    (Expr.element s x i).print = x ++ "[" ++ i.print ++ "]" := by
  rw [Expr.print, Expr.printBefore, Expr.printBefore_eq_append]
  simp

theorem Expr.print_call (s : Span) (f : Text) (args : List Expr) :
    (Expr.call s f args).print = f ++ "(" ++ Expr.printList args ++ ")" := by
  rw [Expr.print, Expr.printBefore, Expr.printListBefore_eq_append]
  simp

theorem Expr.print_binary (s : Span) (op : BinaryOp) (l r : Expr) :
    (Expr.binary s op l r).print
      = "(" ++ l.print ++ " " ++ op.punctuation.spelling ++ " " ++ r.print ++ ")" := by
  rw [Expr.print, Expr.printBefore, l.printBefore_eq_append, r.printBefore_eq_append]
  simp

theorem Expr.print_unary (s : Span) (op : UnaryOp) (x : Expr) :
    (Expr.unary s op x).print = "(" ++ op.punctuation.spelling ++ x.print ++ ")" := by
  rw [Expr.print, Expr.printBefore, x.printBefore_eq_append]
  simp

theorem Expr.print_conditional (s : Span) (c y n : Expr) :
    (Expr.conditional s c y n).print
      = "(" ++ c.print ++ " ? " ++ y.print ++ " : " ++ n.print ++ ")" := by
  rw [Expr.print, Expr.printBefore, c.printBefore_eq_append, y.printBefore_eq_append,
    n.printBefore_eq_append]
  simp

theorem Expr.printList_cons_cons (e e' : Expr) (es : List Expr) :
    Expr.printList (e :: e' :: es) = e.print ++ ", " ++ Expr.printList (e' :: es) := by
  rw [Expr.printList, Expr.printListBefore, Expr.printBefore_eq_append, ← Expr.printList]
  · simp
  · simp

def Target.print (t : Target) : Text :=
  match t.index with
  | none => t.ident
  | some i => t.ident ++ "[" ++ i.print ++ "]"

mutual

def Stmt.lines (depth : Nat) : Stmt → List Line
  | .assign _ t v => [⟨depth, t.print ++ " = " ++ v.print ++ ";"⟩]
  | .eval _ e => [⟨depth, e.print ++ ";"⟩]
  | .ifThen _ c b =>
    ⟨depth, "if (" ++ c.print ++ ") \x7b"⟩ :: Stmt.linesAll (depth + 1) b ++ [⟨depth, "\x7d"⟩]
  | .ifElse _ c y n =>
    ⟨depth, "if (" ++ c.print ++ ") \x7b"⟩ :: Stmt.linesAll (depth + 1) y
      ++ ⟨depth, "\x7d else \x7b"⟩ :: Stmt.linesAll (depth + 1) n ++ [⟨depth, "\x7d"⟩]
  | .loop _ c b =>
    ⟨depth, "while (" ++ c.print ++ ") \x7b"⟩ :: Stmt.linesAll (depth + 1) b ++ [⟨depth, "\x7d"⟩]
  | .output _ args => [⟨depth, "output(" ++ Expr.printList args ++ ");"⟩]
  | .extend _ e => [⟨depth, "extend(" ++ e.print ++ ");"⟩]
  | .turnoff _ => [⟨depth, "turnoff;"⟩]
  | .ret _ vs => [⟨depth, "return(" ++ Expr.printList vs ++ ");"⟩]

def Stmt.linesAll (depth : Nat) : List Stmt → List Line
  | [] => []
  | s :: ss => s.lines depth ++ Stmt.linesAll depth ss

end

def Stmt.printAll (depth : Nat) (body : List Stmt) : Text :=
  (Stmt.linesAll depth body).flatMap Line.print

def Stmt.print (depth : Nat) (s : Stmt) : Text := (s.lines depth).flatMap Line.print

def DeclaredName.print (n : DeclaredName) : Text :=
  match n.shape with
  | .scalar => n.ident
  | .array size => n.ident ++ "[" ++ Text.ofNat size ++ "]"
  | .inChannels => n.ident ++ "[" ++ Keyword.inchannels.spelling ++ "]"
  | .outChannels => n.ident ++ "[" ++ Keyword.outchannels.spelling ++ "]"

def NameList.print (l : NameList) : Text :=
  Text.join ", " (l.names.map DeclaredName.print)

def Tags.print (tags : Option Tags) : Text :=
  match tags with
  | none => ""
  | some t =>
    let imports : Text := if t.imports then "imports " else ""
    let exports : Text := if t.exports then "exports " else ""
    imports ++ exports

def VariableDecl.print (depth : Nat) (d : VariableDecl) : Text :=
  Line.print
    ⟨depth, Tags.print d.tags ++ d.type.type.keyword.spelling ++ " " ++ d.names.print ++ ";"⟩

def TableDecl.print (depth : Nat) (d : TableDecl) : Text :=
  let args : Text := d.args.flatMap fun e => (", " : Text) ++ e.print
  Line.print
    ⟨depth, Tags.print d.tags ++ "table " ++ d.ident ++ "(" ++ d.generator ++ args ++ ");"⟩

def Decl.print (depth : Nat) : Decl → Text
  | .vars d => d.print depth
  | .table d => d.print depth

def Setting.print (depth : Nat) (s : Setting) : Text :=
  Line.print ⟨depth, s.parameter.spelling ++ " " ++ Text.ofInt s.value ++ ";"⟩

def GlobalItem.print (depth : Nat) : GlobalItem → Text
  | .setting s => s.print depth
  | .decl d => d.print depth

def GlobalBlock.print (b : GlobalBlock) : Text :=
  "global \x7b\n" ++ b.items.flatMap (GlobalItem.print 1) ++ "\x7d\n"

def printBody (decls : List Decl) (body : List Stmt) : Text :=
  "\x7b\n" ++ decls.flatMap (Decl.print 1) ++ Stmt.printAll 1 body ++ "\x7d\n"

def Instrument.print (keyword : Keyword) (i : Instrument) : Text :=
  keyword.spelling ++ " " ++ i.ident ++ "(" ++ Text.join ", " (i.params.map (·.ident)) ++ ") "
    ++ printBody i.decls i.body

def VariableDecl.printParam (d : VariableDecl) : Text :=
  d.type.type.keyword.spelling ++ " " ++ d.names.print

def Opcode.print (o : Opcode) : Text :=
  o.kind.spelling ++ " " ++ o.ident ++ "(" ++ Text.join ", " (o.params.map (·.printParam)) ++ ") "
    ++ printBody o.decls o.body

def Item.print : Item → Text
  | .global b => b.print
  | .instrument i => i.print .instr
  | .opcode o => o.print
  | .template t => t.print .template

def OrchestraTree.print (o : OrchestraTree) : Text :=
  Text.join "\n" (o.items.map Item.print)

def Node.print : Node → Text
  | .orchestra o => o.print
  | .global b => b.print
  | .instrument i => i.print .instr
  | .opcode o => o.print
  | .template t => t.print .template
  | .setting s => s.print 0
  | .vars d => d.print 0
  | .table d => d.print 0
  | .tags _ => "<*ast.TagList>"
  | .type _ => "<*ast.TypeSpec>"
  | .names _ => "<*ast.NameList>"
  | .declared _ => "<*ast.Name>"
  | .target _ => "<*ast.LValue>"
  | .stmt s => s.print 0
  | .expr e => e.print

end Orchestrion
