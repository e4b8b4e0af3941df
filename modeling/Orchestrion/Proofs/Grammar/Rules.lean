import Orchestrion.Grammar.Orchestra

/-!
# The rules of the grammar

Which tokens write which tree, as relations that say nothing of reading. There is one relation for
each notion of the grammar and one rule for each way to write it. Binary operators group to the left
because the rule of a level has the level itself on its left side and a tighter one on its right
side; `? :` groups to the right because only its guard is tighter.
-/

namespace Orchestrion

def Token.IsMark (t : Token) (p : Punctuation) : Prop := t.kind = .punctuation p

def Token.IsWord (t : Token) (k : Keyword) : Prop := t.kind = .keyword k

/-- The stretch of text that a token takes. -/
def Token.span (t : Token) : Span := ⟨t.start, t.stop⟩

/-- The numeral that a token writes. -/
def Token.literal (t : Token) : Literal := ⟨t.value, t.kind = .integer⟩

namespace Grammar

/-! ### Expressions -/

mutual

/-- Tokens that write an expression. -/
inductive Expression : List Token → Expr → Prop
  | operation {ts : List Token} {e : Expr} (h : Operation BinaryOp.levels ts e) : Expression ts e
  | conditional {gs ys ns : List Token} {mark colon : Token} {guard yes no : Expr}
    (hguard : Operation BinaryOp.levels gs guard) (hmark : mark.IsMark .question)
    (hyes : Expression ys yes) (hcolon : colon.IsMark .colon) (hno : Expression ns no) :
    Expression (gs ++ mark :: ys ++ colon :: ns)
      (.conditional ⟨guard.span.start, no.span.stop⟩ guard yes no)

/-- Tokens that write an expression of the given levels of binary operators. -/
inductive Operation : List (List BinaryOp) → List Token → Expr → Prop
  | operand {ts : List Token} {e : Expr} (h : Operand ts e) : Operation [] ts e
  | tighter {ops : List BinaryOp} {tighter : List (List BinaryOp)} {ts : List Token} {e : Expr}
    (h : Operation tighter ts e) : Operation (ops :: tighter) ts e
  | binary {ops : List BinaryOp} {tighter : List (List BinaryOp)} {ls rs : List Token}
    {mark : Token} {op : BinaryOp} {left right : Expr} (hleft : Operation (ops :: tighter) ls left)
    (hop : op ∈ ops) (hmark : mark.IsMark op.punctuation) (hright : Operation tighter rs right) :
    Operation (ops :: tighter) (ls ++ mark :: rs)
      (.binary ⟨left.span.start, right.span.stop⟩ op left right)

/-- Tokens that write an operand with the operators in front of it. -/
inductive Operand : List Token → Expr → Prop
  | unary {ts : List Token} {mark : Token} {op : UnaryOp} {x : Expr}
    (hmark : mark.IsMark op.punctuation) (h : Operand ts x) :
    Operand (mark :: ts) (.unary ⟨mark.start, x.span.stop⟩ op x)
  | term {ts : List Token} {e : Expr} (h : Term ts e) : Operand ts e

/-- Tokens that write an expression that no operator stands in, or one in parentheses. -/
inductive Term : List Token → Expr → Prop
  | constant {t : Token} (ht : t.kind = .integer ∨ t.kind = .number)
    (hvalue : t.literal.value?.isSome = true) : Term [t] (.constant t.span t.literal)
  | name {t : Token} (ht : t.kind = .name) : Term [t] (.name t.span t.value)
  | element {is : List Token} {t open' close : Token} {index : Expr} (ht : t.kind = .name)
    (hopen : open'.IsMark .leftBracket) (h : Expression is index)
    (hclose : close.IsMark .rightBracket) :
    Term (t :: open' :: is ++ [close]) (.element ⟨t.start, close.stop⟩ t.value index)
  | call {as : List Token} {t close : Token} {args : List Expr} (ht : t.kind = .name)
    (h : Arguments as args close) : Term (t :: as) (.call ⟨t.start, close.stop⟩ t.value args)
  | parens {ts : List Token} {open' close : Token} {e : Expr} (hopen : open'.IsMark .leftParen)
    (h : Expression ts e) (hclose : close.IsMark .rightParen) : Term (open' :: ts ++ [close]) e

/-- Tokens that write expressions in parentheses, the last of them being the closing one. -/
inductive Arguments : List Token → List Expr → Token → Prop
  | none {open' close : Token} (hopen : open'.IsMark .leftParen)
    (hclose : close.IsMark .rightParen) : Arguments [open', close] [] close
  | some {ts us : List Token} {open' close : Token} {e : Expr} {es : List Expr}
    (hopen : open'.IsMark .leftParen) (h : Expression ts e) (hes : MoreExpressions us es)
    (hclose : close.IsMark .rightParen) : Arguments (open' :: ts ++ us ++ [close]) (e :: es) close

/-- Tokens that write expressions, each behind a comma. -/
inductive MoreExpressions : List Token → List Expr → Prop
  | nil : MoreExpressions [] []
  | cons {ts us : List Token} {comma : Token} {e : Expr} {es : List Expr}
    (hcomma : comma.IsMark .comma) (h : Expression ts e) (hes : MoreExpressions us es) :
    MoreExpressions (comma :: ts ++ us) (e :: es)

end

theorem Operand.operation {ts : List Token} {e : Expr} (h : Operand ts e)
    (levels : List (List BinaryOp)) : Operation levels ts e := by
  induction levels with
  | nil => exact .operand h
  | cons ops tighter ih => exact .tighter ih

theorem Term.expression {ts : List Token} {e : Expr} (h : Term ts e) : Expression ts e :=
  .operation ((Operand.term h).operation _)

/-! ### Statements -/

/-- Tokens that write a target of an assignment: a name or an element, perhaps in parentheses. -/
inductive Assignable : List Token → Target → Prop
  | name {t : Token} (ht : t.kind = .name) : Assignable [t] ⟨t.span, t.value, none⟩
  | element {is : List Token} {t open' close : Token} {index : Expr} (ht : t.kind = .name)
    (hopen : open'.IsMark .leftBracket) (h : Expression is index)
    (hclose : close.IsMark .rightBracket) :
    Assignable (t :: open' :: is ++ [close]) ⟨⟨t.start, close.stop⟩, t.value, some index⟩
  | parens {ts : List Token} {open' close : Token} {target : Target}
    (hopen : open'.IsMark .leftParen) (h : Assignable ts target)
    (hclose : close.IsMark .rightParen) : Assignable (open' :: ts ++ [close]) target

/-- Tokens that write the expression in parentheses that guards a statement. -/
inductive Guard : List Token → Expr → Prop
  | mk {ts : List Token} {open' close : Token} {e : Expr} (hopen : open'.IsMark .leftParen)
    (h : Expression ts e) (hclose : close.IsMark .rightParen) : Guard (open' :: ts ++ [close]) e

mutual

/-- Tokens that write a statement. -/
inductive Statement : List Token → Stmt → Prop
  | assign {ts vs : List Token} {mark close : Token} {start : Position} {target : Target}
    {value : Expr} (ht : Assignable ts target) (hstart : ts.head?.map Token.start = some start)
    (hmark : mark.IsMark .assign) (hvalue : Expression vs value)
    (hclose : close.IsMark .semicolon) :
    Statement (ts ++ mark :: vs ++ [close]) (.assign ⟨start, close.stop⟩ target value)
  | eval {ts : List Token} {close : Token} {start : Position} {value : Expr}
    (h : Expression ts value) (hstart : ts.head?.map Token.start = some start)
    (hclose : close.IsMark .semicolon) :
    Statement (ts ++ [close]) (.eval ⟨start, close.stop⟩ value)
  | ifThen {gs bs : List Token} {word close : Token} {guard : Expr} {body : List Stmt}
    (hword : word.IsWord .ifWord) (hguard : Guard gs guard) (hbody : Block bs body close) :
    Statement (word :: gs ++ bs) (.ifThen ⟨word.start, close.stop⟩ guard body)
  | ifElse {gs ys ns : List Token} {word elseWord close close' : Token} {guard : Expr}
    {yes no : List Stmt} (hword : word.IsWord .ifWord) (hguard : Guard gs guard)
    (hyes : Block ys yes close) (helse : elseWord.IsWord .elseWord) (hno : Block ns no close') :
    Statement (word :: gs ++ ys ++ elseWord :: ns)
      (.ifElse ⟨word.start, close'.stop⟩ guard yes no)
  | loop {gs bs : List Token} {word close : Token} {guard : Expr} {body : List Stmt}
    (hword : word.IsWord .whileWord) (hguard : Guard gs guard) (hbody : Block bs body close) :
    Statement (word :: gs ++ bs) (.loop ⟨word.start, close.stop⟩ guard body)
  | output {as : List Token} {word paren close : Token} {args : List Expr}
    (hword : word.IsWord .output) (hargs : Arguments as args paren)
    (hclose : close.IsMark .semicolon) :
    Statement (word :: as ++ [close]) (.output ⟨word.start, close.stop⟩ args)
  | extend {gs : List Token} {word close : Token} {seconds : Expr} (hword : word.IsWord .extend)
    (h : Guard gs seconds) (hclose : close.IsMark .semicolon) :
    Statement (word :: gs ++ [close]) (.extend ⟨word.start, close.stop⟩ seconds)
  | turnoff {word close : Token} (hword : word.IsWord .turnoff) (hclose : close.IsMark .semicolon) :
    Statement [word, close] (.turnoff ⟨word.start, close.stop⟩)
  | ret {as : List Token} {word paren close : Token} {values : List Expr}
    (hword : word.IsWord .returnWord) (hvalues : Arguments as values paren)
    (hclose : close.IsMark .semicolon) :
    Statement (word :: as ++ [close]) (.ret ⟨word.start, close.stop⟩ values)

/-- Tokens that write statements in braces, the last of them being the closing one. -/
inductive Block : List Token → List Stmt → Token → Prop
  | mk {ts : List Token} {open' close : Token} {body : List Stmt} (hopen : open'.IsMark .leftBrace)
    (h : Statements ts body) (hclose : close.IsMark .rightBrace) :
    Block (open' :: ts ++ [close]) body close

/-- Tokens that write statements. -/
inductive Statements : List Token → List Stmt → Prop
  | nil : Statements [] []
  | cons {ts us : List Token} {s : Stmt} {ss : List Stmt} (h : Statement ts s)
    (hss : Statements us ss) : Statements (ts ++ us) (s :: ss)

end

/-! ### Declarations -/

/-- A token that writes an integer, which has to fit into a signed word of 64 bits. -/
def Integer (t : Token) (n : Nat) : Prop :=
  t.kind = .integer ∧ Number.natural? t.value = some n ∧ n < Nat.pow 2 63

/-- A token that writes the size of an array. -/
inductive Size : Token → Shape → Prop
  | array {t : Token} {n : Nat} (h : Integer t n) : Size t (.array n)
  | inChannels {t : Token} (h : t.IsWord .inchannels) : Size t .inChannels
  | outChannels {t : Token} (h : t.IsWord .outchannels) : Size t .outChannels

/-- Tokens that write a declared name with its size. -/
inductive Declared : List Token → DeclaredName → Prop
  | scalar {t : Token} (ht : t.kind = .name) : Declared [t] ⟨t.span, t.value, .scalar⟩
  | array {t open' size close : Token} {shape : Shape} (ht : t.kind = .name)
    (hopen : open'.IsMark .leftBracket) (hsize : Size size shape)
    (hclose : close.IsMark .rightBracket) :
    Declared [t, open', size, close] ⟨⟨t.start, close.stop⟩, t.value, shape⟩

/-- Tokens that write things, each behind a comma. -/
inductive More {α : Type} (element : List Token → α → Prop) : List Token → List α → Prop
  | nil : More element [] []
  | cons {ts us : List Token} {comma : Token} {a : α} {as : List α} (hcomma : comma.IsMark .comma)
    (h : element ts a) (has : More element us as) : More element (comma :: ts ++ us) (a :: as)

/-- Tokens that write things one after the other. -/
inductive Sequence {α : Type} (element : List Token → α → Prop) : List Token → List α → Prop
  | nil : Sequence element [] []
  | cons {ts us : List Token} {a : α} {as : List α} (h : element ts a)
    (has : Sequence element us as) : Sequence element (ts ++ us) (a :: as)

/-- Tokens that write the tags of a declaration: each of them at most once, in either order. -/
inductive Tagged : List Token → Option Tags → Prop
  | none : Tagged [] none
  | imports {t : Token} (h : t.IsWord .imports) : Tagged [t] (some ⟨t.span, true, false⟩)
  | exports {t : Token} (h : t.IsWord .exports) : Tagged [t] (some ⟨t.span, false, true⟩)
  | importsExports {t u : Token} (ht : t.IsWord .imports) (hu : u.IsWord .exports) :
    Tagged [t, u] (some ⟨⟨t.start, u.stop⟩, true, true⟩)
  | exportsImports {t u : Token} (ht : t.IsWord .exports) (hu : u.IsWord .imports) :
    Tagged [t, u] (some ⟨⟨t.start, u.stop⟩, true, true⟩)

def Typed (t : Token) (type : TypeName) : Prop :=
  t.IsWord type.type.keyword ∧ type.span = t.span

/-- Tokens that write a declaration. -/
inductive Declaration : List Token → Decl → Prop
  | vars {ts ns ms : List Token} {t close : Token} {tags : Option Tags} {type : TypeName}
    {first : DeclaredName} {others : List DeclaredName} {start : Position}
    (htags : Tagged ts tags) (htype : Typed t type) (hfirst : Declared ns first)
    (hothers : More Declared ms others) (hclose : close.IsMark .semicolon)
    (hstart : (ts ++ [t]).head?.map Token.start = some start) :
    Declaration (ts ++ t :: ns ++ ms ++ [close])
      (.vars ⟨⟨start, close.stop⟩, tags, type,
        ⟨⟨first.span.start, (others.getLast?.getD first).span.stop⟩, first :: others⟩⟩)
  | table {ts as : List Token} {word ident open' generator paren close : Token}
    {tags : Option Tags} {args : List Expr} {start : Position} (htags : Tagged ts tags)
    (hword : word.IsWord .table) (hident : ident.kind = .name) (hopen : open'.IsMark .leftParen)
    (hgenerator : generator.kind = .name) (hargs : MoreExpressions as args)
    (hparen : paren.IsMark .rightParen) (hclose : close.IsMark .semicolon)
    (hstart : (ts ++ [word]).head?.map Token.start = some start) :
    Declaration (ts ++ word :: ident :: open' :: generator :: as ++ [paren, close])
      (.table ⟨⟨start, close.stop⟩, tags, ident.value, generator.value, args⟩)

/-! ### Orchestras -/

/-- Tokens that write the body of a unit, the last of them being the closing brace. All declarations
stand before the statements. -/
inductive Body : List Token → List Decl → List Stmt → Token → Prop
  | mk {ds ss : List Token} {open' close : Token} {decls : List Decl} {stmts : List Stmt}
    (hopen : open'.IsMark .leftBrace) (hdecls : Sequence Declaration ds decls)
    (hstmts : Statements ss stmts) (hclose : close.IsMark .rightBrace) :
    Body (open' :: ds ++ ss ++ [close]) decls stmts close

/-- Tokens that write a list of parameters in parentheses, which may be empty. -/
inductive Params {α : Type} (param : List Token → α → Prop) : List Token → List α → Prop
  | none {open' close : Token} (hopen : open'.IsMark .leftParen)
    (hclose : close.IsMark .rightParen) : Params param [open', close] []
  | some {ts us : List Token} {open' close : Token} {a : α} {as : List α}
    (hopen : open'.IsMark .leftParen) (h : param ts a) (has : More param us as)
    (hclose : close.IsMark .rightParen) : Params param (open' :: ts ++ us ++ [close]) (a :: as)

/-- Tokens that write a parameter of an instrument. -/
inductive InstrumentParam : List Token → Orchestrion.InstrumentParam → Prop
  | mk {t : Token} (ht : t.kind = .name) : InstrumentParam [t] ⟨t.span, t.value⟩

/-- Tokens that write a parameter of an opcode. -/
inductive OpcodeParam : List Token → VariableDecl → Prop
  | mk {ts : List Token} {t : Token} {type : TypeName} {declared : DeclaredName}
    (htype : Typed t type) (h : Declared ts declared) :
    OpcodeParam (t :: ts)
      ⟨⟨type.span.start, declared.span.stop⟩, none, type, ⟨declared.span, [declared]⟩⟩

/-- Tokens that write an instrument or a template, after its keyword. -/
inductive Unit (keyword : Keyword) : List Token → Instrument → Prop
  | mk {ps bs : List Token} {word ident close : Token}
    {params : List Orchestrion.InstrumentParam} {decls : List Decl} {body : List Stmt}
    (hword : word.IsWord keyword) (hident : ident.kind = .name)
    (hparams : Params InstrumentParam ps params) (hbody : Body bs decls body close) :
    Unit keyword (word :: ident :: ps ++ bs)
      ⟨⟨word.start, close.stop⟩, ident.value, params, decls, body⟩

/-- Tokens that write an opcode. -/
inductive Opcode : List Token → Orchestrion.Opcode → Prop
  | mk {ps bs : List Token} {word ident close : Token} {kind : OpcodeKind}
    {params : List VariableDecl} {decls : List Decl} {body : List Stmt}
    (hword : word.IsWord kind.keyword) (hident : ident.kind = .name)
    (hparams : Params OpcodeParam ps params) (hbody : Body bs decls body close) :
    Opcode (word :: ident :: ps ++ bs)
      ⟨⟨word.start, close.stop⟩, kind, ident.value, params, decls, body⟩

/-- Tokens that write an item of a global block. -/
inductive GlobalItem : List Token → Orchestrion.GlobalItem → Prop
  | setting {word value close : Token} {parameter : Parameter} {n : Nat}
    (hword : word.IsWord parameter.keyword) (hvalue : Integer value n)
    (hclose : close.IsMark .semicolon) :
    GlobalItem [word, value, close] (.setting ⟨⟨word.start, close.stop⟩, parameter, n⟩)
  | decl {ts : List Token} {d : Decl} (h : Declaration ts d) : GlobalItem ts (.decl d)

/-- Tokens that write an item of an orchestra. -/
inductive Item : List Token → Orchestrion.Item → Prop
  | global {ts : List Token} {word open' close : Token} {items : List Orchestrion.GlobalItem}
    (hword : word.IsWord .global) (hopen : open'.IsMark .leftBrace)
    (h : Sequence GlobalItem ts items) (hclose : close.IsMark .rightBrace) :
    Item (word :: open' :: ts ++ [close]) (.global ⟨⟨word.start, close.stop⟩, items⟩)
  | instrument {ts : List Token} {i : Instrument} (h : Unit .instr ts i) : Item ts (.instrument i)
  | template {ts : List Token} {i : Instrument} (h : Unit .template ts i) : Item ts (.template i)
  | opcode {ts : List Token} {o : Orchestrion.Opcode} (h : Opcode ts o) : Item ts (.opcode o)

/-- Tokens of a whole text that write an orchestra. The text ends at the given place. -/
inductive Orchestra (finish : Position) : List Token → OrchestraTree → Prop
  | mk {ts : List Token} {items : List Orchestrion.Item} (h : Sequence Item ts items) :
    Orchestra finish ts ⟨⟨(ts.head?.map Token.start).getD finish, finish⟩, items⟩

end Grammar

end Orchestrion
