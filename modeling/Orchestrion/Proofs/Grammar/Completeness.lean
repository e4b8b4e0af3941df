import Mathlib.Data.List.Nodup
import Orchestrion.Proofs.Grammar.Soundness

/-!
# What is in the grammar is read

Tokens that write a tree by the rules of the grammar are read as that tree, if what follows them
does not continue it and the bound of the reader is sixteen times their number. So no tokens write
two trees.
-/

namespace Orchestrion

open List

/-! ### Operators of tokens -/

theorem BinaryOp.punctuation_injective : Function.Injective BinaryOp.punctuation := by
  intro op op'
  cases op <;> cases op' <;> decide

theorem BinaryOp.ofToken?_punctuation {ops : List BinaryOp} {op : BinaryOp} (h : op ∈ ops) :
    BinaryOp.ofToken? ops (.punctuation op.punctuation) = some op := by
  cases hfind : BinaryOp.ofToken? ops (.punctuation op.punctuation) with
  | none => simpa using find?_eq_none.1 hfind op h
  | some op' =>
    obtain ⟨-, hkind⟩ := BinaryOp.of_ofToken? hfind
    rw [BinaryOp.punctuation_injective (TokenKind.punctuation.inj hkind)]

theorem UnaryOp.ofToken?_punctuation (op : UnaryOp) :
    UnaryOp.ofToken? (.punctuation op.punctuation) = some op := by
  cases op <;> rfl

theorem StorageType.ofToken?_keyword (type : StorageType) :
    StorageType.ofToken? (.keyword type.keyword) = some type := by
  cases type <;> rfl

theorem StorageType.keyword_ne_tag (type : StorageType) :
    TokenKind.keyword type.keyword ≠ .keyword .imports ∧
      TokenKind.keyword type.keyword ≠ .keyword .exports := by
  cases type <;> decide

theorem StorageType.opensDecl_keyword (type : StorageType) :
    (TokenKind.keyword type.keyword).opensDecl = true := by
  cases type <;> rfl

theorem StorageType.keyword_ne_table (type : StorageType) :
    TokenKind.keyword type.keyword ≠ .keyword .table := by
  cases type <;> decide

theorem Parameter.ofToken?_keyword (parameter : Parameter) :
    Parameter.ofToken? (.keyword parameter.keyword) = some parameter := by
  cases parameter <;> rfl

theorem Parameter.ofToken?_eq_none {kind : TokenKind} (h : kind.opensDecl = true) :
    Parameter.ofToken? kind = none := by
  cases kind with
  | keyword k => cases k <;> first | rfl | cases h
  | _ => cases h

/-- Whether an expression begins with the token. -/
def TokenKind.opensExpr : TokenKind → Bool
  | integer | number | name => true
  | punctuation .leftParen | punctuation .minus | punctuation .not => true
  | _ => false

/-- Whether a statement begins with the token. -/
def TokenKind.opensStmt : TokenKind → Bool
  | keyword .ifWord | keyword .whileWord | keyword .output | keyword .extend => true
  | keyword .turnoff | keyword .returnWord => true
  | kind => kind.opensExpr

/-- The token does not continue an expression of the given levels of binary operators. -/
def TokenKind.Ends (kind : TokenKind) (levels : List (List BinaryOp)) : Prop :=
  kind ≠ .punctuation .leftParen ∧ kind ≠ .punctuation .leftBracket ∧
    ∀ op ∈ levels.flatten, kind ≠ .punctuation op.punctuation

/-- The token does not continue an expression. -/
def TokenKind.EndsExpr (kind : TokenKind) : Prop :=
  kind.Ends BinaryOp.levels ∧ kind ≠ .punctuation .question

namespace TokenKind

variable {kind : TokenKind} {ops : List BinaryOp} {levels : List (List BinaryOp)}

instance : Decidable (kind.Ends levels) := inferInstanceAs (Decidable (_ ∧ _ ∧ _))

instance : Decidable kind.EndsExpr := inferInstanceAs (Decidable (_ ∧ _))

theorem Ends.tighter (h : kind.Ends (ops :: levels)) : kind.Ends levels :=
  ⟨h.1, h.2.1, fun op hop => h.2.2 op (mem_append_right ops hop)⟩

theorem Ends.ofToken?_eq_none (h : kind.Ends (ops :: levels)) :
    BinaryOp.ofToken? ops kind = none := by
  refine find?_eq_none.2 fun op hop => ?_
  simpa using h.2.2 op (mem_append_left _ hop)

theorem Ends.of_mem {op : BinaryOp} (hop : op ∈ ops) (hlevels : (ops :: levels).flatten.Nodup) :
    (punctuation op.punctuation).Ends levels := by
  refine ⟨by cases op <;> decide, by cases op <;> decide, fun op' hop' h => ?_⟩
  have heq := BinaryOp.punctuation_injective (punctuation.inj h)
  exact (nodup_append.1 hlevels).2.2 op hop op' hop' heq

theorem opensStmt_of_opensExpr (h : kind.opensExpr = true) : kind.opensStmt = true := by
  cases kind with
  | keyword k => cases h
  | _ => exact h

theorem opensDecl_of_opensStmt (h : kind.opensStmt = true) : kind.opensDecl = false := by
  cases kind with
  | keyword k => cases k <;> first | rfl | cases h
  | _ => rfl

theorem exists_keyword_of_opensDecl (h : kind.opensDecl = true) : ∃ k, kind = keyword k := by
  cases kind with
  | keyword k => exact ⟨k, rfl⟩
  | _ => cases h

theorem EndsExpr.mark {c : Cursor} {t : Token} {ts : List Token} {p : Punctuation} (ht : t.IsMark p)
    (hp : (punctuation p).EndsExpr) : (c.before (t :: ts)).current.kind.EndsExpr := by
  rw [Cursor.current_before_cons, ht]
  exact hp

end TokenKind

theorem Cursor.current_start_before {c : Cursor} {ts us : List Token} {t : Token} {start : Position}
    (h : (ts ++ [t]).head?.map Token.start = some start) :
    (c.before (ts ++ t :: us)).current.start = start := by
  cases ts with
  | nil => exact Option.some.inj h
  | cons u ts => exact Option.some.inj h

namespace Grammar

variable {ts us : List Token} {e : Expr} {c : Cursor}

/-! ### How expressions begin -/

theorem Term.opens (h : Term ts e) : ∃ t us, ts = t :: us ∧
    t.kind.opensExpr = true ∧ UnaryOp.ofToken? t.kind = none := by
  cases h with
  | constant ht => exact ⟨_, _, rfl, by rcases ht with ht | ht <;> rw [ht] <;> decide⟩
  | name ht | element ht | call ht | parens ht => exact ⟨_, _, rfl, by rw [ht]; decide⟩

mutual

theorem Expression.opens {ts : List Token} {e : Expr} :
    Expression ts e → ∃ t us, ts = t :: us ∧ t.kind.opensExpr = true
  | .operation h => h.opens
  | .conditional hguard .. => by
    obtain ⟨t, us, rfl, ht⟩ := hguard.opens
    exact ⟨t, _, rfl, ht⟩

theorem Operation.opens {levels : List (List BinaryOp)} {ts : List Token} {e : Expr} :
    Operation levels ts e → ∃ t us, ts = t :: us ∧ t.kind.opensExpr = true
  | .operand h => h.opens
  | .tighter h => h.opens
  | .binary hleft .. => by
    obtain ⟨t, us, rfl, ht⟩ := hleft.opens
    exact ⟨t, _, rfl, ht⟩

theorem Operand.opens {ts : List Token} {e : Expr} :
    Operand ts e → ∃ t us, ts = t :: us ∧ t.kind.opensExpr = true
  | @Operand.unary _ _ op _ hmark _ => ⟨_, _, rfl, by rw [hmark]; cases op <;> rfl⟩
  | .term h => by
    obtain ⟨t, us, hts, ht, -⟩ := h.opens
    exact ⟨t, us, hts, ht⟩

end

theorem Expression.current_ne_mark {p : Punctuation} (h : Expression ts e)
    (hp : (TokenKind.punctuation p).opensExpr = false) :
    (c.before (ts ++ us)).current.kind ≠ .punctuation p := by
  obtain ⟨t, vs, rfl, ht⟩ := h.opens
  rw [cons_append, Cursor.current_before_cons]
  intro heq
  simp [heq, hp] at ht

theorem Arguments.opens {args : List Expr} {close : Token} (h : Arguments ts args close) :
    ∃ t us, ts = t :: us ∧ t.IsMark .leftParen := by
  cases h with
  | none hopen | some hopen => exact ⟨_, _, rfl, hopen⟩

theorem Expression.length_pos (h : Expression ts e) : 0 < ts.length :=
  length_pos_iff.2 h.ne_nil

theorem length_pos_of_opens {p : Token → Prop} (h : ∃ t us, ts = t :: us ∧ p t) :
    0 < ts.length := by
  obtain ⟨t, us, rfl, -⟩ := h
  exact Nat.succ_pos _

theorem MoreExpressions.endsExpr {es : List Expr} (h : MoreExpressions ts es)
    (hc : (c.before us).current.kind.EndsExpr) : (c.before (ts ++ us)).current.kind.EndsExpr := by
  cases h with
  | nil => exact hc
  | cons hcomma => exact .mark hcomma (by decide)

/-! ### How statements begin -/

theorem Assignable.exists_term {target : Target} (h : Assignable ts target) :
    ∃ e, Term ts e ∧ e.target? = some target := by
  induction h with
  | name ht => exact ⟨_, .name ht, rfl⟩
  | element ht hopen h hclose => exact ⟨_, .element ht hopen h hclose, rfl⟩
  | parens hopen _ hclose ih =>
    obtain ⟨e, he, htarget⟩ := ih
    exact ⟨e, .parens hopen he.expression hclose, htarget⟩

theorem Assignable.opens {ts : List Token} {target : Target} (h : Assignable ts target) :
    ∃ t us, ts = t :: us ∧ t.kind.opensExpr = true := by
  obtain ⟨e, he, -⟩ := h.exists_term
  exact he.expression.opens

theorem Statement.opens {ts : List Token} {s : Stmt} (h : Statement ts s) :
    ∃ t us, ts = t :: us ∧ t.kind.opensStmt = true := by
  cases h with
  | assign ht =>
    obtain ⟨t, us, rfl, h⟩ := ht.opens
    exact ⟨t, _, rfl, TokenKind.opensStmt_of_opensExpr h⟩
  | eval h =>
    obtain ⟨t, us, rfl, ht⟩ := h.opens
    exact ⟨t, _, rfl, TokenKind.opensStmt_of_opensExpr ht⟩
  | ifThen hword | ifElse hword | loop hword | output hword | extend hword | turnoff hword
  | ret hword => exact ⟨_, _, rfl, by rw [hword]; rfl⟩

theorem Statements.opens {ts us : List Token} {ss : List Stmt} {c : Cursor} (h : Statements ts ss)
    (hc : (c.before us).current.kind = .punctuation .rightBrace) :
    (c.before (ts ++ us)).current.kind = .punctuation .rightBrace ∨
      (c.before (ts ++ us)).current.kind.opensStmt = true := by
  cases h with
  | nil => exact .inl hc
  | cons h =>
    obtain ⟨t, us, rfl, ht⟩ := h.opens
    exact .inr ht

/-! ### Tags -/

theorem Tagged.moreTags {tags : Tags} (h : Tagged ts (some tags)) :
    ∃ t us, ts = t :: us ∧ (t.IsWord .imports ∨ t.IsWord .exports) ∧ ts.length ≤ 2 ∧
      MoreTags ⟨⟨t.start, t.start⟩, false, false⟩ ts tags := by
  cases h with
  | imports ht => exact ⟨_, _, rfl, .inl ht, by simp, .imports ht rfl .nil⟩
  | exports ht => exact ⟨_, _, rfl, .inr ht, by simp, .exports ht rfl .nil⟩
  | importsExports ht hu =>
    exact ⟨_, _, rfl, .inl ht, by simp, .imports ht rfl (.exports hu rfl .nil)⟩
  | exportsImports ht hu =>
    exact ⟨_, _, rfl, .inr ht, by simp, .exports ht rfl (.imports hu rfl .nil)⟩

theorem Tagged.opens {o : Option Tags} {u : Token} (h : Tagged ts o)
    (hu : u.kind.opensDecl = true) : ∃ t vs, ts ++ u :: us = t :: vs ∧ t.kind.opensDecl = true := by
  cases h with
  | none => exact ⟨u, us, rfl, hu⟩
  | imports ht | exports ht | importsExports ht | exportsImports ht =>
    exact ⟨_, _, rfl, by rw [ht]; rfl⟩

theorem Declaration.opens {ts : List Token} {d : Decl} (h : Declaration ts d) :
    ∃ t us, ts = t :: us ∧ t.kind.opensDecl = true := by
  cases h with
  | vars htags htype =>
    simp only [append_assoc, cons_append]
    refine htags.opens ?_
    rw [htype.1]
    exact StorageType.opensDecl_keyword _
  | table htags hword =>
    simp only [append_assoc, cons_append]
    exact htags.opens (by rw [hword]; rfl)

theorem GlobalItem.opens {ts : List Token} {i : Orchestrion.GlobalItem} (h : GlobalItem ts i) :
    ∃ t us, ts = t :: us ∧ ∃ k, t.kind = .keyword k := by
  cases h with
  | setting hword => exact ⟨_, _, rfl, _, hword⟩
  | decl h =>
    obtain ⟨t, us, rfl, ht⟩ := h.opens
    exact ⟨t, us, rfl, TokenKind.exists_keyword_of_opensDecl ht⟩

theorem Opcode.opens {o : Orchestrion.Opcode} (h : Opcode ts o) :
    ∃ t us, ts = t :: us ∧ t.IsWord o.kind.keyword := by
  cases h with
  | mk hword => exact ⟨_, _, rfl, hword⟩

theorem Item.opens {ts : List Token} {i : Orchestrion.Item} (h : Item ts i) :
    ∃ t us, ts = t :: us ∧ ∃ k, t.kind = .keyword k := by
  cases h with
  | global hword => exact ⟨_, _, rfl, _, hword⟩
  | instrument h | template h =>
    obtain ⟨hword⟩ := h
    exact ⟨_, _, rfl, _, hword⟩
  | opcode h =>
    obtain ⟨t, us, rfl, ht⟩ := h.opens
    exact ⟨t, us, rfl, _, ht⟩

theorem More.current_ne_bracket {α : Type} {element : List Token → α → Prop} {as : List α}
    {close : Token} {p : Punctuation} (h : More element ts as) (hclose : close.IsMark p)
    (hp : p ≠ .leftBracket) :
    (c.before (ts ++ close :: us)).current.kind ≠ .punctuation .leftBracket := by
  cases h with
  | nil =>
    rw [nil_append, Cursor.current_before_cons, hclose]
    simpa using hp
  | cons hcomma =>
    rw [cons_append, cons_append, Cursor.current_before_cons, hcomma]
    nofun

/-! ### Levels from left to right -/

/-- Operators of one level with their right operands, behind a first operand. -/
inductive Chain (ops : List BinaryOp) (tighter : List (List BinaryOp)) :
    Expr → List Token → Expr → Prop
  | nil {e : Expr} : Chain ops tighter e [] e
  | cons {left right e : Expr} {mark : Token} {rs us : List Token} {op : BinaryOp} (hop : op ∈ ops)
    (hmark : mark.IsMark op.punctuation) (hright : Operation tighter rs right)
    (h : Chain ops tighter (.binary ⟨left.span.start, right.span.stop⟩ op left right) us e) :
    Chain ops tighter left (mark :: rs ++ us) e

variable {ops : List BinaryOp} {tighter : List (List BinaryOp)}

theorem Chain.snoc {left right : Expr} {rs : List Token} {mark : Token} {op : BinaryOp}
    (h : Chain ops tighter left us e) (hop : op ∈ ops) (hmark : mark.IsMark op.punctuation)
    (hright : Operation tighter rs right) :
    Chain ops tighter left (us ++ mark :: rs)
      (.binary ⟨e.span.start, right.span.stop⟩ op e right) := by
  induction h with
  | nil => simpa using Chain.cons hop hmark hright .nil
  | cons hop' hmark' hright' _ ih => simpa using Chain.cons hop' hmark' hright' ih

theorem Operation.exists_chain {ts : List Token} {e : Expr} : Operation (ops :: tighter) ts e →
    ∃ fs us first, ts = fs ++ us ∧ Operation tighter fs first ∧ Chain ops tighter first us e
  | .tighter h => ⟨ts, [], e, by simp, h, .nil⟩
  | .binary hleft hop hmark hright => by
    obtain ⟨fs, us, first, rfl, hfirst, hchain⟩ := hleft.exists_chain
    exact ⟨fs, _, first, append_assoc .., hfirst, hchain.snoc hop hmark hright⟩

theorem Chain.ends {left : Expr} (h : Chain ops tighter left us e)
    (hlevels : (ops :: tighter).flatten.Nodup) (hc : c.current.kind.Ends (ops :: tighter)) :
    (c.before us).current.kind.Ends tighter := by
  cases h with
  | nil => exact hc.tighter
  | cons hop hmark =>
    rw [cons_append, Cursor.current_before_cons, hmark]
    exact .of_mem hop hlevels

end Grammar

namespace Reader

variable {c : Cursor} {ts : List Token} {close : Token}

open Grammar

/-! ### Expressions

An expression leads to a term through nine calls that take no token, each with a smaller bound. So
what is added to the bound below is the number of these calls that are made already. -/

theorem reads_constant {t : Token} (hvalue : t.literal.value?.isSome = true) :
    (literal (t.kind = .integer)).Reads [t] (.constant t.span t.literal) c := by
  obtain ⟨v, hv⟩ := Option.isSome_iff_exists.1 hvalue
  refine .peek ?_
  have hliteral : Literal.value? ⟨t.value, t.kind = .integer⟩ = some v := hv
  rw [Cursor.current_before_cons]
  simp only [hliteral]
  exact .take .pure

mutual

theorem reads_expression (n : Nat) {ts : List Token} {e : Expr} {c : Cursor} (h : Expression ts e)
    (hn : 16 * ts.length ≤ n) (hc : c.current.kind.EndsExpr) : (expression n).Reads ts e c := by
  have hpos := h.length_pos
  cases n with
  | zero => omega
  | succ n =>
    cases h with
    | operation h =>
      have hlength : BinaryOp.levels.length = 6 := rfl
      exact .bind_nil (reads_operation n (by decide) h (by omega) hc.1) (.sees_not hc.2 .pure)
    | conditional hguard hmark hyes hcolon hno =>
      simp only [append_assoc, cons_append, length_append, length_cons] at hn ⊢
      have hlength : BinaryOp.levels.length = 6 := rfl
      refine .bind (reads_operation n (by decide) hguard (by omega) ?_) (.sees hmark (.take ?_))
      · rw [Cursor.current_before_cons, hmark]
        decide
      refine .bind (reads_expression n hyes (by omega) (.mark hcolon (by decide))) (.mark hcolon ?_)
      exact .bind_nil (reads_expression n hno (by omega) hc) .pure

theorem reads_operation (n : Nat) {levels : List (List BinaryOp)} {ts : List Token} {e : Expr}
    {c : Cursor} (hlevels : levels.flatten.Nodup) (h : Grammar.Operation levels ts e)
    (hn : 16 * ts.length + levels.length ≤ n + 7) (hc : c.current.kind.Ends levels) :
    (operation n levels).Reads ts e c := by
  have hpos := length_pos_of_opens h.opens
  cases n with
  | zero => omega
  | succ n =>
    cases levels with
    | nil =>
      cases h with
      | operand h =>
        exact reads_operand n h (by simpa using hn) hc
    | cons ops tighter =>
      -- The grammar nests to the left, but the reader takes the leftmost operand first.
      obtain ⟨fs, us, first, rfl, hfirst, hchain⟩ := h.exists_chain
      have hfirstPos := length_pos_of_opens hfirst.opens
      simp only [length_append, length_cons] at hn
      have htighter : tighter.flatten.Nodup := (nodup_append.1 hlevels).2.1
      exact .bind (reads_operation n htighter hfirst (by omega) (hchain.ends hlevels hc))
        (reads_operands n hlevels hchain (by omega) hc)

theorem reads_operands (n : Nat) {ops : List BinaryOp} {tighter : List (List BinaryOp)}
    {us : List Token} {left e : Expr} {c : Cursor} (hlevels : (ops :: tighter).flatten.Nodup)
    (h : Chain ops tighter left us e) (hn : 16 * us.length + tighter.length + 1 ≤ n)
    (hc : c.current.kind.Ends (ops :: tighter)) : (operands n ops tighter left).Reads us e c := by
  cases n with
  | zero => omega
  | succ n =>
    cases h with
    | nil =>
      refine .kind rfl ?_
      rw [Cursor.current_before_nil, hc.ofToken?_eq_none]
      exact .pure
    | cons hop hmark hright hchain =>
      simp only [length_append, length_cons] at hn
      have htighter : tighter.flatten.Nodup := (nodup_append.1 hlevels).2.1
      refine .kind hmark ?_
      rw [BinaryOp.ofToken?_punctuation hop]
      refine .take
        (.bind (reads_operation n htighter hright (by omega) (hchain.ends hlevels hc)) ?_)
      exact reads_operands n hlevels hchain (by omega) hc

theorem reads_operand (n : Nat) {ts : List Token} {e : Expr} {c : Cursor} (h : Operand ts e)
    (hn : 16 * ts.length ≤ n + 8) (hc : c.current.kind.Ends []) : (operand n).Reads ts e c := by
  cases n with
  | zero =>
    have hpos := length_pos_of_opens h.opens
    omega
  | succ n =>
    cases h with
    | unary hmark h =>
      simp only [length_cons] at hn
      refine .kind hmark ?_
      rw [UnaryOp.ofToken?_punctuation]
      exact .take (.bind_nil (reads_operand n h (by omega) hc) .pure)
    | term h =>
      obtain ⟨t, us, rfl, -, ht⟩ := h.opens
      refine .kind rfl ?_
      rw [Cursor.current_before_cons, ht]
      exact reads_term n h (by omega) hc

theorem reads_term (n : Nat) {ts : List Token} {e : Expr} {c : Cursor} (h : Term ts e)
    (hn : 16 * ts.length ≤ n + 9) (hc : c.current.kind.Ends []) : (term n).Reads ts e c := by
  cases n with
  | zero =>
    have hpos := length_pos_of_opens h.opens
    omega
  | succ n =>
    cases h with
    | constant ht hvalue =>
      have hread := reads_constant hvalue (c := c)
      rcases ht with ht | ht <;> refine .kind ht ?_ <;> simpa [ht] using hread
    | name ht =>
      -- Neither a bracket nor a parenthesis follows, so that this is no element and no call.
      refine .kind ht (.take (.kind rfl ?_))
      split
      next h => exact absurd h hc.2.1
      next h => exact absurd h hc.1
      next => exact .pure
    | element ht hopen h hclose =>
      simp only [length_append, length_cons] at hn
      refine .kind ht (.take (.kind hopen (.take ?_)))
      exact .bind (reads_expression n h (by omega) (.mark hclose (by decide))) (.mark hclose .pure)
    | call ht h =>
      simp only [length_cons] at hn
      obtain ⟨open', us, rfl, hopen⟩ := h.opens
      refine .kind ht (.take (.kind hopen ?_))
      exact .bind_nil (reads_arguments n h (by omega)) .pure
    | parens hopen h hclose =>
      simp only [length_append, length_cons] at hn
      refine .kind hopen (.take ?_)
      exact .bind (reads_expression n h (by omega) (.mark hclose (by decide))) (.mark hclose .pure)

theorem reads_arguments (n : Nat) {ts : List Token} {args : List Expr} {close : Token} {c : Cursor}
    (h : Arguments ts args close) (hn : 16 * ts.length ≤ n + 6) :
    (arguments n).Reads ts (args, close) c := by
  cases n with
  | zero =>
    have hpos := length_pos_of_opens h.opens
    omega
  | succ n =>
    cases h with
    | none hopen hclose => exact .mark hopen (.sees hclose (.take .pure))
    | some hopen h hes hclose =>
      simp only [append_assoc, cons_append, length_append, length_cons] at hn ⊢
      refine .mark hopen (.sees_not (h.current_ne_mark (by decide)) ?_)
      have hpos := h.length_pos
      refine .bind (reads_expression n h (by omega) (hes.endsExpr (.mark hclose (by decide)))) ?_
      exact .bind_nil (reads_moreArguments n hes hclose (by omega)) .pure

theorem reads_moreArguments (n : Nat) {ts : List Token} {args : List Expr} {close : Token}
    {c : Cursor} (h : MoreExpressions ts args) (hclose : close.IsMark .rightParen)
    (hn : 16 * ts.length + 1 ≤ n) : (moreArguments n).Reads (ts ++ [close]) (args, close) c := by
  cases n with
  | zero => omega
  | succ n =>
    cases h with
    | nil => exact .sees hclose (.take .pure)
    | cons hcomma h hes =>
      simp only [append_assoc, cons_append, length_append, length_cons] at hn ⊢
      refine .sees_not ?_ (.mark hcomma (.bind (reads_expression n h (by omega) ?_) (.bind_nil
        (reads_moreArguments n hes hclose (by omega)) .pure)))
      · rw [Cursor.current_before_cons, hcomma]
        nofun
      · exact hes.endsExpr (.mark hclose (by decide))

end

/-! ### Statements -/

theorem reads_guard (n : Nat) {e : Expr} (h : Guard ts e) (hn : 16 * ts.length ≤ n) :
    (guard n).Reads ts e c := by
  cases h with
  | mk hopen h hclose =>
    simp only [length_append, length_cons] at hn
    exact .mark hopen
      (.bind (reads_expression n h (by omega) (.mark hclose (by decide))) (.mark hclose .pure))

theorem reads_assign (n : Nat) {vs : List Token} {mark : Token} {start : Position} {target : Target}
    {value : Expr} (ht : Assignable ts target) (hstart : ts.head?.map Token.start = some start)
    (hmark : mark.IsMark .assign) (hvalue : Expression vs value) (hclose : close.IsMark .semicolon)
    (hts : 16 * ts.length ≤ n) (hvs : 16 * vs.length ≤ n) :
    (simpleStatement n).Reads (ts ++ mark :: (vs ++ [close]))
      (.assign ⟨start, close.stop⟩ target value) c := by
  obtain ⟨e, he, htarget⟩ := ht.exists_term
  obtain ⟨t, us, rfl, -⟩ := he.opens
  cases hstart
  refine .peek (.bind (reads_expression n he.expression hts (.mark hmark (by decide)))
    (.sees hmark ?_))
  rw [htarget]
  refine .take (.bind (reads_expression n hvalue hvs (.mark hclose (by decide)))
    (.mark hclose .pure))

theorem reads_eval (n : Nat) {start : Position} {value : Expr} (h : Expression ts value)
    (hstart : ts.head?.map Token.start = some start) (hclose : close.IsMark .semicolon)
    (hts : 16 * ts.length ≤ n) :
    (simpleStatement n).Reads (ts ++ [close]) (.eval ⟨start, close.stop⟩ value) c := by
  obtain ⟨t, us, rfl, -⟩ := h.opens
  cases hstart
  refine .peek (.bind (reads_expression n h hts (.mark hclose (by decide))) (.sees_not ?_ ?_))
  · rw [Cursor.current_before_cons, hclose]
    nofun
  · exact .mark hclose .pure

theorem Reads.statement {n : Nat} {ts : List Token} {s : Stmt} {c : Cursor}
    (hopens : (c.before ts).current.kind.opensExpr = true) (h : (simpleStatement n).Reads ts s c) :
    (Reader.statement (n + 1)).Reads ts s c := by
  refine .peek (.kind rfl ?_)
  generalize (c.before ts).current.kind = kind at hopens
  cases kind with
  | keyword k => cases hopens
  | _ => exact h

mutual

theorem reads_statement (n : Nat) {ts : List Token} {s : Stmt} {c : Cursor} (h : Statement ts s)
    (hn : 16 * ts.length ≤ n) (hc : c.current.kind ≠ .keyword .elseWord) :
    (statement n).Reads ts s c := by
  cases n with
  | zero =>
    have hpos := length_pos_of_opens h.opens
    omega
  | succ n =>
    cases h with
    | assign ht hstart hmark hvalue hclose =>
      obtain ⟨t, us, rfl, hopens⟩ := ht.opens
      simp only [append_assoc, cons_append, length_append, length_cons] at hn ⊢
      refine .statement hopens ?_
      exact reads_assign n ht hstart hmark hvalue hclose (by simp only [length_cons]; omega)
        (by omega)
    | eval h hstart hclose =>
      obtain ⟨t, us, rfl, hopens⟩ := h.opens
      simp only [length_append, length_cons] at hn
      refine .statement hopens ?_
      exact reads_eval n h hstart hclose (by simp only [length_cons]; omega)
    | ifThen hword hguard hbody =>
      simp only [length_append, length_cons] at hn
      refine .peek (.kind hword (.take (.bind (reads_guard n hguard (by omega)) ?_)))
      exact .bind_nil (reads_block n hbody (by omega)) (.seesWord_not hc .pure)
    | ifElse hword hguard hyes helse hno =>
      simp only [append_assoc, cons_append, length_append, length_cons] at hn ⊢
      refine .peek (.kind hword (.take (.bind (reads_guard n hguard (by omega)) ?_)))
      refine .bind (reads_block n hyes (by omega)) (.seesWord helse (.take ?_))
      exact .bind_nil (reads_block n hno (by omega)) .pure
    | loop hword hguard hbody =>
      simp only [length_append, length_cons] at hn
      refine .peek (.kind hword (.take (.bind (reads_guard n hguard (by omega)) ?_)))
      exact .bind_nil (reads_block n hbody (by omega)) .pure
    | output hword hargs hclose | ret hword hargs hclose =>
      simp only [length_append, length_cons] at hn
      refine .peek (.kind hword (.take (.bind (reads_arguments n hargs (by omega)) ?_)))
      exact .mark hclose .pure
    | extend hword hseconds hclose =>
      simp only [length_append, length_cons] at hn
      refine .peek (.kind hword (.take (.bind (reads_guard n hseconds (by omega)) ?_)))
      exact .mark hclose .pure
    | turnoff hword hclose =>
      exact .peek (.kind hword (.take (.mark hclose .pure)))

theorem reads_block (n : Nat) {ts : List Token} {body : List Stmt} {close : Token} {c : Cursor}
    (h : Block ts body close) (hn : 16 * ts.length ≤ n) : (block n).Reads ts (body, close) c := by
  cases h with
  | mk hopen h hclose =>
    simp only [length_append, length_cons] at hn
    cases n with
    | zero => omega
    | succ n =>
      exact .mark hopen (.bind (reads_statements n h (by omega) hclose) (.mark hclose .pure))

theorem reads_statements (n : Nat) {ts : List Token} {ss : List Stmt} {c : Cursor}
    (h : Statements ts ss) (hn : 16 * ts.length + 1 ≤ n)
    (hc : c.current.kind = .punctuation .rightBrace) : (statements n).Reads ts ss c := by
  cases n with
  | zero => omega
  | succ n =>
    rw [statements]
    cases h with
    | nil => exact .kind hc .pure
    | cons h hss =>
      have hpos := length_pos_of_opens h.opens
      simp only [length_append] at hn
      obtain ⟨t, us, rfl, ht⟩ := h.opens
      refine .kind rfl ?_
      split
      iterate 2
        next hkind =>
          rw [cons_append, Cursor.current_before_cons] at hkind
          simp [hkind, TokenKind.opensStmt, TokenKind.opensExpr] at ht
      next =>
        refine .bind (reads_statement n h (by omega) ?_)
          (.bind_nil (reads_statements n hss (by omega) hc) .pure)
        -- A statement or the brace follows, and neither begins with `else`.
        intro helse
        have hnext : (c.before (_ ++ [])).current.kind = _ ∨ _ := hss.opens hc
        rw [append_nil, helse] at hnext
        rcases hnext with hnext | hnext <;> cases hnext

end

/-! ### Declarations -/

theorem reads_moreTags (n : Nat) {tags tags' : Tags} (h : MoreTags tags ts tags')
    (hn : ts.length < n)
    (hc : c.current.kind ≠ .keyword .imports ∧ c.current.kind ≠ .keyword .exports) :
    (moreTags n tags).Reads ts tags' c := by
  induction h generalizing n with
  | nil =>
    obtain ⟨n, rfl⟩ := Nat.exists_eq_add_one.2 hn
    refine .kind rfl ?_
    split
    next h => exact absurd h hc.1
    next h => exact absurd h hc.2
    next => exact .pure
  | imports ht hnew _ ih | exports ht hnew _ ih =>
    obtain ⟨n, rfl⟩ := Nat.exists_eq_add_one.2 (Nat.zero_lt_of_lt hn)
    refine .kind ht ?_
    simp only [hnew]
    exact .take (ih n (by simpa using hn))

theorem reads_tags (n : Nat) {o : Option Tags} (h : Tagged ts o) (hn : 3 ≤ n)
    (hc : c.current.kind ≠ .keyword .imports ∧ c.current.kind ≠ .keyword .exports) :
    (tags n).Reads ts o c := by
  cases o with
  | none =>
    cases h with
    | none =>
      refine .kind rfl ?_
      split
      next h => exact absurd h hc.1
      next h => exact absurd h hc.2
      next => exact .pure
  | some tags =>
    obtain ⟨t, us, rfl, ht, hlength, hmore⟩ := h.moreTags
    have hread := reads_moreTags n hmore (by omega) hc
    rcases ht with ht | ht <;> exact .kind ht (.peek (.bind_nil hread .pure))

theorem reads_typeName {t : Token} {type : TypeName} (h : Typed t type) :
    typeName.Reads [t] type c := by
  obtain ⟨span, type⟩ := type
  obtain ⟨ht, rfl⟩ := h
  refine .kind ht ?_
  rw [StorageType.ofToken?_keyword]
  exact .take .pure

theorem reads_declaredName {d : DeclaredName} (h : Declared ts d)
    (hc : c.current.kind ≠ .punctuation .leftBracket) : declaredName.Reads ts d c := by
  cases h with
  | scalar ht => exact .expect ht (.sees_not hc .pure)
  | array ht hopen hsize hclose =>
    refine .expect ht (.sees hopen (.take ?_))
    cases hsize with
    | array h => exact .kind h.1 (.bind (.map (reads_integer h)) (.mark hclose .pure))
    | inChannels h | outChannels h => exact .kind h (.take (.bind .pure (.mark hclose .pure)))

theorem reads_moreNames (n : Nat) {ds : List DeclaredName} (h : More Declared ts ds)
    (hn : ts.length < n) (hc : c.current.kind = .punctuation .semicolon) :
    (moreNames n).Reads ts ds c := by
  induction h generalizing n with
  | nil =>
    obtain ⟨n, rfl⟩ := Nat.exists_eq_add_one.2 hn
    exact .sees_not (by rw [Cursor.current_before_nil, hc]; decide) .pure
  | cons hcomma h hmore ih =>
    simp only [length_append, length_cons] at hn
    obtain ⟨n, rfl⟩ := Nat.exists_eq_add_one.2 (Nat.zero_lt_of_lt hn)
    refine .sees hcomma
      (.take (.bind (reads_declaredName h ?_) (.bind_nil (ih n (by omega)) .pure)))
    cases hmore with
    | nil => rw [Cursor.current_before_nil, hc]; decide
    | cons hcomma => rw [cons_append, Cursor.current_before_cons, hcomma]; decide

theorem reads_generatorArguments (n : Nat) {es : List Expr} (h : MoreExpressions ts es)
    (hn : 16 * ts.length + 1 ≤ n) (hc : c.current.kind = .punctuation .rightParen) :
    (generatorArguments n).Reads ts es c := by
  induction n generalizing ts es with
  | zero => omega
  | succ n ih =>
    cases h with
    | nil => exact .sees_not (by rw [Cursor.current_before_nil, hc]; decide) .pure
    | cons hcomma h hes =>
      simp only [length_append, length_cons] at hn
      have hends : (c.before (_ ++ [])).current.kind.EndsExpr :=
        hes.endsExpr (by rw [Cursor.current_before_nil, hc]; decide)
      rw [append_nil] at hends
      refine .sees hcomma (.take (.bind (reads_expression n h (by omega) hends) ?_))
      exact .bind_nil (ih hes (by omega)) .pure

theorem reads_declaration (n : Nat) {d : Decl} (h : Declaration ts d) (hn : 16 * ts.length ≤ n) :
    (declaration n).Reads ts d c := by
  cases h with
  | vars htags htype hfirst hothers hclose hstart =>
    simp only [append_assoc, cons_append, length_append, length_cons] at hn ⊢
    -- The word of a type is neither a tag nor that of a table.
    have hword := htype.1
    refine .peek (.bind (reads_tags n htags (by omega) ?_) (.seesWord_not ?_ ?_))
    · rw [Cursor.current_before_cons, hword]
      exact StorageType.keyword_ne_tag _
    · rw [Cursor.current_before_cons, hword]
      exact StorageType.keyword_ne_table _
    refine .bind (reads_typeName htype) (.bind (reads_declaredName hfirst ?_) ?_)
    · exact hothers.current_ne_bracket hclose nofun
    refine .bind (reads_moreNames n hothers (by omega) hclose) (.mark hclose ?_)
    rw [Cursor.current_start_before hstart]
    exact .pure
  | table htags hword hident hopen hgenerator hargs hparen hclose hstart =>
    simp only [append_assoc, cons_append, length_append, length_cons] at hn ⊢
    refine .peek (.bind (reads_tags n htags (by omega) ?_) (.seesWord hword (.take ?_)))
    · rw [Cursor.current_before_cons, hword]
      exact ⟨nofun, nofun⟩
    refine .expect hident (.mark hopen (.expect hgenerator ?_))
    refine .bind (reads_generatorArguments n hargs (by omega) hparen)
      (.mark hparen (.mark hclose ?_))
    rw [Cursor.current_start_before hstart]
    exact .pure

theorem reads_declarations (n : Nat) {ds : List Decl} (h : Sequence Declaration ts ds)
    (hn : 16 * ts.length + 1 ≤ n) (hc : c.current.kind.opensDecl = false) :
    (declarations n).Reads ts ds c := by
  induction h generalizing n with
  | nil =>
    obtain ⟨n, rfl⟩ := Nat.exists_eq_add_one.2 hn
    refine .kind rfl ?_
    rw [Cursor.current_before_nil, hc]
    exact .pure
  | cons h _ ih =>
    obtain ⟨n, rfl⟩ := Nat.exists_eq_add_one.2 (Nat.zero_lt_of_lt hn)
    obtain ⟨t, us, rfl, ht⟩ := h.opens
    simp only [length_append, length_cons] at hn
    refine .kind rfl ?_
    rw [cons_append, Cursor.current_before_cons, ht]
    exact .bind (reads_declaration n h (by simp only [length_cons]; omega))
      (.bind_nil (ih n (by omega)) .pure)

/-! ### Orchestras -/

theorem reads_body (n : Nat) {decls : List Decl} {stmts : List Stmt} (h : Body ts decls stmts close)
    (hn : 16 * ts.length ≤ n) : (body n).Reads ts (decls, stmts, close) c := by
  cases h with
  | mk hopen hdecls hstmts hclose =>
    simp only [append_assoc, cons_append, length_append, length_cons] at hn ⊢
    refine .mark hopen (.bind (reads_declarations n hdecls (by omega) ?_) ?_)
    · -- A statement or the brace follows, and neither opens a declaration.
      have hnext : (c.before (_ ++ [_])).current.kind = _ ∨ _ := hstmts.opens hclose
      rcases hnext with hnext | hnext
      · rw [hnext]
        rfl
      · exact TokenKind.opensDecl_of_opensStmt hnext
    exact .bind (reads_statements n hstmts (by omega) hclose) (.mark hclose .pure)

section Listed

variable {α : Type} {element : Reader α} {param : List Token → α → Prop}
  (helement : ∀ {ts a} {c : Cursor}, param ts a → c.current.kind ≠ .punctuation .leftBracket →
    element.Reads ts a c)
  (hopens : ∀ {ts a}, param ts a → ∃ t us, ts = t :: us ∧ t.kind ≠ .punctuation .rightParen)

include helement

theorem reads_listed_more (n : Nat) {ts : List Token} {as : List α} {close : Token} {c : Cursor}
    (h : More param ts as) (hclose : close.IsMark .rightParen) (hn : ts.length < n) :
    (listed element n false).Reads (ts ++ [close]) as c := by
  induction h generalizing n with
  | nil =>
    obtain ⟨n, rfl⟩ := Nat.exists_eq_add_one.2 hn
    exact .sees hclose (.take .pure)
  | cons hcomma h hmore ih =>
    simp only [append_assoc, cons_append, length_append, length_cons] at hn ⊢
    obtain ⟨n, rfl⟩ := Nat.exists_eq_add_one.2 (Nat.zero_lt_of_lt hn)
    refine .sees_not (by rw [Cursor.current_before_cons, hcomma]; decide) (.mark hcomma ?_)
    exact .bind (helement h (hmore.current_ne_bracket hclose (by decide)))
      (.bind_nil (ih n (by omega)) .pure)

include hopens

theorem reads_listed (n : Nat) {ts us : List Token} {a : α} {as : List α} {close : Token}
    {c : Cursor} (h : param ts a) (has : More param us as) (hclose : close.IsMark .rightParen)
    (hn : us.length < n) :
    (listed element (n + 1) true).Reads (ts ++ (us ++ [close])) (a :: as) c := by
  refine .sees_not ?_ (.bind (helement h (has.current_ne_bracket hclose (by decide)))
    (.bind_nil (reads_listed_more helement n has hclose hn) .pure))
  obtain ⟨t, vs, rfl, ht⟩ := hopens h
  exact ht

theorem reads_params (n : Nat) {ts us : List Token} {as : List α} {β : Type} {f : List α → Reader β}
    {b : β} {c : Cursor} (h : Params param ts as) (hn : ts.length ≤ n) (hf : (f as).Reads us b c) :
    (mark .leftParen >>= fun _ => listed element n true >>= f).Reads (ts ++ us) b c := by
  cases h with
  | none hopen hclose =>
    obtain ⟨n, rfl⟩ := Nat.exists_eq_add_one.2 (Nat.zero_lt_of_lt hn)
    exact .mark hopen (.bind (.sees hclose (.take .pure)) hf)
  | some hopen h has hclose =>
    simp only [append_assoc, cons_append, length_append, length_cons] at hn ⊢
    obtain ⟨n, rfl⟩ := Nat.exists_eq_add_one.2 (Nat.zero_lt_of_lt hn)
    have hread := (reads_listed helement hopens n h has hclose (by omega)).bind hf
    simp only [append_assoc, cons_append, nil_append] at hread
    exact .mark hopen hread

end Listed

theorem reads_instrumentParam {p : InstrumentParam} (h : Grammar.InstrumentParam ts p) :
    instrumentParam.Reads ts p c := by
  cases h with
  | mk ht => exact .expect ht .pure

theorem reads_opcodeParam {p : VariableDecl} (h : Grammar.OpcodeParam ts p)
    (hc : c.current.kind ≠ .punctuation .leftBracket) : opcodeParam.Reads ts p c := by
  cases h with
  | mk htype h => exact .bind (reads_typeName htype) (.bind_nil (reads_declaredName h hc) .pure)

theorem reads_instrument (n : Nat) {keyword : Keyword} {i : Instrument}
    (h : Grammar.Unit keyword ts i) (hn : 16 * ts.length ≤ n) : (instrument n).Reads ts i c := by
  cases h with
  | mk hword hident hparams hbody =>
    simp only [length_append, length_cons] at hn
    refine .take (.expect hident (reads_params (fun h _ => reads_instrumentParam h) ?_ n hparams
      (by omega) (.bind_nil (reads_body n hbody (by omega)) .pure)))
    rintro _ _ ⟨ht⟩
    exact ⟨_, _, rfl, by rw [ht]; nofun⟩

theorem reads_opcode (n : Nat) {o : Opcode} (h : Grammar.Opcode ts o) (hn : 16 * ts.length ≤ n) :
    (opcode n o.kind).Reads ts o c := by
  cases h with
  | mk hword hident hparams hbody =>
    simp only [length_append, length_cons] at hn
    refine .take (.expect hident (reads_params reads_opcodeParam ?_ n hparams (by omega)
      (.bind_nil (reads_body n hbody (by omega)) .pure)))
    rintro _ _ ⟨htype, _⟩
    exact ⟨_, _, rfl, by rw [htype.1]; nofun⟩

theorem reads_globalItem (n : Nat) {i : GlobalItem} (h : Grammar.GlobalItem ts i)
    (hn : 16 * ts.length ≤ n) : (globalItem n).Reads ts i c := by
  cases h with
  | setting hword hvalue hclose =>
    refine .kind hword ?_
    rw [Parameter.ofToken?_keyword]
    exact .take (.bind (reads_integer hvalue) (.mark hclose .pure))
  | decl h =>
    have hread := reads_declaration n h hn (c := c)
    obtain ⟨t, us, rfl, ht⟩ := h.opens
    refine .kind rfl ?_
    rw [Cursor.current_before_cons, Parameter.ofToken?_eq_none ht]
    exact .map hread

theorem reads_globalItems (n : Nat) {is : List GlobalItem} (h : Sequence Grammar.GlobalItem ts is)
    (hn : 16 * ts.length + 1 ≤ n) (hc : c.current.kind = .punctuation .rightBrace) :
    (globalItems n).Reads ts is c := by
  induction h generalizing n with
  | nil =>
    obtain ⟨n, rfl⟩ := Nat.exists_eq_add_one.2 hn
    exact .kind hc .pure
  | cons h _ ih =>
    obtain ⟨n, rfl⟩ := Nat.exists_eq_add_one.2 (Nat.zero_lt_of_lt hn)
    obtain ⟨t, us, rfl, k, ht⟩ := h.opens
    simp only [length_append, length_cons] at hn
    refine .kind ht ?_
    exact .bind (reads_globalItem n h (by simp only [length_cons]; omega))
      (.bind_nil (ih n (by omega)) .pure)

theorem reads_item (n : Nat) {i : Item} (h : Grammar.Item ts i) (hn : 16 * ts.length ≤ n) :
    (item n).Reads ts i c := by
  cases h with
  | global hword hopen h hclose =>
    simp only [length_append, length_cons] at hn
    refine .kind hword (.map ?_)
    exact .take (.mark hopen (.bind (reads_globalItems n h (by omega) hclose) (.mark hclose .pure)))
  | instrument h | template h =>
    have hread := reads_instrument n h hn (c := c)
    obtain ⟨hword⟩ := h
    exact .kind hword (.map hread)
  | opcode h =>
    have hread := reads_opcode n h hn (c := c)
    obtain ⟨t, us, rfl, ht⟩ := h.opens
    refine .kind ht ?_
    -- Each of the three words is that of its own kind of opcodes.
    generalize Opcode.kind _ = sort at hread ⊢
    cases sort <;> exact .map hread

theorem reads_items (n : Nat) {is : List Item} (h : Sequence Grammar.Item ts is)
    (hn : 16 * ts.length + 1 ≤ n) (hc : c.current.kind = .endOfText) : (items n).Reads ts is c := by
  induction h generalizing n with
  | nil =>
    obtain ⟨n, rfl⟩ := Nat.exists_eq_add_one.2 hn
    exact .kind hc .pure
  | cons h _ ih =>
    obtain ⟨n, rfl⟩ := Nat.exists_eq_add_one.2 (Nat.zero_lt_of_lt hn)
    obtain ⟨t, us, rfl, k, ht⟩ := h.opens
    simp only [length_append, length_cons] at hn
    refine .kind ht ?_
    exact .bind (reads_item n h (by simp only [length_cons]; omega))
      (.bind_nil (ih n (by omega)) .pure)

theorem reads_orchestra (n : Nat) {tree : OrchestraTree} {finish : Position}
    (h : Grammar.Orchestra finish ts tree) (hn : 16 * ts.length + 1 ≤ n) :
    (orchestra n).Reads ts tree ⟨[], finish⟩ := by
  obtain ⟨h⟩ := h
  have hstart : ((⟨[], finish⟩ : Cursor).before ts).current.start =
      (ts.head?.map Token.start).getD finish := by
    cases ts <;> rfl
  rw [← hstart]
  exact .peek (.bind_nil (reads_items n h hn rfl) (.peek .pure))

end Reader

end Orchestrion
