import Orchestrion.Proofs.Grammar.Reader

/-!
# What is read is in the grammar

If a reader succeeds, the tokens that it has taken write the tree that it gives, by the rules of the
grammar. If it does not, there is one fault, at a place of the text.
-/

namespace Orchestrion

open Grammar

namespace Grammar

/-! ### Where expressions begin -/

mutual

theorem Expression.exists_start {ts : List Token} {e : Expr} :
    Expression ts e → ∃ t ∈ ts, e.span.start = t.start
  | .operation h => h.exists_start
  | .conditional hguard .. => by
    obtain ⟨t, ht, hstart⟩ := hguard.exists_start
    exact ⟨t, by simp [ht], hstart⟩

theorem Operation.exists_start {levels : List (List BinaryOp)} {ts : List Token} {e : Expr} :
    Operation levels ts e → ∃ t ∈ ts, e.span.start = t.start
  | .operand h => h.exists_start
  | .tighter h => h.exists_start
  | .binary hleft .. => by
    obtain ⟨t, ht, hstart⟩ := hleft.exists_start
    exact ⟨t, by simp [ht], hstart⟩

theorem Operand.exists_start {ts : List Token} {e : Expr} :
    Operand ts e → ∃ t ∈ ts, e.span.start = t.start
  | .unary .. => ⟨_, List.mem_cons_self, rfl⟩
  | .term h => h.exists_start

theorem Term.exists_start {ts : List Token} {e : Expr} :
    Term ts e → ∃ t ∈ ts, e.span.start = t.start
  | .constant .. | .name .. | .element .. | .call .. => ⟨_, List.mem_cons_self, rfl⟩
  | .parens _ h _ => by
    obtain ⟨t, ht, hstart⟩ := h.exists_start
    exact ⟨t, by simp [ht], hstart⟩

end

theorem Expression.ne_nil {ts : List Token} {e : Expr} (h : Expression ts e) : ts ≠ [] := by
  obtain ⟨t, ht, -⟩ := h.exists_start
  exact List.ne_nil_of_mem ht

/-! ### Targets -/

mutual

theorem Expression.assignable {ts : List Token} {e : Expr} {target : Target}
    (htarget : e.target? = some target) : Expression ts e → Assignable ts target
  | .operation h => h.assignable htarget
  | .conditional .. => by cases htarget

theorem Operation.assignable {levels : List (List BinaryOp)} {ts : List Token} {e : Expr}
    {target : Target} (htarget : e.target? = some target) :
    Operation levels ts e → Assignable ts target
  | .operand h => h.assignable htarget
  | .tighter h => h.assignable htarget
  | .binary .. => by cases htarget

theorem Operand.assignable {ts : List Token} {e : Expr} {target : Target}
    (htarget : e.target? = some target) : Operand ts e → Assignable ts target
  | .unary .. => by cases htarget
  | .term h => h.assignable htarget

theorem Term.assignable {ts : List Token} {e : Expr} {target : Target}
    (htarget : e.target? = some target) : Term ts e → Assignable ts target
  | .constant .. => by cases htarget
  | .name ht => by
    cases htarget
    exact .name ht
  | .element ht hopen h hclose => by
    cases htarget
    exact .element ht hopen h hclose
  | .call .. => by cases htarget
  | .parens hopen h hclose => .parens hopen (h.assignable htarget) hclose

end

/-! ### Tags -/

/-- Tokens that add tags to those already read. -/
inductive MoreTags : Tags → List Token → Tags → Prop
  | nil {tags : Tags} : MoreTags tags [] tags
  | imports {tags tags' : Tags} {t : Token} {ts : List Token} (ht : t.IsWord .imports)
    (hnew : tags.imports = false)
    (h : MoreTags { tags with imports := true, span.stop := t.stop } ts tags') :
    MoreTags tags (t :: ts) tags'
  | exports {tags tags' : Tags} {t : Token} {ts : List Token} (ht : t.IsWord .exports)
    (hnew : tags.exports = false)
    (h : MoreTags { tags with exports := true, span.stop := t.stop } ts tags') :
    MoreTags tags (t :: ts) tags'

theorem MoreTags.tagged {start : Position} {ts : List Token} {tags : Tags}
    (h : MoreTags ⟨⟨start, start⟩, false, false⟩ ts tags)
    (hstart : ts.head?.map Token.start = some start) : Tagged ts (some tags) := by
  -- No tag is read twice, so that there are two at most.
  cases h with
  | nil => cases hstart
  | imports ht _ h =>
    cases hstart
    cases h with
    | nil => exact .imports ht
    | imports _ hnew => cases hnew
    | exports hu _ h =>
      cases h with
      | nil => exact .importsExports ht hu
      | imports _ hnew => cases hnew
      | exports _ hnew => cases hnew
  | exports ht _ h =>
    cases hstart
    cases h with
    | nil => exact .exports ht
    | imports hu _ h =>
      cases h with
      | nil => exact .exportsImports ht hu
      | imports _ hnew => cases hnew
      | exports _ hnew => cases hnew
    | exports _ hnew => cases hnew

end Grammar

theorem BinaryOp.of_ofToken? {ops : List BinaryOp} {kind : TokenKind} {op : BinaryOp}
    (h : BinaryOp.ofToken? ops kind = some op) :
    op ∈ ops ∧ kind = .punctuation op.punctuation :=
  ⟨List.mem_of_find?_eq_some h, by simpa using List.find?_some h⟩

theorem UnaryOp.of_ofToken? {kind : TokenKind} {op : UnaryOp}
    (h : UnaryOp.ofToken? kind = some op) : kind = .punctuation op.punctuation := by
  simpa using List.find?_some h

theorem StorageType.of_ofToken? {kind : TokenKind} {type : StorageType}
    (h : StorageType.ofToken? kind = some type) : kind = .keyword type.keyword := by
  simpa using List.find?_some h

theorem Parameter.of_ofToken? {kind : TokenKind} {parameter : Parameter}
    (h : Parameter.ofToken? kind = some parameter) : kind = .keyword parameter.keyword := by
  simpa using List.find?_some h

theorem OpcodeKind.of_ofToken? {kind : TokenKind} {sort : OpcodeKind}
    (h : OpcodeKind.ofToken? kind = some sort) : kind = .keyword sort.keyword := by
  simpa using List.find?_some h

namespace Reader

variable {c : Cursor}

/-! ### Expressions -/

theorem gives_literal (h : c.current.kind = .integer ∨ c.current.kind = .number) :
    (literal (c.current.kind = .integer)).Gives c Term := by
  refine .peek ?_
  dsimp only
  split
  next => exact gives_failAt_current
  next v hv =>
    have hkind : c.current.kind ≠ .endOfText := by
      rcases h with h | h <;> rw [h] <;> nofun
    refine .take rfl hkind ?_
    exact .pure (.constant h (Option.isSome_iff_exists.2 ⟨v, hv⟩))

mutual

theorem gives_expression (n : Nat) {c : Cursor} : (expression n).Gives c Expression := by
  cases n with
  | zero => exact gives_unexpected
  | succ n =>
    refine .step (gives_operation n BinaryOp.levels) fun gs guard hguard => ?_
    refine .sees (fun hmark => ?_) ?_
    · refine .take hmark nofun ?_
      refine .step (gives_expression n) fun ys yes hyes => ?_
      refine .mark .colon fun colon hcolon => ?_
      refine .step (gives_expression n) fun ns no hno => ?_
      refine .pure ?_
      simpa using Expression.conditional hguard hmark hyes hcolon hno
    · exact .pure (by simpa using Expression.operation hguard)

theorem gives_operation (n : Nat) (levels : List (List BinaryOp)) {c : Cursor} :
    (operation n levels).Gives c (Grammar.Operation levels) := by
  cases n with
  | zero => exact gives_unexpected
  | succ n =>
    cases levels with
    | nil =>
      exact (gives_operand n).mono fun _ _ => .operand
    | cons ops tighter =>
      refine .step (gives_operation n tighter) fun ls left hleft => ?_
      exact gives_operands n (.tighter hleft)

theorem gives_operands (n : Nat) {ops : List BinaryOp} {tighter : List (List BinaryOp)}
    {ls : List Token} {left : Expr} (hleft : Grammar.Operation (ops :: tighter) ls left)
    {c : Cursor} :
    (operands n ops tighter left).Gives c fun ts e => Grammar.Operation
    (ops :: tighter) (ls ++ ts) e := by
  cases n with
  | zero => exact gives_unexpected
  | succ n =>
    refine .kind ?_
    split
    next => exact .pure (by simpa using hleft)
    next op hop =>
      obtain ⟨hmem, hmark⟩ := BinaryOp.of_ofToken? hop
      refine .take hmark nofun ?_
      refine .step (gives_operation n tighter) fun rs right hright => ?_
      refine (gives_operands n (.binary hleft hmem hmark hright)).mono fun ts e h => ?_
      simpa using h

theorem gives_operand (n : Nat) {c : Cursor} : (operand n).Gives c Operand := by
  cases n with
  | zero => exact gives_unexpected
  | succ n =>
    refine .kind ?_
    split
    next op hop =>
      have hmark := UnaryOp.of_ofToken? hop
      refine .take hmark nofun ?_
      refine .step (gives_operand n) fun ts x hx => ?_
      exact .pure (by simpa using Operand.unary hmark hx)
    next => exact (gives_term n).mono fun _ _ => .term

theorem gives_term (n : Nat) {c : Cursor} : (term n).Gives c Term := by
  cases n with
  | zero => exact gives_unexpected
  | succ n =>
    refine .kind ?_
    split
    next h => simpa [h] using gives_literal (.inl h)
    next h => simpa [h] using gives_literal (.inr h)
    next hname =>
      -- A name is an element or a call if its bracket or parenthesis follows.
      refine .take hname nofun ?_
      refine .kind ?_
      split
      next hopen =>
        refine .take hopen nofun ?_
        refine .step (gives_expression n) fun is index hindex => ?_
        refine .mark .rightBracket fun close hclose => ?_
        exact .pure (by simpa using Term.element hname hopen hindex hclose)
      next hopen =>
        refine .step (gives_arguments n) fun as args hargs => ?_
        exact .pure (by simpa using Term.call hname hargs)
      next => exact .pure (.name hname)
    next hopen =>
      refine .take hopen nofun ?_
      refine .step (gives_expression n) fun ts e he => ?_
      refine .mark .rightParen fun close hclose => ?_
      exact .pure (by simpa using Term.parens hopen he hclose)
    next => exact gives_unexpected

theorem gives_arguments (n : Nat) {c : Cursor} :
    (arguments n).Gives c fun ts read => Arguments ts read.1 read.2 := by
  cases n with
  | zero => exact gives_unexpected
  | succ n =>
    refine .mark .leftParen fun open' hopen => ?_
    refine .sees (fun hclose => ?_) ?_
    · refine .take hclose nofun ?_
      exact .pure (by simpa using Arguments.none hopen hclose)
    · refine .step (gives_expression n) fun ts first hfirst => ?_
      refine .step (gives_moreArguments n) fun us read hread => ?_
      obtain ⟨vs, rfl, hothers, hclose⟩ := hread
      exact .pure (by simpa using Arguments.some hopen hfirst hothers hclose)

theorem gives_moreArguments (n : Nat) {c : Cursor} :
    (moreArguments n).Gives c fun us read => ∃ vs, us = vs ++ [read.2] ∧
      MoreExpressions vs read.1 ∧ read.2.IsMark .rightParen := by
  cases n with
  | zero => exact gives_unexpected
  | succ n =>
    refine .sees (fun hclose => ?_) ?_
    · refine .take hclose nofun ?_
      exact .pure ⟨[], rfl, .nil, hclose⟩
    · refine .mark .comma fun comma hcomma => ?_
      refine .step (gives_expression n) fun us next hnext => ?_
      refine .step (gives_moreArguments n) fun vs read hread => ?_
      obtain ⟨ws, rfl, hothers, hclose⟩ := hread
      exact .pure ⟨comma :: us ++ ws, by simp, .cons hcomma hnext hothers, hclose⟩

end

/-! ### Statements -/

theorem gives_guard (n : Nat) : (guard n).Gives c Guard := by
  refine .mark .leftParen fun open' hopen => ?_
  refine .step (gives_expression n) fun ts e he => ?_
  refine .mark .rightParen fun close hclose => ?_
  exact .pure (by simpa using Guard.mk hopen he hclose)

theorem gives_simpleStatement (n : Nat) : (simpleStatement n).Gives c Statement := by
  refine .of_valid fun hc => .peek (.bind (gives_expression n) fun ts x c₁ hts hx => ?_)
  have hstart := hts.head?_start hx.ne_nil
  refine .sees (fun hmark => ?_) ?_
  · split
    next =>
      -- The fault is where the expression begins, which is the place of a token.
      obtain ⟨t, ht, heq⟩ := hx.exists_start
      exact gives_failAt (heq ▸ hts.start_isValid hc ht)
    next target htarget =>
      refine .take hmark nofun ?_
      refine .step (gives_expression n) fun vs value hvalue => ?_
      refine .mark .semicolon fun close hclose => ?_
      refine .pure ?_
      simpa using Statement.assign (hx.assignable htarget) hstart hmark hvalue hclose
  · refine .mark .semicolon fun close hclose => ?_
    exact .pure (by simpa using Statement.eval hx hstart hclose)

mutual

theorem gives_statement (n : Nat) {c : Cursor} : (statement n).Gives c Statement := by
  cases n with
  | zero => exact gives_unexpected
  | succ n =>
    refine .peek (.kind ?_)
    split
    next hword =>
      -- Whether there is an `else` is seen behind the first block.
      refine .take hword nofun ?_
      refine .step (gives_guard n) fun gs guard hguard => ?_
      refine .step (gives_block n) fun ys read hyes => ?_
      obtain ⟨yes, close⟩ := read
      refine .seesWord (fun helse => ?_) ?_
      · refine .take helse nofun ?_
        refine .step (gives_block n) fun ns read hno => ?_
        obtain ⟨no, close'⟩ := read
        exact .pure (by simpa using Statement.ifElse hword hguard hyes helse hno)
      · exact .pure (by simpa using Statement.ifThen hword hguard hyes)
    next hword =>
      refine .take hword nofun ?_
      refine .step (gives_guard n) fun gs guard hguard => ?_
      refine .step (gives_block n) fun bs read hbody => ?_
      obtain ⟨body, close⟩ := read
      exact .pure (by simpa using Statement.loop hword hguard hbody)
    next hword =>
      refine .take hword nofun ?_
      refine .step (gives_arguments n) fun as read hargs => ?_
      obtain ⟨args, paren⟩ := read
      refine .mark .semicolon fun close hclose => ?_
      exact .pure (by simpa using Statement.output hword hargs hclose)
    next hword =>
      refine .take hword nofun ?_
      refine .step (gives_guard n) fun gs seconds hseconds => ?_
      refine .mark .semicolon fun close hclose => ?_
      exact .pure (by simpa using Statement.extend hword hseconds hclose)
    next hword =>
      refine .take hword nofun ?_
      refine .mark .semicolon fun close hclose => ?_
      exact .pure (by simpa using Statement.turnoff hword hclose)
    next hword =>
      refine .take hword nofun ?_
      refine .step (gives_arguments n) fun as read hvalues => ?_
      obtain ⟨values, paren⟩ := read
      refine .mark .semicolon fun close hclose => ?_
      exact .pure (by simpa using Statement.ret hword hvalues hclose)
    next =>
      -- No other keyword opens a statement.
      split
      next => exact gives_failAt_current
      next => exact gives_simpleStatement n

theorem gives_block (n : Nat) {c : Cursor} :
    (block n).Gives c fun ts read => Block ts read.1 read.2 := by
  cases n with
  | zero => exact gives_unexpected
  | succ n =>
    refine .mark .leftBrace fun open' hopen => ?_
    refine .step (gives_statements n) fun ts body hbody => ?_
    refine .mark .rightBrace fun close hclose => ?_
    exact .pure (by simpa using Block.mk hopen hbody hclose)

theorem gives_statements (n : Nat) {c : Cursor} : (statements n).Gives c Statements := by
  cases n with
  | zero => exact gives_unexpected
  | succ n =>
    refine .kind ?_
    split
    next => exact .pure .nil
    next => exact .pure .nil
    next =>
      refine .step (gives_statement n) fun ts s hs => ?_
      refine .step (gives_statements n) fun us ss hss => ?_
      exact .pure (by simpa using Statements.cons hs hss)

end

/-! ### Declarations -/

theorem gives_moreTags (n : Nat) (tags : Tags) {c : Cursor} :
    (moreTags n tags).Gives c fun ts tags' => MoreTags tags ts tags' ∧
      (ts = [] → c.current.kind ≠ .keyword .imports ∧ c.current.kind ≠ .keyword .exports) := by
  induction n generalizing tags c with
  | zero => exact gives_unexpected
  | succ n ih =>
    refine .kind ?_
    split
    next hword =>
      split
      next => exact .peek (.step gives_failAt_current fun _ _ => False.elim)
      next hnew =>
        refine .take hword nofun ?_
        exact (ih _).mono fun us tags' h => ⟨.imports hword (by simpa using hnew) h.1, nofun⟩
    next hword =>
      split
      next => exact .peek (.step gives_failAt_current fun _ _ => False.elim)
      next hnew =>
        refine .take hword nofun ?_
        exact (ih _).mono fun us tags' h => ⟨.exports hword (by simpa using hnew) h.1, nofun⟩
    next himports hexports => exact .pure ⟨.nil, fun _ => ⟨himports, hexports⟩⟩

theorem gives_tags (n : Nat) : (tags n).Gives c Tagged := by
  -- Either word opens the same loop, which takes that word first and so takes some token.
  have hmore (hword : c.current.kind = .keyword .imports ∨ c.current.kind = .keyword .exports) :
      (moreTags n ⟨⟨c.current.start, c.current.start⟩, false, false⟩ >>= fun tags =>
        (pure (some tags) : Reader (Option Tags))).Gives c Tagged := by
    refine .bind (gives_moreTags n _) fun ts tags c₁ hts ⟨htags, hnil⟩ => .pure ?_
    have hne : ts ≠ [] := by
      intro h
      exact hword.elim (hnil h).1 (hnil h).2
    simpa using htags.tagged (hts.head?_start hne)
  refine .kind ?_
  split
  next hword => exact .peek (hmore (.inl hword))
  next hword => exact .peek (hmore (.inr hword))
  next => exact .pure .none

theorem gives_typeName : typeName.Gives c fun ts type => ∃ t, ts = [t] ∧ Typed t type := by
  refine .kind ?_
  split
  next type htype =>
    have hword := StorageType.of_ofToken? htype
    refine .take hword nofun ?_
    exact .pure ⟨_, rfl, hword, rfl⟩
  next => exact gives_unexpected

theorem gives_declaredName : declaredName.Gives c Declared := by
  refine .name fun t ht => ?_
  -- The size is one token in each of its three forms, and a bracket follows.
  have hrest {open' size : Token} {shape : Shape} (hopen : open'.IsMark .leftBracket)
      (hsize : Size size shape) {c : Cursor} : (mark .rightBracket >>= fun close =>
        (pure ⟨⟨t.start, close.stop⟩, t.value, shape⟩ : Reader DeclaredName)).Gives c
          fun us d => Declared (t :: open' :: size :: us) d :=
    .mark .rightBracket fun close hclose => .pure (.array ht hopen hsize hclose)
  intro c
  refine .sees (fun hopen => ?_) ?_
  · refine .take hopen nofun ?_
    refine .kind ?_
    split
    next hword => exact .take hword nofun (hrest hopen (.inChannels hword))
    next hword => exact .take hword nofun (hrest hopen (.outChannels hword))
    next =>
      refine .step (.map (gives_integer.mono fun ts n ⟨u, hts, hu⟩ => ?_) :
        Gives _ _ fun ts shape => ∃ u, ts = [u] ∧ Size u shape) ?_
      · exact ⟨u, hts, .array hu⟩
      · rintro _ shape ⟨u, rfl, hu⟩
        exact hrest hopen hu
  · exact .pure (.scalar ht)

theorem gives_moreNames (n : Nat) {c : Cursor} : (moreNames n).Gives c (More Declared) := by
  induction n generalizing c with
  | zero => exact gives_unexpected
  | succ n ih =>
    refine .sees (fun hcomma => ?_) ?_
    · refine .take hcomma nofun ?_
      refine .step gives_declaredName fun us next hnext => ?_
      refine .step ih fun vs others hothers => ?_
      exact .pure (by simpa using More.cons hcomma hnext hothers)
    · exact .pure .nil

theorem gives_generatorArguments (n : Nat) {c : Cursor} :
    (generatorArguments n).Gives c MoreExpressions := by
  induction n generalizing c with
  | zero => exact gives_unexpected
  | succ n ih =>
    refine .sees (fun hcomma => ?_) ?_
    · refine .take hcomma nofun ?_
      refine .step (gives_expression n) fun ts next hnext => ?_
      refine .step ih fun us others hothers => ?_
      exact .pure (by simpa using MoreExpressions.cons hcomma hnext hothers)
    · exact .pure .nil

theorem gives_declaration (n : Nat) : (declaration n).Gives c Declaration := by
  -- The declaration begins with its first token, whether or not that is a tag.
  refine .peek (.bind (gives_tags n) fun ts tags c₁ hts htags => .seesWord (fun hword => ?_) ?_)
  · refine .bind (gives_take hword nofun) ?_
    rintro _ word c₂ hc₁₂ ⟨rfl, rfl⟩
    have hstart := (hts.trans hc₁₂).head?_start (by simp)
    refine .name fun ident hident => ?_
    refine .mark .leftParen fun open' hopen => ?_
    refine .name fun generator hgenerator => ?_
    refine .step (gives_generatorArguments n) fun as args hargs => ?_
    refine .mark .rightParen fun paren hparen => ?_
    refine .mark .semicolon fun close hclose => ?_
    refine .pure ?_
    simpa using Declaration.table htags hword hident hopen hgenerator hargs hparen hclose hstart
  · refine .bind gives_typeName ?_
    rintro _ type c₂ hc₁₂ ⟨t, rfl, htype⟩
    have hstart := (hts.trans hc₁₂).head?_start (by simp)
    refine .step gives_declaredName fun ns first hfirst => ?_
    refine .step (gives_moreNames n) fun us others hothers => ?_
    refine .mark .semicolon fun close hclose => ?_
    refine .pure ?_
    simpa using Declaration.vars htags htype hfirst hothers hclose hstart

theorem gives_declarations (n : Nat) {c : Cursor} :
    (declarations n).Gives c (Sequence Declaration) := by
  induction n generalizing c with
  | zero => exact gives_unexpected
  | succ n ih =>
    refine .kind ?_
    split
    next =>
      refine .step (gives_declaration n) fun ts d hd => ?_
      refine .step ih fun us ds hds => ?_
      exact .pure (by simpa using Sequence.cons hd hds)
    next => exact .pure .nil

/-! ### Orchestras -/

theorem gives_body (n : Nat) :
    (body n).Gives c fun ts read => Body ts read.1 read.2.1 read.2.2 := by
  refine .mark .leftBrace fun open' hopen => ?_
  refine .step (gives_declarations n) fun ds decls hdecls => ?_
  refine .step (gives_statements n) fun ss stmts hstmts => ?_
  refine .mark .rightBrace fun close hclose => ?_
  exact .pure (by simpa using Body.mk hopen hdecls hstmts hclose)

section Listed

variable {α : Type} {element : Reader α} {param : List Token → α → Prop}
  (helement : ∀ {c : Cursor}, element.Gives c param)

include helement

theorem gives_listed_more (n : Nat) {c : Cursor} :
    (listed element n false).Gives c fun us as => ∃ vs close, us = vs ++ [close] ∧
      More param vs as ∧ close.IsMark .rightParen := by
  induction n generalizing c with
  | zero => exact gives_unexpected
  | succ n ih =>
    refine .sees (fun hclose => ?_) ?_
    · refine .take hclose nofun ?_
      exact .pure ⟨[], _, rfl, .nil, hclose⟩
    · refine .mark .comma fun comma hcomma => ?_
      refine .step helement fun us next hnext => ?_
      refine .step ih fun vs others hothers => ?_
      obtain ⟨ws, close, rfl, hothers, hclose⟩ := hothers
      exact .pure ⟨comma :: us ++ ws, close, by simp, .cons hcomma hnext hothers, hclose⟩

theorem gives_listed (n : Nat) {open' : Token} (hopen : open'.IsMark .leftParen) :
    (listed element n true).Gives c fun ts as => Params param (open' :: ts) as := by
  cases n with
  | zero => exact gives_unexpected
  | succ n =>
    refine .sees (fun hclose => ?_) ?_
    · refine .take hclose nofun ?_
      exact .pure (.none hopen hclose)
    · refine .step helement fun ts first hfirst => ?_
      refine .step (gives_listed_more helement n) fun us others hothers => ?_
      obtain ⟨vs, close, rfl, hothers, hclose⟩ := hothers
      exact .pure (by simpa using Params.some hopen hfirst hothers hclose)

end Listed

theorem gives_instrumentParam : instrumentParam.Gives c Grammar.InstrumentParam := by
  refine .name fun t ht => ?_
  exact .pure (.mk ht)

theorem gives_opcodeParam : opcodeParam.Gives c Grammar.OpcodeParam := by
  refine .step gives_typeName ?_
  rintro _ type ⟨t, rfl, htype⟩
  refine .step gives_declaredName fun ts declared hdeclared => ?_
  exact .pure (by simpa using OpcodeParam.mk htype hdeclared)

theorem gives_instrument (n : Nat) {keyword : Keyword}
    (hword : c.current.kind = .keyword keyword) :
    (instrument n).Gives c (Grammar.Unit keyword) := by
  refine .take hword nofun ?_
  refine .name fun ident hident => ?_
  refine .mark .leftParen fun open' hopen => ?_
  refine .step (gives_listed gives_instrumentParam n hopen) fun ps params hparams => ?_
  refine .step (gives_body n) fun bs read hbody => ?_
  obtain ⟨decls, stmts, close⟩ := read
  exact .pure (by simpa using Grammar.Unit.mk hword hident hparams hbody)

theorem gives_opcode (n : Nat) {kind : OpcodeKind}
    (hword : c.current.kind = .keyword kind.keyword) :
    (opcode n kind).Gives c Grammar.Opcode := by
  refine .take hword nofun ?_
  refine .name fun ident hident => ?_
  refine .mark .leftParen fun open' hopen => ?_
  refine .step (gives_listed gives_opcodeParam n hopen) fun ps params hparams => ?_
  refine .step (gives_body n) fun bs read hbody => ?_
  obtain ⟨decls, stmts, close⟩ := read
  exact .pure (by simpa using Grammar.Opcode.mk hword hident hparams hbody)

theorem gives_globalItem (n : Nat) : (globalItem n).Gives c Grammar.GlobalItem := by
  refine .kind ?_
  split
  next parameter hparameter =>
    have hword := Parameter.of_ofToken? hparameter
    refine .take hword nofun ?_
    refine .step gives_integer ?_
    rintro _ value ⟨t, rfl, ht⟩
    refine .mark .semicolon fun close hclose => ?_
    exact .pure (.setting hword ht hclose)
  next => exact .map ((gives_declaration n).mono fun _ _ => .decl)

theorem gives_globalItems (n : Nat) {c : Cursor} :
    (globalItems n).Gives c (Sequence Grammar.GlobalItem) := by
  induction n generalizing c with
  | zero => exact gives_unexpected
  | succ n ih =>
    refine .kind ?_
    split
    next => exact .pure .nil
    next => exact .pure .nil
    next =>
      refine .step (gives_globalItem n) fun ts i hi => ?_
      refine .step ih fun us is his => ?_
      exact .pure (by simpa using Sequence.cons hi his)

theorem gives_item (n : Nat) : (item n).Gives c Grammar.Item := by
  refine .kind ?_
  split
  next hword =>
    refine .map (.take hword nofun ?_)
    refine .mark .leftBrace fun open' hopen => ?_
    refine .step (gives_globalItems n) fun ts items hitems => ?_
    refine .mark .rightBrace fun close hclose => ?_
    exact .pure (by simpa using Grammar.Item.global hword hopen hitems hclose)
  next hword => exact .map ((gives_instrument n hword).mono fun _ _ => .instrument)
  next hword => exact .map ((gives_instrument n hword).mono fun _ _ => .template)
  next =>
    split
    next kind hkind =>
      exact .map ((gives_opcode n (OpcodeKind.of_ofToken? hkind)).mono fun _ _ => .opcode)
    next => exact gives_unexpected

theorem gives_items (n : Nat) {c : Cursor}
    (hkinds : ∀ t ∈ c.rest, t.kind ≠ .endOfText) :
    (items n).Gives c fun ts is => ts = c.rest ∧ Sequence Grammar.Item ts is := by
  induction n generalizing c with
  | zero => exact gives_unexpected
  | succ n ih =>
    refine .kind ?_
    split
    next hend =>
      -- None of the tokens is the end of the text, so that there are none left.
      have hrest : c.rest = [] := by
        by_contra hne
        obtain ⟨t, ts, hts⟩ := List.exists_cons_of_ne_nil hne
        rw [Cursor.current, hts] at hend
        exact hkinds t (hts ▸ List.mem_cons_self) hend
      exact .pure ⟨hrest.symm, .nil⟩
    next =>
      refine .bind (gives_item n) fun ts i c₁ hts hi => ?_
      have hkinds₁ : ∀ t ∈ c₁.rest, t.kind ≠ .endOfText := fun t ht =>
        hkinds t (hts.rest ▸ List.mem_append_right ts ht)
      refine .step (ih hkinds₁) fun us is his => ?_
      obtain ⟨rfl, his⟩ := his
      exact .pure ⟨by simp [hts.rest], by simpa using Sequence.cons hi his⟩

theorem gives_orchestra (n : Nat) (hkinds : ∀ t ∈ c.rest, t.kind ≠ .endOfText) :
    (orchestra n).Gives c fun ts tree => ts = c.rest ∧ Grammar.Orchestra c.finish ts tree := by
  refine .peek (.bind (gives_items n hkinds) fun ts is c₁ hts his => .peek (.pure ?_))
  obtain ⟨rfl, his⟩ := his
  have hrest : c₁.rest = [] := by simpa using hts.rest
  have hstop : c₁.current.start = c.finish := by
    rw [Cursor.current, hrest, ← hts.finish]
    rfl
  have hstart : c.current.start = (c.rest.head?.map Token.start).getD c.finish := by
    rw [Cursor.current]
    cases c.rest <;> rfl
  rw [hstop, hstart]
  exact ⟨by simp, by simpa using Grammar.Orchestra.mk his⟩

end Reader

end Orchestrion
