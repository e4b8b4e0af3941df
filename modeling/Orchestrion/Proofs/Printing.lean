import Orchestrion.Proofs.Grammar.Completeness
import Orchestrion.Proofs.Token.Rescan
import Orchestrion.Tree.Print

/-!
# Printed trees are in the grammar

The tokens of a printed tree write a tree that differs from the printed one in places only. Printed
operations stand in parentheses, so every printed expression is a term, and its tokens write it at
every level of operators.
-/

namespace Orchestrion

open Text Token List

/-! ### Bytes in front of which tokens end -/

theorem Text.Breaks.append {x : Text} (h : x.head?.any isBreak = true) (t : Text) :
    Breaks (x ++ t) := by
  cases x with
  | nil => cases h
  | cons b x => exact ⟨b, x ++ t, rfl, h⟩

theorem Text.clear_cons {b : UInt8} {t : Text}
    (h : (isSymbol '=' b || isSymbol '/' b || isSymbol '*' b) = false) : Clear (b :: t) := by
  rintro _ _ ⟨⟩
  exact h

theorem Text.clear_of_isNamePart : ∀ b : UInt8, (isNamePart b || isSymbol '.' b) = true →
    (isSymbol '=' b || isSymbol '/' b || isSymbol '*' b) = false :=
  forall_byte (by decide +kernel)

theorem Text.SpellsName.clear {x : Text} (h : SpellsName x) (t : Text) : Clear (x ++ t) := by
  obtain ⟨b, xs, rfl, -⟩ := h.start
  exact clear_cons (clear_of_isNamePart b (by rw [h.parts b mem_cons_self]; rfl))

theorem Token.IsNumeral.clear {x : Text} {whole : Bool} (h : IsNumeral x whole) (t : Text) :
    Clear (x ++ t) := by
  obtain ⟨b, xs, rfl, hb⟩ := h.exists_cons
  refine clear_cons (clear_of_isNamePart b ?_)
  simp only [isNamePart, Bool.or_eq_true] at hb ⊢
  exact hb.imp Or.inr id

theorem Token.IsSpelled.spellsName {t : Token} (h : t.IsSpelled) (ht : t.kind = .name) :
    SpellsName t.value := by
  rwa [IsSpelled, ht] at h

theorem Token.IsSpelled.isNumeral {t : Token} (h : t.IsSpelled)
    (ht : t.kind = .integer ∨ t.kind = .number) :
    IsNumeral t.literal.spelling t.literal.integer := by
  rcases ht with ht | ht
  · rw [IsSpelled, ht] at h
    simpa [Token.literal, ht] using h
  · rw [IsSpelled, ht] at h
    simpa [Token.literal, ht] using h

theorem Expr.printList_cons (e : Expr) (es : List Expr) :
    Expr.printList (e :: es) = e.print ++ es.flatMap fun e => (", " : Text) ++ e.print := by
  induction es generalizing e with
  | nil => simp [Expr.printList, Expr.printListBefore, Expr.print]
  | cons e' es ih => rw [Expr.printList_cons_cons, ih e', flatMap_cons]; simp

theorem Text.join_map_cons {α : Type} (separator : Text) (print : α → Text) (a : α) (as : List α) :
    join separator ((a :: as).map print) = print a ++ as.flatMap fun a => separator ++ print a := by
  induction as generalizing a with
  | nil => simp [join, List.intercalate]
  | cons a' as ih =>
    have hjoin : join separator (List.map print (a :: a' :: as)) =
        print a ++ (separator ++ join separator (List.map print (a' :: as))) := by
      simp [join, List.intercalate]
    rw [hjoin, ih a', flatMap_cons, append_assoc]

theorem Text.breaks_flatMap {α : Type} (print : α → Text) (as : List α) {rest : Text}
    (hrest : Breaks rest) : Breaks (as.flatMap (fun a => (", " : Text) ++ print a) ++ rest) := by
  cases as with
  | nil => exact hrest
  | cons a as => exact ⟨_, _, rfl, rfl⟩

/-! ### Numbers -/

theorem Text.ofChar_of_isDigit {c : Char} (h : c.isDigit = true) :
    ∃ b, ofChar c = [b] ∧ isDigit b = true ∧ b.toNat = c.toNat := by
  have hdigit : ∀ i < 10, ∃ b, ofChar (Char.ofNat (48 + i)) = [b] ∧ isDigit b = true ∧
      b.toNat = (Char.ofNat (48 + i)).toNat := by
    intro i hi
    refine ⟨UInt8.ofNat (48 + i), ?_⟩
    revert i
    decide
  obtain ⟨hge, hle⟩ : 48 ≤ c.toNat ∧ c.toNat ≤ 57 := by
    simpa [Char.isDigit, UInt32.le_iff_toNat_le] using h
  have hc : Char.ofNat (48 + (c.toNat - 48)) = c := by
    rw [Nat.add_sub_cancel' hge, Char.ofNat_toNat]
  rw [← hc]
  exact hdigit (c.toNat - 48) (by omega)

theorem Text.isDigit_of_mem_ofNat (n : Nat) : ∀ b ∈ Text.ofNat n, isDigit b = true := by
  intro b hb
  obtain ⟨c, hc, hbc⟩ := mem_flatMap.1 hb
  obtain ⟨b', hb', hdigit, -⟩ :=
    ofChar_of_isDigit (Nat.isDigit_of_mem_toDigits (by decide) (by decide) hc)
  rw [hb', mem_singleton] at hbc
  rwa [hbc]

theorem Text.ofNat_ne_nil (n : Nat) : Text.ofNat n ≠ [] := by
  obtain ⟨c, cs, hcs⟩ := exists_cons_of_ne_nil (Nat.toDigits_ne_nil (n := n) (b := 10))
  have hc : c.isDigit = true :=
    Nat.isDigit_of_mem_toDigits (b := 10) (n := n) (by decide) (by decide)
      (hcs ▸ mem_cons_self)
  obtain ⟨b, hb, -⟩ := ofChar_of_isDigit hc
  simp [Text.ofNat, hcs, hb]

theorem Number.digitsValue_flatMap (cs : List Char) (hcs : ∀ c ∈ cs, c.isDigit = true) (n : Nat) :
    (cs.flatMap ofChar).foldl (fun n b => 10 * n + (b.toNat - 48)) n =
    Nat.ofDigitChars 10 cs n := by
  induction cs generalizing n with
  | nil => rfl
  | cons c cs ih =>
    obtain ⟨b, hb, -, hvalue⟩ := ofChar_of_isDigit (hcs c mem_cons_self)
    rw [flatMap_cons, hb, singleton_append, foldl_cons, hvalue,
      ih fun c hc => hcs c (mem_cons_of_mem _ hc)]
    rfl

theorem Number.natural?_ofNat (n : Nat) : Number.natural? (Text.ofNat n) = some n := by
  have hvalue : Number.digitsValue (Text.ofNat n) = n := by
    rw [Number.digitsValue, Text.ofNat, digitsValue_flatMap _ fun c hc =>
      Nat.isDigit_of_mem_toDigits (by decide) (by decide) hc]
    exact Nat.ofDigitChars_toDigits (by decide) (by decide)
  rw [Number.natural?, if_pos ⟨ofNat_ne_nil n, all_eq_true.2 (isDigit_of_mem_ofNat n)⟩, hvalue]

theorem Token.isNumeral_ofNat (n : Nat) : IsNumeral (Text.ofNat n) true :=
  SpellsNumeral.isNumeral ⟨_, [], [], by simp, isDigit_of_mem_ofNat n, .inl rfl, .inl rfl,
    fun h => absurd h (ofNat_ne_nil n), by simp⟩

theorem Grammar.Integer.ofNat {t u : Token} {n : Nat} (h : Grammar.Integer t n)
    (hkind : u.kind = .integer) (hvalue : u.value = Text.ofNat n) : Grammar.Integer u n :=
  ⟨hkind, by rw [hvalue, Number.natural?_ofNat], h.2.2⟩

theorem Token.Scans.line {depth : Nat} {content mid rest : Text} {post : List Token → Prop}
    (h : Scans (content ++ ("\n" ++ mid)) rest post) :
    Scans (Line.print ⟨depth, content⟩ ++ mid) rest post := by
  simp only [Line.print, append_assoc]
  exact h.spaces _

namespace Grammar

variable {ts : List Token} {e : Expr}

def Spelled (ts : List Token) : Prop := ∀ t ∈ ts, t.IsSpelled

@[simp]
theorem spelled_cons {t : Token} : Spelled (t :: ts) ↔ t.IsSpelled ∧ Spelled ts :=
  forall_mem_cons

@[simp]
theorem spelled_append {us : List Token} : Spelled (ts ++ us) ↔ Spelled ts ∧ Spelled us :=
  forall_mem_append

/-- The tokens write something that is the given one after erasing. -/
def Rewrites {α β : Type} (rule : List Token → α → Prop) (erase : α → β) (a : α)
    (ts : List Token) : Prop :=
  ∃ a', rule ts a' ∧ erase a' = erase a

/-! ### Expressions -/

theorem Operation.loosen {levels : List (List BinaryOp)} (h : Operation levels ts e)
    (outer : List (List BinaryOp)) : Operation (outer ++ levels) ts e := by
  induction outer with
  | nil => exact h
  | cons ops outer ih => exact .tighter ih

theorem Expression.of_terms {ls rs : List Token} {mark : Token} {op : BinaryOp} {l r : Expr}
    (hl : Term ls l) (hmark : mark.IsMark op.punctuation) (hr : Term rs r) :
    Expression (ls ++ mark :: rs) (.binary ⟨l.span.start, r.span.stop⟩ op l r) := by
  have hmem : op ∈ BinaryOp.levels.flatten := by cases op <;> decide
  obtain ⟨ops, hops, hop⟩ := mem_flatten.1 hmem
  obtain ⟨outer, tighter, hlevels⟩ := append_of_mem hops
  refine .operation ?_
  rw [hlevels]
  exact (Operation.binary ((Operand.term hl).operation _) hop hmark
    ((Operand.term hr).operation _)).loosen outer

/-- The printed expression is scanned as tokens of a term. It cannot make punctuation in front of it
longer. -/
structure Prints (e : Expr) : Prop where
  clear : ∀ rest, Clear (e.print ++ rest)
  scans : ∀ rest, Breaks rest → Scans (e.print ++ rest) rest (Rewrites Term Expr.erase e)

/-- Printed expressions behind commas are scanned as such. -/
def PrintsMore (es : List Expr) : Prop :=
  ∀ rest, Breaks rest → Scans (es.flatMap (fun e => (", " : Text) ++ e.print) ++ rest) rest
    (Rewrites MoreExpressions Expr.eraseAll es)

/-- Printed expressions in parentheses are scanned as such. -/
def PrintsArguments (args : List Expr) : Prop :=
  ∀ rest, Scans ("(" ++ (Expr.printList args ++ (")" ++ rest))) rest fun ts =>
    ∃ args' close, Arguments ts args' close ∧ Expr.eraseAll args' = Expr.eraseAll args

namespace Prints

variable {e l r c y n : Expr} {s : Span} {x : Text}

theorem constant {i : Literal} (h : IsNumeral i.spelling i.integer)
    (hvalue : i.value?.isSome = true) : Prints (.constant s i) := by
  refine ⟨fun _ => ?_, fun rest hrest => ?_⟩ <;> rw [Expr.print_constant]
  · exact h.clear _
  refine .numeral h hrest fun t ht hx => .done ?_
  have hliteral : t.literal = i := by
    obtain ⟨spelling, integer⟩ := i
    cases hx
    cases integer <;> simp [Token.literal, ht]
  have hkind : t.kind = .integer ∨ t.kind = .number := by
    rw [ht]
    split <;> simp
  exact ⟨_, .constant hkind (by rw [hliteral]; exact hvalue), by rw [hliteral]; rfl⟩

theorem name (h : SpellsName x) : Prints (.name s x) := by
  refine ⟨fun _ => ?_, fun rest hrest => ?_⟩ <;> rw [Expr.print_name]
  · exact h.clear _
  refine .name h hrest fun t ht hx => .done ⟨_, .name ht, ?_⟩
  rw [hx]
  rfl

theorem element (h : SpellsName x) (he : Prints e) : Prints (.element s x e) := by
  refine ⟨fun _ => ?_, fun rest hrest => ?_⟩ <;> simp only [Expr.print_element, append_assoc]
  · exact h.clear _
  refine .name h (.append rfl _) fun t ht hx => .sealed .leftBracket rfl fun o ho => ?_
  refine .bind (he.scans _ (.append rfl _)) fun ts ⟨e', he', herase⟩ => ?_
  refine .sealed .rightBracket rfl fun c hc => .done ?_
  have hterm := Term.element ht ho he'.expression hc
  exact ⟨_, by simpa using hterm, by simp [Expr.erase, hx, herase]⟩

theorem call {args : List Expr} (h : SpellsName x) (hargs : PrintsArguments args) :
    Prints (.call s x args) := by
  refine ⟨fun _ => ?_, fun rest hrest => ?_⟩ <;> simp only [Expr.print_call, append_assoc]
  · exact h.clear _
  refine .name h (.append rfl _) fun t ht hx => ?_
  refine .mono (hargs rest) fun ts ⟨args', close, hargs', herase⟩ => ⟨_, .call ht hargs', ?_⟩
  simp [Expr.erase, hx, herase]

theorem binary {op : BinaryOp} (hl : Prints l) (hr : Prints r) : Prints (.binary s op l r) := by
  refine ⟨fun _ => ?_, fun rest hrest => ?_⟩ <;> simp only [Expr.print_binary, append_assoc]
  · exact clear_cons rfl
  refine .sealed .leftParen rfl fun o ho => ?_
  refine .bind (hl.scans _ (.append rfl _)) fun ls ⟨l', hl', hlerase⟩ => ?_
  refine .space (.mark op.punctuation (fun _ => clear_cons rfl) fun m hm => .space ?_)
  refine .bind (hr.scans _ (.append rfl _)) fun rs ⟨r', hr', hrerase⟩ => ?_
  refine .sealed .rightParen rfl fun c hc => .done ?_
  have hterm := Term.parens ho (.of_terms hl' hm hr') hc
  exact ⟨_, by simpa using hterm, by simp [Expr.erase, hlerase, hrerase]⟩

theorem unary {op : UnaryOp} (he : Prints e) : Prints (.unary s op e) := by
  refine ⟨fun _ => ?_, fun rest hrest => ?_⟩ <;> simp only [Expr.print_unary, append_assoc]
  · exact clear_cons rfl
  refine .sealed .leftParen rfl fun o ho => ?_
  refine .mark op.punctuation (fun _ => he.clear _) fun m hm => ?_
  refine .bind (he.scans _ (.append rfl _)) fun ts ⟨e', he', herase⟩ => ?_
  refine .sealed .rightParen rfl fun c hc => .done ?_
  have hterm := Term.parens ho (.operation ((Operand.unary hm (.term he')).operation _)) hc
  exact ⟨_, by simpa using hterm, by simp [Expr.erase, herase]⟩

theorem conditional (hc : Prints c) (hy : Prints y) (hn : Prints n) :
    Prints (.conditional s c y n) := by
  refine ⟨fun _ => ?_, fun rest hrest => ?_⟩ <;>
    simp only [Expr.print_conditional, append_assoc]
  · exact clear_cons rfl
  refine .sealed .leftParen rfl fun o ho => ?_
  refine .bind (hc.scans _ (.append rfl _)) fun cs ⟨c', hc', hcerase⟩ => ?_
  refine .space (.sealed .question rfl fun q hq => .space ?_)
  refine .bind (hy.scans _ (.append rfl _)) fun ys ⟨y', hy', hyerase⟩ => ?_
  refine .space (.sealed .colon rfl fun k hk => .space ?_)
  refine .bind (hn.scans _ (.append rfl _)) fun ns ⟨n', hn', hnerase⟩ => ?_
  refine .sealed .rightParen rfl fun p hp => .done ?_
  have hterm := Term.parens ho (.conditional ((Operand.term hc').operation _) hq hy'.expression hk
    hn'.expression) hp
  exact ⟨_, by simpa using hterm, by simp [Expr.erase, hcerase, hyerase, hnerase]⟩

end Prints

theorem PrintsMore.nil : PrintsMore [] := fun _ _ => .done ⟨[], .nil, rfl⟩

theorem PrintsMore.cons {es : List Expr} (h : Prints e) (hes : PrintsMore es) :
    PrintsMore (e :: es) := by
  intro rest hrest
  simp only [flatMap_cons, append_assoc]
  refine .sealed .comma rfl fun m hm => .space ?_
  refine .bind (h.scans _ (breaks_flatMap _ _ hrest)) fun ts ⟨e', he', herase⟩ => ?_
  refine .mono (hes rest hrest) fun us ⟨es', hes', heserase⟩ =>
    ⟨_, .cons hm he'.expression hes', ?_⟩
  simp [Expr.eraseAll, herase, heserase]

theorem PrintsArguments.nil : PrintsArguments [] := by
  intro rest
  refine .sealed .leftParen rfl fun o ho => .sealed .rightParen rfl fun c hc => .done ?_
  exact ⟨[], c, .none ho hc, rfl⟩

theorem PrintsArguments.cons {es : List Expr} (h : Prints e) (hes : PrintsMore es) :
    PrintsArguments (e :: es) := by
  intro rest
  rw [Expr.printList_cons, append_assoc]
  refine .sealed .leftParen rfl fun o ho => ?_
  refine .bind (h.scans _ (breaks_flatMap _ _ (.append rfl _))) fun ts ⟨e', he', herase⟩ => ?_
  refine .bind (hes _ (.append rfl _)) fun us ⟨es', hes', heserase⟩ => ?_
  refine .sealed .rightParen rfl fun c hc => .done ⟨e' :: es', c, ?_, ?_⟩
  · simpa using Arguments.some ho he'.expression hes' hc
  · simp [Expr.eraseAll, herase, heserase]

mutual

theorem Expression.prints {ts : List Token} {e : Expr} : Expression ts e → Spelled ts → Prints e
  | .operation h, hts => h.prints hts
  | .conditional hguard _ hyes _ hno, hts => by
    simp only [append_assoc, cons_append, spelled_append, spelled_cons] at hts
    exact .conditional (hguard.prints hts.1) (hyes.prints hts.2.2.1) (hno.prints hts.2.2.2.2)

theorem Operation.prints {levels : List (List BinaryOp)} {ts : List Token} {e : Expr} :
    Operation levels ts e → Spelled ts → Prints e
  | .operand h, hts => h.prints hts
  | .tighter h, hts => h.prints hts
  | .binary hleft _ _ hright, hts => by
    simp only [spelled_append, spelled_cons] at hts
    exact .binary (hleft.prints hts.1) (hright.prints hts.2.2)

theorem Operand.prints {ts : List Token} {e : Expr} : Operand ts e → Spelled ts → Prints e
  | .unary _ h, hts => .unary (h.prints (spelled_cons.1 hts).2)
  | .term h, hts => h.prints hts

theorem Term.prints {ts : List Token} {e : Expr} : Term ts e → Spelled ts → Prints e
  | .constant ht hvalue, hts => .constant ((spelled_cons.1 hts).1.isNumeral ht) hvalue
  | .name ht, hts => .name ((spelled_cons.1 hts).1.spellsName ht)
  | .element ht _ h _, hts => by
    simp only [cons_append, spelled_append, spelled_cons] at hts
    exact .element (hts.1.spellsName ht) (h.prints hts.2.2.1)
  | .call ht h, hts => by
    rw [spelled_cons] at hts
    exact .call (hts.1.spellsName ht) (h.prints hts.2)
  | .parens _ h _, hts => by
    simp only [cons_append, spelled_append, spelled_cons] at hts
    exact h.prints hts.2.1

theorem Arguments.prints {ts : List Token} {args : List Expr} {close : Token} :
    Arguments ts args close → Spelled ts → PrintsArguments args
  | .none _ _, _ => .nil
  | .some _ h hes _, hts => by
    simp only [append_assoc, cons_append, spelled_append, spelled_cons] at hts
    exact .cons (h.prints hts.2.1) (hes.prints hts.2.2.1)

theorem MoreExpressions.prints {ts : List Token} {es : List Expr} :
    MoreExpressions ts es → Spelled ts → PrintsMore es
  | .nil, _ => .nil
  | .cons _ h hes, hts => by
    simp only [cons_append, spelled_append, spelled_cons] at hts
    exact .cons (h.prints hts.2.1) (hes.prints hts.2.2)

end

theorem Guard.prints (h : Guard ts e) (hts : Spelled ts) : Prints e := by
  obtain ⟨-, h, -⟩ := h
  simp only [cons_append, spelled_append, spelled_cons] at hts
  exact h.prints hts.2.1

/-! ### Statements -/

/-- The printed statement is scanned as tokens of the statement. -/
def PrintsStmt (s : Stmt) : Prop :=
  ∀ depth rest, Scans (s.print depth ++ rest) rest (Rewrites Statement Stmt.erase s)

/-- Printed statements in braces are scanned as such. -/
def PrintsBlock (body : List Stmt) : Prop :=
  ∀ depth rest, Scans ("\x7b" ++ ("\n" ++ (Stmt.printAll (depth + 1) body ++
    (indentation depth ++ ("\x7d" ++ rest))))) rest fun ts =>
      ∃ body' close, Block ts body' close ∧ Stmt.eraseAll body' = Stmt.eraseAll body

theorem Prints.guard (h : Prints e) (rest : Text) :
    Scans ("(" ++ (e.print ++ (")" ++ rest))) rest (Rewrites Guard Expr.erase e) := by
  refine .sealed .leftParen rfl fun o ho => ?_
  refine .bind (h.scans _ (.append rfl _)) fun ts ⟨e', he', herase⟩ => ?_
  refine .sealed .rightParen rfl fun c hc => .done ?_
  exact ⟨e', by simpa using Guard.mk ho he'.expression hc, herase⟩

theorem Assignable.scans_print {target : Target} (h : Assignable ts target) (hts : Spelled ts)
    {rest : Text} (hrest : Breaks rest) :
    Scans (target.print ++ rest) rest (Rewrites Assignable Target.erase target) := by
  induction h with
  | name ht =>
    have hname := (spelled_cons.1 hts).1.spellsName ht
    simp only [Target.print]
    refine .name hname hrest fun t ht hx => .done ⟨_, .name ht, ?_⟩
    simp [Target.erase, hx]
  | element ht hopen h hclose =>
    simp only [cons_append, spelled_append, spelled_cons] at hts
    simp only [Target.print, append_assoc]
    refine .name (hts.1.spellsName ht) (.append rfl _) fun t ht hx => ?_
    refine .sealed .leftBracket rfl fun o ho => ?_
    refine .bind ((h.prints hts.2.2.1).scans _ (.append rfl _)) fun is ⟨i', hi', herase⟩ => ?_
    refine .sealed .rightBracket rfl fun c hc => .done ?_
    have htarget := Assignable.element ht ho hi'.expression hc
    exact ⟨_, by simpa using htarget, by simp [Target.erase, hx, herase]⟩
  | parens _ _ _ ih =>
    simp only [cons_append, spelled_append, spelled_cons] at hts
    exact ih hts.2.1

theorem ofString_if :
    ofString "if (" = ofString Keyword.ifWord.spelling ++ (ofString " " ++ ofString "(") := by
  decide

theorem ofString_while :
    ofString "while (" = ofString Keyword.whileWord.spelling ++ (ofString " " ++ ofString "(") := by
  decide

theorem ofString_block : ofString ") \x7b" = ofString ")" ++ (ofString " " ++ ofString "\x7b") := by
  decide

theorem ofString_else :
    ofString "\x7d else \x7b" = ofString "\x7d" ++ (ofString " " ++
      (ofString Keyword.elseWord.spelling ++ (ofString " " ++ ofString "\x7b"))) := by
  decide

theorem ofString_params : ofString ") " = ofString ")" ++ ofString " " := by decide

theorem ofString_global : ofString "global \x7b\n" =
    ofString Keyword.global.spelling ++ (ofString " " ++ (ofString "\x7b" ++ ofString "\n")) := by
  decide

namespace PrintsStmt

variable {span : Span} {e : Expr} {args : List Expr} {body yes no : List Stmt}

theorem line {s : Stmt} {content : Text} (hlines : ∀ depth, s.lines depth = [⟨depth, content⟩])
    (h : ∀ rest, Scans (content ++ ("\n" ++ rest)) rest (Rewrites Statement Stmt.erase s)) :
    PrintsStmt s := by
  intro depth rest
  rw [Stmt.print, hlines, flatMap_singleton]
  exact (h rest).line

theorem assign {target : Target} {ts : List Token} (ht : Assignable ts target) (hts : Spelled ts)
    (he : Prints e) : PrintsStmt (.assign span target e) := by
  refine .line (fun _ => rfl) fun rest => ?_
  simp only [append_assoc]
  refine .bind (ht.scans_print hts (.append rfl _)) fun us ⟨target', ht', herase⟩ => ?_
  refine .space (.mark .assign (fun _ => clear_cons rfl) fun m hm => .space ?_)
  refine .bind (he.scans _ (.append rfl _)) fun vs ⟨v', hv', hverase⟩ => ?_
  refine .sealed .semicolon rfl fun c hc => .newline (.done ?_)
  obtain ⟨t, us', rfl, -⟩ := ht'.opens
  have hstmt := Statement.assign ht' rfl hm hv'.expression hc
  exact ⟨_, by simpa using hstmt, by simp [Stmt.erase, herase, hverase]⟩

theorem eval (he : Prints e) : PrintsStmt (.eval span e) := by
  refine .line (fun _ => rfl) fun rest => ?_
  simp only [append_assoc]
  refine .bind (he.scans _ (.append rfl _)) fun us ⟨e', he', herase⟩ => ?_
  refine .sealed .semicolon rfl fun c hc => .newline (.done ?_)
  obtain ⟨t, us', rfl, -⟩ := he'.opens
  have hstmt := Statement.eval he'.expression rfl hc
  exact ⟨_, by simpa using hstmt, by simp [Stmt.erase, herase]⟩

theorem ifThen (he : Prints e) (hbody : PrintsBlock body) : PrintsStmt (.ifThen span e body) := by
  intro depth rest
  simp only [Stmt.print, Stmt.lines, cons_append, flatMap_cons, flatMap_append,
    flatMap_nil, append_nil, Line.print, ofString_if, ofString_block, append_assoc]
  refine .spaces _ (.keyword .ifWord (.append rfl _) fun w hw => .space ?_)
  refine .bind (he.guard _) fun gs ⟨g', hg', hgerase⟩ => .space ?_
  refine .bind (hbody depth _) fun bs ⟨b', close, hb', hberase⟩ => .newline (.done ?_)
  have hstmt := Statement.ifThen hw hg' hb'
  exact ⟨_, by simpa using hstmt, by simp [Stmt.erase, hgerase, hberase]⟩

theorem ifElse (he : Prints e) (hyes : PrintsBlock yes) (hno : PrintsBlock no) :
    PrintsStmt (.ifElse span e yes no) := by
  intro depth rest
  simp only [Stmt.print, Stmt.lines, cons_append, flatMap_cons, flatMap_append,
    flatMap_nil, append_nil, Line.print, ofString_if, ofString_block, ofString_else,
    append_assoc]
  refine .spaces _ (.keyword .ifWord (.append rfl _) fun w hw => .space ?_)
  refine .bind (he.guard _) fun gs ⟨g', hg', hgerase⟩ => .space ?_
  refine .bind (hyes depth _) fun ys ⟨y', close, hy', hyerase⟩ => .space ?_
  refine .keyword .elseWord (.append rfl _) fun w' hw' => .space ?_
  refine .bind (hno depth _) fun ns ⟨n', close', hn', hnerase⟩ => .newline (.done ?_)
  have hstmt := Statement.ifElse hw hg' hy' hw' hn'
  exact ⟨_, by simpa using hstmt, by simp [Stmt.erase, hgerase, hyerase, hnerase]⟩

theorem loop (he : Prints e) (hbody : PrintsBlock body) : PrintsStmt (.loop span e body) := by
  intro depth rest
  simp only [Stmt.print, Stmt.lines, cons_append, flatMap_cons, flatMap_append,
    flatMap_nil, append_nil, Line.print, ofString_while, ofString_block,
    append_assoc]
  refine .spaces _ (.keyword .whileWord (.append rfl _) fun w hw => .space ?_)
  refine .bind (he.guard _) fun gs ⟨g', hg', hgerase⟩ => .space ?_
  refine .bind (hbody depth _) fun bs ⟨b', close, hb', hberase⟩ => .newline (.done ?_)
  have hstmt := Statement.loop hw hg' hb'
  exact ⟨_, by simpa using hstmt, by simp [Stmt.erase, hgerase, hberase]⟩

theorem output (hargs : PrintsArguments args) : PrintsStmt (.output span args) := by
  refine .line (fun _ => rfl) fun rest => ?_
  simp only [append_assoc]
  refine .keyword .output ⟨_, _, rfl, rfl⟩ fun w hw => ?_
  refine .bind (hargs _) fun as ⟨args', paren, hargs', herase⟩ => ?_
  refine .sealed .semicolon rfl fun c hc => .newline (.done ?_)
  have hstmt := Statement.output hw hargs' hc
  exact ⟨_, by simpa using hstmt, by simp [Stmt.erase, herase]⟩

theorem ret (hargs : PrintsArguments args) : PrintsStmt (.ret span args) := by
  refine .line (fun _ => rfl) fun rest => ?_
  simp only [append_assoc]
  refine .keyword .returnWord ⟨_, _, rfl, rfl⟩ fun w hw => ?_
  refine .bind (hargs _) fun as ⟨args', paren, hargs', herase⟩ => ?_
  refine .sealed .semicolon rfl fun c hc => .newline (.done ?_)
  have hstmt := Statement.ret hw hargs' hc
  exact ⟨_, by simpa using hstmt, by simp [Stmt.erase, herase]⟩

theorem extend (he : Prints e) : PrintsStmt (.extend span e) := by
  refine .line (fun _ => rfl) fun rest => ?_
  simp only [append_assoc]
  refine .keyword .extend ⟨_, _, rfl, rfl⟩ fun w hw => ?_
  refine .bind (he.guard _) fun gs ⟨g', hg', hgerase⟩ => ?_
  refine .sealed .semicolon rfl fun c hc => .newline (.done ?_)
  have hstmt := Statement.extend hw hg' hc
  exact ⟨_, by simpa using hstmt, by simp [Stmt.erase, hgerase]⟩

theorem turnoff : PrintsStmt (.turnoff span) := by
  refine .line (fun _ => rfl) fun rest => .keyword .turnoff ⟨_, _, rfl, rfl⟩ fun w hw => ?_
  refine .sealed .semicolon rfl fun c hc => .newline (.done ?_)
  exact ⟨_, .turnoff hw hc, rfl⟩

end PrintsStmt

/-- Printed statements one after the other are scanned as such. -/
def PrintsStmts (body : List Stmt) : Prop :=
  ∀ depth rest, Scans (Stmt.printAll depth body ++ rest) rest
    (Rewrites Statements Stmt.eraseAll body)

theorem PrintsStmts.nil : PrintsStmts [] := fun _ _ => .done ⟨[], .nil, rfl⟩

theorem PrintsStmts.cons {s : Stmt} {ss : List Stmt} (h : PrintsStmt s) (hss : PrintsStmts ss) :
    PrintsStmts (s :: ss) := by
  intro depth rest
  simp only [Stmt.printAll, Stmt.linesAll, flatMap_append, append_assoc]
  refine .bind (h depth _) fun ts ⟨s', hs', herase⟩ => ?_
  refine .mono (hss depth rest) fun us ⟨ss', hss', hsserase⟩ => ⟨_, .cons hs' hss', ?_⟩
  simp [Stmt.eraseAll, herase, hsserase]

theorem PrintsStmts.block {body : List Stmt} (h : PrintsStmts body) : PrintsBlock body := by
  intro depth rest
  refine .sealed .leftBrace rfl fun o ho => .newline ?_
  refine .bind (h (depth + 1) _) fun ts ⟨body', hbody', herase⟩ => .spaces _ ?_
  refine .sealed .rightBrace rfl fun c hc => .done ?_
  exact ⟨body', c, by simpa using Block.mk ho hbody' hc, herase⟩

mutual

theorem Statement.prints {ts : List Token} {s : Stmt} : Statement ts s → Spelled ts → PrintsStmt s
  | .assign ht _ _ hvalue _, hts => by
    simp only [append_assoc, cons_append, spelled_append, spelled_cons] at hts
    exact .assign ht hts.1 (hvalue.prints hts.2.2.1)
  | .eval h _ _, hts => .eval (h.prints (spelled_append.1 hts).1)
  | .ifThen _ hguard hbody, hts => by
    simp only [cons_append, spelled_append, spelled_cons] at hts
    exact .ifThen (hguard.prints hts.2.1) (hbody.prints hts.2.2)
  | .ifElse _ hguard hyes _ hno, hts => by
    simp only [append_assoc, cons_append, spelled_append, spelled_cons] at hts
    exact .ifElse (hguard.prints hts.2.1) (hyes.prints hts.2.2.1) (hno.prints hts.2.2.2.2)
  | .loop _ hguard hbody, hts => by
    simp only [cons_append, spelled_append, spelled_cons] at hts
    exact .loop (hguard.prints hts.2.1) (hbody.prints hts.2.2)
  | .output _ hargs _, hts => by
    simp only [cons_append, spelled_append, spelled_cons] at hts
    exact .output (hargs.prints hts.2.1)
  | .extend _ h _, hts => by
    simp only [cons_append, spelled_append, spelled_cons] at hts
    exact .extend (h.prints hts.2.1)
  | .turnoff _ _, _ => .turnoff
  | .ret _ hvalues _, hts => by
    simp only [cons_append, spelled_append, spelled_cons] at hts
    exact .ret (hvalues.prints hts.2.1)

theorem Block.prints {ts : List Token} {body : List Stmt} {close : Token} :
    Block ts body close → Spelled ts → PrintsBlock body
  | .mk _ h _, hts => by
    simp only [cons_append, spelled_append, spelled_cons] at hts
    exact (h.prints hts.2.1).block

theorem Statements.prints {ts : List Token} {ss : List Stmt} :
    Statements ts ss → Spelled ts → PrintsStmts ss
  | .nil, _ => .nil
  | .cons h hss, hts => .cons (h.prints (spelled_append.1 hts).1)
      (hss.prints (spelled_append.1 hts).2)

end

/-! ### Lists -/

section Lists

variable {α β : Type} {rule : List Token → α → Prop} {erase : α → β} {print : α → Text}

theorem Sequence.scans {ts : List Token} {as : List α} (h : Sequence rule ts as) (hts : Spelled ts)
    (helement : ∀ {ts a}, rule ts a → Spelled ts →
      ∀ rest, Scans (print a ++ rest) rest (Rewrites rule erase a)) (rest : Text) :
    Scans (as.flatMap print ++ rest) rest (Rewrites (Sequence rule) (List.map erase) as) := by
  induction h with
  | nil => exact .done ⟨[], .nil, rfl⟩
  | cons h _ ih =>
    rw [spelled_append] at hts
    simp only [flatMap_cons, append_assoc]
    refine .bind (helement h hts.1 _) fun us ⟨a', ha', herase⟩ => ?_
    refine .mono (ih hts.2) fun vs ⟨as', has', haserase⟩ => ⟨_, .cons ha' has', ?_⟩
    simp [herase, haserase]

variable (helement : ∀ {ts a}, rule ts a → Spelled ts →
  ∀ rest, Breaks rest → Scans (print a ++ rest) rest (Rewrites rule erase a))

include helement

theorem More.scans {ts : List Token} {as : List α} (h : More rule ts as) (hts : Spelled ts)
    {rest : Text} (hrest : Breaks rest) :
    Scans (as.flatMap (fun a => (", " : Text) ++ print a) ++ rest) rest
      (Rewrites (More rule) (List.map erase) as) := by
  induction h with
  | nil => exact .done ⟨[], .nil, rfl⟩
  | cons _ h hmore ih =>
    simp only [cons_append, spelled_append, spelled_cons] at hts
    simp only [flatMap_cons, append_assoc]
    refine .sealed .comma rfl fun m hm => .space ?_
    refine .bind (helement h hts.2.1 _ (breaks_flatMap _ _ hrest)) fun us ⟨a', ha', herase⟩ => ?_
    refine .mono (ih hts.2.2) fun vs ⟨as', has', haserase⟩ => ⟨_, .cons hm ha' has', ?_⟩
    simp [herase, haserase]

theorem Params.scans {ts : List Token} {as : List α} (h : Params rule ts as) (hts : Spelled ts)
    (rest : Text) :
    Scans ("(" ++ (join ", " (as.map print) ++ (")" ++ rest))) rest
      (Rewrites (Params rule) (List.map erase) as) := by
  refine .sealed .leftParen rfl fun o ho => ?_
  cases h with
  | none => exact .sealed .rightParen rfl fun c hc => .done ⟨[], .none ho hc, rfl⟩
  | some _ h has _ =>
    simp only [append_assoc, cons_append, spelled_append, spelled_cons] at hts
    rw [join_map_cons, append_assoc]
    refine .bind (helement h hts.2.1 _ (breaks_flatMap _ _ (.append rfl _)))
      fun us ⟨a', ha', herase⟩ => ?_
    refine .bind (has.scans helement hts.2.2.1 (.append rfl _)) fun vs ⟨as', has', haserase⟩ => ?_
    refine .sealed .rightParen rfl fun c hc => .done ⟨a' :: as', ?_, by simp [herase, haserase]⟩
    simpa using Params.some ho ha' has' hc

end Lists

/-! ### Declarations -/

theorem Declared.scans_print {d : DeclaredName} (h : Declared ts d) (hts : Spelled ts) (rest : Text)
    (hrest : Breaks rest) :
    Scans (d.print ++ rest) rest (Rewrites Declared DeclaredName.erase d) := by
  cases h with
  | scalar ht =>
    simp only [DeclaredName.print]
    refine .name ((spelled_cons.1 hts).1.spellsName ht) hrest fun t ht hx => .done ?_
    exact ⟨_, .scalar ht, by simp [DeclaredName.erase, hx]⟩
  | @array t _ _ _ _ ht _ hsize _ =>
    have hclosed {span : Span} {shape : Shape} {size : Text} (hsize : ∀ {post},
        (∀ n, Size n shape → Scans ("]" ++ rest) rest fun ts => post (n :: ts)) →
          Scans (size ++ ("]" ++ rest)) rest post) :
        Scans (t.value ++ ("[" ++ (size ++ ("]" ++ rest)))) rest
          (Rewrites Declared DeclaredName.erase ⟨span, t.value, shape⟩) := by
      refine .name ((spelled_cons.1 hts).1.spellsName ht) (.append rfl _) fun t ht hx => ?_
      refine .sealed .leftBracket rfl fun o ho => hsize fun n hn => ?_
      refine .sealed .rightBracket rfl fun c hc => .done ⟨_, .array ht ho hn hc, ?_⟩
      simp [DeclaredName.erase, hx]
    cases hsize with simp only [DeclaredName.print, append_assoc]
    | array h =>
      exact hclosed fun hpost => .numeral (isNumeral_ofNat _) (.append rfl _) fun n hn hvalue =>
        hpost n (.array (h.ofNat hn hvalue))
    | inChannels =>
      exact hclosed fun hpost => .keyword .inchannels (.append rfl _) fun n hn =>
        hpost n (.inChannels hn)
    | outChannels =>
      exact hclosed fun hpost => .keyword .outchannels (.append rfl _) fun n hn =>
        hpost n (.outChannels hn)

theorem Tagged.scans_print {tags : Option Tags} (h : Tagged ts tags) (rest : Text) :
    Scans (Tags.print tags ++ rest) rest (Rewrites Tagged (Option.map Tags.erase) tags) := by
  have hboth (span : Span) : Scans (Tags.print (some ⟨span, true, true⟩) ++ rest) rest
      (Rewrites Tagged (Option.map Tags.erase) (some ⟨span, true, true⟩)) := by
    simp only [Tags.print, ↓reduceIte, append_assoc]
    refine .keyword .imports ⟨_, _, rfl, rfl⟩ fun t ht => .space ?_
    exact .keyword .exports ⟨_, _, rfl, rfl⟩ fun u hu =>
      .space (.done ⟨_, .importsExports ht hu, rfl⟩)
  cases h with
  | none => exact .done ⟨_, .none, rfl⟩
  | imports =>
    exact .keyword .imports ⟨_, _, rfl, rfl⟩ fun t ht => .space (.done ⟨_, .imports ht, rfl⟩)
  | exports =>
    exact .keyword .exports ⟨_, _, rfl, rfl⟩ fun t ht => .space (.done ⟨_, .exports ht, rfl⟩)
  | importsExports => exact hboth _
  | exportsImports => exact hboth _

theorem Typed.of_isWord {t : Token} {type : StorageType} (h : t.IsWord type.keyword) :
    Typed t ⟨t.span, type⟩ :=
  ⟨h, rfl⟩

theorem exists_head_start (ts : List Token) (t : Token) :
    ∃ start, (ts ++ [t]).head?.map Token.start = some start := by
  cases ts with
  | nil => exact ⟨_, rfl⟩
  | cons u ts => exact ⟨_, rfl⟩

theorem Declaration.scans_print {d : Decl} (h : Declaration ts d) (hts : Spelled ts) (depth : Nat)
    (rest : Text) : Scans (d.print depth ++ rest) rest (Rewrites Declaration Decl.erase d) := by
  cases h with
  | vars htags htype hfirst hothers hclose hstart =>
    simp only [append_assoc, cons_append, spelled_append, spelled_cons] at hts
    refine .line ?_
    simp only [NameList.print, join_map_cons, append_assoc]
    refine .bind (htags.scans_print _) fun ts ⟨tags', htags', htagserase⟩ => ?_
    refine .keyword _ (.append rfl _) fun t ht => .space ?_
    refine .bind (hfirst.scans_print hts.2.2.1 _ (breaks_flatMap _ _ (.append rfl _)))
      fun ns ⟨first', hfirst', hfirsterase⟩ => ?_
    refine .bind (hothers.scans Declared.scans_print hts.2.2.2.1 (.append rfl _))
      fun ms ⟨others', hothers', hotherserase⟩ => ?_
    refine .sealed .semicolon rfl fun c hc => .newline (.done ?_)
    obtain ⟨start, hstart'⟩ := exists_head_start ts t
    have hdecl := Declaration.vars htags' (.of_isWord ht) hfirst' hothers' hc hstart'
    refine ⟨_, by simpa using hdecl, ?_⟩
    simp [Decl.erase, VariableDecl.erase, NameList.erase, TypeName.erase, htagserase, hfirsterase,
      hotherserase]
  | table htags hword hident hopen hgenerator hargs hparen hclose hstart =>
    simp only [append_assoc, cons_append, spelled_append, spelled_cons] at hts
    refine .line ?_
    simp only [append_assoc]
    refine .bind (htags.scans_print _) fun ts ⟨tags', htags', htagserase⟩ => ?_
    refine .keyword .table ⟨_, _, rfl, rfl⟩ fun w hw => .space ?_
    refine .name (hts.2.2.1.spellsName hident) (.append rfl _) fun i hi hix => ?_
    refine .sealed .leftParen rfl fun o ho => ?_
    refine .name (hts.2.2.2.2.1.spellsName hgenerator) (breaks_flatMap _ _ (.append rfl _))
      fun g hg hgx => ?_
    refine .bind (hargs.prints hts.2.2.2.2.2.1 _ (.append rfl _))
      fun as ⟨args', hargs', hargserase⟩ => ?_
    refine .sealed .rightParen rfl fun p hp => .sealed .semicolon rfl fun c hc =>
      .newline (.done ?_)
    obtain ⟨start, hstart'⟩ := exists_head_start ts w
    have hdecl := Declaration.table htags' hw hi ho hg hargs' hp hc hstart'
    refine ⟨_, by simpa using hdecl, ?_⟩
    simp [Decl.erase, TableDecl.erase, htagserase, hargserase, hix, hgx]

/-! ### Orchestras -/

theorem Body.scans_print {decls : List Decl} {stmts : List Stmt} {close : Token}
    (h : Body ts decls stmts close) (hts : Spelled ts) (rest : Text) :
    Scans (printBody decls stmts ++ rest) rest fun us => ∃ decls' stmts' close',
      Body us decls' stmts' close' ∧ decls'.map Decl.erase = decls.map Decl.erase ∧
        Stmt.eraseAll stmts' = Stmt.eraseAll stmts := by
  obtain ⟨-, hdecls, hstmts, -⟩ := h
  simp only [append_assoc, cons_append, spelled_append, spelled_cons] at hts
  simp only [printBody, append_assoc]
  refine .sealed .leftBrace rfl fun o ho => .newline ?_
  refine .bind (hdecls.scans hts.2.1 (fun h hts => h.scans_print hts 1) _)
    fun ds ⟨decls', hdecls', hdeclserase⟩ => ?_
  refine .bind (hstmts.prints hts.2.2.1 1 _) fun ss ⟨stmts', hstmts', hstmtserase⟩ => ?_
  refine .sealed .rightBrace rfl fun c hc => .newline (.done ?_)
  exact ⟨decls', stmts', c, by simpa using Body.mk ho hdecls' hstmts' hc, hdeclserase, hstmtserase⟩

theorem InstrumentParam.scans_print {p : Orchestrion.InstrumentParam} (h : InstrumentParam ts p)
    (hts : Spelled ts) (rest : Text) (hrest : Breaks rest) :
    Scans (p.ident ++ rest) rest
      (Rewrites InstrumentParam Orchestrion.InstrumentParam.erase p) := by
  obtain ⟨ht⟩ := h
  refine .name ((spelled_cons.1 hts).1.spellsName ht) hrest fun t ht hx => .done ⟨_, .mk ht, ?_⟩
  simp [Orchestrion.InstrumentParam.erase, hx]

theorem OpcodeParam.scans_print {p : VariableDecl} (h : OpcodeParam ts p) (hts : Spelled ts)
    (rest : Text) (hrest : Breaks rest) :
    Scans (p.printParam ++ rest) rest (Rewrites OpcodeParam VariableDecl.erase p) := by
  obtain ⟨htype, hdeclared⟩ := h
  simp only [VariableDecl.printParam, NameList.print, join_map_cons, flatMap_nil,
    append_nil, append_assoc]
  refine .keyword _ (.append rfl _) fun t ht => .space ?_
  refine .mono (hdeclared.scans_print (spelled_cons.1 hts).2 rest hrest)
    fun us ⟨d', hd', herase⟩ => ?_
  refine ⟨_, .mk (.of_isWord ht) hd', ?_⟩
  simp [VariableDecl.erase, NameList.erase, TypeName.erase, herase]

theorem Unit.scans_print {keyword : Keyword} {i : Instrument} (h : Unit keyword ts i)
    (hts : Spelled ts) (rest : Text) :
    Scans (i.print keyword ++ rest) rest (Rewrites (Unit keyword) Instrument.erase i) := by
  obtain ⟨-, hident, hparams, hbody⟩ := h
  simp only [cons_append, spelled_append, spelled_cons] at hts
  simp only [Instrument.print, ofString_params, append_assoc]
  refine .keyword keyword (.append rfl _) fun w hw => .space ?_
  refine .name (hts.2.1.spellsName hident) (.append rfl _) fun n hn hx => ?_
  refine .bind (hparams.scans InstrumentParam.scans_print hts.2.2.1 _)
    fun ps ⟨params', hparams', hparamserase⟩ => .space ?_
  refine .mono (hbody.scans_print hts.2.2.2 rest)
    fun bs ⟨decls', stmts', close, hbody', hdeclserase, hstmtserase⟩ =>
      ⟨_, .mk hw hn hparams' hbody', ?_⟩
  simp [Instrument.erase, hx, hparamserase, hdeclserase, hstmtserase]

theorem Opcode.scans_print {o : Orchestrion.Opcode} (h : Opcode ts o) (hts : Spelled ts)
    (rest : Text) : Scans (o.print ++ rest) rest (Rewrites Opcode Orchestrion.Opcode.erase o) := by
  obtain ⟨-, hident, hparams, hbody⟩ := h
  simp only [cons_append, spelled_append, spelled_cons] at hts
  simp only [Orchestrion.Opcode.print, ofString_params, append_assoc]
  refine .keyword (OpcodeKind.keyword _) (.append rfl _) fun w hw => .space ?_
  refine .name (hts.2.1.spellsName hident) (.append rfl _) fun n hn hx => ?_
  refine .bind (hparams.scans OpcodeParam.scans_print hts.2.2.1 _)
    fun ps ⟨params', hparams', hparamserase⟩ => .space ?_
  refine .mono (hbody.scans_print hts.2.2.2 rest)
    fun bs ⟨decls', stmts', close, hbody', hdeclserase, hstmtserase⟩ =>
      ⟨_, .mk hw hn hparams' hbody', ?_⟩
  simp [Orchestrion.Opcode.erase, hx, hparamserase, hdeclserase, hstmtserase]

theorem GlobalItem.scans_print {i : Orchestrion.GlobalItem} (h : GlobalItem ts i) (hts : Spelled ts)
    (depth : Nat) (rest : Text) :
    Scans (i.print depth ++ rest) rest (Rewrites GlobalItem Orchestrion.GlobalItem.erase i) := by
  cases h with
  | setting hword hvalue hclose =>
    refine .line ?_
    simp only [append_assoc]
    refine .keyword (Parameter.keyword _) (.append rfl _) fun w hw => .space ?_
    refine .numeral (isNumeral_ofNat _) (.append rfl _) fun v hv hx => ?_
    refine .sealed .semicolon rfl fun c hc =>
      .newline (.done ⟨_, .setting hw (hvalue.ofNat hv hx) hc, ?_⟩)
    rfl
  | decl h =>
    refine .mono (h.scans_print hts depth rest) fun us ⟨d', hd', herase⟩ => ⟨_, .decl hd', ?_⟩
    simp [Orchestrion.GlobalItem.erase, herase]

theorem Item.scans_print {i : Orchestrion.Item} (h : Item ts i) (hts : Spelled ts) (rest : Text) :
    Scans (i.print ++ rest) rest (Rewrites Item Orchestrion.Item.erase i) := by
  cases h with
  | global _ _ h _ =>
    simp only [cons_append, spelled_append, spelled_cons] at hts
    simp only [Orchestrion.Item.print, GlobalBlock.print, ofString_global, append_assoc]
    refine .keyword .global (.append rfl _) fun w hw => .space ?_
    refine .sealed .leftBrace rfl fun o ho => .newline ?_
    refine .bind (h.scans hts.2.2.1 (fun h hts => h.scans_print hts 1) _)
      fun us ⟨items', hitems', herase⟩ => ?_
    refine .sealed .rightBrace rfl fun c hc => .newline (.done ?_)
    have hitem := Item.global hw ho hitems' hc
    exact ⟨_, by simpa using hitem, by simp [Orchestrion.Item.erase, GlobalBlock.erase, herase]⟩
  | instrument h =>
    refine .mono (h.scans_print hts rest) ?_
    rintro us ⟨i', hi', herase⟩
    exact ⟨_, .instrument hi', congrArg Orchestrion.Item.instrument herase⟩
  | template h =>
    refine .mono (h.scans_print hts rest) ?_
    rintro us ⟨i', hi', herase⟩
    exact ⟨_, .template hi', congrArg Orchestrion.Item.template herase⟩
  | opcode h =>
    refine .mono (h.scans_print hts rest) ?_
    rintro us ⟨o', ho', herase⟩
    exact ⟨_, .opcode ho', congrArg Orchestrion.Item.opcode herase⟩

theorem Sequence.scans_separated {is : List Orchestrion.Item} (h : Sequence Item ts is)
    (hts : Spelled ts) :
    Scans (is.flatMap fun i => ("\n" : Text) ++ i.print) []
      (Rewrites (Sequence Item) (List.map Orchestrion.Item.erase) is) := by
  have hitem : ∀ {ts : List Token} {i : Orchestrion.Item}, Item ts i → Spelled ts → ∀ rest,
      Scans ((("\n" : Text) ++ i.print) ++ rest) rest (Rewrites Item Orchestrion.Item.erase i) := by
    intro ts i h hts rest
    exact .newline (h.scans_print hts rest)
  simpa using h.scans hts hitem []

theorem Orchestra.scans_print {finish : Position} {tree : OrchestraTree}
    (h : Orchestra finish ts tree) (hts : Spelled ts) :
    Scans tree.print []
      (Rewrites (Sequence Item) (List.map Orchestrion.Item.erase) tree.items) := by
  obtain ⟨h⟩ := h
  cases h with
  | nil => exact .done ⟨[], .nil, rfl⟩
  | cons h has =>
    rw [spelled_append] at hts
    simp only [OrchestraTree.print, join_map_cons]
    refine .bind (h.scans_print hts.1 _) fun us ⟨i', hi', herase⟩ => ?_
    refine .mono (has.scans_separated hts.2) fun vs ⟨is', his', hiserase⟩ => ⟨_, .cons hi' his', ?_⟩
    simp [herase, hiserase]

end Grammar

end Orchestrion
