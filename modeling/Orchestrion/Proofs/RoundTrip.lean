import Orchestrion.Format
import Orchestrion.Proofs.Parse
import Orchestrion.Proofs.Printing

/-!
# Printing and reading again

A tree that was read from a text can be printed and read again. What comes back is the same tree but
for the places, and places are not printed: formatting a formatted text changes nothing.
-/

namespace Orchestrion

open List

/-! ### Places are not printed -/

mutual

theorem Expr.printBefore_erase (rest : Text) :
    ∀ e : Expr, e.erase.printBefore rest = e.printBefore rest
  | .constant .. | .name .. => rfl
  | .element _ _ i => by simp only [erase, printBefore, printBefore_erase _ i]
  | .call _ _ args => by simp only [erase, printBefore, printListBefore_eraseAll _ args]
  | .binary _ _ l r => by simp only [erase, printBefore, printBefore_erase _ l,
      printBefore_erase _ r]
  | .unary _ _ x => by simp only [erase, printBefore, printBefore_erase _ x]
  | .conditional _ c y n => by
    simp only [erase, printBefore, printBefore_erase _ c, printBefore_erase _ y,
      printBefore_erase _ n]

theorem Expr.printListBefore_eraseAll (rest : Text) :
    ∀ es : List Expr, printListBefore rest (eraseAll es) = printListBefore rest es
  | [] => rfl
  | [e] => by simp only [eraseAll, printListBefore, printBefore_erase _ e]
  | e :: e' :: es => by
    have hrest := printListBefore_eraseAll rest (e' :: es)
    simp only [eraseAll] at hrest ⊢
    simp only [printListBefore, printBefore_erase _ e, hrest]

end

@[simp]
theorem Expr.print_erase (e : Expr) : e.erase.print = e.print := printBefore_erase [] e

@[simp]
theorem Expr.printList_eraseAll (es : List Expr) : printList (eraseAll es) = printList es :=
  printListBefore_eraseAll [] es

theorem Expr.eraseAll_eq_map (es : List Expr) : eraseAll es = es.map erase := by
  induction es with
  | nil => rfl
  | cons e es ih => simp only [eraseAll, map_cons, ih]

@[simp]
theorem Target.print_erase (t : Target) : t.erase.print = t.print := by
  obtain ⟨_, _, _ | i⟩ := t <;> simp [erase, print]

mutual

theorem Stmt.lines_erase (depth : Nat) : ∀ s : Stmt, s.erase.lines depth = s.lines depth
  | .assign .. | .eval .. | .output .. | .extend .. | .turnoff _ | .ret .. => by simp [erase, lines]
  | .ifElse _ _ y n => by
    simp only [erase, lines, Expr.print_erase, linesAll_eraseAll _ y, linesAll_eraseAll _ n]
  | .ifThen _ _ b | .loop _ _ b => by
    simp only [erase, lines, Expr.print_erase, linesAll_eraseAll _ b]

theorem Stmt.linesAll_eraseAll (depth : Nat) :
    ∀ ss : List Stmt, linesAll depth (eraseAll ss) = linesAll depth ss
  | [] => rfl
  | s :: ss => by simp only [eraseAll, linesAll, lines_erase _ s, linesAll_eraseAll _ ss]

end

@[simp]
theorem Stmt.printAll_eraseAll (depth : Nat) (ss : List Stmt) :
    printAll depth (eraseAll ss) = printAll depth ss := by
  rw [printAll, linesAll_eraseAll, printAll]

@[simp]
theorem Tags.print_map_erase (tags : Option Tags) :
    Tags.print (tags.map erase) = Tags.print tags := by
  cases tags <;> rfl

@[simp]
theorem NameList.print_erase (l : NameList) : l.erase.print = l.print := by
  simp only [erase, print, map_map]
  rfl

@[simp]
theorem Decl.print_erase (depth : Nat) (d : Decl) : d.erase.print depth = d.print depth := by
  cases d with
  | vars d => simp [erase, print, VariableDecl.erase, VariableDecl.print, TypeName.erase]
  | table d =>
    simp [erase, print, TableDecl.erase, TableDecl.print, Expr.eraseAll_eq_map, flatMap_map]

@[simp]
theorem GlobalItem.print_erase (depth : Nat) (i : GlobalItem) :
    i.erase.print depth = i.print depth := by
  cases i with
  | setting s => rfl
  | decl d => simp [erase, print]

@[simp]
theorem printBody_erase (decls : List Decl) (stmts : List Stmt) :
    printBody (decls.map Decl.erase) (Stmt.eraseAll stmts) = printBody decls stmts := by
  simp [printBody, flatMap_map]

@[simp]
theorem Instrument.print_erase (keyword : Keyword) (i : Instrument) :
    i.erase.print keyword = i.print keyword := by
  simp [erase, print, InstrumentParam.erase, Function.comp_def]

@[simp]
theorem Opcode.print_erase (o : Opcode) : o.erase.print = o.print := by
  simp [erase, print, VariableDecl.erase, VariableDecl.printParam, TypeName.erase,
    Function.comp_def]

@[simp]
theorem Item.print_erase (i : Item) : i.erase.print = i.print := by
  cases i <;> simp [erase, print, GlobalBlock.erase, GlobalBlock.print, flatMap_map]

theorem OrchestraTree.print_erase (tree : OrchestraTree) : tree.erase.print = tree.print := by
  simp [erase, print, Function.comp_def]

/-! ### Texts that can be read -/

namespace Grammar

theorem Item.getLast?_isMark {ts : List Token} {i : Orchestrion.Item} (h : Item ts i) :
    ∃ close, ts.getLast? = some close ∧ close.IsMark .rightBrace := by
  have hbody {ts decls stmts close} (h : Body ts decls stmts close) :
      ts.getLast? = some close ∧ close.IsMark .rightBrace := by
    obtain ⟨-, -, -, hclose⟩ := h
    exact ⟨getLast?_concat, hclose⟩
  cases h with
  | global _ _ _ hclose => exact ⟨_, getLast?_concat, hclose⟩
  | instrument h | template h | opcode h =>
    obtain ⟨-, -, -, h⟩ := h
    obtain ⟨hlast, hclose⟩ := hbody h
    exact ⟨_, by rw [getLast?_append, hlast]; rfl, hclose⟩

theorem Sequence.isMark_of_getLast? {ts : List Token} {is : List Orchestrion.Item}
    (h : Sequence Item ts is) {t : Token} (ht : ts.getLast? = some t) : t.IsMark .rightBrace := by
  induction h with
  | nil => cases ht
  | @cons us vs i is h hs ih =>
    rw [getLast?_append] at ht
    match hvs : vs.getLast? with
    | none =>
      obtain ⟨close, hclose, hmark⟩ := h.getLast?_isMark
      rw [hvs, hclose] at ht
      cases ht
      exact hmark
    | some last =>
      rw [hvs] at ht
      cases ht
      exact ih hvs

end Grammar

namespace OrchestraTree

open Grammar

theorem exists_of_formatText {source out : Text} (h : formatText source = .ok out) :
    ∃ tree, parse source = .ok tree ∧ tree.print = out := by
  rw [formatText] at h
  split at h
  next tree hparse => exact ⟨tree, hparse, Except.ok.inj h⟩
  next => cases h

theorem spelled_of_parse {source : Text} {tree : OrchestraTree} (h : parse source = .ok tree) :
    Spelled (Token.scan source).tokens := by
  obtain ⟨hitems⟩ := orchestra_of_parse h
  have hinner := Token.isSpelled_of_mem_dropLast (.all source)
  change ∀ t ∈ (Token.scan source).tokens.dropLast, _ at hinner
  rcases eq_nil_or_concat (Token.scan source).tokens with hnil | ⟨ts, last, htokens⟩
  · rw [hnil]
    nofun
  · rw [concat_eq_append] at htokens
    rw [htokens] at hitems hinner ⊢
    rw [dropLast_concat] at hinner
    have hlast : last.IsMark .rightBrace := hitems.isMark_of_getLast? getLast?_concat
    refine spelled_append.2 ⟨hinner, spelled_cons.2 ⟨?_, nofun⟩⟩
    rw [Token.IsSpelled, hlast]
    trivial

theorem exists_parse_print {source : Text} {tree : OrchestraTree} (h : parse source = .ok tree) :
    ∃ again, parse tree.print = .ok again ∧ again.erase = tree.erase := by
  obtain ⟨ts, finish, hscan, hlegal, items, hitems, herase⟩ :=
    (orchestra_of_parse h).scans_print (spelled_of_parse h) (Unread.all tree.print).place
  have htokens : (Token.scan tree.print).tokens = ts := calc
    (Token.scan tree.print).tokens = ts ++ (Token.scanFrom ⟨[], finish⟩).tokens :=
      congrArg Token.Scanned.tokens hscan
    _ = ts := by rw [Token.tokens_scanFrom_of_atEnd rfl, append_nil]
  refine ⟨_, parse_of_orchestra ?_ (by rw [htokens]; exact .mk hitems), ?_⟩
  · rw [htokens]
    exact hlegal
  · simp only [erase, herase]

/-- A tree that was read from a text can be printed and read again, and what comes back differs in
places only. Formatting a formatted text changes nothing. -/
theorem parse_print (source : Text) (tree : OrchestraTree) (h : parse source = .ok tree) :
    (∃ again, parse tree.print = .ok again ∧ again.erase = tree.erase) ∧
      formatText source = .ok tree.print ∧ formatText tree.print = .ok tree.print := by
  obtain ⟨again, hagain, herase⟩ := exists_parse_print h
  have hprint : again.print = tree.print := by
    rw [← again.print_erase, herase, tree.print_erase]
  refine ⟨⟨again, hagain, herase⟩, by rw [formatText, h], ?_⟩
  rw [formatText, hagain, ← hprint]

/-- An orchestra with tags in the other order, zeros in front of sizes, and blocks without
statements. -/
def minuet : Text :=
  Text.join "\n"
    ["global \x7b krate 007; table t(harm, 8, .5,1e-2); \x7d",
      "kopcode fade(ksig x,xsig w[outchannels])\x7breturn(x-w[0]);\x7d",
      "instr a(p, q) \x7b",
      "  exports imports ivar n[010], m;",
      "  if (p) \x7b\x7d else \x7b\x7d // nothing to do",
      "  while (m<3. && -p*2+1==q) \x7b m = p ? fade(1, q) : !n[(2)]; \x7d",
      "\x7d"]

/-- The same orchestra in canonical form. -/
def minuetPrinted : Text :=
  Text.join "\n"
    ["global \x7b",
      "    krate 7;",
      "    table t(harm, 8, .5, 1e-2);",
      "\x7d",
      "",
      "kopcode fade(ksig x, xsig w[outchannels]) \x7b",
      "    return((x - w[0]));",
      "\x7d",
      "",
      "instr a(p, q) \x7b",
      "    imports exports ivar n[10], m;",
      "    if (p) \x7b",
      "    \x7d else \x7b",
      "    \x7d",
      "    while (((m < 3.) && ((((-p) * 2) + 1) == q))) \x7b",
      "        m = (p ? fade(1, q) : (!n[2]));",
      "    \x7d",
      "\x7d",
      ""]

theorem parse_print_minuet : ∃ tree again,
    parse minuet = .ok tree ∧ tree.print = minuetPrinted ∧
    parse minuetPrinted = .ok again ∧ again.erase = tree.erase ∧
    formatText minuetPrinted = .ok minuetPrinted := by
  have hformat : formatText minuet = .ok minuetPrinted := by decide +kernel
  obtain ⟨tree, hparse, hprint⟩ := exists_of_formatText hformat
  obtain ⟨⟨again, hagain, herase⟩, -, hprinted⟩ := parse_print minuet tree hparse
  rw [hprint] at hagain hprinted
  exact ⟨tree, again, hparse, hprint, hagain, herase, hprinted⟩

end OrchestraTree

end Orchestrion
