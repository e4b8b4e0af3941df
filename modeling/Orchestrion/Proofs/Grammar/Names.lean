import Mathlib.Data.List.TakeWhile
import Orchestrion.Proofs.Grammar.Soundness
import Orchestrion.Proofs.Grammar.Spans

/-!
# The names and the places of a tree

Every name in a tree is the value of a token that writes it, and its nodes begin and end where
tokens do. None of the tokens that write a tree is illegal, and its numerals hold no zero byte. If
the tokens stand in a row, so do the children of every node. All of this is read off the rules of
the grammar, and said together (`Grammar.Laid`).
-/

namespace Orchestrion

open List Option

/-- The names in a node that are not in its children. -/
def Node.idents : Node → List Text
  | instrument i | template i => [i.ident]
  | opcode o => [o.ident]
  | table d => [d.ident, d.generator]
  | declared n => [n.ident]
  | target t => [t.ident]
  | expr (.name _ x) => [x]
  | expr (.element _ x _) => [x]
  | expr (.call _ f _) => [f]
  | _ => []

namespace Number

theorem zero_notMem_of_digits {t : Text} (h : ∀ b ∈ t, Text.isDigit b = true) : 0 ∉ t :=
  fun hzero => absurd (h 0 hzero) (by decide)

theorem zero_notMem_of_natural? {t : Text} {n : Nat} (h : natural? t = some n) : 0 ∉ t := by
  unfold natural? at h
  split at h
  next hdigits => exact zero_notMem_of_digits (all_eq_true.1 hdigits.2)
  next => cases h

theorem Decimal.zero_notMem_of_exponent? {t : Text} {e : Int}
    (h : exponent? t = some e) : 0 ∉ t := by
  -- Neither sign is a zero byte.
  have hsigned {c : Char} {sign : UInt8} {rest : Text} (hc : Text.isSymbol c 0 = false)
      (hsign : Text.isSymbol c sign = true) (hrest : natural? rest ≠ none) : 0 ∉ sign :: rest := by
    obtain ⟨n, hn⟩ := ne_none_iff_exists'.1 hrest
    refine not_mem_cons_of_ne_of_not_mem ?_ (zero_notMem_of_natural? hn)
    rintro rfl
    cases hc.symm.trans hsign
  unfold exponent? at h
  split at h
  next => cases h
  next sign rest =>
    split at h
    next hminus =>
      refine hsigned (by decide) hminus fun hnone => ?_
      rw [hnone] at h
      cases h
    next =>
      split at h
      next hplus =>
        refine hsigned (by decide) hplus fun hnone => ?_
        rw [hnone] at h
        cases h
      next =>
        obtain ⟨n, hn, -⟩ := map_eq_some_iff.1 h
        exact zero_notMem_of_natural? hn

theorem Decimal.zero_notMem_of_unsigned? {t : Text} {d : Decimal} (h : unsigned? t = some d) :
    0 ∉ t := by
  have hdigits (t : Text) : 0 ∉ t.takeWhile Text.isDigit :=
    zero_notMem_of_digits fun _ => mem_takeWhile_imp
  rw [← takeWhile_append_dropWhile (p := Text.isDigit) (l := t)]
  refine not_mem_append (hdigits t) ?_
  unfold unsigned? at h
  generalize t.dropWhile Text.isDigit = rest at h ⊢
  dsimp only at h
  split at h
  next b after =>
    -- A fraction adds a point and digits in front of the exponent.
    have hfraction : 0 ∉ (if Text.isSymbol '.' b = true then (after.takeWhile Text.isDigit,
        after.dropWhile Text.isDigit) else ([], b :: after)).2 → 0 ∉ b :: after := by
      split
      next hpoint =>
        intro hafter
        rw [← takeWhile_append_dropWhile (p := Text.isDigit) (l := after)]
        refine not_mem_cons_of_ne_of_not_mem ?_ (not_mem_append (hdigits after) hafter)
        rintro rfl
        cases hpoint
      next => exact id
    refine hfraction ?_
    clear hfraction
    generalize (if Text.isSymbol '.' b = true then (after.takeWhile Text.isDigit,
      after.dropWhile Text.isDigit) else ([], b :: after)) = parts at h ⊢
    split at h
    next => cases h
    next =>
      split at h
      next hrest =>
        rw [hrest]
        exact not_mem_nil
      next mark exponent hrest =>
        split at h
        next hmark =>
          obtain ⟨e, he, -⟩ := map_eq_some_iff.1 h
          rw [hrest]
          refine not_mem_cons_of_ne_of_not_mem ?_ (zero_notMem_of_exponent? he)
          rintro rfl
          cases hmark
        next => cases h
  next => exact not_mem_nil

end Number

/-- The token is not illegal, and if it is a numeral, then it does not run into a zero byte. -/
structure Token.Proper (t : Token) : Prop where
  legal : t.kind ≠ .illegal
  numeral : t.kind = .integer ∨ t.kind = .number → 0 ∉ t.value

theorem Token.IsMark.proper {t : Token} {p : Punctuation} (h : t.IsMark p) : t.Proper := by
  constructor <;> simp [show t.kind = .punctuation p from h]

theorem Token.IsWord.proper {t : Token} {k : Keyword} (h : t.IsWord k) : t.Proper := by
  constructor <;> simp [show t.kind = .keyword k from h]

theorem Token.proper_of_name {t : Token} (h : t.kind = .name) : t.Proper := by
  constructor <;> simp [h]

theorem Token.proper_of_literal {t : Token} (h : t.kind = .integer ∨ t.kind = .number)
    (hvalue : t.literal.value?.isSome = true) : t.Proper := by
  constructor
  · rcases h with h | h <;> simp [h]
  · intro _
    obtain ⟨v, hv⟩ := isSome_iff_exists.1 hvalue
    obtain ⟨d, hd, -⟩ := bind_eq_some_iff.1 hv
    exact Number.Decimal.zero_notMem_of_unsigned? hd

namespace Grammar

variable {ts : List Token} {t : Token}

/-- All tokens are proper, and every name in the nodes is the value of one of them. -/
structure Accounts (ts : List Token) (nodes : List (Path × Node)) : Prop where
  proper : ∀ t ∈ ts, t.Proper
  names : ∀ n ∈ nodes, ∀ x ∈ n.2.idents, ∃ t ∈ ts, t.kind = .name ∧ t.value = x

namespace Accounts

variable {ts us : List Token} {t : Token} {nodes others : List (Path × Node)} {enter : Node → Bool}
  {path : Path} {n : Node}

theorem exists_mem_left {p : Token → Prop} : (∃ t ∈ ts, p t) → ∃ t ∈ ts ++ us, p t :=
  .imp fun _ => .imp_left (mem_append_left us)

theorem exists_mem_right {p : Token → Prop} : (∃ t ∈ us, p t) → ∃ t ∈ ts ++ us, p t :=
  .imp fun _ => .imp_left (mem_append_right ts)

theorem append (h : Accounts ts nodes) (h' : Accounts us others) :
    Accounts (ts ++ us) (nodes ++ others) where
  proper := forall_mem_append.2 ⟨h.proper, h'.proper⟩
  names := forall_mem_append.2 ⟨fun n hn x hx => exists_mem_left (h.names n hn x hx),
    fun n hn x hx => exists_mem_right (h'.names n hn x hx)⟩

theorem before (h : Accounts ts nodes)
    (hn : ∀ x ∈ n.idents, ∃ t ∈ ts, t.kind = .name ∧ t.value = x) :
    Accounts ts (Node.before enter path n nodes) := by
  refine ⟨h.proper, forall_mem_cons.2 ⟨hn, fun m hm => ?_⟩⟩
  split at hm
  · exact h.names m hm
  · cases hm

end Accounts

/-- The nodes of some trees are accounted for, begin and end where tokens do, and are visited one by
one. If the tokens stand in a row, so do the trees, and so do the children of every node. -/
structure Laid (enter : Node → Bool) (ts : List Token) (roots : List Node)
    (nodes : List (Path × Node)) : Prop extends Accounts ts nodes where
  ends : ∀ n ∈ nodes, (∃ t ∈ ts, n.2.span.start = t.start) ∧ ∃ t ∈ ts, n.2.span.stop = t.stop
  visits : Visits enter roots (nodes.map Prod.snd)
  row : ∀ lo hi, Row lo (ts.map Token.span) hi →
    Row lo (roots.map Node.span) hi ∧ ∀ n ∈ nodes, n.2.Orderly

/-- A place where the first of the tokens or of the nodes begins. -/
inductive Starts (ts : List Token) (roots : List Node) (p : Position) : Prop
  | token {t : Token} (h : ts.head? = some t) (hp : t.start = p) : Starts ts roots p
  | root {r : Node} (h : roots.head? = some r) (hp : r.span.start = p) : Starts ts roots p

/-- A place where the last of the tokens or of the nodes ends. -/
inductive Stops (ts : List Token) (roots : List Node) (p : Position) : Prop
  | token {t : Token} (h : ts.getLast? = some t) (hp : t.stop = p) : Stops ts roots p
  | root {r : Node} (h : roots.getLast? = some r) (hp : r.span.stop = p) : Stops ts roots p

namespace Laid

variable {α : Type} {element : List Token → α → Prop} {node : α → Node}
  {walk : Path → α → List (Path × Node)} {as : List α}

variable {enter : Node → Bool} {ts us : List Token} {t : Token} {roots roots' : List Node}
  {nodes others : List (Path × Node)} {path : Path} {n : Node}

theorem nil : Laid enter [] [] [] where
  proper := forall_mem_nil _
  names := forall_mem_nil _
  ends := forall_mem_nil _
  visits := .nil
  row _ _ h := ⟨h, forall_mem_nil _⟩

theorem append (h : Laid enter ts roots nodes) (h' : Laid enter us roots' others) :
    Laid enter (ts ++ us) (roots ++ roots') (nodes ++ others) where
  toAccounts := h.toAccounts.append h'.toAccounts
  ends := forall_mem_append.2
    ⟨fun n hn => (h.ends n hn).imp Accounts.exists_mem_left Accounts.exists_mem_left,
      fun n hn => (h'.ends n hn).imp Accounts.exists_mem_right Accounts.exists_mem_right⟩
  visits := by
    rw [map_append]
    exact h.visits.append h'.visits
  row lo hi hrow := by
    rw [map_append] at hrow ⊢
    obtain ⟨mid, hts, hus⟩ := hrow.exists_of_append
    obtain ⟨hroots, hnodes⟩ := h.row lo mid hts
    obtain ⟨hroots', hothers⟩ := h'.row mid hi hus
    exact ⟨hroots.append hroots', forall_mem_append.2 ⟨hnodes, hothers⟩⟩

theorem token (ht : t.Proper) : Laid enter [t] [] [] where
  proper := forall_mem_singleton.2 ht
  names := forall_mem_nil _
  ends := forall_mem_nil _
  visits := .nil
  row _ _ h := ⟨h.le, forall_mem_nil _⟩

theorem cons (ht : t.Proper) (h : Laid enter ts roots nodes) : Laid enter (t :: ts) roots nodes :=
  (token ht).append h

theorem concat (h : Laid enter ts roots nodes) (ht : t.Proper) :
    Laid enter (ts ++ [t]) roots nodes := by
  simpa using h.append (token ht)

theorem row_to_stop {q : Position} {lo hi : Nat} (h : Laid enter ts roots nodes)
    (hq : Stops ts roots q) (hrow : Row lo (ts.map Token.span) hi) :
    q.offset ≤ hi ∧ Row lo (roots.map Node.span) q.offset := by
  cases hq with
  | token hlast hq =>
    obtain ⟨us, rfl⟩ := getLast?_eq_some_iff.1 hlast
    subst hq
    rw [map_append] at hrow
    obtain ⟨hle, hrow⟩ := hrow.of_concat
    rw [← map_singleton, ← map_append] at hrow
    exact ⟨hle, (h.row _ _ hrow).1⟩
  | root hlast hq =>
    obtain ⟨us, rfl⟩ := getLast?_eq_some_iff.1 hlast
    subst hq
    have hroots := (h.row _ _ hrow).1
    rw [map_append] at hroots ⊢
    exact hroots.of_concat

theorem row_between {p q : Position} {lo hi : Nat} (h : Laid enter ts roots nodes)
    (hp : Starts ts roots p) (hq : Stops ts roots q) (hrow : Row lo (ts.map Token.span) hi) :
    lo ≤ p.offset ∧ q.offset ≤ hi ∧ Row p.offset (roots.map Node.span) q.offset := by
  -- The row is cut where the node begins, before the trees are looked at or after.
  cases hp with
  | token hfirst hp =>
    obtain ⟨us, rfl⟩ := head?_eq_some_iff.1 hfirst
    subst hp
    obtain ⟨hlo, hrow⟩ := hrow.of_cons
    exact ⟨hlo, h.row_to_stop hq hrow⟩
  | root hfirst hp =>
    obtain ⟨hhi, hroots⟩ := h.row_to_stop hq hrow
    obtain ⟨us, rfl⟩ := head?_eq_some_iff.1 hfirst
    subst hp
    obtain ⟨hlo, hroots⟩ := hroots.of_cons
    exact ⟨hlo, hhi, hroots⟩

theorem before (h : Laid enter ts n.children nodes)
    (hn : ∀ x ∈ n.idents, ∃ t ∈ ts, t.kind = .name ∧ t.value = x)
    (hstart : Starts ts n.children n.span.start) (hstop : Stops ts n.children n.span.stop) :
    Laid enter ts [n] (Node.before enter path n nodes) where
  toAccounts := h.toAccounts.before hn
  ends := by
    have hchild {r : Node} (hr : r ∈ n.children) : ∃ m ∈ nodes, m.2 = r :=
      mem_map.1 (h.visits.mem_of_mem hr)
    refine forall_mem_cons.2 ⟨⟨?_, ?_⟩, fun m hm => ?_⟩
    · cases hstart with
      | token hfirst hp => exact ⟨_, mem_of_head? hfirst, hp.symm⟩
      | root hfirst hp =>
        obtain ⟨m, hm, rfl⟩ := hchild (mem_of_head? hfirst)
        rw [← hp]
        exact (h.ends m hm).1
    · cases hstop with
      | token hlast hq => exact ⟨_, mem_of_getLast? hlast, hq.symm⟩
      | root hlast hq =>
        obtain ⟨m, hm, rfl⟩ := hchild (mem_of_getLast? hlast)
        rw [← hq]
        exact (h.ends m hm).2
    · split at hm
      · exact h.ends m hm
      · cases hm
  visits := h.visits.before path
  row lo hi hrow := by
    obtain ⟨hlo, hhi, horderly⟩ := h.row_between hstart hstop hrow
    refine ⟨⟨hlo, horderly.le, hhi⟩, forall_mem_cons.2 ⟨horderly, fun m hm => ?_⟩⟩
    split at hm
    · exact (h.row lo hi hrow).2 m hm
    · cases hm

theorem plain {u : Token} (h : Laid enter ts n.children nodes) (hn : n.idents = [])
    (hfirst : ts.head? = some t) (hlast : ts.getLast? = some u)
    (hspan : n.span = ⟨t.start, u.stop⟩) : Laid enter ts [n] (Node.before enter path n nodes) := by
  refine h.before ?_ (.token hfirst (by rw [hspan])) (.token hlast (by rw [hspan]))
  rw [hn]
  exact forall_mem_nil _

theorem named {u x : Token} (h : Laid enter ts n.children nodes) (hn : n.idents = [x.value])
    (hmem : x ∈ ts) (hx : x.kind = .name) (hfirst : ts.head? = some t)
    (hlast : ts.getLast? = some u)
    (hspan : n.span = ⟨t.start, u.stop⟩) : Laid enter ts [n] (Node.before enter path n nodes) := by
  refine h.before ?_ (.token hfirst (by rw [hspan])) (.token hlast (by rw [hspan]))
  rw [hn]
  exact forall_mem_singleton.2 ⟨x, hmem, hx, rfl⟩

theorem joined {r r' : Node} (h : Laid enter ts n.children nodes) (hn : n.idents = [])
    (hfirst : n.children.head? = some r) (hlast : n.children.getLast? = some r')
    (hspan : n.span = ⟨r.span.start, r'.span.stop⟩) :
    Laid enter ts [n] (Node.before enter path n nodes) := by
  refine h.before ?_ (.root hfirst (by rw [hspan])) (.root hlast (by rw [hspan]))
  rw [hn]
  exact forall_mem_nil _

theorem sequence (helement : ∀ ts a path, element ts a → Laid enter ts [node a] (walk path a))
    (h : Sequence element ts as) (path : Path) (i : Nat) :
    Laid enter ts (as.map node) ((as.zipIdx i).flatMap fun (a, i) => walk (i :: path) a) := by
  induction h generalizing i with
  | nil => exact nil
  | cons h _ ih =>
    exact (helement _ _ _ h).append (ih _)

theorem moreOf (helement : ∀ ts a path, element ts a → Laid enter ts [node a] (walk path a))
    (h : More element ts as) (path : Path) (i : Nat) :
    Laid enter ts (as.map node) ((as.zipIdx i).flatMap fun (a, i) => walk (i :: path) a) := by
  induction h generalizing i with
  | nil => exact nil
  | cons hcomma h _ ih =>
    exact ((helement _ _ _ h).cons hcomma.proper).append (ih _)

theorem listed (helement : ∀ ts a path, element ts a → Laid enter ts [node a] (walk path a)) {a : α}
    (h : element ts a) (has : More element us as) (path : Path) :
    Laid enter (ts ++ us) ((a :: as).map node) (walkList path walk (a :: as)) :=
  (helement _ _ (0 :: path) h).append (moreOf helement has path 1)

end Laid

open Token

variable (enter : Node → Bool)

/-! ### Expressions -/

theorem getLast?_append {us : List Token} (ts : List Token) (h : us.getLast? = some t) :
    (ts ++ us).getLast? = some t := by
  rw [List.getLast?_append, h, some_or]

theorem Arguments.closes {args : List Expr} {close : Token} (h : Arguments ts args close) :
    ts.getLast? = Option.some close := by
  cases h with
  | none => rfl
  | some => exact getLast?_concat

mutual

theorem Expression.laid {ts : List Token} {e : Expr} (path : Path) :
    Expression ts e → Laid enter ts [.expr e] (e.walk enter path)
  | .operation h => h.laid path
  | .conditional hguard hmark hyes hcolon hno =>
    (((hguard.laid (0 :: path)).append ((hyes.laid (1 :: path)).cons hmark.proper)).append
      ((hno.laid (2 :: path)).cons hcolon.proper)).joined rfl rfl rfl rfl

theorem Operation.laid {levels : List (List BinaryOp)} {ts : List Token} {e : Expr} (path : Path) :
    Operation levels ts e → Laid enter ts [.expr e] (e.walk enter path)
  | .operand h => h.laid path
  | .tighter h => h.laid path
  | .binary hleft _ hmark hright =>
    ((hleft.laid (0 :: path)).append ((hright.laid (1 :: path)).cons hmark.proper)).joined
      rfl rfl rfl rfl

theorem Operand.laid {ts : List Token} {e : Expr} (path : Path) :
    Operand ts e → Laid enter ts [.expr e] (e.walk enter path)
  | .unary hmark h =>
    ((h.laid (0 :: path)).cons hmark.proper).before (forall_mem_nil _) (.token rfl rfl)
      (.root rfl rfl)
  | .term h => h.laid path

theorem Term.laid {ts : List Token} {e : Expr} (path : Path) :
    Term ts e → Laid enter ts [.expr e] (e.walk enter path)
  | .constant ht hvalue => (Laid.token (proper_of_literal ht hvalue)).plain rfl rfl rfl rfl
  | .name ht => (Laid.token (proper_of_name ht)).named rfl mem_cons_self ht rfl rfl rfl
  | .element ht hopen h hclose =>
    ((((h.laid (0 :: path)).cons hopen.proper).cons (proper_of_name ht)).concat
      hclose.proper).named rfl mem_cons_self ht rfl getLast?_concat rfl
  | .call ht h =>
    ((h.laid path).cons (proper_of_name ht)).named rfl mem_cons_self ht rfl
      (getLast?_append [_] h.closes) rfl
  | .parens hopen h hclose => ((h.laid path).cons hopen.proper).concat hclose.proper

theorem Arguments.laid {ts : List Token} {args : List Expr} {close : Token} (path : Path) :
    Arguments ts args close → Laid enter ts (args.map .expr) (Expr.walkAll enter path 0 args)
  | .none hopen hclose => (Laid.token hclose.proper).cons hopen.proper
  | .some hopen h hes hclose =>
    (((h.laid (0 :: path)).cons hopen.proper).append (hes.laid path 1)).concat hclose.proper

theorem MoreExpressions.laid {ts : List Token} {es : List Expr} (path : Path) (i : Nat) :
    MoreExpressions ts es → Laid enter ts (es.map .expr) (Expr.walkAll enter path i es)
  | .nil => .nil
  | .cons hcomma h hes => ((h.laid (i :: path)).cons hcomma.proper).append (hes.laid path (i + 1))

end

theorem Expression.accounts {e : Expr} (path : Path) (h : Expression ts e) :
    Accounts ts (e.walk enter path) :=
  (h.laid enter path).toAccounts

/-! ### Statements -/

theorem Guard.laid {e : Expr} (path : Path) (h : Guard ts e) :
    Laid enter ts [.expr e] (e.walk enter path) := by
  obtain ⟨hopen, h, hclose⟩ := h
  exact ((h.laid enter path).cons hopen.proper).concat hclose.proper

theorem Assignable.laid {target : Target} (path : Path) (h : Assignable ts target) :
    Laid enter ts [.target target] (target.walk enter path) := by
  induction h with
  | name ht => exact (Laid.token (proper_of_name ht)).named rfl mem_cons_self ht rfl rfl rfl
  | element ht hopen h hclose =>
    exact ((((h.laid enter (0 :: path)).cons hopen.proper).cons (proper_of_name ht)).concat
      hclose.proper).named rfl mem_cons_self ht rfl getLast?_concat rfl
  | parens hopen _ hclose ih => exact (ih.cons hopen.proper).concat hclose.proper

theorem Block.closes {body : List Stmt} {close : Token} (h : Block ts body close) :
    ts.getLast? = some close := by
  cases h
  exact getLast?_concat

theorem starts_of_head? {p : Position} (us : List Token) (roots : List Node)
    (h : ts.head?.map Token.start = some p) : Starts (ts ++ us) roots p := by
  obtain ⟨t, ht, hp⟩ := map_eq_some_iff.1 h
  exact .token (by rw [head?_append, ht]; rfl) hp

mutual

theorem Statement.laid {ts : List Token} {s : Stmt} (path : Path) :
    Statement ts s → Laid enter ts [.stmt s] (s.walk enter path)
  | .assign ht hstart hmark hvalue hclose =>
    (((ht.laid enter (0 :: path)).append
      ((hvalue.laid enter (1 :: path)).cons hmark.proper)).concat hclose.proper).before
        (forall_mem_nil _) (by rw [append_assoc]; exact starts_of_head? _ _ hstart)
        (.token getLast?_concat rfl)
  | .eval h hstart hclose =>
    ((h.laid enter (0 :: path)).concat hclose.proper).before (forall_mem_nil _)
      (starts_of_head? _ _ hstart) (.token getLast?_concat rfl)
  | .ifThen hword hguard hbody | .loop hword hguard hbody =>
    (((hguard.laid enter (0 :: path)).cons hword.proper).append
      (hbody.laid (1 :: path))).plain rfl rfl (getLast?_append _ hbody.closes) rfl
  | .ifElse hword hguard hyes helse hno =>
    ((((hguard.laid enter (0 :: path)).cons hword.proper).append (hyes.laid (1 :: path))).append
      ((hno.laid (2 :: path)).cons helse.proper)).plain rfl rfl
        (getLast?_append _ (getLast?_append [_] hno.closes)) rfl
  | .output hword hargs hclose | .ret hword hargs hclose =>
    (((hargs.laid enter path).cons hword.proper).concat hclose.proper).plain rfl rfl
      getLast?_concat rfl
  | .extend hword h hclose =>
    (((h.laid enter (0 :: path)).cons hword.proper).concat hclose.proper).plain rfl rfl
      getLast?_concat rfl
  | .turnoff hword hclose => ((Laid.token hclose.proper).cons hword.proper).plain rfl rfl rfl rfl

theorem Block.laid {ts : List Token} {body : List Stmt} {close : Token} (path : Path) :
    Block ts body close → Laid enter ts (body.map .stmt) (Stmt.walkAll enter path 0 body)
  | .mk hopen h hclose => ((h.laid path 0).cons hopen.proper).concat hclose.proper

theorem Statements.laid {ts : List Token} {ss : List Stmt} (path : Path) (i : Nat) :
    Statements ts ss → Laid enter ts (ss.map .stmt) (Stmt.walkAll enter path i ss)
  | .nil => .nil
  | .cons h hss => (h.laid (i :: path)).append (hss.laid path (i + 1))

end

/-! ### Declarations -/

theorem Integer.proper {n : Nat} (h : Integer t n) : t.Proper := by
  refine ⟨by simp [h.1], fun _ => Number.zero_notMem_of_natural? h.2.1⟩

theorem Size.proper {shape : Shape} (h : Size t shape) : t.Proper := by
  cases h with
  | array h | inChannels h | outChannels h => exact h.proper

theorem Declared.laid {d : DeclaredName} (path : Path) (h : Declared ts d) :
    Laid enter ts [.declared d] (Node.before enter path (.declared d) []) := by
  cases h with
  | scalar ht => exact (Laid.token (proper_of_name ht)).named rfl mem_cons_self ht rfl rfl rfl
  | array ht hopen hsize hclose =>
    exact ((((Laid.token hclose.proper).cons hsize.proper).cons hopen.proper).cons
      (proper_of_name ht)).named rfl mem_cons_self ht rfl rfl rfl

theorem Tagged.laid {tags : Option Tags} (path : Path) (h : Tagged ts tags) :
    Laid enter ts (tags.map Node.tags).toList (Tags.walk enter path tags) := by
  cases h with
  | none => exact .nil
  | imports h | exports h => exact (Laid.token h.proper).plain rfl rfl rfl rfl
  | importsExports ht hu | exportsImports ht hu =>
    exact ((Laid.token hu.proper).cons ht.proper).plain rfl rfl rfl rfl

theorem laid_variableDecl {ns : List Token} {d : VariableDecl} (path : Path)
    (htags : Tagged ts d.tags) (htype : Typed t d.type)
    (hnames : Laid enter ns (d.names.names.map Node.declared)
      (walkList (2 :: path) (fun p n => Node.before enter p (.declared n) []) d.names.names))
    (hspan : ∃ first last, d.names.names.head? = some first ∧ d.names.names.getLast? = some last ∧
      d.names.span = ⟨first.span.start, last.span.stop⟩) :
    Laid enter (ts ++ t :: ns) (Node.vars d).children (Tags.walk enter (0 :: path) d.tags
      ++ Node.before enter (1 :: path) (.type d.type) []
      ++ Node.before enter (2 :: path) (.names d.names)
        (walkList (2 :: path) (fun p n => Node.before enter p (.declared n) [])
          d.names.names)) := by
  obtain ⟨first, last, hfirst, hlast, hspan⟩ := hspan
  have htype : Laid enter [t] [.type d.type] (Node.before enter (1 :: path) (.type d.type) []) :=
    (Laid.token htype.1.proper).plain rfl rfl rfl htype.2
  have hfirst : (Node.names d.names).children.head? = some (.declared first) := by
    simp [Node.children, hfirst]
  have hlast : (Node.names d.names).children.getLast? = some (.declared last) := by
    simp [Node.children, hlast]
  have hlist : Laid enter ns [.names d.names]
      (Node.before enter (2 :: path) (.names d.names) (walkList
      (2 :: path) (fun p n => Node.before enter p (.declared n) []) d.names.names)) :=
    Laid.joined hnames rfl hfirst hlast hspan
  have hall := ((htags.laid enter (0 :: path)).append htype).append hlist
  rwa [append_assoc, singleton_append, append_assoc, singleton_append] at hall

theorem Declaration.laid {d : Decl} (path : Path) (h : Declaration ts d) :
    Laid enter ts [d.node] (d.walk enter path) := by
  cases h with
  | @vars ts ns ms t close tags type first others start htags htype hfirst hothers hclose hstart =>
    have hlist := Laid.listed (fun _ _ path h => h.laid enter path) hfirst hothers (2 :: path)
    have hinside := laid_variableDecl
      (d := ⟨⟨start, close.stop⟩, tags, type, _, first :: others⟩) enter path htags htype hlist
      ⟨first, others.getLast?.getD first, rfl, getLast?_cons, rfl⟩
    rw [append_assoc ts, cons_append]
    -- The first token is that of the tags, or else that of the type.
    have hfirst (roots : List Node) := starts_of_head? (ns ++ ms ++ [close]) roots hstart
    rw [append_assoc, singleton_append, ← cons_append, ← append_assoc] at hfirst
    exact (hinside.concat hclose.proper).before (forall_mem_nil _) (hfirst _)
      (.token getLast?_concat rfl)
  | @table ts as word ident open' generator paren close tags args start htags hword hident hopen
      hgenerator hargs hparen hclose hstart =>
    have hinside := ((((hargs.laid enter (1 :: path) 0).cons (proper_of_name hgenerator)).cons
      hopen.proper).cons (proper_of_name hident)).cons hword.proper
    have hall := (((htags.laid enter (0 :: path)).append hinside).concat
      hparen.proper).concat hclose.proper
    rw [append_assoc _ [paren]] at hall
    refine hall.before ?_ ?_ (.token (getLast?_append _ rfl) rfl)
    · rintro x hx
      rcases mem_cons.1 hx with rfl | hx
      · exact ⟨ident, by simp, hident, rfl⟩
      · exact ⟨generator, by simp, hgenerator, (mem_singleton.1 hx).symm⟩
    · have hfirst (roots : List Node) := starts_of_head?
        (ident :: open' :: generator :: as ++ [paren, close]) roots hstart
      rw [append_assoc, singleton_append, ← cons_append,
        ← append_assoc] at hfirst
      exact hfirst _

/-! ### Orchestras -/

theorem Body.closes {decls : List Decl} {stmts : List Stmt} {close : Token}
    (h : Body ts decls stmts close) : ts.getLast? = some close := by
  cases h
  exact getLast?_concat

theorem Body.laid {decls : List Decl} {stmts : List Stmt} {close : Token} (path : Path)
    (h : Body ts decls stmts close) :
    Laid enter ts (decls.map Decl.node ++ stmts.map Node.stmt)
      (walkList (1 :: path) (Decl.walk enter) decls ++ Stmt.walkAll enter (2 :: path) 0 stmts) := by
  obtain ⟨hopen, hdecls, hstmts, hclose⟩ := h
  have hlist := Laid.sequence (fun _ _ path h => h.laid enter path) hdecls (1 :: path) 0
  exact ((hlist.cons hopen.proper).append (hstmts.laid enter (2 :: path) 0)).concat hclose.proper

theorem Laid.params {α : Type} {param : List Token → α → Prop} {node : α → Node}
    {walk : Path → α → List (Path × Node)}
    (hparam : ∀ ts a path, param ts a → Laid enter ts [node a] (walk path a)) {as : List α}
    (h : Params param ts as) (path : Path) :
    Laid enter ts (as.map node) (walkList path walk as) := by
  cases h with
  | none hopen hclose => exact (Laid.token hclose.proper).cons hopen.proper
  | some hopen h has hclose =>
    exact ((Laid.listed hparam h has path).cons hopen.proper).concat hclose.proper

theorem InstrumentParam.laid {p : Orchestrion.InstrumentParam} (path : Path)
    (h : InstrumentParam ts p) : Laid enter ts [p.node] (Node.before enter path p.node []) := by
  obtain ⟨ht⟩ := h
  exact (Laid.token (proper_of_name ht)).named rfl mem_cons_self ht rfl rfl rfl

theorem OpcodeParam.laid {d : VariableDecl} (path : Path) (h : OpcodeParam ts d) :
    Laid enter ts [.vars d] (d.walk enter path) := by
  obtain @⟨ts, t, type, declared, htype, h⟩ := h
  have hlist := Laid.listed (fun _ _ path h => h.laid enter path) h .nil (2 :: path)
  rw [append_nil] at hlist
  exact (laid_variableDecl (d := ⟨_, none, type, _, [declared]⟩) enter path .none htype hlist
    ⟨declared, declared, rfl, rfl, rfl⟩).joined rfl rfl rfl rfl

theorem laid_unit {α : Type} {param : List Token → α → Prop} {node : α → Node}
    {walk : Path → α → List (Path × Node)} {ps bs : List Token} {word ident close : Token}
    {params : List α} {decls : List Decl} {body : List Stmt} {n : Node} (path : Path)
    (hparam : ∀ ts a path, param ts a → Laid enter ts [node a] (walk path a)) (hword : word.Proper)
    (hident : ident.kind = .name) (hparams : Params param ps params)
    (hbody : Body bs decls body close)
    (hchildren : n.children = params.map node ++ decls.map Decl.node ++ body.map .stmt)
    (hn : n.idents = [ident.value]) (hspan : n.span = ⟨word.start, close.stop⟩) :
    Laid enter (word :: ident :: ps ++ bs) [n] (Node.before enter path n
      (walkList (0 :: path) walk params ++ walkList (1 :: path) (Decl.walk enter) decls ++
        Stmt.walkAll enter (2 :: path) 0 body)) := by
  have hlist := Laid.params enter hparam hparams (0 :: path)
  have hall := (((hlist.cons (proper_of_name hident)).cons hword).append (hbody.laid enter path))
  rw [← append_assoc, ← append_assoc, ← hchildren] at hall
  exact hall.named hn (by simp) hident rfl (getLast?_append _ hbody.closes) hspan

theorem GlobalItem.laid {i : Orchestrion.GlobalItem} (path : Path) (h : GlobalItem ts i) :
    Laid enter ts [i.node] (i.walk enter path) := by
  cases h with
  | setting hword hvalue hclose =>
    exact (((Laid.token hclose.proper).cons hvalue.proper).cons hword.proper).plain rfl rfl rfl rfl
  | decl h => exact h.laid enter path

theorem Item.laid {i : Orchestrion.Item} (path : Path) (h : Item ts i) :
    Laid enter ts [i.node] (i.walk enter path) := by
  cases h with
  | global hword hopen h hclose =>
    have hlist := Laid.sequence (fun _ _ path h => h.laid enter path) h path 0
    exact (((hlist.cons hopen.proper).cons hword.proper).concat hclose.proper).plain rfl rfl
      getLast?_concat rfl
  | instrument h | template h | opcode h =>
    obtain ⟨hword, hident, hparams, hbody⟩ := h
    exact laid_unit enter path (fun _ _ path h => h.laid enter path) hword.proper hident
      hparams hbody rfl rfl rfl

theorem Orchestra.laid {finish : Position} {tree : OrchestraTree} (path : Path)
    (h : Orchestra finish ts tree) :
    Laid enter ts (tree.items.map Item.node) (walkList path (Item.walk enter) tree.items) := by
  obtain ⟨h⟩ := h
  exact Laid.sequence (fun _ _ path h => h.laid enter path) h path 0

theorem Orchestra.accounts {finish : Position} {tree : OrchestraTree} (path : Path)
    (h : Orchestra finish ts tree) : Accounts ts (tree.walk enter path) :=
  (h.laid enter path).toAccounts.before (forall_mem_nil _)

end Grammar

end Orchestrion
