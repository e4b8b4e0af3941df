import Mathlib.Data.List.Find
import Orchestrion.Proofs.Check.Spec
import Orchestrion.Proofs.Outcome

/-!
# Other places and other names

Trees without their places, and trees in which variables have other names. The names of calls, of
generators and of units stay.
-/

namespace Orchestrion

/-! ### Trees -/

/-- The node without its places. -/
def Node.erase : Node → Node
  | orchestra o => orchestra o.erase
  | global b => global b.erase
  | instrument i => instrument i.erase
  | opcode o => opcode o.erase
  | template t => template t.erase
  | setting s => setting { s with span := {} }
  | vars d => vars d.erase
  | table d => table d.erase
  | tags t => tags t.erase
  | type t => type t.erase
  | names l => names l.erase
  | declared n => declared n.erase
  | target t => target t.erase
  | stmt s => stmt s.erase
  | expr e => expr e.erase

@[simp]
theorem Expr.span_erase (e : Expr) : e.erase.span = {} := by
  cases e <;> rw [Expr.erase, Expr.span]

@[simp]
theorem Expr.kind_erase (e : Expr) : e.erase.kind = e.kind := by
  cases e <;> rw [Expr.erase, Expr.kind, Expr.kind]

@[simp]
theorem Stmt.span_erase (s : Stmt) : s.erase.span = {} := by
  cases s <;> rw [Stmt.erase, Stmt.span]

@[simp]
theorem Stmt.kind_erase (s : Stmt) : s.erase.kind = s.kind := by
  cases s <;> rw [Stmt.erase, Stmt.kind, Stmt.kind]

theorem Expr.length_eraseAll (es : List Expr) : (eraseAll es).length = es.length := by
  induction es with
  | nil => rfl
  | cons e es ih => rw [eraseAll, List.length_cons, List.length_cons, ih]

@[simp]
theorem Node.span_erase (n : Node) : n.erase.span = {} := by
  cases n with
  | stmt s => exact s.span_erase
  | expr e => exact e.span_erase
  | _ => rfl

@[simp]
theorem Node.kind_erase (n : Node) : n.erase.kind = n.kind := by
  cases n with
  | stmt s => exact s.kind_erase
  | expr e => exact e.kind_erase
  | _ => rfl

section Rename

variable (g : Text → Text)

mutual

/-- The expression with other names for its variables. -/
def Expr.rename : Expr → Expr
  | .constant s l => .constant s l
  | .name s x => .name s (g x)
  | .element s x index => .element s (g x) index.rename
  | .call s callee args => .call s callee (Expr.renameAll args)
  | .binary s op left right => .binary s op left.rename right.rename
  | .unary s op operand => .unary s op operand.rename
  | .conditional s guard yes no => .conditional s guard.rename yes.rename no.rename

def Expr.renameAll : List Expr → List Expr
  | [] => []
  | e :: es => e.rename :: Expr.renameAll es

end

def Target.rename (t : Target) : Target :=
  { t with ident := g t.ident, index := t.index.map (Expr.rename g) }

mutual

def Stmt.rename : Stmt → Stmt
  | .assign s target value => .assign s (target.rename g) (value.rename g)
  | .eval s value => .eval s (value.rename g)
  | .ifThen s guard body => .ifThen s (guard.rename g) (Stmt.renameAll body)
  | .ifElse s guard yes no => .ifElse s (guard.rename g) (Stmt.renameAll yes) (Stmt.renameAll no)
  | .loop s guard body => .loop s (guard.rename g) (Stmt.renameAll body)
  | .output s args => .output s (Expr.renameAll g args)
  | .extend s seconds => .extend s (seconds.rename g)
  | .turnoff s => .turnoff s
  | .ret s values => .ret s (Expr.renameAll g values)

def Stmt.renameAll : List Stmt → List Stmt
  | [] => []
  | s :: ss => s.rename :: Stmt.renameAll ss

end

def DeclaredName.rename (n : DeclaredName) : DeclaredName := { n with ident := g n.ident }

def NameList.rename (l : NameList) : NameList :=
  { l with names := l.names.map (DeclaredName.rename g) }

def VariableDecl.rename (d : VariableDecl) : VariableDecl := { d with names := d.names.rename g }

def TableDecl.rename (d : TableDecl) : TableDecl :=
  { d with ident := g d.ident, args := Expr.renameAll g d.args }

def Decl.rename : Decl → Decl
  | vars d => vars (d.rename g)
  | table d => table (d.rename g)

def InstrumentParam.rename (p : InstrumentParam) : InstrumentParam := { p with ident := g p.ident }

/-- The instrument with other names for its variables. -/
def Instrument.rename (i : Instrument) : Instrument where
  span := i.span
  ident := i.ident
  params := i.params.map (InstrumentParam.rename g)
  decls := i.decls.map (Decl.rename g)
  body := Stmt.renameAll g i.body

/-- The node with other names for its variables, and without its places. -/
def Node.recast : Node → Node
  | vars d => vars (d.rename g).erase
  | table d => table (d.rename g).erase
  | names l => names (l.rename g).erase
  | declared n => declared (n.rename g).erase
  | target t => target (t.rename g).erase
  | stmt s => stmt (s.rename g).erase
  | expr e => expr (e.rename g).erase
  | n => n.erase

theorem Expr.kind_rename (e : Expr) : (e.rename g).kind = e.kind := by
  cases e <;> rfl

theorem Stmt.kind_rename (s : Stmt) : (s.rename g).kind = s.kind := by
  cases s <;> rfl

theorem Node.span_recast (n : Node) : (n.recast g).span = {} := by
  cases n <;> simp [recast, span] <;> rfl

theorem Node.kind_recast (n : Node) : (n.recast g).kind = n.kind := by
  cases n with
  | stmt s => exact (s.rename g).kind_erase.trans (s.kind_rename g)
  | expr e => exact (e.rename g).kind_erase.trans (e.kind_rename g)
  | _ => rfl

theorem Expr.length_renameAll (es : List Expr) : (renameAll g es).length = es.length := by
  induction es with
  | nil => rfl
  | cons e es ih => rw [renameAll, List.length_cons, List.length_cons, ih]

end Rename

/-! ### Trees with the same names -/

mutual

@[simp]
theorem Expr.rename_id : ∀ e : Expr, e.rename id = e
  | .constant .. | .name .. => rfl
  | .element _ _ e | .unary _ _ e => by simp [Expr.rename, e.rename_id]
  | .call _ _ args => by simp [Expr.rename, Expr.renameAll_id args]
  | .binary _ _ left right => by simp [Expr.rename, left.rename_id, right.rename_id]
  | .conditional _ guard yes no => by
    simp [Expr.rename, guard.rename_id, yes.rename_id, no.rename_id]

@[simp]
theorem Expr.renameAll_id : ∀ es : List Expr, Expr.renameAll id es = es
  | [] => rfl
  | e :: es => by simp [Expr.renameAll, e.rename_id, Expr.renameAll_id es]

end

@[simp]
theorem Target.rename_id (t : Target) : t.rename id = t := by
  obtain ⟨span, ident, index⟩ := t
  cases index <;> simp [rename]

mutual

@[simp]
theorem Stmt.rename_id : ∀ s : Stmt, s.rename id = s
  | .assign .. | .eval .. | .output .. | .extend .. | .turnoff _ | .ret .. => by simp [Stmt.rename]
  | .ifThen _ _ body | .loop _ _ body => by simp [Stmt.rename, Stmt.renameAll_id body]
  | .ifElse _ _ yes no => by simp [Stmt.rename, Stmt.renameAll_id yes, Stmt.renameAll_id no]

@[simp]
theorem Stmt.renameAll_id : ∀ ss : List Stmt, Stmt.renameAll id ss = ss
  | [] => rfl
  | s :: ss => by simp [Stmt.renameAll, s.rename_id, Stmt.renameAll_id ss]

end

@[simp]
theorem VariableDecl.rename_id (d : VariableDecl) : d.rename id = d := by
  have hname : DeclaredName.rename id = id := rfl
  simp [rename, NameList.rename, hname]

@[simp]
theorem Decl.rename_id (d : Decl) : d.rename id = d := by
  cases d <;> simp [rename, TableDecl.rename]

@[simp]
theorem Instrument.rename_id (i : Instrument) : i.rename id = i := by
  have hparam : InstrumentParam.rename id = id := rfl
  have hdecl : Decl.rename id = id := funext Decl.rename_id
  simp [rename, hparam, hdecl]

/-! ### Variables -/

/-- A change of the names of variables. -/
structure Casting where
  /-- The new name of a variable. -/
  name : Text → Text
  /-- What is known of the variables that a unit has declared. -/
  fits : VariableTable → Prop
  /-- No other name becomes that of a declared variable. -/
  apart : ∀ {t}, fits t → ∀ y, (t.index? y).isSome = true → ∀ x, name y = name x ↔ y = x

namespace Casting

variable (k : Casting)

/-- All names stay as they are. -/
def Exact : Prop := ∀ x, k.name x = x

/-- A name that stands for no local variable stays as it is, or it stands for nothing at all before
and after the change. -/
def Keeps (globals : Option VariableTable) (x : Text) : Prop :=
  k.name x = x ∨ ∀ y ∈ [x, k.name x],
    globals.bind (·.lookup? y) = none ∧ StandardName.ofText? y = none

/-- Names can be read: those that are changed are declared. -/
def Reads (globals : Option VariableTable) : Prop :=
  ∀ t, k.fits t → ∀ x, t.lookup? x = none → k.Keeps globals x

/-- A name can be declared. With tags it stays as it is. -/
structure Takes (tagged : Bool) (x : Text) : Prop where
  fits : ∀ t e t', k.fits t → e.ident = x → t.add? e = some t' → k.fits t'
  fixed : tagged = true → k.name x = x

/-- No change. -/
def same : Casting := ⟨id, fun _ => True, fun _ _ _ _ => .rfl⟩

theorem exact_same : same.Exact := fun _ => rfl

theorem reads_same (globals : Option VariableTable) : same.Reads globals := fun _ _ _ _ => .inl rfl

theorem takes_same (tagged : Bool) (x : Text) : same.Takes tagged x :=
  ⟨fun _ _ _ _ _ _ => trivial, fun _ => rfl⟩

end Casting

variable {k : Casting}

theorem Casting.Keeps.standard {globals : Option VariableTable} {x : Text} (h : k.Keeps globals x) :
    StandardName.ofText? (k.name x) = StandardName.ofText? x := by
  rcases h with h | h
  · rw [h]
  · rw [(h (k.name x) (by simp)).2, (h x (by simp)).2]

/-- The variable without the place of its declaration. -/
def Entry.erase (e : Entry) : Entry := { e with place := {} }

theorem Entry.ident_erase (e : Entry) : e.erase.ident = e.ident := rfl

/-- The variable with its new name, and without the place of its declaration. -/
def Entry.recast (k : Casting) (e : Entry) : Entry := { e.erase with ident := k.name e.ident }

theorem Entry.recast_of_fixed {e : Entry} (h : k.name e.ident = e.ident) :
    e.recast k = e.erase := by
  rw [recast, h]
  rfl

/-- Variables that differ at most in their names, their tags and their places. -/
structure Entry.Like (e e' : Entry) : Prop where
  width : e'.width = e.width
  rate : e'.rate = e.rate
  array : e'.array = e.array

/-- The map with other names for the numbers. -/
def NameMap.rename (ρ : Text → Text) (m : NameMap) : NameMap := ⟨m.pairs.map (Prod.map ρ id)⟩

/-- A new name has the number of the old one, if no other name becomes the same. -/
theorem NameMap.get?_rename {ρ : Text → Text} {m : NameMap} {x : Text}
    (h : ∀ y, (m.get? y).isSome = true → (ρ y = ρ x ↔ y = x)) :
    (m.rename ρ).get? (ρ x) = m.get? x := by
  obtain ⟨pairs⟩ := m
  induction pairs with
  | nil => rfl
  | cons p pairs ih =>
    obtain ⟨y, n⟩ := p
    have hset (z : Text) := get?_set ⟨pairs⟩ y n z
    have hy := h y (by rw [show NameMap.get? ⟨(y, n) :: pairs⟩ y = _ from hset y, if_pos rfl]; rfl)
    change (set (rename ρ ⟨pairs⟩) (ρ y) n).get? (ρ x) = (set ⟨pairs⟩ y n).get? x
    rw [get?_set, hset]
    by_cases hx : y = x
    · rw [if_pos hx, if_pos (hy.2 hx)]
    · rw [if_neg hx, if_neg (mt hy.1 hx)]
      refine ih fun z hz => h z ?_
      change ((set ⟨pairs⟩ y n).get? z).isSome = true
      rw [hset]
      split
      · rfl
      · exact hz

namespace VariableTable

/-- The variables without the places of their declarations. -/
def erase (t : VariableTable) : VariableTable := ⟨t.entries.map Entry.erase, t.places⟩

theorem lookup?_erase (t : VariableTable) (name : Text) :
    t.erase.lookup? name = (t.lookup? name).map Entry.erase := by
  rw [lookup?, lookup?, erase]
  cases t.places.get? name <;> simp

/-- The variables with their new names. -/
def recast (k : Casting) (t : VariableTable) : VariableTable :=
  ⟨t.entries.map (Entry.recast k), t.places.rename k.name⟩

theorem recast_same (t : VariableTable) : t.recast .same = t.erase := by
  rw [recast, erase, NameMap.rename, show Casting.same.name = id from rfl, Prod.map_id, List.map_id]
  rfl

theorem get?_recast {t : VariableTable} (h : k.fits t) (name : Text) :
    (t.recast k).places.get? (k.name name) = t.places.get? name :=
  NameMap.get?_rename fun y hy => k.apart h y hy name

theorem lookup?_recast {t : VariableTable} (h : k.fits t) (name : Text) :
    (t.recast k).lookup? (k.name name) = (t.lookup? name).map (Entry.recast k) := by
  rw [lookup?, lookup?, get?_recast h, recast]
  cases t.places.get? name <;> simp

theorem add?_recast {t : VariableTable} (h : k.fits t) (e : Entry) :
    (t.recast k).add? (e.recast k) = (t.add? e).map (recast k) := by
  rw [add?, add?, show (e.recast k).ident = k.name e.ident from rfl, get?_recast h]
  cases t.places.get? e.ident with
  | some _ => rfl
  | none => simp [recast, NameMap.rename, NameMap.set]

end VariableTable

/-- The variables that a unit sees under their new names. Global variables keep theirs. -/
def Scope.recast (k : Casting) (s : Scope) : Scope :=
  ⟨s.locals.recast k, s.globals.map VariableTable.erase⟩

theorem lookup?_globals_erase (globals : Option VariableTable) (name : Text) :
    (globals.map VariableTable.erase).bind (·.lookup? name) =
      (globals.bind (·.lookup? name)).map Entry.erase := by
  cases globals with
  | none => rfl
  | some globals => exact globals.lookup?_erase name

/-- A new name names a variable like the one that the old name names, local or global as that is. -/
theorem Scope.resolve?_recast {s : Scope} {name : Text} (h : k.fits s.locals)
    (hkeeps : s.locals.lookup? name = none → k.Keeps s.globals name) :
    Option.Rel (fun v v' => v.1.Like v'.1 ∧ v'.2 = v.2) (s.resolve? name)
      ((s.recast k).resolve? (k.name name)) := by
  rw [resolve?, resolve?, recast, VariableTable.lookup?_recast h, lookupGlobal?, lookupGlobal?,
    lookup?_globals_erase]
  cases hlocal : s.locals.lookup? name with
  | some _ => exact .some ⟨⟨rfl, rfl, rfl⟩, rfl⟩
  | none =>
    rcases hkeeps hlocal with hname | hnone
    · rw [hname]
      cases s.globals.bind (·.lookup? name) with
      | none => exact .none
      | some _ => exact .some ⟨⟨rfl, rfl, rfl⟩, rfl⟩
    · rw [(hnone (k.name name) (by simp)).1, (hnone name (by simp)).1]
      exact .none

end Orchestrion
