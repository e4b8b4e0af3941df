import Mathlib.Data.Fintype.EquivFin
import Orchestrion.Proofs.Check.Unit
import Orchestrion.Proofs.Code.Layout
import Orchestrion.Proofs.Code.Unit

/-!
# Local names are only names

The variables of an instrument that have no tags can have any other names, as long as these are
different and stand for nothing else: the instrument is accepted as before and gets the same code.
Only the names of its fields change.
-/

namespace Orchestrion

open List

/-! ### The names in an instrument -/

/-- The variable that a node reads or writes. -/
def Node.mentioned? : Node → Option Text
  | target t => some t.ident
  | expr (.name _ x) | expr (.element _ x _) => some x
  | _ => none

namespace Instrument

/-- The names that an instrument declares or mentions as variables. -/
def names (i : Instrument) : List Text :=
  i.entries.map Entry.ident ++ (i.walkInside (fun _ => true) []).filterMap fun n => n.2.mentioned?

/-- The names of the parameters, variables and tables without tags. -/
def untagged (i : Instrument) : List Text := (i.entries.filter fun e => !e.isTagged).map Entry.ident

/-- The new name of a variable, where those without tags get other names. -/
def newName (i : Instrument) (ρ : Text → Text) (x : Text) : Text :=
  if x ∈ i.untagged then ρ x else x

def renameLocals (ρ : Text → Text) (i : Instrument) : Instrument := i.rename (i.newName ρ)

/-- New names for the variables without tags: different ones, none of them a standard name, the name
of a global variable or a name that the instrument uses for anything else. -/
structure CanRename (i : Instrument) (globals : VariableTable) (ρ : Text → Text) : Prop where
  injective : Set.InjOn ρ {x | x ∈ i.untagged}
  standard : ∀ x ∈ i.untagged, StandardName.ofText? (ρ x) = none
  global : ∀ x ∈ i.untagged, globals.lookup? (ρ x) = none
  fresh : ∀ x ∈ i.untagged, ρ x ∈ i.names → ρ x ∈ i.untagged

end Instrument

/-! ### Names that are not mentioned do not matter -/

/-- Two changes of names agree on all variables that nodes mention. -/
def Agree (g h : Text → Text) (nodes : List (Path × Node)) : Prop :=
  ∀ n ∈ nodes, ∀ x ∈ n.2.mentioned?, g x = h x

section Agree

variable {g h : Text → Text}

theorem agree_append {nodes others : List (Path × Node)} :
    Agree g h (nodes ++ others) ↔ Agree g h nodes ∧ Agree g h others :=
  forall_mem_append

theorem agree_before {path : Path} {n : Node} {nodes : List (Path × Node)} :
    Agree g h (Node.before (fun _ => true) path n nodes) ↔
      (∀ x ∈ n.mentioned?, g x = h x) ∧ Agree g h nodes :=
  forall_mem_cons

mutual

theorem Expr.rename_congr : ∀ (e : Expr) (path : Path), Agree g h (e.walk (fun _ => true) path) →
    e.rename g = e.rename h
  | .constant .., _, _ => rfl
  | .name _ x, _, ha => by
    rw [Expr.walk, agree_before] at ha
    rw [Expr.rename, Expr.rename, ha.1 x rfl]
  | .element _ x index, _, ha => by
    rw [Expr.walk, agree_before] at ha
    rw [Expr.rename, Expr.rename, ha.1 x rfl, index.rename_congr _ ha.2]
  | .call _ _ args, _, ha => by
    rw [Expr.walk, agree_before] at ha
    rw [Expr.rename, Expr.rename, Expr.renameAll_congr args _ _ ha.2]
  | .binary _ _ left right, _, ha => by
    rw [Expr.walk, agree_before, agree_append] at ha
    rw [Expr.rename, Expr.rename, left.rename_congr _ ha.2.1, right.rename_congr _ ha.2.2]
  | .unary _ _ operand, _, ha => by
    rw [Expr.walk, agree_before] at ha
    rw [Expr.rename, Expr.rename, operand.rename_congr _ ha.2]
  | .conditional _ guard yes no, _, ha => by
    rw [Expr.walk, agree_before, agree_append, agree_append] at ha
    rw [Expr.rename, Expr.rename, guard.rename_congr _ ha.2.1.1, yes.rename_congr _ ha.2.1.2,
      no.rename_congr _ ha.2.2]

theorem Expr.renameAll_congr : ∀ (es : List Expr) (path : Path) (n : Nat),
    Agree g h (Expr.walkAll (fun _ => true) path n es) → Expr.renameAll g es = Expr.renameAll h es
  | [], _, _, _ => rfl
  | e :: es, _, _, ha => by
    rw [Expr.walkAll, agree_append] at ha
    rw [Expr.renameAll, Expr.renameAll, e.rename_congr _ ha.1, Expr.renameAll_congr es _ _ ha.2]

end

theorem Target.rename_congr (t : Target) (path : Path)
    (ha : Agree g h (t.walk (fun _ => true) path)) : t.rename g = t.rename h := by
  rw [walk, agree_before] at ha
  obtain ⟨span, ident, index⟩ := t
  rw [rename, rename, ha.1 ident rfl]
  cases index with
  | none => rfl
  | some index => rw [Option.map_some, Option.map_some, index.rename_congr _ ha.2]

mutual

theorem Stmt.rename_congr : ∀ (s : Stmt) (path : Path), Agree g h (s.walk (fun _ => true) path) →
    s.rename g = s.rename h
  | .assign _ target value, _, ha => by
    rw [Stmt.walk, agree_before, agree_append] at ha
    rw [Stmt.rename, Stmt.rename, target.rename_congr _ ha.2.1, value.rename_congr _ ha.2.2]
  | .eval _ e, _, ha | .extend _ e, _, ha => by
    rw [Stmt.walk, agree_before] at ha
    rw [Stmt.rename, Stmt.rename, e.rename_congr _ ha.2]
  | .ifThen _ guard body, _, ha | .loop _ guard body, _, ha => by
    rw [Stmt.walk, agree_before, agree_append] at ha
    rw [Stmt.rename, Stmt.rename, guard.rename_congr _ ha.2.1, Stmt.renameAll_congr body _ _ ha.2.2]
  | .ifElse _ guard yes no, _, ha => by
    rw [Stmt.walk, agree_before, agree_append, agree_append] at ha
    rw [Stmt.rename, Stmt.rename, guard.rename_congr _ ha.2.1.1,
      Stmt.renameAll_congr yes _ _ ha.2.1.2, Stmt.renameAll_congr no _ _ ha.2.2]
  | .output _ args, _, ha | .ret _ args, _, ha => by
    rw [Stmt.walk, agree_before] at ha
    rw [Stmt.rename, Stmt.rename, Expr.renameAll_congr args _ _ ha.2]
  | .turnoff _, _, _ => rfl

theorem Stmt.renameAll_congr : ∀ (ss : List Stmt) (path : Path) (n : Nat),
    Agree g h (Stmt.walkAll (fun _ => true) path n ss) → Stmt.renameAll g ss = Stmt.renameAll h ss
  | [], _, _, _ => rfl
  | s :: ss, _, _, ha => by
    rw [Stmt.walkAll, agree_append] at ha
    rw [Stmt.renameAll, Stmt.renameAll, s.rename_congr _ ha.1, Stmt.renameAll_congr ss _ _ ha.2]

end

theorem Decl.rename_congr (d : Decl) (path : Path) (hd : ∀ e ∈ d.entries, g e.ident = h e.ident)
    (ha : Agree g h (d.walk (fun _ => true) path)) : d.rename g = d.rename h := by
  cases d with
  | vars d =>
    have hnames : d.names.names.map (DeclaredName.rename g) =
        d.names.names.map (DeclaredName.rename h) := by
      refine map_congr_left fun n hn => ?_
      have hident : g n.ident = h n.ident := hd _ (mem_map_of_mem hn)
      rw [DeclaredName.rename, DeclaredName.rename, hident]
    rw [rename, rename, VariableDecl.rename, VariableDecl.rename, NameList.rename,
      NameList.rename, hnames]
  | table d =>
    have hident : g d.ident = h d.ident := hd d.entry mem_cons_self
    rw [walk, TableDecl.walk, agree_before, agree_append] at ha
    rw [rename, rename, TableDecl.rename, TableDecl.rename, hident,
      Expr.renameAll_congr _ _ _ ha.2.2]

theorem Instrument.rename_congr (i : Instrument) (hi : ∀ x ∈ i.names, g x = h x) :
    i.rename g = i.rename h := by
  have hentries : ∀ e ∈ i.entries, g e.ident = h e.ident := fun e he =>
    hi _ (mem_append_left _ (mem_map_of_mem he))
  have ha : Agree g h (i.walkInside (fun _ => true) []) := fun n hn x hx =>
    hi x (mem_append_right _ (mem_filterMap.2 ⟨n, hn, hx⟩))
  rw [walkInside, agree_append, agree_append] at ha
  have hparams : i.params.map (InstrumentParam.rename g) =
      i.params.map (InstrumentParam.rename h) := by
    refine map_congr_left fun p hp => ?_
    have hident : g p.ident = h p.ident :=
      hentries p.entry (mem_append_left _ (mem_map_of_mem hp))
    rw [InstrumentParam.rename, InstrumentParam.rename, hident]
  have hdecls : i.decls.map (Decl.rename g) = i.decls.map (Decl.rename h) := by
    refine map_congr_left fun d hd => ?_
    obtain ⟨n, hn⟩ := mem_iff_getElem?.1 hd
    have hwalk : Agree g h (d.walk (fun _ => true) (n :: [1])) := fun m hm =>
      ha.1.2 m (mem_flatMap.2 ⟨(d, n), mem_zipIdx_iff_getElem?.2 hn, hm⟩)
    exact d.rename_congr _
      (fun e he => hentries e (mem_append_right _ (mem_flatMap.2 ⟨d, hd, he⟩))) hwalk
  rw [rename, rename, hparams, hdecls, Stmt.renameAll_congr _ _ _ ha.2]

end Agree

/-! ### The change of names -/

namespace Instrument

variable {i : Instrument} {globals : VariableTable} {ρ : Text → Text} {z : Text}

/-- A change of names that is the given one on all names in the instrument. Names that become taken
but are not used make room: all of them become `z`. -/
def recoded (i : Instrument) (ρ : Text → Text) (z x : Text) : Text :=
  if x ∈ i.untagged then ρ x else if x ∈ i.untagged.map ρ then z else x

/-- A name that stands for nothing, neither before nor after the change. -/
structure IsVacant (i : Instrument) (globals : VariableTable) (ρ : Text → Text)
    (z : Text) : Prop where
  declared : ∀ e ∈ i.entries, e.ident ≠ z
  taken : z ∉ i.untagged.map ρ
  standard : StandardName.ofText? z = none
  global : globals.lookup? z = none

theorem exists_isVacant (i : Instrument) (globals : VariableTable) (ρ : Text → Text) :
    ∃ z, i.IsVacant globals ρ z := by
  obtain ⟨z, hz⟩ := Infinite.exists_notMem_finset (i.entries.map Entry.ident ++ i.untagged.map ρ ++
    StandardName.all.map (fun s => (s.spelling : Text)) ++
    globals.places.pairs.map Prod.fst).toFinset
  simp only [mem_toFinset, mem_append, not_or, mem_map, not_exists, not_and] at hz
  obtain ⟨⟨⟨hdeclared, htaken⟩, hstandard⟩, hglobal⟩ := hz
  refine ⟨z, hdeclared, ?_, ?_, ?_⟩
  · simpa using htaken
  · exact find?_eq_none.2 fun s hs => by simpa using fun h => hstandard s hs h.symm
  · have hplace : globals.places.get? z = none :=
      lookup_eq_none_iff.2 fun p hp => by simpa using Ne.symm (hglobal p hp)
    rw [VariableTable.lookup?, hplace, Option.bind_none]

section Recoded

variable (hρ : i.CanRename globals ρ) (hnodup : (i.entries.map Entry.ident).Nodup)
include hρ hnodup

theorem recoded_of_tagged {e : Entry} (he : e ∈ i.entries) (htagged : e.isTagged = true) :
    e.ident ∉ i.untagged ∧ e.ident ∉ i.untagged.map ρ := by
  have huntagged : e.ident ∉ i.untagged := by
    intro hmem
    obtain ⟨e', he', hident⟩ := mem_map.1 hmem
    rw [mem_filter] at he'
    rw [inj_on_of_nodup_map hnodup he'.1 he hident, htagged] at he'
    cases he'.2
  refine ⟨huntagged, fun htaken => ?_⟩
  obtain ⟨x, hx, hident⟩ := mem_map.1 htaken
  have hname : ρ x ∈ i.names := by
    rw [hident]
    exact mem_append_left _ (mem_map_of_mem he)
  exact huntagged (hident ▸ hρ.fresh x hx hname)

theorem recoded_apart (hz : i.IsVacant globals ρ z) {e : Entry} (he : e ∈ i.entries) (x : Text) :
    i.recoded ρ z e.ident = i.recoded ρ z x ↔ e.ident = x := by
  refine ⟨fun heq => ?_, fun heq => by rw [heq]⟩
  rw [recoded, recoded] at heq
  by_cases htagged : e.isTagged = true
  · obtain ⟨huntagged, htaken⟩ := recoded_of_tagged hρ hnodup he htagged
    rw [if_neg huntagged, if_neg htaken] at heq
    split at heq
    next hx => exact absurd (heq ▸ mem_map_of_mem hx) htaken
    next =>
      split at heq
      next => exact absurd heq (hz.declared e he)
      next => exact heq
  · have huntagged : e.ident ∈ i.untagged :=
      mem_map_of_mem (mem_filter.2 ⟨he, by simpa using htagged⟩)
    have htaken : ρ e.ident ∈ i.untagged.map ρ := mem_map_of_mem huntagged
    rw [if_pos huntagged] at heq
    split at heq
    next hx => exact hρ.injective huntagged hx heq
    next =>
      split at heq
      next => exact absurd (heq ▸ htaken) hz.taken
      next hx => exact absurd (heq ▸ htaken) hx

end Recoded

/-- While variables are declared, they are kept apart. -/
def declaring (i : Instrument) (ρ : Text → Text) (z : Text) : Casting where
  name := i.recoded ρ z
  fits t := ∀ y, (t.index? y).isSome = true → ∀ x, i.recoded ρ z y = i.recoded ρ z x ↔ y = x
  apart h := h

/-- Once all variables are declared, names can be read. -/
def reading (i : Instrument) (globals : VariableTable) (ρ : Text → Text) (z : Text) : Casting where
  name := i.recoded ρ z
  fits t := (i.declaring ρ z).fits t ∧
    ∀ x, t.lookup? x = none → (i.declaring ρ z).Keeps (some globals) x
  apart h := h.1

theorem keeps_of_notMem (hρ : i.CanRename globals ρ) (hz : i.IsVacant globals ρ z) {x : Text}
    (hx : x ∉ i.untagged) : (i.declaring ρ z).Keeps (some globals) x := by
  by_cases htaken : x ∈ i.untagged.map ρ
  · have hname : (i.declaring ρ z).name x = z := (if_neg hx).trans (if_pos htaken)
    refine .inr fun y hy => ?_
    rw [hname] at hy
    obtain ⟨x', hx', rfl⟩ := mem_map.1 htaken
    simp only [mem_cons, not_mem_nil, or_false] at hy
    rcases hy with rfl | rfl
    · exact ⟨hρ.global x' hx', hρ.standard x' hx'⟩
    · exact ⟨hz.global, hz.standard⟩
  · exact .inl ((if_neg hx).trans (if_neg htaken))

theorem exists_entry_of_untagged {x : Text} (h : x ∈ i.untagged) :
    ∃ e ∈ i.entries, e.ident = x := by
  obtain ⟨e, he, rfl⟩ := mem_map.1 h
  exact ⟨e, (mem_filter.1 he).1, rfl⟩

theorem fits_reading (hρ : i.CanRename globals ρ) (hnodup : (i.entries.map Entry.ident).Nodup)
    (hz : i.IsVacant globals ρ z) {t : VariableTable} (haligned : t.Aligned)
    (ht : t.entries = i.entries) : (i.reading globals ρ z).fits t := by
  refine ⟨fun y hy => ?_, fun x hx => keeps_of_notMem hρ hz fun hmem => ?_⟩
  · obtain ⟨e, he, rfl⟩ := mem_map.1 (haligned.isSome_iff.1 hy)
    exact recoded_apart hρ hnodup hz (ht ▸ he)
  · obtain ⟨e, he, rfl⟩ := exists_entry_of_untagged hmem
    exact haligned.lookup?_eq_none.1 hx (mem_map_of_mem (ht ▸ he))

theorem takes_declaring (hρ : i.CanRename globals ρ) (hnodup : (i.entries.map Entry.ident).Nodup)
    (hz : i.IsVacant globals ρ z) {e : Entry} (he : e ∈ i.entries) :
    (i.declaring ρ z).Takes e.isTagged e.ident where
  fits t e' t' ht hident hadd y hy := by
    rcases VariableTable.isSome_of_add? hadd hy with hy | rfl
    · exact ht y hy
    · rw [hident]
      exact recoded_apart hρ hnodup hz he
  fixed htagged := by
    obtain ⟨huntagged, htaken⟩ := recoded_of_tagged hρ hnodup he htagged
    exact (if_neg huntagged).trans (if_neg htaken)

end Instrument

/-! ### The check -/

namespace Check

variable {k : Casting} {α α' : Type}

theorem Erases.of_ok {r : α → α'} {x : Checking α} {y : Checking α'} (h : Erases k r x y)
    {s s' t : State}
    {a : α} (hst : s.Erases k t) (hx : x s = .ok a s') :
    ∃ t', y t = .ok (r a) t' ∧ s'.Erases k t' := by
  have hends := h.of_run s t hst
  rw [hx] at hends
  generalize y t = yt at hends ⊢
  cases hends with
  | ok _ h => exact ⟨_, rfl, h⟩

theorem ofCheck_of_eq_ok {label : UnitLabel} {check : Checking Unit} {s : State}
    (h : check {} = .ok () s) :
    CheckedUnit.ofCheck label check = .ok ⟨label, s.locals, s.attributes, s.errors⟩ := by
  rw [CheckedUnit.ofCheck, EStateM.run, h]

end Check

namespace Instrument

open Check

variable {i : Instrument} {s : Surroundings} {ρ : Text → Text} {z : Text}

theorem takes_decl {c : Context} {u : CheckedUnit} (hρ : i.CanRename s.globals ρ)
    (hnodup : (i.entries.map Entry.ident).Nodup) (hz : i.IsVacant s.globals ρ z)
    (hfollows : CheckedUnit.Follows c i u) {d : Decl} (hd : d ∈ i.decls) :
    Check.Takes (i.declaring ρ z) c d where
  entries e he :=
    takes_declaring hρ hnodup hz (mem_append_right _ (mem_flatMap.2 ⟨d, hd, he⟩))
  args t ht := by
    obtain ⟨n, hn⟩ := mem_iff_getElem?.1 hd
    have hargs := ((hfollows.decls (d, n) (mem_zipIdx_iff_getElem?.2 hn)).table t ht).2
    refine .inr fun arg harg => ?_
    obtain ⟨m, hm⟩ := mem_iff_getElem?.1 harg
    exact Option.isSome_iff_ne_none.2 (hargs (arg, m) (mem_zipIdx_iff_getElem?.2 hm)).1

theorem recasts_of_ofInstrument {keyword : Keyword} {u : CheckedUnit}
    (h : CheckedUnit.ofInstrument s keyword i = .ok u) (hclean : u.errors = [])
    (hρ : i.CanRename s.globals ρ) (hz : i.IsVacant s.globals ρ z)
    (hnodup : (i.entries.map Entry.ident).Nodup) :
    ∃ v, CheckedUnit.ofInstrument s.erase keyword (i.rename (i.recoded ρ z)).erase = .ok v ∧
      v.errors = [] ∧ u.Recasts (i.reading s.globals ρ z) v := by
  have hfollows := CheckedUnit.follows_of_ofInstrument h hclean
  obtain ⟨u', hu', hbuilt, -, hrun⟩ :=
    CheckedUnit.ofCheck_spec ((declLaws_checks _).instrument i [])
  obtain rfl : u' = u := Except.ok.inj (hu'.symm.trans h)
  obtain ⟨s₃, hcheck, hs₃, hlocals, hattributes⟩ := hrun hclean
  obtain ⟨_, s₁, hparams, hcheck⟩ := exists_of_run_bind_eq_ok hcheck
  obtain ⟨_, s₂, hdecls, hcheck⟩ := exists_of_run_bind_eq_ok hcheck
  obtain ⟨rates, _, hstmts, hcheck⟩ := exists_of_run_bind_eq_ok hcheck
  cases hcheck
  have hentry (x : InstrumentParam) (hx : x ∈ i.params) : x.entry ∈ i.entries :=
    mem_append_left _ (mem_map_of_mem hx)
  obtain ⟨t₁, hparams', h₁⟩ := (erases_params (k := i.declaring ρ z) _ _ fun x hx =>
    takes_declaring hρ hnodup hz (hentry x hx)).of_ok
      (State.erases_empty fun _ hy => absurd hy Bool.false_ne_true) hparams
  obtain ⟨t₂, hdecls', h₂⟩ :=
    (erases_decls _ _ fun _ => takes_decl hρ hnodup hz hfollows).of_ok h₁ hdecls
  -- The statements declare nothing, so all variables are there before the first one.
  have hdeclared : s₂.locals = u'.locals := by
    rw [hlocals, ((finds_stmts _ _ _ _).of_ok _ _ _ hstmts).2.1]
  have h₂' : s₂.Erases (i.reading s.globals ρ z) t₂ :=
    { h₂ with
      fits := hdeclared ▸ fits_reading hρ hnodup hz hbuilt.aligned hfollows.entries }
  have hreads : (i.reading s.globals ρ z).Reads (some s.globals) := fun t ht => ht.2
  obtain ⟨t₃, hstmts', h₃⟩ := (erases_stmts hreads _ _ i.body).of_ok h₂' hstmts
  refine ⟨⟨.named keyword i.ident, t₃.locals, t₃.attributes, t₃.errors⟩, ?_, h₃.clean hs₃, ?_⟩
  · exact ofCheck_of_eq_ok <| (run_bind_of_eq_ok hparams' _).trans <|
      (run_bind_of_eq_ok hdecls' _).trans <| run_bind_of_eq_ok hstmts' _
  · exact ⟨(CheckedUnit.label_of_ofCheck h).symm, hlocals ▸ h₃.locals, hattributes ▸ h₃.attributes⟩

theorem serves_reading (hρ : i.CanRename s.globals ρ) (hnodup : (i.entries.map Entry.ident).Nodup)
    (hz : i.IsVacant s.globals ρ z) {u : CheckedUnit} (haligned : u.locals.Aligned)
    (hentries : u.locals.entries = i.entries) {settings : Settings} {layout : FieldLayout}
    (hlayout : Emit.layFields settings {} u.locals.entries = .ok layout) :
    EmitContext.Serves (i.reading s.globals ρ z)
      ⟨layout, i.ident, ⟨u.locals, some s.globals⟩, .ofTable s.globals⟩ := by
  obtain ⟨-, rfl⟩ := layFields_ok hlayout
  refine ⟨fun y hy => ?_, fits_reading hρ hnodup hz haligned hentries,
    fun x hx => keeps_of_notMem hρ hz fun hmem => ?_⟩
  · rcases FieldLayout.isSome_foldl_add.1 hy with hy | hy
    · cases hy
    · obtain ⟨e, he, rfl⟩ := mem_map.1 hy
      exact recoded_apart hρ hnodup hz (hentries ▸ he)
  · obtain ⟨e, he, rfl⟩ := exists_entry_of_untagged hmem
    refine Option.not_isSome_iff_eq_none.2 hx ?_
    exact FieldLayout.isSome_foldl_add.2 (.inr (mem_map_of_mem (hentries ▸ he)))

theorem eq_ok_of_mapError {f : EmitFault → EmitFault} {x : Except EmitFault CompiledUnit}
    {unit : CompiledUnit} (h : x.mapError f = .ok unit) : x = .ok unit := by
  cases x with
  | error _ => cases h
  | ok _ => exact h

/-- All faults are taken for the same one. -/
def blind (k : Casting) : k.Blur where
  left _ := .missingArgument
  right _ := .missingArgument
  overflow _ := rfl
  missing := rfl
  unsupported _ _ _ := rfl

/-- An instrument whose variables without tags get other names is accepted as before. It gets the
same code, the same constants and the same fields, but for the names of the fields. -/
theorem local_names_do_not_matter {keyword : Keyword} {settings : Settings} {u : CheckedUnit}
    {unit : CompiledUnit} (hu : CheckedUnit.ofInstrument s keyword i = .ok u)
    (hclean : u.errors = []) (hunit : i.generate (.of settings s.globals) u = .ok unit)
    (hρ : i.CanRename s.globals ρ) :
    ∃ u', CheckedUnit.ofInstrument s keyword (i.renameLocals ρ) = .ok u' ∧ u'.errors = [] ∧
      (i.renameLocals ρ).generate (.of settings s.globals) u' = .ok { unit with
        fields := unit.fields.map fun f => { f with ident := i.newName ρ f.ident } } := by
  obtain ⟨z, hz⟩ := i.exists_isVacant s.globals ρ
  have hentries := (CheckedUnit.follows_of_ofInstrument hu hclean).entries
  have haligned := (CheckedUnit.built_of_ofInstrument hu).aligned
  have hnodup : (i.entries.map Entry.ident).Nodup := hentries ▸ haligned.nodup
  obtain ⟨v, hv, hvclean, hrecasts⟩ := recasts_of_ofInstrument hu hclean hρ hz hnodup
  -- The names that the instrument uses are changed as asked.
  have hname (x : Text) (hx : x ∈ i.names) : i.recoded ρ z x = i.newName ρ x := by
    rw [recoded, newName]
    split
    · rfl
    · refine if_neg fun htaken => ?_
      obtain ⟨x', hx', rfl⟩ := mem_map.1 htaken
      exact absurd (hρ.fresh x' hx' hx) ‹_›
  have hrename : i.rename (i.recoded ρ z) = i.renameLocals ρ := i.rename_congr hname
  rw [hrename] at hv
  -- Both instruments are compared through the one without places.
  have htogether := CheckedUnit.erases_ofInstrument s keyword (i.renameLocals ρ)
  rw [hv] at htogether
  generalize hu' : CheckedUnit.ofInstrument s keyword (i.renameLocals ρ) = checked at htogether
  cases htogether with
  | ok herases =>
    refine ⟨_, rfl, map_eq_nil_iff.1 (herases.errors.symm.trans hvclean), ?_⟩
    have hcode := i.generate_recast (blind _) (.of settings s.globals) hrecasts
      (fun e he => (takes_declaring hρ hnodup hz (hentries ▸ he)).fixed) fun layout hlayout =>
        serves_reading hρ hnodup hz haligned hentries hlayout
    rw [hunit, show (i.reading s.globals ρ z).name = i.recoded ρ z from rfl, hrename,
      generate_erase _ herases] at hcode
    rw [eq_ok_of_mapError (eq_ok_of_mapError hcode), CompiledUnit.recast]
    have hfields := (generate_ok (CheckedUnit.sound_of_ofInstrument hu hclean).calls hunit).fields
    refine congrArg (fun fields => Except.ok { unit with fields })
      (map_congr_left fun f hf => ?_)
    rw [hfields, mem_map] at hf
    obtain ⟨e, he, rfl⟩ := hf
    rw [hentries] at he
    exact congrArg (fun ident => { e.field settings with ident })
      (hname e.ident (mem_append_left _ (mem_map_of_mem he)))

/-- An instrument that adds up its parameter. -/
def adder : Instrument where
  span := {}
  ident := "adder"
  params := [⟨{}, "amp"⟩]
  decls := [.vars ⟨{}, none, ⟨{}, .ksig⟩, ⟨{}, [⟨{}, "sum", .scalar⟩]⟩⟩]
  body := [.assign {} ⟨{}, "sum", none⟩ (.binary {} .add (.name {} "sum") (.name {} "amp"))]

def adderSwap : Equiv.Perm Text := Equiv.swap ("amp" : Text) ("sum" : Text)

/-- The parameter and the variable can have each other's names. -/
theorem local_names_do_not_matter_swapped :
    ∃ u unit, (adder.renameLocals adderSwap).generate (.of {} {}) u = .ok unit ∧ u.errors = [] ∧
      unit.fields.map Field.ident = [("sum" : Text), ("amp" : Text)] := by
  have hfacts : (do
      let u ← (CheckedUnit.ofInstrument ⟨{}, none, []⟩ .instr adder).toOption
      let unit ← (adder.generate (.of {} {}) u).toOption
      some (u.errors, unit.fields.map Field.ident)) =
        some ([], [("amp" : Text), ("sum" : Text)]) := by
    decide +kernel
  simp only [Option.bind_eq_bind, Option.bind_eq_some_iff, toOption_eq_some_iff, Option.some.injEq,
    Prod.mk.injEq] at hfacts
  obtain ⟨u, hu, unit, hunit, hclean, hfields⟩ := hfacts
  have hswap : adder.CanRename {} adderSwap :=
    ⟨adderSwap.injective.injOn, by decide +kernel, by decide +kernel, by decide +kernel⟩
  obtain ⟨u', -, hclean', hunit'⟩ := local_names_do_not_matter hu hclean hunit hswap
  refine ⟨u', _, hunit', hclean', ?_⟩
  have hnames := congrArg (List.map (adder.newName adderSwap)) hfields
  rw [map_map] at hnames ⊢
  exact hnames.trans (by decide +kernel)

end Instrument

end Orchestrion
