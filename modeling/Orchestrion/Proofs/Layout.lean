import Orchestrion.Proofs.Code.Layout
import Orchestrion.Proofs.RoundTrip
import Orchestrion.Compile

/-!
# Layout does not matter

Texts whose trees differ in places only are compiled alike: blanks, comments, parentheses that
change nothing and the order of tags have no influence on what is compiled. Every stage of a
compilation of a tree without its places does what it does for the tree, with the places left out.
So two trees that are equal without their places are compared through the tree that is left of both.
-/

namespace Orchestrion

open List

/-! ### Sections -/

/-- The claim without the places of its item. -/
def Claim.erase (c : Claim) : Claim := ⟨c.item.erase, c.earlier⟩

theorem Item.declared?_erase (item : Item) : item.erase.declared? = item.declared? := by
  cases item <;> rfl

theorem Item.node_erase (item : Item) : item.erase.node = item.node.erase := by
  cases item <;> rfl

theorem claimsFrom_erase (seen : List (Text × Keyword)) (items : List Item) :
    claimsFrom seen (items.map Item.erase) = (claimsFrom seen items).map Claim.erase := by
  induction items generalizing seen with
  | nil => rfl
  | cons item items ih =>
    rw [map_cons, claimsFrom, claimsFrom, Item.declared?_erase]
    cases item.declared? with
    | none =>
      rw [map_cons, ← ih]
      rfl
    | some declared =>
      obtain ⟨keyword, name⟩ := declared
      dsimp only
      cases seen.lookup name with
      | some | none =>
        rw [map_cons, ← ih]
        rfl

theorem Claim.diagnostic?_erase (c : Claim) :
    c.erase.diagnostic? = c.diagnostic?.map Diagnostic.erase := by
  obtain ⟨item, earlier⟩ := c
  rw [diagnostic?, diagnostic?, erase]
  dsimp only
  rw [Item.declared?_erase, Item.node_erase]
  cases earlier with
  | none => rfl
  | some first =>
    rcases item.declared? with _ | ⟨keyword, name⟩
    · rfl
    · exact congrArg some (Diagnostic.about_erase ..)

/-- The sections without their places. -/
def Sections.erase (s : Sections) : Sections where
  global := s.global.erase
  instruments := s.instruments.map Instrument.erase
  opcodes := s.opcodes.map Opcode.erase
  templates := s.templates.map Instrument.erase
  errors := s.errors.map Diagnostic.erase

theorem filterMap_erase {α : Type} {choose : Item → Option α} {erase : α → α}
    (h : ∀ item : Item, choose item.erase = (choose item).map erase) (items : List Item) :
    (items.map Item.erase).filterMap choose = (items.filterMap choose).map erase := by
  rw [filterMap_map, map_filterMap]
  exact filterMap_congr fun item _ => h item

theorem Sections.mergeGlobal_erase (items : List Item) :
    mergeGlobal (items.map Item.erase) = (mergeGlobal items).erase := by
  have hblocks : globalBlocks (items.map Item.erase) = (globalBlocks items).map GlobalBlock.erase :=
    filterMap_erase (fun item => by cases item <;> rfl) items
  rw [mergeGlobal, mergeGlobal, hblocks, GlobalBlock.erase, map_flatMap, flatMap_map]
  -- Left is the span of the merged block, which is empty with or without a first block.
  congr 1
  cases globalBlocks items <;> rfl

theorem OrchestraTree.sections_erase (tree : OrchestraTree) :
    tree.erase.sections = tree.sections.erase := by
  have hclaims : tree.erase.claims = tree.claims.map Claim.erase := claimsFrom_erase [] tree.items
  have hkept : (tree.erase.claims.filter Claim.isKept).map Claim.item =
      ((tree.claims.filter Claim.isKept).map Claim.item).map Item.erase := by
    rw [hclaims, filter_map, map_map, map_map]
    rfl
  have herrors : tree.erase.claims.filterMap Claim.diagnostic? =
      (tree.claims.filterMap Claim.diagnostic?).map Diagnostic.erase := by
    rw [hclaims, filterMap_map, map_filterMap]
    exact filterMap_congr fun claim _ => claim.diagnostic?_erase
  rw [sections, Sections.ofClaims, hkept, herrors, Sections.mergeGlobal_erase, sections,
    Sections.ofClaims, Sections.erase]
  congr 1
  · exact filterMap_erase (fun item => by cases item <;> rfl) _
  · exact filterMap_erase (fun item => by cases item <;> rfl) _
  · exact filterMap_erase (fun item => by cases item <;> rfl) _

/-! ### Run-time parameters -/

/-- The setting without its places. -/
def Setting.erase (s : Setting) : Setting := { s with span := {} }

theorem Setting.parameter_erase (s : Setting) : s.erase.parameter = s.parameter := rfl

theorem Setting.value_erase (s : Setting) : s.erase.value = s.value := rfl

namespace Settings

/-- What is known while parameters are read, without places. -/
def Reading.erase (r : Reading) : Reading :=
  ⟨r.settings, r.seen.map Setting.erase, r.errors.map Diagnostic.erase⟩

theorem Reading.first?_erase (r : Reading) (p : Parameter) :
    r.erase.first? p = (r.first? p).map Setting.erase :=
  find?_map

theorem Reading.complain_erase (r : Reading) (s : Setting) (cause : Cause) :
    r.erase.complain s.erase cause = (r.complain s cause).erase := by
  rw [complain, complain, erase, erase, map_append]
  rfl

theorem Reading.read_erase (r : Reading) (s : Setting) :
    r.erase.read s.erase = (r.read s).erase := by
  rw [read, read, Setting.parameter_erase, Setting.value_erase, first?_erase]
  cases r.first? s.parameter with
  | some _ => exact complain_erase ..
  | none =>
    have hseen (settings : Settings) : (Reading.mk settings (r.seen ++ [s]) r.errors).erase =
        ⟨settings, r.erase.seen ++ [s.erase], r.erase.errors⟩ := by
      rw [erase, map_append]
      rfl
    cases s.parameter.broken? s.value with
    | some rule =>
      dsimp only
      rw [← complain_erase, hseen]
      rfl
    | none => exact (hseen _).symm

theorem Reading.foldl_read_erase (ss : List Setting) (r : Reading) :
    (ss.map Setting.erase).foldl read r.erase = (ss.foldl read r).erase := by
  induction ss generalizing r with
  | nil => rfl
  | cons s ss ih => rw [map_cons, foldl_cons, foldl_cons, read_erase, ih]

theorem Reading.rateNode_erase (r : Reading) (b : GlobalBlock) :
    r.erase.rateNode b.erase = (r.rateNode b).erase := by
  rw [rateNode, rateNode, first?_erase, first?_erase]
  cases r.first? .krate with
  | some s => rfl
  | none => cases r.first? .srate <;> rfl

theorem settingsOf_erase (items : List GlobalItem) :
    settingsOf (items.map GlobalItem.erase) = (settingsOf items).map Setting.erase := by
  rw [settingsOf, settingsOf, filterMap_map, map_filterMap]
  refine filterMap_congr fun item _ => ?_
  cases item <;> rfl

theorem resolve_erase (b : GlobalBlock) :
    resolve b.erase = (resolve b).mapError (List.map Diagnostic.erase) := by
  have hreading : (settingsOf b.erase.items).foldl Reading.read {} =
      ((settingsOf b.items).foldl Reading.read {}).erase := by
    rw [GlobalBlock.erase, settingsOf_erase]
    exact Reading.foldl_read_erase _ {}
  rw [resolve, resolve, hreading]
  generalize (settingsOf b.items).foldl Reading.read {} = r
  rw [Reading.rateNode_erase]
  cases herrors : r.errors with
  | cons d ds =>
    rw [Reading.erase, herrors]
    rfl
  | nil =>
    rw [Reading.erase, herrors]
    dsimp only [map_nil]
    cases Reading.rateFault? r.settings with
    | none => rfl
    | some cause =>
      dsimp only
      rw [Diagnostic.about_erase]
      rfl

end Settings

/-! ### The checks of all units -/

/-- A checked orchestra is another one without places. -/
structure CheckedOrchestra.Erases (o o' : CheckedOrchestra) : Prop where
  sections : o'.sections = o.sections.erase
  settings : o'.settings = o.settings.mapError (List.map Diagnostic.erase)
  global : o.global.Erases o'.global
  instruments : List.Forall₂ CheckedUnit.Erases o.instruments o'.instruments
  templates : List.Forall₂ CheckedUnit.Erases o.templates o'.templates
  opcodes : List.Forall₂ CheckedUnit.Erases o.opcodes o'.opcodes

theorem forall₂_map_right {α β : Type} (f : α → β) (xs : List α) :
    List.Forall₂ (fun x y => y = f x) xs (xs.map f) :=
  forall₂_map_right_iff.2 (forall₂_same.2 fun _ _ => rfl)

theorem CheckedOrchestra.erases_ofTree (tree : OrchestraTree) :
    Together SetTwice.erase Erases (ofTree tree) (ofTree tree.erase) := by
  have hsections : Sections.ofClaims tree.erase.claims = (Sections.ofClaims tree.claims).erase :=
    tree.sections_erase
  rw [ofTree, ofTree]
  dsimp only
  rw [hsections]
  generalize Sections.ofClaims tree.claims = sections
  have hsettings : Settings.resolve sections.erase.global =
      (Settings.resolve sections.global).mapError (List.map Diagnostic.erase) :=
    Settings.resolve_erase sections.global
  refine .bind (CheckedUnit.erases_ofGlobal sections.global) fun global global' hglobal => ?_
  -- The other units see the global section only through this.
  have hsurroundings : Surroundings.ofSections sections.erase global'.locals
        (Settings.resolve sections.erase.global).toOption =
      (Surroundings.ofSections sections global.locals
        (Settings.resolve sections.global).toOption).erase := by
    have hopcodes : sections.erase.opcodes.map (fun o => (o.ident, o.kind)) =
        sections.opcodes.map fun o => (o.ident, o.kind) := map_map
    rw [Surroundings.ofSections, Surroundings.ofSections, Surroundings.erase,
      hglobal.locals, hopcodes, hsettings]
    cases Settings.resolve sections.global <;> rfl
  rw [hsurroundings]
  refine .bind (.mapM (forall₂_map_right _ _) fun i _ hi => hi ▸ CheckedUnit.erases_ofInstrument ..)
    fun instruments instruments' hinstruments => ?_
  refine .bind (.mapM (forall₂_map_right _ _) fun t _ ht => ht ▸ CheckedUnit.erases_ofInstrument ..)
    fun templates templates' htemplates => ?_
  refine .bind (.mapM (forall₂_map_right _ _) fun o _ ho => ho ▸ CheckedUnit.erases_ofOpcode ..)
    fun opcodes opcodes' hopcodes => ?_
  exact .ok ⟨rfl, hsettings, hglobal, hinstruments, htemplates, hopcodes⟩

/-! ### What is compiled -/

def Breakdown.erase : Breakdown → Breakdown
  | setTwice fault => setTwice fault.erase
  | overflow value => overflow value
  | missingArgument => missingArgument

def CompileError.erase : CompileError → CompileError
  | diagnostic d => diagnostic d.erase
  | unsupported u => unsupported u.erase
  | taken name => taken name

theorem CheckedUnit.Erases.diagnostics {u v : CheckedUnit} (h : u.Erases v) :
    v.errors.map CompileError.diagnostic =
      (u.errors.map CompileError.diagnostic).map CompileError.erase := by
  rw [h.errors, map_map, map_map]
  rfl

/-- What became of an instrument is what became of another, without places. -/
structure Build.Erases (b b' : Build) : Prop where
  checked : b.checked.Erases b'.checked
  code : b'.code = b.code.map (Except.mapError Unsupported.erase)

namespace Build

theorem erases_of (l : Linkage) (force : Bool) {u v : CheckedUnit} (h : u.Erases v)
    (i : Instrument) :
    Together Breakdown.erase Erases (of l force u i) (of l.erase force v i.erase) := by
  rw [of, of, h.errors, isEmpty_map, Instrument.generate_erase l h]
  split
  · cases i.generate l u with
    | ok code => exact .ok ⟨h, rfl⟩
    | error fault =>
      cases fault with
      | unsupported reason => exact .ok ⟨h, rfl⟩
      | overflow value => exact .error (Breakdown.overflow value)
      | missingArgument => exact .error Breakdown.missingArgument
  · exact .ok ⟨h, rfl⟩

theorem Erases.errors {b b' : Build} (h : b.Erases b') :
    b'.errors = b.errors.map CompileError.erase := by
  rw [Build.errors, Build.errors, h.checked.diagnostics, h.code, map_append]
  congr 1
  rcases b.code with _ | code | code <;> rfl

end Build

namespace Compilation

theorem register_eq_of_erases {builds builds' : List Build}
    (h : List.Forall₂ Build.Erases builds builds') (r : Repertoire) :
    register r builds' = register r builds := by
  induction h generalizing r with
  | nil => rfl
  | @cons b b' builds builds' hb _ ih =>
    obtain ⟨u, code⟩ := b
    obtain ⟨u', code'⟩ := b'
    obtain rfl := hb.code
    rcases code with _ | reason | code
    · exact ih r
    · exact ih r
    · change register r (⟨u', some (.ok code)⟩ :: builds') = _
      rw [register, register]
      cases r.register? code with
      | some r => exact ih r
      | none =>
        dsimp only
        rw [ih r]

/-- A compilation is another one without places. -/
structure Erases (c c' : Compilation) : Prop where
  settings : c'.settings = c.settings
  linkage : c'.linkage = c.linkage.erase
  repertoire : c'.repertoire = c.repertoire
  errors : c'.errors = c.errors.map CompileError.erase

theorem groundErrors_erase {o o' : CheckedOrchestra} (h : o.Erases o') :
    groundErrors o' = (groundErrors o).map (List.map Diagnostic.erase) := by
  rw [groundErrors, groundErrors, h.sections, h.settings, h.global.errors]
  cases o.settings <;> rfl

theorem flatMap_errors_erase {α β : Type} {related : α → β → Prop} {f : α → List CompileError}
    {g : β → List CompileError} (hf : ∀ a b, related a b → g b = (f a).map CompileError.erase)
    {as : List α} {bs : List β} (h : List.Forall₂ related as bs) :
    bs.flatMap g = (as.flatMap f).map CompileError.erase := by
  induction h with
  | nil => rfl
  | cons hab _ ih => rw [flatMap_cons, flatMap_cons, map_append, hf _ _ hab, ih]

theorem forall₂_zip_erase {us vs : List CheckedUnit} (h : List.Forall₂ CheckedUnit.Erases us vs)
    (is : List Instrument) :
    List.Forall₂ (fun p q => p.1.Erases q.1 ∧ q.2 = p.2.erase) (us.zip is)
      (vs.zip (is.map Instrument.erase)) := by
  induction h generalizing is with
  | nil => exact .nil
  | cons huv _ ih =>
    cases is with
    | nil => exact .nil
    | cons i is => exact .cons ⟨huv, rfl⟩ (ih is)

theorem erases_builds (l : Linkage) (force : Bool) {ps qs : List (CheckedUnit × Instrument)}
    (h : List.Forall₂ (fun p q => p.1.Erases q.1 ∧ q.2 = p.2.erase) ps qs) :
    Together Breakdown.erase (List.Forall₂ Build.Erases)
      (ps.mapM fun (u, i) => Build.of l force u i)
      (qs.mapM fun (u, i) => Build.of l.erase force u i) := by
  refine .mapM h ?_
  rintro ⟨u, i⟩ ⟨v, _⟩ ⟨huv, rfl⟩
  exact Build.erases_of l force huv i

theorem erases_build {o o' : CheckedOrchestra} (h : o.Erases o') (force : Bool)
    (settings : Settings) :
    Together Breakdown.erase Erases (build o force settings) (build o' force settings) := by
  rw [build, build, h.global.locals, Linkage.of_erase, h.sections]
  have hparts := rel_append (forall₂_zip_erase h.instruments o.sections.instruments)
    (forall₂_zip_erase h.templates o.sections.templates)
  refine .bind (erases_builds _ force hparts) fun builds builds' hbuilds => ?_
  have hregister : register {} builds' = register {} builds := register_eq_of_erases hbuilds {}
  have herrors : builds'.flatMap Build.errors =
      (builds.flatMap Build.errors).map CompileError.erase :=
    flatMap_errors_erase (fun _ _ hb => hb.errors) hbuilds
  have hopcodes : (o'.opcodes.flatMap fun u => u.errors.map CompileError.diagnostic) =
      (o.opcodes.flatMap fun u => u.errors.map CompileError.diagnostic).map CompileError.erase :=
    flatMap_errors_erase (fun _ _ hu => hu.diagnostics) h.opcodes
  refine .ok ⟨rfl, rfl, congrArg Prod.fst hregister, ?_⟩
  rw [errors, errors, map_append, map_append, ← herrors, ← hopcodes, hregister,
    map_map]
  rfl

theorem erases_ofTree (tree : OrchestraTree) (force : Bool) :
    Together Breakdown.erase
      (Together (List.map (List.map Diagnostic.erase)) Erases) (ofTree tree force)
      (ofTree tree.erase force) := by
  rw [ofTree, ofTree]
  have hchecked := CheckedOrchestra.erases_ofTree tree
  generalize CheckedOrchestra.ofTree tree = x at hchecked ⊢
  generalize CheckedOrchestra.ofTree tree.erase = y at hchecked ⊢
  cases hchecked with
  | error fault => exact .error (Breakdown.setTwice fault)
  | @ok o o' h =>
    have hground : (groundErrors o').all List.isEmpty = (groundErrors o).all List.isEmpty := by
      rw [groundErrors_erase h, all_map]
      congr 1
      funext ds
      exact isEmpty_map
    have herrors : Together (List.map (List.map Diagnostic.erase)) Erases (.error (groundErrors o))
        (.error (groundErrors o')) := by
      rw [groundErrors_erase h]
      exact .error _
    simp only [pure_bind, h.settings, hground]
    cases o.settings with
    | error ds => exact .ok herrors
    | ok settings =>
      cases (groundErrors o).all List.isEmpty with
      | false => exact .ok herrors
      | true => exact .bind (erases_build h force settings) fun _ _ hc => .ok (.ok hc)

end Compilation

/-! ### Texts -/

/-- The refusal without its places. -/
def Refusal.erase : Refusal → Refusal
  | syntaxFault e => syntaxFault e
  | errors es => errors (es.map CompileError.erase)
  | brokenOff b => brokenOff b.erase

namespace Orchestra

/-- Two texts are compiled alike: both are accepted, with the same units in the same order (so that
names and listings are the same), the same run-time parameters and the same global store, or both
are refused, with the same complaints in the same order. Only places may differ. -/
inductive Alike : Except Refusal Orchestra → Except Refusal Orchestra → Prop where
  | accepted {o o' : Orchestra} (repertoire : o'.repertoire = o.repertoire)
    (settings : o'.settings = o.settings) (store : o'.store = o.store) :
    Alike (.ok o) (.ok o')
  | refused {r r' : Refusal} (h : r'.erase = r.erase) : Alike (.error r) (.error r')

theorem Alike.of_erase_eq {source source' : Text} {tree tree' : OrchestraTree}
    (h : OrchestraTree.parse source = .ok tree) (h' : OrchestraTree.parse source' = .ok tree')
    (herase : tree'.erase = tree.erase) : Alike (compile source) (compile source') := by
  -- Both trees are compiled like what is left of them without places, and that is the same tree.
  have hx := Compilation.erases_ofTree tree false
  have hx' := Compilation.erases_ofTree tree' false
  rw [herase] at hx'
  rw [compile, compile, h, h']
  simp only [pure_bind]
  rcases hx.common hx' with ⟨b, b', hb, hb', hbreak⟩ | ⟨y, y', z, hy, hy', hyz, hyz'⟩
  · rw [hb, hb']
    exact .refused (congrArg Refusal.brokenOff hbreak.symm)
  · rw [hy, hy']
    rcases hyz.common hyz' with ⟨ds, ds', rfl, rfl, hds⟩ | ⟨c, c', d, rfl, rfl, hc, hc'⟩
    · refine .refused (congrArg Refusal.errors ?_)
      have hflatten (es : List (List Diagnostic)) :
          (es.flatten.map CompileError.diagnostic).map CompileError.erase =
            (es.map (List.map Diagnostic.erase)).flatten.map CompileError.diagnostic := by
        rw [← map_flatten, map_map, map_map]
        rfl
      rw [hflatten, hflatten, hds]
    · have herrors : c'.errors.map CompileError.erase = c.errors.map CompileError.erase :=
        hc'.errors.symm.trans hc.errors
      have hempty : c'.errors.isEmpty = c.errors.isEmpty := by
        rw [← isEmpty_map (f := CompileError.erase), herrors, isEmpty_map]
      dsimp only
      rw [hempty]
      split
      · refine .accepted ?_ ?_ ?_
        · exact hc'.repertoire.symm.trans hc.repertoire
        · exact hc'.settings.symm.trans hc.settings
        · have hlinkage : c'.linkage.erase = c.linkage.erase := hc'.linkage.symm.trans hc.linkage
          exact (congrArg Linkage.store hlinkage :)
      · exact .refused (congrArg Refusal.errors herrors)

theorem erase_eq_of_formatText {source source' out : Text} (h : formatText source = .ok out)
    (h' : formatText source' = .ok out) :
    ∃ tree tree', OrchestraTree.parse source = .ok tree ∧ OrchestraTree.parse source' = .ok tree' ∧
      tree'.erase = tree.erase := by
  obtain ⟨tree, htree, hprint⟩ := OrchestraTree.exists_of_formatText h
  obtain ⟨tree', htree', hprint'⟩ := OrchestraTree.exists_of_formatText h'
  obtain ⟨again, hagain, herase⟩ := OrchestraTree.exists_parse_print htree
  obtain ⟨again', hagain', herase'⟩ := OrchestraTree.exists_parse_print htree'
  rw [hprint] at hagain
  rw [hprint'] at hagain'
  obtain rfl : again = again' := Except.ok.inj (hagain.symm.trans hagain')
  exact ⟨tree, tree', htree, htree', herase'.symm.trans herase⟩

/-- Layout does not matter: texts whose trees are equal without their places are compiled alike, and
so are a text and what formatting makes of it. -/
theorem compile_layout (source : Text) :
    (∀ (source' : Text) (tree tree' : OrchestraTree), OrchestraTree.parse source = .ok tree →
        OrchestraTree.parse source' = .ok tree' → tree'.erase = tree.erase →
        Alike (compile source) (compile source')) ∧
      ∀ out, formatText source = .ok out → Alike (compile source) (compile out) := by
  refine ⟨fun source' tree tree' h h' herase => .of_erase_eq h h' herase, fun out hout => ?_⟩
  obtain ⟨tree, htree, rfl⟩ := OrchestraTree.exists_of_formatText hout
  obtain ⟨again, hagain, herase⟩ := OrchestraTree.exists_parse_print htree
  exact .of_erase_eq htree hagain herase

/-- An orchestra on one line, with tags in the other order and parentheses that change nothing. -/
def nocturne : Text :=
  Text.join " "
    ["global \x7bksig level;\x7d instr hum(p)\x7bexports imports ksig level;asig x;",
      "level=((level)+1);x=p*(level);output((x));\x7d"]

/-- The same orchestra with blanks and comments. -/
def nocturneSpread : Text :=
  Text.join "\n"
    ["// a hum that grows",
      "global \x7b ksig level; \x7d",
      "",
      "instr hum(p) \x7b",
      "    imports exports ksig level; // shared",
      "    asig x;",
      "    level = level + 1;",
      "    x = (p * level);",
      "    output(x);",
      "\x7d"]

theorem compile_layout_nocturne :
    (∃ tree tree', OrchestraTree.parse nocturne = .ok tree ∧
        OrchestraTree.parse nocturneSpread = .ok tree' ∧ tree'.erase = tree.erase) ∧
      Alike (compile nocturne) (compile nocturneSpread) ∧
      (∃ out, formatText nocturne = .ok out ∧ Alike (compile nocturne) (compile out)) ∧
      (compile nocturne).toOption.map (·.repertoire.names) = some [("hum" : Text)] := by
  have hformat : (formatText nocturne).toOption.isSome = true ∧
      (formatText nocturne).toOption = (formatText nocturneSpread).toOption := by decide +kernel
  obtain ⟨out, hsome⟩ := Option.isSome_iff_exists.1 hformat.1
  have hout := toOption_eq_some_iff.1 hsome
  have hout' := toOption_eq_some_iff.1 (hformat.2.symm.trans hsome)
  obtain ⟨tree, tree', htree, htree', herase⟩ := erase_eq_of_formatText hout hout'
  obtain ⟨halike, hformatted⟩ := compile_layout nocturne
  refine ⟨⟨tree, tree', htree, htree', herase⟩, halike _ _ _ htree htree' herase,
    ⟨out, hout, hformatted out hout⟩, ?_⟩
  decide +kernel

end Orchestra

end Orchestrion
