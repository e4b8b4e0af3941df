import Orchestrion.Proofs.Code.Breakdown
import Orchestrion.Proofs.Compile

/-!
# What the check accepts and what has code

An instrument that passes its check gets a unit, unless there is no code for some node of it: it
declares an array of opcodes or shares a table, calls a declared opcode, or refers to a global array
or table. Then the first such node is refused, and nothing is registered. There is no other reason,
as long as the numbers in the code fit into words.
-/

namespace Orchestrion

open List Emit

variable {x : Text} {e : Entry} {i : Instrument}

/-! ### Nodes without code -/

/-- Why instances cannot keep what is declared: these are arrays of opcodes. -/
def Decl.storageLacks : Decl → List NoCode
  | .vars d =>
    if d.type.type = .oparray then d.names.names.map fun n => .storage .oparray n.ident else []
  | .table _ => []

def Decl.sharingLacks : Decl → List NoCode
  | .vars _ => []
  | .table d =>
    if d.tags.any fun t => t.imports || t.exports then [.sharedTable d.ident] else []

/-- The nodes of an instrument that there is no code for, and why: first what instances cannot keep,
then what they cannot share, and then what statements cannot refer to, each in the order of the
text. -/
def Instrument.lacks (σ : Scope) (i : Instrument) : List (Node × NoCode) :=
  (i.decls.flatMap fun d => d.storageLacks.map (d.node, ·)) ++
    (i.decls.flatMap fun d => d.sharingLacks.map (d.node, ·)) ++
    lacksAmong σ (Stmt.walkAll (fun _ => true) [2] 0 i.body)

/-! ### The nodes that declare variables -/

theorem Decl.declares_iff {d : Decl} : d.declares x = true ↔ ∃ e ∈ d.entries, e.ident = x := by
  cases d with
  | vars d => simp [Decl.declares, Decl.entries, VariableDecl.entries, DeclaredName.entry]
  | table d => simp [Decl.declares, Decl.entries, TableDecl.entry]

theorem Decl.find?_declares {ds : List Decl} {d : Decl}
    (hnames : ((ds.flatMap Decl.entries).map Entry.ident).Nodup) (hd : d ∈ ds)
    (he : e ∈ d.entries) : ds.find? (Decl.declares e.ident) = some d := by
  induction ds with
  | nil => cases hd
  | cons d₀ ds ih =>
    rw [flatMap_cons, map_append, nodup_append] at hnames
    obtain ⟨-, hrest, hapart⟩ := hnames
    rcases mem_cons.1 hd with rfl | hd
    · rw [find?_cons_of_pos (Decl.declares_iff.2 ⟨e, he, rfl⟩)]
    · have hno : ¬d₀.declares e.ident = true := by
        rw [Decl.declares_iff]
        rintro ⟨e₀, he₀, heq⟩
        refine hapart _ (mem_map_of_mem he₀) _ (mem_map_of_mem ?_) heq
        exact mem_flatMap.2 ⟨d, hd, he⟩
      rw [find?_cons_of_neg hno]
      exact ih hrest hd

namespace Instrument

variable {i : Instrument}

theorem declaringNode_of_mem (hnames : (i.entries.map Entry.ident).Nodup) {d : Decl}
    (hd : d ∈ i.decls) {e : Entry} (he : e ∈ d.entries) : i.declaringNode e.ident = d.node := by
  rw [entries, map_append, nodup_append] at hnames
  rw [declaringNode, Decl.find?_declares hnames.2.1 hd he]

theorem flatMap_entries {f : Entry → List (Node × NoCode)} {g : Decl → List NoCode}
    (hparams : ∀ p ∈ i.params, f p.entry = [])
    (hdecls : ∀ d ∈ i.decls, d.entries.flatMap f = (g d).map (d.node, ·)) :
    i.entries.flatMap f = i.decls.flatMap fun d => (g d).map (d.node, ·) := by
  rw [entries, flatMap_append, flatMap_map, flatMap_eq_nil_iff.2 hparams,
    nil_append, flatMap_assoc]
  exact flatMap_congr hdecls

theorem sharingLacks_eq (hnames : (i.entries.map Entry.ident).Nodup) :
    i.entries.flatMap (sharingLacks i) =
      i.decls.flatMap fun d => d.sharingLacks.map (d.node, ·) := by
  refine flatMap_entries (fun p _ => rfl) fun d hd => ?_
  cases d with
  | vars d =>
    refine flatMap_eq_nil_iff.2 fun e he => ?_
    obtain ⟨n, -, rfl⟩ := mem_map.1 he
    -- No type of variables is that of tables.
    have hrate : d.type.type.rate ≠ .table := by cases d.type.type <;> decide
    exact if_neg fun h => hrate h.2
  | table d =>
    have hnode := declaringNode_of_mem hnames hd (mem_singleton.2 rfl)
    have htagged : d.entry.isTagged = d.tags.any fun t => t.imports || t.exports := by
      rw [Entry.isTagged, TableDecl.entry]
      cases d.tags <;> rfl
    rw [Decl.entries, flatMap_singleton, sharingLacks, hnode, htagged, Decl.sharingLacks]
    by_cases h : (d.tags.any fun t => t.imports || t.exports) = true
    · rw [if_pos h, if_pos ⟨h, rfl⟩]
      rfl
    · rw [if_neg h, if_neg fun h' => h h'.1]
      rfl

end Instrument

/-! ### Fields -/

/-- Why instances cannot keep a variable. -/
def Emit.storageLacks (i : Instrument) (e : Entry) : List (Node × NoCode) :=
  if keeps e.rate then [] else [(i.declaringNode e.ident, .storage e.rate e.ident)]

namespace Instrument

variable {i : Instrument}

theorem storageLacks_eq (hnames : (i.entries.map Entry.ident).Nodup)
    (hordinary : ∀ e ∈ i.entries, e.rate ≠ .x) :
    i.entries.flatMap (storageLacks i) =
      i.decls.flatMap fun d => d.storageLacks.map (d.node, ·) := by
  refine flatMap_entries (fun p _ => rfl) fun d hd => ?_
  cases d with
  | vars d =>
    rw [Decl.storageLacks]
    by_cases htype : d.type.type = .oparray
    · have hone : ∀ e ∈ d.entries, storageLacks i e =
          [(Node.vars d, .storage .oparray e.ident)] := by
        intro e he
        have hnode := declaringNode_of_mem hnames hd (e := e) he
        obtain ⟨n, -, rfl⟩ := mem_map.1 he
        rw [storageLacks, hnode, htype]
        rfl
      rw [if_pos htype, Decl.entries, flatMap_congr hone, ← map_eq_flatMap,
        VariableDecl.entries, map_map, map_map]
      rfl
    · rw [if_neg htype]
      refine flatMap_eq_nil_iff.2 fun e he => ?_
      have hx : e.rate ≠ .x :=
        hordinary e (mem_append_right _ (mem_flatMap.2 ⟨_, hd, he⟩))
      obtain ⟨n, -, rfl⟩ := mem_map.1 he
      refine if_pos ?_
      change d.type.type.rate ≠ .x at hx
      change keeps d.type.type.rate = true
      -- What is left are the types of signals.
      revert htype hx
      cases d.type.type <;> decide
  | table d => rfl

end Instrument

theorem Emit.layFields_of_not_keeps (settings : Settings) (layout : FieldLayout) {es : List Entry}
    {node : Node} {reason : NoCode} {rest : List (Node × NoCode)}
    (h : es.flatMap (storageLacks i) = (node, reason) :: rest) :
    ∃ e, layFields settings layout es = .error e ∧
      node = i.declaringNode e.ident ∧ reason = .storage e.rate e.ident := by
  induction es generalizing layout with
  | nil => cases h
  | cons e es ih =>
    rw [flatMap_cons, storageLacks] at h
    rw [layFields]
    split at h
    next hkeeps =>
      obtain ⟨e', he', hnode⟩ := ih _ h
      exact ⟨e', by rw [if_pos hkeeps, he'], hnode⟩
    next hkeeps =>
      cases h
      exact ⟨e, by rw [if_neg hkeeps], rfl, rfl⟩

theorem Emit.keeps_of_storageLacks {es : List Entry} (h : es.flatMap (storageLacks i) = []) :
    ∀ e ∈ es, keeps e.rate = true := by
  intro e he
  have hnone := flatMap_eq_nil_iff.1 h e he
  rw [storageLacks] at hnone
  by_contra hkeeps
  rw [if_neg hkeeps] at hnone
  cases hnone

/-! ### What the code refers to -/

theorem Scope.resolve?_eq_local_iff {σ : Scope} :
    σ.resolve? x = some (e, false) ↔ σ.locals.lookup? x = some e := by
  rw [Scope.resolve?]
  cases σ.locals.lookup? x with
  | some e' => simp
  | none => simp

theorem Scope.lookup?_of_resolve? {σ : Scope} (h : σ.resolve? x = some (e, true)) :
    σ.lookupGlobal? x = some e := by
  rw [Scope.resolve?] at h
  cases hlocal : σ.locals.lookup? x with
  | some e' =>
    rw [hlocal] at h
    cases h
  | none =>
    rw [hlocal] at h
    obtain ⟨e', he', heq⟩ := Option.map_eq_some_iff.1 h
    cases heq
    exact he'

theorem StoreLayout.isSome_index?_iff {t : VariableTable} (haligned : t.Aligned)
    (h : t.lookup? x = some e) :
    ((StoreLayout.ofTable t).index? x).isSome = true ↔ e.isScalarSignal = true := by
  rw [StoreLayout.isSome_index?_ofTable haligned]
  constructor
  · rintro ⟨e', he', hscalar, rfl⟩
    -- There is one variable of the name only.
    rw [haligned.lookup?_of_mem he'] at h
    cases h
    exact hscalar
  · intro hscalar
    exact ⟨e, VariableTable.mem_of_lookup? h, hscalar, haligned.ident_of_lookup? h⟩

theorem Linkage.sees (settings : Settings) {globals : VariableTable} (hglobals : globals.Aligned)
    {u : CheckedUnit} (hlocals : u.locals.Aligned) (i : Instrument) :
    Emit.Sees ((Linkage.of settings globals).context u i) where
  field x := by
    simp only [Scope.resolve?_eq_local_iff]
    rw [Linkage.field?_context hlocals, VariableTable.index?, hlocals.isSome_iff]
    constructor
    · intro hx
      obtain ⟨e, he, rfl⟩ := mem_map.1 hx
      exact ⟨e, hlocals.lookup?_of_mem he⟩
    · rintro ⟨e, he⟩
      exact hlocals.ident_of_lookup? he ▸ mem_map_of_mem (VariableTable.mem_of_lookup? he)
  slot x e hresolve := StoreLayout.isSome_index?_iff hglobals (Scope.lookup?_of_resolve? hresolve)

theorem CheckedUnit.isSome_index?_of_tagged {s : Surroundings} {keyword : Keyword} {u : CheckedUnit}
    (h : CheckedUnit.ofInstrument s keyword i = .ok u) (hclean : u.errors = [])
    (haligned : s.globals.Aligned) (hglobals : ∀ e ∈ s.globals.entries, e.rate.IsGlobal)
    (he : e ∈ u.locals.entries) (htagged : e.isTagged = true) (htable : e.rate ≠ .table) :
    ((StoreLayout.ofTable s.globals).index? e.ident).isSome = true := by
  obtain ⟨g, hg, harray, hrate⟩ := global_of_tagged h hclean he htagged htable
  -- The global variable is neither an array nor a table, so that it is in the store.
  have hscalar : g.isScalarSignal = true := by
    rw [Entry.isScalarSignal, harray]
    rcases hglobals g (VariableTable.mem_of_lookup? hg) with h | h | h
    · rw [h]; rfl
    · rw [h]; rfl
    · exact absurd (hrate ▸ h) htable
  exact (StoreLayout.isSome_index?_iff haligned hg).2 hscalar

/-! ### The outcome -/

/-- The numbers in the code of an instrument fit into words: the widths of its arrays, the numbers
of its fields and of the places in the global store, and the size of the code. -/
structure Instrument.Fits (i : Instrument) (locals : VariableTable) (l : Linkage) : Prop where
  widths : ∀ e ∈ locals.entries, e.array = true → fits (e.width.resolve l.settings) = true
  fields : locals.entries.length ≤ greatest
  slots : l.store.size ≤ greatest
  code : i.codeSize locals ≤ greatest

instance (i : Instrument) (locals : VariableTable) (l : Linkage) : Decidable (i.Fits locals l) :=
  decidable_of_iff ((∀ e ∈ locals.entries, e.array = true →
      fits (e.width.resolve l.settings) = true) ∧ locals.entries.length ≤ greatest ∧
      l.store.size ≤ greatest ∧ i.codeSize locals ≤ greatest)
    ⟨fun ⟨widths, fields, slots, code⟩ => ⟨widths, fields, slots, code⟩,
      fun h => ⟨h.widths, h.fields, h.slots, h.code⟩⟩

theorem Emit.Costs.cases {c : EmitContext} {x : Emit Unit} {cost : Nat}
    {lacks : List (Node × NoCode)} (h : Costs c True 0 cost lacks x fun _ => True)
    (hsmall : Small c) (hfits : cost ≤ greatest) :
    (lacks = [] ∧ ∃ E, x.run {} = .ok ((), E) ∧ E.codeSize = cost) ∨
      ∃ node reason rest, lacks = (node, reason) :: rest ∧
        x.run {} = .error (.unsupported (.of c.ident node reason)) := by
  have houtcome := h.outcome {} sized_empty
  cases hrun : x.run {} with
  | ok emitted =>
    rw [hrun] at houtcome
    obtain ⟨hsized, -, hlacks⟩ := houtcome
    exact .inl ⟨hlacks trivial, emitted.2, rfl, hsized.code.trans (Nat.zero_add _)⟩
  | error fault =>
    rw [hrun] at houtcome
    cases fault with
    | unsupported refusal =>
      obtain ⟨node, reason, rest, hlacks, rfl⟩ := houtcome trivial
      exact .inr ⟨node, reason, rest, hlacks, rfl⟩
    | missingArgument => exact houtcome.elim
    | overflow v =>
      have hoverflow := houtcome hsmall
      omega

def CompiledUnit.codeSize (u : CompiledUnit) : Nat :=
  (Slot.all.map fun slot => (u.code.get slot).length).sum

namespace Instrument

variable {s : Surroundings} {keyword : Keyword} {i : Instrument} {u : CheckedUnit}

theorem generate_of_storageLacks (l : Linkage) {node : Node} {reason : NoCode}
    {rest : List (Node × NoCode)}
    (h : u.locals.entries.flatMap (storageLacks i) = (node, reason) :: rest) :
    i.generate l u = .error (.unsupported (.of i.ident node reason)) := by
  obtain ⟨e, he, rfl, rfl⟩ := layFields_of_not_keeps l.settings {} h
  rw [generate, he]
  rfl

theorem generate_of_unit {l : Linkage} (hkeeps : ∀ e ∈ u.locals.entries, keeps e.rate = true)
    {E : Emitter} (h : (unit (l.context u i) u i).run {} = .ok ((), E)) :
    ∃ code, i.generate l u = .ok code ∧ code.ident = i.ident ∧ code.codeSize = E.codeSize := by
  rw [generate, layFields_of_keeps hkeeps]
  change ∃ code, ((unit (l.context u i) u i).run {} >>= _) = _ ∧ _
  rw [h]
  refine ⟨_, rfl, rfl, ?_⟩
  rw [CompiledUnit.codeSize, Emitter.codeSize]
  simp only [Slots.get_map, Array.length_toList]

theorem Fits.costs_unit {l : Linkage} (hfits : i.Fits u.locals l)
    (hsound : CheckedUnit.Sound i u.locals) (hserved : Emit.Served (l.context u i) u i) :
    Emit.Costs (l.context u i) True 0 (i.codeSize u.locals)
      (u.locals.entries.flatMap (Emit.sharingLacks i) ++ lacksAmong (l.context u i).scope
        (Stmt.walkAll (fun _ => true) [2] 0 i.body)) (Emit.unit (l.context u i) u i)
      fun _ => True := by
  refine Emit.costs_unit Linkage.fields_context ?_ (fun d hd => (hsound.decls _ hd).1.args)
    hsound.calls fun _ => hserved
  intro f hf harray
  rw [Linkage.fields_context] at hf
  obtain ⟨e, he, rfl⟩ := mem_map.1 hf
  exact hfits.widths e he harray

theorem generate_cases (h : CheckedUnit.ofInstrument s keyword i = .ok u) (hclean : u.errors = [])
    (haligned : s.globals.Aligned) (hglobals : ∀ e ∈ s.globals.entries, e.rate.IsGlobal)
    {settings : Settings} (hfits : i.Fits u.locals (.of settings s.globals)) :
    (i.lacks ⟨u.locals, some s.globals⟩ = [] ∧
      ∃ code, i.generate (.of settings s.globals) u = .ok code ∧ code.ident = i.ident ∧
        code.codeSize = i.codeSize u.locals) ∨
    ∃ node reason rest, i.lacks ⟨u.locals, some s.globals⟩ = (node, reason) :: rest ∧
      i.generate (.of settings s.globals) u = .error (.unsupported (.of i.ident node reason)) := by
  have hsound := CheckedUnit.sound_of_ofInstrument h hclean
  have hlacks : i.lacks ⟨u.locals, some s.globals⟩ =
      u.locals.entries.flatMap (storageLacks i) ++
        (u.locals.entries.flatMap (sharingLacks i) ++
          lacksAmong ⟨u.locals, some s.globals⟩ (Stmt.walkAll (fun _ => true) [2] 0 i.body)) := by
    obtain ⟨hlocals, hadmits, htable⟩ := CheckedUnit.variables_of_ofInstrument h
    have hordinary : ∀ e ∈ u.locals.entries, e.rate ≠ .x := by
      intro e he hx
      have hrate := (hadmits e he).rate
      rw [hx] at hrate
      exact absurd hrate (by simp [Surroundings.context, Check.UnitKind.declares])
    have hnodup := hlocals.aligned.nodup
    rw [VariableTable.names, (htable hclean).1] at hnodup
    rw [(htable hclean).1] at hordinary ⊢
    rw [lacks, append_assoc, storageLacks_eq hnodup hordinary, sharingLacks_eq hnodup]
  rw [hlacks]
  cases hstorage : u.locals.entries.flatMap (storageLacks i) with
  | cons lack rest =>
    -- The fields are laid out first.
    exact .inr ⟨_, _, _, rfl, generate_of_storageLacks _ hstorage⟩
  | nil =>
    have hkeeps := keeps_of_storageLacks hstorage
    obtain ⟨hscoped, hrates⟩ := CheckedUnit.scoped_of_ofInstrument h hclean hglobals
    have hserved : Emit.Served (Linkage.context (.of settings s.globals) u i) u i :=
      ⟨Linkage.sees settings haligned hsound.aligned i,
        fun d hd => (hsound.decls _ hd).1.generator,
        fun e he => CheckedUnit.isSome_index?_of_tagged h hclean haligned hglobals he, hscoped,
        hrates⟩
    have hsmall := small_context (u := u) (i := i) (StoreLayout.below_ofTable s.globals)
      hfits.fields hfits.slots
    rcases (hfits.costs_unit hsound hserved).cases hsmall hfits.code with
      ⟨hnone, E, hrun, hsize⟩ | ⟨node, reason, rest, hfirst, hrun⟩
    · obtain ⟨code, hcode, hident, hwords⟩ := generate_of_unit hkeeps hrun
      exact .inl ⟨hnone, code, hcode, hident, hwords.trans hsize⟩
    · exact .inr ⟨node, reason, rest, hfirst, (generate_eq_error_iff hkeeps).2 hrun⟩

end Instrument

theorem Compilation.register_singleton {r : Repertoire} {b : Build} {code : CompiledUnit}
    (hcode : b.code = some (.ok code)) (hfree : r.unit? code.ident = none) :
    register r [b] = (⟨r.units ++ [code]⟩, []) := by
  obtain ⟨checked, _⟩ := b
  cases hcode
  simp only [register, Repertoire.register?, hfree]

/-- The check and the generation of code agree on what can be compiled. Let an instrument or a
template pass its check, and let the numbers in its code fit into words. If there is code for all
its nodes, it becomes a unit whose code has the size that the text tells, and the unit is registered
and found under its name. Otherwise the first node without code is refused, and nothing is
registered. -/
theorem CheckedOrchestra.builds_unless_lacking {tree : OrchestraTree} {o : CheckedOrchestra}
    (ho : CheckedOrchestra.ofTree tree = .ok o) {u : CheckedUnit} {i : Instrument}
    (hpart : (u, i) ∈ o.parts) (hclean : u.errors = []) (settings : Settings)
    (hfits : i.Fits u.locals (.of settings o.global.locals)) (force : Bool) {r : Repertoire}
    (hfree : r.unit? i.ident = none) :
    ∃ b, Build.of (.of settings o.global.locals) force u i = .ok b ∧
      ((i.lacks ⟨u.locals, some o.global.locals⟩ = [] ∧ ∃ code, b.code = some (.ok code) ∧
          code.ident = i.ident ∧ code.codeSize = i.codeSize u.locals ∧
          Compilation.register r [b] = (⟨r.units ++ [code]⟩, []) ∧
          Repertoire.unit? ⟨r.units ++ [code]⟩ i.ident = some code) ∨
        ∃ node reason rest,
          i.lacks ⟨u.locals, some o.global.locals⟩ = (node, reason) :: rest ∧
          b.code = some (.error (.of i.ident node reason)) ∧
          Compilation.register r [b] = (r, [])) := by
  obtain ⟨-, hnames, -, hchecks⟩ := CheckedOrchestra.ofTree_parts ho
  have hglobals := CheckedUnit.isGlobalRate_of_ofGlobal (checks_of_ofTree ho).global
  obtain ⟨s, keyword, hs, hcheck⟩ := hchecks u i hpart
  rw [← hs] at hnames hglobals hfits ⊢
  rw [Build.of, hclean, isEmpty_nil, Bool.true_or, if_pos rfl]
  rcases Instrument.generate_cases hcheck hclean hnames hglobals hfits with
    ⟨hlacks, code, hcode, hident, hsize⟩ | ⟨node, reason, rest, hlacks, hrefused⟩
  · rw [hcode]
    have hregister := Compilation.register_singleton (b := ⟨u, some (.ok code)⟩) rfl
      (hident.symm ▸ hfree)
    refine ⟨_, rfl, .inl ⟨hlacks, code, rfl, hident, hsize, hregister, ?_⟩⟩
    rw [← hident]
    exact (Compilation.register_ok (.cons rfl .nil) hregister).2 code mem_cons_self
  · rw [hrefused]
    exact ⟨_, rfl, .inr ⟨node, reason, rest, hlacks, rfl, rfl⟩⟩

/-- An instrument whose table hides a global one of the same name, and a template that reads the
global one. -/
def CheckedOrchestra.hiddenTable : Text :=
  "global \x7b ksig g; table w(harm, 8, 1); \x7d " ++
  "instr own(n) \x7b imports ksig g; asig y; table w(harm, 8, 1); y = tableread(w, n); " ++
  "output(y * g); \x7d " ++
  "template other(n) \x7b asig y; y = tableread(w, n); output(y); \x7d"

theorem CheckedOrchestra.builds_unless_lacking_hiddenTable :
    ∃ tree o settings u i u' i', OrchestraTree.parse hiddenTable = .ok tree ∧
      CheckedOrchestra.ofTree tree = .ok o ∧ (u, i) ∈ o.parts ∧ (u', i') ∈ o.parts ∧
      (∃ b code, Build.of (.of settings o.global.locals) false u i = .ok b ∧
        b.code = some (.ok code) ∧ Compilation.register {} [b] = (⟨[code]⟩, [])) ∧
      ∃ b node, Build.of (.of settings o.global.locals) false u' i' = .ok b ∧
        b.code = some (.error (.of i'.ident node (.globalTable "w"))) ∧
        Compilation.register {} [b] = ({}, []) := by
  have hchecks : (do
      let tree ← (OrchestraTree.parse hiddenTable).toOption
      let o ← (CheckedOrchestra.ofTree tree).toOption
      let settings ← o.settings.toOption
      let p ← o.parts[0]?
      let p' ← o.parts[1]?
      some ([p, p'].map fun p => (p.1.errors,
        decide (p.2.Fits p.1.locals (.of settings o.global.locals)),
        (p.2.lacks ⟨p.1.locals, some o.global.locals⟩).map Prod.snd))) =
      some [([], true, []), ([], true, [.globalTable "w"])] := by decide +kernel
  simp only [Option.bind_eq_bind, Option.bind_eq_some_iff, toOption_eq_some_iff] at hchecks
  obtain ⟨tree, htree, o, ho, settings, -, ⟨u, i⟩, hui, ⟨u', i'⟩, hui', hparts⟩ := hchecks
  simp only [map_cons, map_nil, Option.some.injEq, List.cons.injEq, Prod.mk.injEq,
    decide_eq_true_eq, and_true] at hparts
  obtain ⟨⟨hclean, hfits, hlacks⟩, hclean', hfits', hlacks'⟩ := hparts
  have hpart := mem_of_getElem? hui
  have hpart' := mem_of_getElem? hui'
  refine ⟨tree, o, settings, u, i, u', i', htree, ho, hpart, hpart', ?_, ?_⟩
  · obtain ⟨b, hb, ⟨-, code, hcode, -, -, hregister, -⟩ | ⟨node, reason, rest, h, -⟩⟩ :=
      CheckedOrchestra.builds_unless_lacking ho hpart hclean settings hfits false
        (r := {}) rfl
    · exact ⟨b, code, hb, hcode, hregister⟩
    · rw [h] at hlacks
      cases hlacks
  · obtain ⟨b, hb, ⟨h, -⟩ | ⟨node, reason, rest, h, hcode, hregister⟩⟩ :=
      CheckedOrchestra.builds_unless_lacking ho hpart' hclean' settings hfits' false
        (r := {}) rfl
    · rw [h] at hlacks'
      cases hlacks'
    · rw [h] at hlacks'
      obtain rfl : reason = .globalTable "w" := (List.cons.inj hlacks').1
      exact ⟨b, node, hb, hcode, hregister⟩

end Orchestrion
