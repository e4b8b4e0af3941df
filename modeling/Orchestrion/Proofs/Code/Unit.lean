import Orchestrion.Proofs.Code.Translation

/-!
# The code of a unit

What the four slots of a generated unit hold: in the construct slot the arrays and tables of the
unit, and in each of the others the imports of its rate, the statements of its rate in the order of
the text, and the exports of its rate. Every slot ends with a return.
-/

namespace Orchestrion

open List

variable {l : Linkage} {checked : CheckedUnit} {i : Instrument}

open Instruction Emit

section Relations

variable (c : EmitContext) (u : CompiledUnit)

def arraysCode (n : Nat) : List Field → List Instruction
  | [] => []
  | f :: fs => (if f.array then [.newArray n f.width] else []) ++ arraysCode (n + 1) fs

/-- Instructions that push the values of constants. -/
inductive ConstantsCode : List Expr → List Instruction → Prop
  | nil : ConstantsCode [] []
  | cons {e : Expr} {es : List Expr} {i : Instruction} {is : List Instruction}
    (h : PushCode u e.constantOrZero i) (hes : ConstantsCode es is) :
    ConstantsCode (e :: es) (i :: is)

/-- Instructions that fill the tables that are declared. -/
inductive TablesCode : List Decl → List Instruction → Prop
  | nil : TablesCode [] []
  | vars {d : VariableDecl} {ds : List Decl} {is : List Instruction} (h : TablesCode ds is) :
    TablesCode (.vars d :: ds) is
  | table {d : TableDecl} {ds : List Decl} {g : Generator} {size : Expr} {args : List Expr}
    {as is : List Instruction} (hgenerator : Generator.ofText? d.generator = some g)
    (hargs : d.args = size :: args) (has : ConstantsCode u args as) (h : TablesCode ds is) :
    TablesCode (.table d :: ds)
      (as ++ [.tableGen ((c.field? d.ident).getD 0 : Nat) g.code args.length] ++ is)

/-- Instructions that move the chosen variables of a slot's rate between their fields and the
global store. -/
inductive SharedCode (slot : Slot) (chosen : Entry → Bool) (move : Int → Int → Instruction) :
    List Entry → List Instruction → Prop
  | nil : SharedCode slot chosen move [] []
  | skip {e : Entry} {es : List Entry} {is : List Instruction}
    (h : ¬(chosen e = true ∧ Slot.ofRate? e.rate = some slot))
    (hes : SharedCode slot chosen move es is) : SharedCode slot chosen move (e :: es) is
  | move {e : Entry} {es : List Entry} {f g : Nat} {is : List Instruction} (h : chosen e = true)
    (hslot : Slot.ofRate? e.rate = some slot) (hfield : c.field? e.ident = some f)
    (hglobal : c.store.index? e.ident = some g) (hes : SharedCode slot chosen move es is) :
    SharedCode slot chosen move (e :: es) (move f g :: is)

/-- Instructions that carry out those statements at the top of a unit, the first of them being
number `n`, whose rate belongs to a slot. -/
inductive BodyCode (checked : CheckedUnit) (slot : Slot) : Nat → List Stmt → List Instruction → Prop
  | nil {n : Nat} : BodyCode checked slot n [] []
  | skip {n : Nat} {s : Stmt} {ss : List Stmt} {own : Slot} {is : List Instruction}
    (hown : Slot.ofRate? (checked.stmtRate n) = some own) (hslot : own ≠ slot)
    (hss : BodyCode checked slot (n + 1) ss is) : BodyCode checked slot n (s :: ss) is
  | stmt {n : Nat} {s : Stmt} {ss : List Stmt} {is js : List Instruction}
    (h : Slot.ofRate? (checked.stmtRate n) = some slot) (hs : StmtCode c u s is)
    (hss : BodyCode checked slot (n + 1) ss js) : BodyCode checked slot n (s :: ss) (is ++ js)

/-- Instructions that make the storage of an instance, all of them in the construct slot. -/
def StorageCode (i : Instrument) (slot : Slot) (is : List Instruction) : Prop :=
  ∃ ts, TablesCode c u i.decls ts ∧ is = only .construct (arraysCode 0 c.fields ++ ts) slot

/-- The code of a slot of a unit whose statements have the given code: they stand between the
imports and the exports. -/
def FrameCode (checked : CheckedUnit) (i : Instrument) (slot : Slot) (body is : List Instruction) :
    Prop :=
  ∃ storage imports exports,
    StorageCode c u i slot storage ∧
    SharedCode c slot Entry.imports .importGlobal checked.locals.entries imports ∧
    SharedCode c slot Entry.exports .exportField checked.locals.entries exports ∧
    is = storage ++ imports ++ body ++ exports ++ [.ret]

def SlotCode (checked : CheckedUnit) (i : Instrument) (slot : Slot) (is : List Instruction) :
    Prop :=
  ∃ storage imports body exports,
    StorageCode c u i slot storage ∧
    SharedCode c slot Entry.imports .importGlobal checked.locals.entries imports ∧
    BodyCode c u checked slot 0 i.body body ∧
    SharedCode c slot Entry.exports .exportField checked.locals.entries exports ∧
    is = storage ++ imports ++ body ++ exports ++ [.ret]

end Relations

section Storage

variable {c : EmitContext} {u : CompiledUnit} {slot : Slot} {is : List Instruction}

theorem SharedCode.forall_mem {chosen : Entry → Bool} {move : Int → Int → Instruction}
    {es : List Entry} {p : Instruction → Prop} (hmove : ∀ f g, p (move f g))
    (h : SharedCode c slot chosen move es is) : ∀ x ∈ is, p x := by
  induction h with
  | nil => exact forall_mem_nil _
  | skip _ _ ih => exact ih
  | move _ _ _ _ _ ih => exact forall_mem_cons.2 ⟨hmove _ _, ih⟩

/-- Whether the instruction does nothing but make arrays, fill them and end the code. -/
def Instruction.builds : Instruction → Bool
  | num _ | newArray _ _ | tableGen _ _ _ | ret => true
  | _ => false

theorem StorageCode.builds (h : StorageCode c u i slot is) : ∀ x ∈ is, x.builds = true := by
  have harrays (n : Nat) (fs : List Field) : ∀ x ∈ arraysCode n fs, x.builds = true := by
    induction fs generalizing n with
    | nil => exact forall_mem_nil _
    | cons f fs ih =>
      unfold arraysCode
      split <;> simpa [Instruction.builds] using ih (n + 1)
  have hconstants {es : List Expr} {as : List Instruction} (has : ConstantsCode u es as) :
      ∀ x ∈ as, x.builds = true := by
    induction has with
    | nil => exact forall_mem_nil _
    | cons hpush _ ih =>
      obtain ⟨n, rfl, -⟩ := hpush
      simpa [Instruction.builds] using ih
  have htables {ds : List Decl} {ts : List Instruction} (hts : TablesCode c u ds ts) :
      ∀ x ∈ ts, x.builds = true := by
    induction hts with
    | nil => exact forall_mem_nil _
    | vars _ ih => exact ih
    | table _ _ has _ ih =>
      simp only [forall_mem_append, forall_mem_singleton]
      exact ⟨⟨hconstants has, rfl⟩, ih⟩
  obtain ⟨ts, hts, rfl⟩ := h
  rw [only]
  split
  · exact forall_mem_append.2 ⟨harrays 0 _, htables hts⟩
  · exact forall_mem_nil _

end Storage

namespace Emit

variable {slot : Slot} {c : EmitContext} {E E' : Emitter}

/-- If the step succeeds, it has appended code of some kind to the slots. -/
def EmitsAll {α : Type} (x : Emit α)
    (kind : α → CompiledUnit → (Slot → List Instruction) → Prop) : Prop :=
  ∀ E E' a, x.run E = .ok (a, E') →
    ∃ added, Emitter.Grows added E E' ∧ ∀ u, E'.Within u → kind a u added

variable {α β : Type}

theorem Emits.all {x : Emit α} {kind : α → CompiledUnit → List Instruction → Prop}
    (h : Emits slot x kind) :
    EmitsAll x fun a u added => ∃ is, kind a u is ∧ added = only slot is := by
  intro E E' a hx
  obtain ⟨is, hgrows, hkind⟩ := h E E' a hx
  exact ⟨only slot is, hgrows, fun u hu => ⟨is, hkind u hu, rfl⟩⟩

namespace EmitsAll

variable {kind : α → CompiledUnit → (Slot → List Instruction) → Prop}

theorem mono {x : Emit α} {wider : α → CompiledUnit → (Slot → List Instruction) → Prop}
    (h : EmitsAll x kind) (hkind : ∀ a u added, kind a u added → wider a u added) :
    EmitsAll x wider := by
  intro E E' a hx
  obtain ⟨added, hgrows, hadded⟩ := h E E' a hx
  exact ⟨added, hgrows, fun u hu => hkind a u added (hadded u hu)⟩

theorem pure (a : α) : EmitsAll (Pure.pure a : Emit α) fun b _ added =>
    b = a ∧ added = fun _ => [] := by
  intro E E' b h
  obtain ⟨rfl, rfl⟩ := pure_ok h
  exact ⟨_, .refl _, fun _ _ => ⟨rfl, rfl⟩⟩

theorem bind {x : Emit α} {f : α → Emit β}
    {more : α → β → CompiledUnit → (Slot → List Instruction) → Prop}
    (hx : EmitsAll x kind) (hf : ∀ a, EmitsAll (f a) (more a)) :
    EmitsAll (x >>= f) fun b u added =>
      ∃ a first second, kind a u first ∧ more a b u second ∧
        added = fun slot => first slot ++ second slot := by
  intro E E' b h
  obtain ⟨a, E₁, ha, hb⟩ := bind_ok h
  obtain ⟨first, hfirst, hkind⟩ := hx E E₁ a ha
  obtain ⟨second, hsecond, hmore⟩ := hf a E₁ E' b hb
  exact ⟨_, hfirst.trans hsecond, fun u hu =>
    ⟨a, first, second, hkind u (hsecond.within hu), hmore u hu, rfl⟩⟩

end EmitsAll

/-! ### Storage -/

theorem emits_makeArrays (n : Nat) (fs : List Field) :
    Emits .construct (makeArrays n fs) fun _ _ is => is = arraysCode n fs := by
  induction fs generalizing n with
  | nil => exact .pure fun _ => rfl
  | cons f fs ih =>
    rw [makeArrays, arraysCode]
    split
    next =>
      refine ((emits_instruction _ _).bind fun _ => ih (n + 1)).mono ?_
      rintro _ u _ ⟨_, _, _, rfl, rfl, rfl⟩
      rfl
    next =>
      exact ih (n + 1)

theorem emits_pushConstants (es : List Expr) :
    Emits .construct (pushConstants es) fun _ u is => ConstantsCode u es is := by
  induction es with
  | nil => exact .pure fun _ => .nil
  | cons e es ih =>
    refine ((emits_push _ _).bind fun _ => ih).mono ?_
    rintro _ u _ ⟨_, _, is, ⟨i, hi, rfl⟩, his, rfl⟩
    exact .cons hi his

theorem emits_fillTables (c : EmitContext) (ds : List Decl) :
    Emits .construct (fillTables c ds) fun _ u is => TablesCode c u ds is := by
  induction ds with
  | nil => exact .pure fun _ => .nil
  | cons d ds ih =>
    cases d with
    | vars d => exact ih.mono fun _ _ _ => .vars
    | table d =>
      refine (Emits.bind (?_ : Emits .construct (fillTable c d) fun _ u is =>
        ∃ g size args as, Generator.ofText? d.generator = some g ∧ d.args = size :: args ∧
          ConstantsCode u args as ∧
          is = as ++ [.tableGen ((c.field? d.ident).getD 0 : Nat) g.code args.length])
        fun _ => ih).mono ?_
      · rw [fillTable]
        split
        next => exact .throw _
        next g hgenerator =>
          split
          next => exact .throw _
          next size args hargs =>
            exact (emits_pushConstants args).snoc fun _ as has =>
              ⟨g, size, args, as, hgenerator, hargs, has, rfl⟩
      · rintro _ u _ ⟨_, _, is, ⟨g, size, args, as, hgenerator, hargs, has, rfl⟩, his, rfl⟩
        exact .table hgenerator hargs has his

/-! ### Shared variables -/

/-- Where a variable is kept that is shared with the global store. -/
def IsShared (c : EmitContext) (e : Entry) (s : Shared) : Prop :=
  Slot.ofRate? e.rate = some s.slot ∧ c.field? e.ident = some s.field ∧
    c.store.index? e.ident = some s.global

def Shared.exportCode (s : Shared) : Instruction := .exportField s.field s.global

theorem emits_shared (c : EmitContext) (i : Instrument) (e : Entry) (slot : Slot)
    (hkeeps : keeps e.rate = true) (hfield : (c.field? e.ident).isSome) :
    Emits slot (shared c i e) fun s _ is => is = [] ∧ IsShared c e s := by
  rw [shared]
  split
  next => exact .throw _
  next hrate =>
    split
    next => exact .throw _
    next g hglobal =>
      obtain ⟨f, hf⟩ := Option.isSome_iff_exists.1 hfield
      obtain ⟨s, hs⟩ : ∃ s, Slot.ofRate? e.rate = some s := by
        revert hkeeps hrate
        cases e.rate <;> simp [keeps, Rate.isSignal, Rate.speed?, Slot.ofRate?]
      exact .pure fun _ => ⟨rfl, by rw [hs]; rfl, by rw [hf]; rfl, hglobal⟩

theorem sharedCode_cons {e : Entry} {s : Shared} {chosen : Entry → Bool}
    {move : Int → Int → Instruction} {es : List Entry} {is : List Instruction}
    (hshared : IsShared c e s) (hes : SharedCode c slot chosen move es is) :
    SharedCode c slot chosen move (e :: es)
      ((if chosen e then only s.slot [move s.field s.global] slot else []) ++ is) := by
  obtain ⟨hrate, hfield, hglobal⟩ := hshared
  split
  next hchosen =>
    by_cases hslot : slot = s.slot
    · subst hslot
      rw [only_self]
      exact .move hchosen hrate hfield hglobal hes
    · rw [only, if_neg hslot]
      refine .skip (fun h => hslot ?_) hes
      exact Option.some.inj (h.2.symm.trans hrate)
  next hchosen => exact .skip (fun h => hchosen h.1) hes

theorem exportCode_cons (e : Entry) (s : Shared) (others : List Shared) (slot : Slot) :
    ((if e.exports then s :: others else others).filter fun s => s.slot = slot).map
        Shared.exportCode =
      (if e.exports then only s.slot [.exportField s.field s.global] slot else []) ++
        (others.filter fun s => s.slot = slot).map Shared.exportCode := by
  cases e.exports with
  | false => rfl
  | true =>
    by_cases hslot : s.slot = slot
    · simp [only, hslot, Shared.exportCode]
    · simp [only, hslot, Ne.symm hslot]

theorem emits_importShared (c : EmitContext) (i : Instrument) (es : List Entry)
    (hkeeps : ∀ e ∈ es, keeps e.rate = true) (hfield : ∀ e ∈ es, (c.field? e.ident).isSome) :
    EmitsAll (importShared c i es) fun exported _ added => ∀ slot,
      SharedCode c slot Entry.imports .importGlobal es (added slot) ∧
      SharedCode c slot Entry.exports .exportField es
        ((exported.filter fun s => s.slot = slot).map Shared.exportCode) := by
  induction es with
  | nil =>
    refine (EmitsAll.pure _).mono ?_
    rintro _ u _ ⟨rfl, rfl⟩ slot
    exact ⟨.nil, .nil⟩
  | cons e es ih =>
    specialize ih (fun e' he' => hkeeps e' (mem_cons_of_mem _ he'))
      (fun e' he' => hfield e' (mem_cons_of_mem _ he'))
    rw [importShared]
    split
    next htagged =>
      -- An export is only put in front of the others: its code comes after the body.
      have hrest (s : Shared) : EmitsAll (do
          let others ← importShared c i es
          return if e.exports then s :: others else others) fun exported _ added =>
            IsShared c e s → ∀ slot,
              SharedCode c slot Entry.imports .importGlobal es (added slot) ∧
              SharedCode c slot Entry.exports .exportField (e :: es)
                ((exported.filter fun s => s.slot = slot).map Shared.exportCode) := by
        refine (ih.bind fun others => EmitsAll.pure _).mono ?_
        rintro _ u _ ⟨others, added, _, hothers, ⟨rfl, rfl⟩, rfl⟩ hshared slot
        rw [exportCode_cons]
        dsimp only
        rw [append_nil]
        exact ⟨(hothers slot).1, sharedCode_cons hshared (hothers slot).2⟩
      refine ((emits_shared c i e .construct (hkeeps e mem_cons_self)
        (hfield e mem_cons_self)).all.bind fun s =>
          (?_ : EmitsAll _ fun exported _ added => IsShared c e s → ∀ slot,
            SharedCode c slot Entry.imports .importGlobal (e :: es) (added slot) ∧
            SharedCode c slot Entry.exports .exportField (e :: es)
              ((exported.filter fun s => s.slot = slot).map Shared.exportCode))).mono ?_
      · by_cases himports : e.imports = true
        · simp only [himports, if_true]
          refine ((emits_instruction s.slot _).all.bind fun _ => hrest s).mono ?_
          rintro exported u _ ⟨_, _, added, ⟨_, rfl, rfl⟩, hadded, rfl⟩ hshared slot
          obtain ⟨hcode, hexports⟩ := hadded hshared slot
          have himport := sharedCode_cons hshared hcode
          rw [if_pos himports] at himport
          exact ⟨himport, hexports⟩
        · simp only [himports]
          refine (hrest s).mono fun exported u added hadded hshared slot => ?_
          obtain ⟨hcode, hexports⟩ := hadded hshared slot
          exact ⟨.skip (fun h => himports h.1) hcode, hexports⟩
      · rintro _ u _ ⟨s, _, added, ⟨_, ⟨rfl, hshared⟩, rfl⟩, hadded, rfl⟩ slot
        simpa using hadded hshared slot
    next htagged =>
      rw [Entry.isTagged, Bool.or_eq_true, not_or] at htagged
      exact ih.mono fun exported u added h slot =>
        ⟨.skip (fun h' => htagged.1 h'.1) (h slot).1, .skip (fun h' => htagged.2 h'.1) (h slot).2⟩

theorem emits_exportShared (slot : Slot) (ss : List Shared) :
    Emits slot (exportShared slot ss) fun _ _ is =>
      is = (ss.filter fun s => s.slot = slot).map Shared.exportCode := by
  induction ss with
  | nil => exact .pure fun _ => rfl
  | cons s ss ih =>
    rw [exportShared]
    split
    next hslot =>
      refine ((emits_instruction slot _).bind fun _ => ih).mono ?_
      rintro _ u _ ⟨_, _, _, rfl, rfl, rfl⟩
      rw [filter_cons_of_pos (by simpa using hslot)]
      rfl
    next hslot =>
      rw [filter_cons_of_neg (by simpa using hslot)]
      exact ih

/-! ### Statements at the top of a unit -/

theorem bodyCode_cons {u : CompiledUnit} {checked : CheckedUnit} {own : Slot} {n : Nat} {s : Stmt}
    {ss : List Stmt} {is js : List Instruction}
    (hown : Slot.ofRate? (checked.stmtRate n) = some own)
    (hs : StmtCode c u s is) (hss : BodyCode c u checked slot (n + 1) ss js) :
    BodyCode c u checked slot n (s :: ss) (only own is slot ++ js) := by
  by_cases hslot : slot = own
  · subst hslot
    rw [only_self]
    exact .stmt hown hs hss
  · rw [only, if_neg hslot]
    exact .skip hown (Ne.symm hslot) hss

theorem emits_body (c : EmitContext) (checked : CheckedUnit) (n : Nat) (ss : List Stmt)
    (hfit : Stmt.AllCallsFit ss) :
    EmitsAll (body c checked n ss) fun _ u added =>
      ∀ slot, BodyCode c u checked slot n ss (added slot) := by
  induction ss generalizing n with
  | nil =>
    refine (EmitsAll.pure _).mono ?_
    rintro _ u _ ⟨-, rfl⟩ slot
    exact .nil
  | cons s ss ih =>
    rw [body]
    split
    next =>
      intro E E' a h
      obtain ⟨_, _, hrefuse, -⟩ := bind_ok h
      exact absurd hrefuse throw_ne_ok
    next own hown =>
      refine ((emits_stmt c own s hfit.1).all.bind fun _ => ih (n + 1) hfit.2).mono ?_
      rintro _ u _ ⟨_, _, added, ⟨is, his, rfl⟩, hadded, rfl⟩ slot
      exact bodyCode_cons hown his (hadded slot)

/-! ### Whole units -/

theorem finish_ok {exported : List Shared} (h : (finish exported slot).run E = .ok ((), E')) :
    Emitter.Grows (only slot ((exported.filter fun s => s.slot = slot).map Shared.exportCode ++
      [.ret])) E E' ∧ (E'.streams.get slot).pending = [] := by
  obtain ⟨_, E₁, hexport, hret⟩ := bind_ok h
  obtain ⟨_, hgrows, hcode⟩ := emits_exportShared slot exported E E₁ _ hexport
  obtain ⟨u, hu⟩ := E₁.exists_within
  obtain rfl := hcode u hu
  refine ⟨hgrows.trans_only (append_ok hret), ?_⟩
  rw [eq_of_append_ok hret]
  simp [Stream.add]

theorem finishAll_ok {exported : List Shared}
    (h : (Slot.all.forM (finish exported)).run E = .ok ((), E')) :
    Emitter.Grows (fun slot => (exported.filter fun s => s.slot = slot).map Shared.exportCode ++
      [.ret]) E E' ∧ ∀ slot, (E'.streams.get slot).pending = [] := by
  obtain ⟨_, E₁, h₁, h⟩ := bind_ok h
  obtain ⟨_, E₂, h₂, h⟩ := bind_ok h
  obtain ⟨_, E₃, h₃, h⟩ := bind_ok h
  obtain ⟨_, E₄, h₄, h⟩ := bind_ok h
  obtain ⟨-, rfl⟩ := pure_ok h
  obtain ⟨g₁, p₁⟩ := finish_ok h₁
  obtain ⟨g₂, p₂⟩ := finish_ok h₂
  obtain ⟨g₃, p₃⟩ := finish_ok h₃
  obtain ⟨g₄, p₄⟩ := finish_ok h₄
  -- What is appended to a slot after it was finished is nothing, so that it stays as it was.
  have hkept {slot : Slot} {is : List Instruction} {E E' : Emitter}
      (g : Emitter.Grows (only slot is) E E') {other : Slot} (hother : other ≠ slot)
      (p : (E.streams.get other).pending = []) : (E'.streams.get other).pending = [] := by
    rwa [g.untouched other (if_neg hother)]
  constructor
  · convert g₁.trans (g₂.trans (g₃.trans g₄)) using 1
    funext slot
    cases slot <;> simp [only]
  · intro slot
    cases slot with
    | construct =>
      exact hkept g₄ (by decide) (hkept g₃ (by decide) (hkept g₂ (by decide) p₁))
    | init => exact hkept g₄ (by decide) (hkept g₃ (by decide) p₂)
    | control => exact hkept g₄ (by decide) p₃
    | audio => exact p₄

theorem unit_ok {checked : CheckedUnit} {i : Instrument}
    {kind : CompiledUnit → (Slot → List Instruction) → Prop}
    (hbody : EmitsAll (body c checked 0 i.body) fun _ => kind)
    (hkeeps : ∀ e ∈ checked.locals.entries, keeps e.rate = true)
    (hfield : ∀ e ∈ checked.locals.entries, (c.field? e.ident).isSome)
    (h : (unit c checked i).run E = .ok ((), E')) :
    ∃ added bodies, Emitter.Grows added E E' ∧ (∀ slot, (E'.streams.get slot).pending = []) ∧
      ∀ u, E'.Within u → kind u bodies ∧
        ∀ slot, FrameCode c u checked i slot (bodies slot) (added slot) := by
  obtain ⟨_, E₁, harrays, h⟩ := bind_ok h
  obtain ⟨_, E₂, htables, h⟩ := bind_ok h
  obtain ⟨exported, E₃, hshared, h⟩ := bind_ok h
  obtain ⟨_, E₄, hstmts, h⟩ := bind_ok h
  obtain ⟨as, gas, has⟩ := emits_makeArrays 0 c.fields E E₁ _ harrays
  obtain ⟨ts, gts, hts⟩ := emits_fillTables c i.decls E₁ E₂ _ htables
  obtain ⟨ms, gms, hms⟩ := emits_importShared c i _ hkeeps hfield E₂ E₃ _ hshared
  obtain ⟨bs, gbs, hbs⟩ := hbody E₃ E₄ _ hstmts
  obtain ⟨ges, hpending⟩ := finishAll_ok h
  refine ⟨_, bs, gas.trans_only gts |>.trans (gms.trans (gbs.trans ges)), hpending, fun u hu => ?_⟩
  have hu₄ := ges.within hu
  have hu₃ := gbs.within hu₄
  have hu₂ := gms.within hu₃
  obtain rfl := has u (gts.within hu₂)
  refine ⟨hbs u hu₄, fun slot => ⟨_, _, _, ⟨ts, hts u hu₂, rfl⟩, (hms u hu₃ slot).1,
    (hms u hu₃ slot).2, ?_⟩⟩
  simp

end Emit

/-! ### Fields -/

namespace FieldLayout

variable {settings : Settings} {layout : FieldLayout} {es : List Entry}

/-- The fields of all the variables, in order. -/
def ofEntries (settings : Settings) (es : List Entry) : FieldLayout := es.foldl (add settings) {}

theorem fields_foldl_add (layout : FieldLayout) (es : List Entry) :
    (es.foldl (add settings) layout).fields = layout.fields ++ es.map (Entry.field settings) := by
  induction es generalizing layout with
  | nil => simp
  | cons e es ih => rw [foldl_cons, ih, add, map_cons, append_assoc]; rfl

@[simp]
theorem fields_ofEntries (settings : Settings) (es : List Entry) :
    (ofEntries settings es).fields = es.map (Entry.field settings) :=
  fields_foldl_add {} es

/-- The places of the names stay aligned with the fields, as long as the names are different. -/
theorem indexes_foldl_add (h : layout.places.Indexes (layout.fields.map Field.ident))
    (hnodup : (layout.fields.map Field.ident ++ es.map Entry.ident).Nodup) :
    (es.foldl (add settings) layout).places.Indexes
      ((es.foldl (add settings) layout).fields.map Field.ident) := by
  induction es generalizing layout with
  | nil => exact h
  | cons e es ih =>
    have hnew := h.set fun hmem => (nodup_append.1 hnodup).2.2 _ hmem _ mem_cons_self rfl
    rw [length_map] at hnew
    refine ih ?_ ?_
    · rwa [add, map_append]
    · rwa [add, map_append, append_assoc]

/-- A place is among those of the fields, whatever the names are. -/
theorem below_foldl_add (h : layout.places.Below layout.fields.length) (es : List Entry) :
    (es.foldl (add settings) layout).places.Below
      (es.foldl (add settings) layout).fields.length := by
  induction es generalizing layout with
  | nil => exact h
  | cons e es ih =>
    refine ih ?_
    rw [add, length_append]
    exact h.set e.ident

/-- The names that have a place are those of the variables, besides those that had one. -/
theorem isSome_foldl_add {x : Text} :
    ((es.foldl (add settings) layout).places.get? x).isSome = true ↔
      (layout.places.get? x).isSome = true ∨ x ∈ es.map Entry.ident := by
  induction es generalizing layout with
  | nil => simp
  | cons e es ih =>
    rw [foldl_cons, ih, add, NameMap.get?_set, map_cons, mem_cons]
    split
    next heq => simp [heq]
    next hne => simp [Ne.symm hne]

end FieldLayout

/-- What is known of a unit while its code grows: its fields are those of all its variables. -/
def Linkage.context (l : Linkage) (checked : CheckedUnit) (i : Instrument) : EmitContext where
  toFieldLayout := .ofEntries l.settings checked.locals.entries
  ident := i.ident
  scope := ⟨checked.locals, some l.globals⟩
  store := l.store

@[simp]
theorem Linkage.fields_context : (l.context checked i).fields =
    checked.locals.entries.map (Entry.field l.settings) :=
  FieldLayout.fields_ofEntries ..

/-- The unit of an instrument: its fields are those of the variables, and each slot holds its code
and leaves room for it. -/
structure Generated (l : Linkage) (checked : CheckedUnit) (i : Instrument) (u : CompiledUnit) :
    Prop where
  ident : u.ident = i.ident
  fields : u.fields = checked.locals.entries.map (Entry.field l.settings)
  params : u.params =
    i.params.map fun p => ((((l.context checked i).field? p.ident).getD 0 : Nat) : Int)
  keeps : ∀ e ∈ checked.locals.entries, Emit.keeps e.rate = true
  code : ∀ slot, ∃ is, u.code.get slot = wordsOf is ∧ (pushCount is : Int) ≤ u.maxStack ∧
    SlotCode (l.context checked i) u checked i slot is

theorem layFields_ok {settings : Settings} {layout layout' : FieldLayout} {es : List Entry}
    (h : Emit.layFields settings layout es = .ok layout') :
    (∀ e ∈ es, Emit.keeps e.rate = true) ∧ layout' = es.foldl (.add settings) layout := by
  induction es generalizing layout with
  | nil =>
    cases h
    simp
  | cons e es ih =>
    rw [Emit.layFields] at h
    split at h
    next hkeeps =>
      obtain ⟨hall, rfl⟩ := ih h
      exact ⟨by simpa [hkeeps] using hall, rfl⟩
    next => cases h

theorem Linkage.below_context :
    (l.context checked i).places.Below (l.context checked i).fields.length :=
  FieldLayout.below_foldl_add NameMap.below_empty _

/-- The number of a field is the place of its variable in the table. -/
theorem Linkage.field?_context (h : checked.locals.Aligned) (x : Text) :
    (l.context checked i).field? x = checked.locals.index? x := by
  have hfields : (l.context checked i).places.Indexes
      ((l.context checked i).fields.map Field.ident) :=
    FieldLayout.indexes_foldl_add NameMap.indexes_empty h.nodup
  rw [fields_context, map_map] at hfields
  exact Option.ext fun n => (hfields x n).trans (h x n).symm

theorem Linkage.isSome_field? {e : Entry} (he : e ∈ checked.locals.entries) :
    ((l.context checked i).field? e.ident).isSome :=
  FieldLayout.isSome_foldl_add.2 (.inr (mem_map_of_mem he))

theorem Slots.get_le_max (s : Slots Nat) (slot : Slot) :
    (s.get slot : Int) ≤ max (max s.construct s.init : Int) (max s.control s.audio : Int) := by
  cases slot <;> simp only [Slots.get] <;> omega

theorem Instrument.generate_frame {u : CompiledUnit}
    {kind : CompiledUnit → (Slot → List Instruction) → Prop}
    (hbody : EmitsAll (Emit.body (l.context checked i) checked 0 i.body) fun _ => kind)
    (h : i.generate l checked = .ok u) :
    u.ident = i.ident ∧ u.fields = checked.locals.entries.map (Entry.field l.settings) ∧
      u.params = i.params.map (fun p =>
      ((((l.context checked i).field? p.ident).getD 0 : Nat) : Int)) ∧
      (∀ e ∈ checked.locals.entries, Emit.keeps e.rate = true) ∧
      ∃ bodies, kind u bodies ∧ ∀ slot, ∃ is, u.code.get slot = wordsOf is ∧
        (pushCount is : Int) ≤ u.maxStack ∧
        FrameCode (l.context checked i) u checked i slot (bodies slot) is := by
  rw [Instrument.generate] at h
  dsimp only at h
  split at h
  next => cases h
  next layout hlayout =>
    obtain ⟨hkeeps, rfl⟩ := layFields_ok hlayout
    obtain ⟨⟨_, E⟩, hunit, h⟩ := exists_of_bind_eq_ok h
    cases h
    obtain ⟨added, bodies, hgrows, hpending, hcode⟩ := Emit.unit_ok hbody hkeeps
      (fun e he => Linkage.isSome_field? he) hunit
    refine ⟨rfl, FieldLayout.fields_ofEntries .., rfl, hkeeps, bodies,
      (hcode _ ⟨prefix_rfl, Int.le_refl _⟩).1, fun slot => ⟨added slot, ?_, ?_, ?_⟩⟩
    · have hsettled := hgrows.settled slot
      rw [Emitter.settled, Stream.settled_of_pending (hpending slot)] at hsettled
      simpa [Emitter.settled, Stream.settled] using hsettled
    · have hpushes := hgrows.pushes slot
      have hempty : ((({} : Emitter).streams.get slot).pushes) = 0 := by cases slot <;> rfl
      rw [hempty, Nat.zero_add, ← Slots.get_map _ Stream.pushes] at hpushes
      rw [← hpushes]
      exact Slots.get_le_max _ slot
    · exact (hcode _ ⟨prefix_rfl, Int.le_refl _⟩).2 slot

theorem Instrument.generate_ok {u : CompiledUnit} (hfit : Stmt.AllCallsFit i.body)
    (h : i.generate l checked = .ok u) : Generated l checked i u := by
  obtain ⟨hident, hfields, hparams, hkeeps, bodies, hbodies, hcode⟩ :=
    Instrument.generate_frame (emits_body _ checked 0 i.body hfit) h
  refine ⟨hident, hfields, hparams, hkeeps, fun slot => ?_⟩
  obtain ⟨is, hwords, hroom, storage, imports, exports, hstorage, himports, hexports, his⟩ :=
    hcode slot
  exact ⟨is, hwords, hroom, storage, imports, bodies slot, exports, hstorage, himports,
    hbodies slot, hexports, his⟩

end Orchestrion
