import Mathlib.Data.List.Nodup
import Orchestrion.Proofs.Evaluation
import Orchestrion.Proofs.Outcome

/-!
# What is assigned to a variable

The values that the source assigns to a variable in a pass, in order, beside the evaluation of the
pass. A variable holds the last of them at the end of the statements; the copies from and to the
global store stand before and behind the statements, in passes of the rate of the variable only.
-/

namespace Orchestrion.Scene

/-! ### Assigned values -/

section Assigned

variable (σ : Scene)

def assignedAfter {α : Type} (x : σ.Evaluation α) (rest : α → σ.Memory → List Float32)
    (m : σ.Memory) : List Float32 :=
  match x m with
  | .ok a m' => rest a m'
  | .error _ _ => []

/-- What is assigned while a loop goes round, at most the given number of times, if `inBody` is what
is assigned in its body. -/
def assignedWhile (guard : σ.Evaluation Float32) (body : σ.Evaluation Unit)
    (inBody : σ.Memory → List Float32) : Nat → σ.Memory → List Float32
  | 0 => fun _ => []
  | rounds + 1 => σ.assignedAfter guard fun v m =>
    if v == 0 then []
    else inBody m ++ σ.assignedAfter body (fun _ => assignedWhile guard body inBody rounds) m

mutual

/-- The values that the evaluation of a statement assigns to the variable of a name, in order. -/
def assigned (x : Text) (rounds : Nat) : Stmt → σ.Memory → List Float32
  | .assign _ t e => σ.assignedAfter (σ.target t) fun _ =>
    σ.assignedAfter (σ.value e) fun v _ => if t.ident = x ∧ t.index = none then [v] else []
  | .ifThen _ guard body => σ.assignedAfter (σ.value guard) fun v =>
    if v == 0 then fun _ => [] else assignedAll x rounds body
  | .ifElse _ guard yes no => σ.assignedAfter (σ.value guard) fun v =>
    if v == 0 then assignedAll x rounds no else assignedAll x rounds yes
  | .loop _ guard body => σ.assignedWhile (σ.value guard) (σ.performAll rounds body)
    (assignedAll x rounds body) rounds
  | .eval _ _ | .output _ _ | .extend _ _ | .turnoff _ | .ret _ _ => fun _ => []

/-- The values that the evaluation of statements assigns to the variable of a name, in order. -/
def assignedAll (x : Text) (rounds : Nat) : List Stmt → σ.Memory → List Float32
  | [] => fun _ => []
  | s :: ss => fun m => assigned x rounds s m ++
    σ.assignedAfter (σ.perform rounds s) (fun _ => assignedAll x rounds ss) m

end

/-- The values that those statements at the top of a unit whose rate is that of a slot assign to the
variable of a name, the first of the statements being number `n`. -/
def statementsAssigned (x : Text) (checked : CheckedUnit) (slot : Slot) (rounds n : Nat) :
    List Stmt → σ.Memory → List Float32
  | [] => fun _ => []
  | s :: ss =>
    if Slot.ofRate? (checked.stmtRate n) = some slot then
      fun m => σ.assigned x rounds s m ++ σ.assignedAfter (σ.perform rounds s)
        (fun _ => statementsAssigned x checked slot rounds (n + 1) ss) m
    else statementsAssigned x checked slot rounds (n + 1) ss

/-- The values that a pass assigns to the variable of a name, in order. -/
def passAssigned (x : Text) (checked : CheckedUnit) (i : Instrument) (slot : Slot) (rounds : Nat) :
    σ.Memory → List Float32 :=
  σ.assignedAfter (σ.share slot Entry.imports σ.importEntry σ.locals.entries) fun _ =>
    σ.statementsAssigned x checked slot rounds 0 i.body

end Assigned

variable {σ : Scene} {α β : Type}

/-! ### Evaluations that keep variables -/

/-- An evaluation that changes neither the values of variables nor the global store. -/
structure Keeps (x : σ.Evaluation α) : Prop where
  of_ok : ∀ m a m', x m = .ok a m' → m'.fields = m.fields ∧ m'.store = m.store

namespace Keeps

theorem pure (a : α) : Keeps (Pure.pure a : σ.Evaluation α) := by
  refine ⟨fun m _ m' h => ?_⟩
  cases h
  exact ⟨rfl, rfl⟩

theorem get : Keeps (MonadState.get : σ.Evaluation σ.Memory) := by
  refine ⟨fun m _ m' h => ?_⟩
  cases h
  exact ⟨rfl, rfl⟩

theorem throw (i : Interruption) : Keeps (MonadExcept.throw i : σ.Evaluation α) := by
  refine ⟨fun m _ m' h => ?_⟩
  cases h

theorem modified {change : σ.Memory → σ.Memory}
    (h : ∀ m, (change m).fields = m.fields ∧ (change m).store = m.store) :
    Keeps (modify change : σ.Evaluation Unit) := by
  refine ⟨fun m _ m' hm => ?_⟩
  cases hm
  exact h m

theorem bind {x : σ.Evaluation α} {f : α → σ.Evaluation β} (hx : Keeps x)
    (hf : ∀ a, Keeps (f a)) : Keeps (x >>= f) := by
  refine ⟨fun m b m' h => ?_⟩
  obtain ⟨a, m₁, ha, h⟩ := exists_of_run_bind_eq_ok h
  obtain ⟨hfields, hstore⟩ := hx.of_ok m a m₁ ha
  obtain ⟨hfields', hstore'⟩ := (hf a).of_ok m₁ b m' h
  exact ⟨hfields'.trans hfields, hstore'.trans hstore⟩

end Keeps

theorem keeps_nameValue (x : Text) : Keeps (σ.nameValue x) := by
  refine .bind .get fun m => ?_
  split
  · exact .pure _
  · exact .pure _
  · exact .pure _
  · exact .throw _

theorem keeps_elementValue (x : Text) (f : Fin σ.locals.entries.length) (index : Float32) :
    Keeps (σ.elementValue x f index) := by
  refine .bind .get fun m => ?_
  dsimp only
  split
  · exact .pure _
  · exact .throw _

theorem keeps_setElement (x : Text) (f : Fin σ.locals.entries.length) (index v : Float32) :
    Keeps (σ.setElement x f index v) := by
  refine ⟨fun m _ m' h => ?_⟩
  rw [setElement_apply] at h
  cases hreplace : replace? m.arrays[f] (Number.singleToWord index).toInt v with
  | some a =>
    rw [hreplace] at h
    cases h
    exact ⟨rfl, rfl⟩
  | none =>
    rw [hreplace] at h
    cases h

theorem keeps_tableValue (x : Text) (f : Fin σ.locals.entries.length) (op : CoreOpcode)
    (vs : List Float32) : Keeps (σ.tableValue x f op vs) := by
  unfold tableValue
  split
  · exact .bind .get fun _ => .pure _
  · exact keeps_elementValue ..
  · exact .bind (keeps_setElement ..) fun _ => .pure _
  · exact .throw _

mutual

theorem keeps_value : ∀ e : Expr, Keeps (σ.value e)
  | .constant _ _ => .pure _
  | .name _ x => keeps_nameValue x
  | .element _ x index => by
    refine .bind (keeps_value index) fun i => ?_
    split
    · exact keeps_elementValue ..
    · exact .throw _
  | .binary _ _ left right =>
    .bind (keeps_value left) fun _ => .bind (keeps_value right) fun _ => .pure _
  | .unary _ .neg operand | .unary _ .not operand => .bind (keeps_value operand) fun _ => .pure _
  | .conditional _ guard yes no => by
    refine .bind (keeps_value guard) fun v => ?_
    split
    · exact keeps_value no
    · exact keeps_value yes
  | .call _ callee args => by
    rw [value]
    split
    · refine .bind (keeps_values args) fun vs => ?_
      split
      · exact .pure _
      · exact .throw _
    · exact keeps_tableCall _ args
    · exact .throw _

theorem keeps_tableCall (op : CoreOpcode) : ∀ args : List Expr, Keeps (σ.tableCall op args)
  | .name _ x :: args => by
    refine .bind (keeps_values args) fun vs => ?_
    split
    · exact keeps_tableValue ..
    · exact .throw _
  | [] | .constant .. :: _ | .element .. :: _ | .binary .. :: _ | .unary .. :: _
  | .conditional .. :: _ | .call .. :: _ => .throw _

theorem keeps_values : ∀ es : List Expr, Keeps (σ.values es)
  | [] => .pure _
  | e :: es => .bind (keeps_value e) fun _ => .bind (keeps_values es) fun _ => .pure _

end

theorem keeps_send (vs : List Float32) : Keeps (σ.send vs) := by
  unfold send
  split <;> exact .modified fun _ => ⟨rfl, rfl⟩

theorem keeps_target (t : Target) : Keeps (σ.target t) := by
  rw [target]
  split
  · exact .pure _
  · exact .bind (keeps_value _) fun _ => .pure _
  · exact .pure _
  · exact .throw _

/-! ### Evaluations that assign -/

/-- A variable of the unit that stands for a global one of its name. -/
structure Beside (σ : Scene) (x : Text) (f : Fin σ.locals.entries.length)
    (g : Fin σ.layout.names.length) : Prop where
  field : σ.local? x = some f
  slot : σ.global? x = some g

/-- A variable holds the last of the values that an evaluation assigns to it, or what it held
before; a place of the global store stays as it is. -/
structure Tracks (f : Fin σ.locals.entries.length) (g : Fin σ.layout.names.length)
    (x : σ.Evaluation α) (values : σ.Memory → List Float32) : Prop where
  of_ok : ∀ m a m', x m = .ok a m' →
    m'.fields.get f = (values m).getLastD (m.fields.get f) ∧ m'.store.get g = m.store.get g

section Tracks

variable {m m' : σ.Memory} {x : Text} {e : Entry}

variable {f : Fin σ.locals.entries.length} {g : Fin σ.layout.names.length}

theorem Keeps.tracks {x : σ.Evaluation α} (h : Keeps x) : Tracks f g x fun _ => [] := by
  refine ⟨fun m a m' hm => ?_⟩
  obtain ⟨hfields, hstore⟩ := h.of_ok m a m' hm
  rw [hfields, hstore]
  exact ⟨rfl, rfl⟩

theorem Tracks.bind {x : σ.Evaluation α} {next : α → σ.Evaluation β}
    {values : σ.Memory → List Float32} {nextValues : α → σ.Memory → List Float32}
    (hx : Tracks f g x values)
    (hnext : ∀ a, (∃ m m', x m = .ok a m') → Tracks f g (next a) (nextValues a)) :
    Tracks f g (x >>= next) fun m => values m ++ σ.assignedAfter x nextValues m := by
  refine ⟨fun m b m' h => ?_⟩
  obtain ⟨a, m₁, ha, h⟩ := exists_of_run_bind_eq_ok h
  obtain ⟨hfield, hslot⟩ := hx.of_ok m a m₁ ha
  obtain ⟨hfield', hslot'⟩ := (hnext a ⟨m, m₁, ha⟩).of_ok m₁ b m' h
  have hafter : σ.assignedAfter x nextValues m = nextValues a m₁ := by rw [assignedAfter, ha]
  refine ⟨?_, hslot'.trans hslot⟩
  rw [hfield', hfield, hafter]
  simp

theorem Keeps.before {x : σ.Evaluation α} {next : α → σ.Evaluation β}
    {nextValues : α → σ.Memory → List Float32} (hx : Keeps x)
    (hnext : ∀ a, (∃ m m', x m = .ok a m') → Tracks f g (next a) (nextValues a)) :
    Tracks f g (x >>= next) (σ.assignedAfter x nextValues) := hx.tracks.bind hnext

theorem tracks_repeatWhile {guard : σ.Evaluation Float32} {body : σ.Evaluation Unit}
    {inBody : σ.Memory → List Float32} (hguard : Keeps guard) (hbody : Tracks f g body inBody)
    (rounds : Nat) : Tracks f g (σ.repeatWhile guard body rounds)
      (σ.assignedWhile guard body inBody rounds) := by
  induction rounds with
  | zero => exact (Keeps.throw _).tracks
  | succ rounds ih =>
    refine hguard.before fun v _ => ?_
    cases v == 0 with
    | true => exact (Keeps.pure _).tracks
    | false => exact hbody.bind fun _ _ => ih

theorem target_cases {t : Target} {place : σ.Place} (h : σ.target t m = .ok place m') :
    (∃ f, t.index = none ∧ σ.local? t.ident = some f ∧ place = .field f) ∨
    (∃ f index, t.index ≠ none ∧ place = .element t.ident f index) ∨
    ∃ g, σ.local? t.ident = none ∧ σ.global? t.ident = some g ∧ place = .global g := by
  rw [target] at h
  cases hlocal : σ.local? t.ident with
  | some f =>
    cases hindex : t.index with
    | none =>
      rw [hlocal, hindex] at h
      cases h
      exact .inl ⟨f, rfl, rfl, rfl⟩
    | some index =>
      rw [hlocal, hindex] at h
      obtain ⟨v, _, -, h⟩ := exists_of_run_bind_eq_ok h
      cases h
      exact .inr (.inl ⟨f, _, by simp, rfl⟩)
  | none =>
    cases hindex : t.index with
    | none =>
      cases hglobal : σ.global? t.ident with
      | some g =>
        rw [hlocal, hindex, hglobal] at h
        cases h
        exact .inr (.inr ⟨g, rfl, rfl, rfl⟩)
      | none =>
        rw [hlocal, hindex, hglobal] at h
        cases h
    | some index =>
      rw [hlocal, hindex] at h
      cases h

theorem eq_of_local? {y : Text} (hx : σ.local? x = some f) (hy : σ.local? y = some f) : x = y := by
  rw [local?, List.findFinIdx?_eq_some_iff] at hx hy
  exact (of_decide_eq_true hx.1).symm.trans (of_decide_eq_true hy.1)

theorem eq_of_global? {y : Text} (hx : σ.global? x = some g)
    (hy : σ.global? y = some g) : x = y := by
  rw [global?, List.findFinIdx?_eq_some_iff] at hx hy
  exact (of_decide_eq_true hx.1).symm.trans (of_decide_eq_true hy.1)

namespace Beside

variable {x y : Text} {f' : Fin σ.locals.entries.length} {g' : Fin σ.layout.names.length}

theorem eq_of_eq (h : σ.Beside x f g) (h' : σ.Beside x f' g') : f' = f ∧ g' = g :=
  ⟨Option.some.inj (h'.field.symm.trans h.field), Option.some.inj (h'.slot.symm.trans h.slot)⟩

theorem ne_of_ne (h : σ.Beside x f g) (h' : σ.Beside y f' g') (hne : x ≠ y) : f ≠ f' ∧ g ≠ g' :=
  ⟨fun heq => hne (eq_of_local? (heq ▸ h.field) h'.field),
    fun heq => hne (eq_of_global? (heq ▸ h.slot) h'.slot)⟩

end Beside

theorem get_set_self {n : Nat} (xs : Vector Float32 n) (k : Fin n) (v : Float32) :
    (xs.set k v k.isLt).get k = v := Vector.getElem_set_self k.isLt

theorem get_set_of_ne {n : Nat} (xs : Vector Float32 n) {k l : Fin n} (h : k ≠ l) (v : Float32) :
    (xs.set k v k.isLt).get l = xs.get l :=
  Vector.getElem_set_ne k.isLt l.isLt (Fin.val_ne_of_ne h)

theorem tracks_assign (h : σ.Beside x f g) {t : Target} {place : σ.Place}
    (hplace : σ.target t m = .ok place m') (v : Float32) :
    Tracks f g (σ.assign v place) fun _ => if t.ident = x ∧ t.index = none then [v] else [] := by
  rcases target_cases hplace with ⟨f', hindex, hlocal, rfl⟩ | ⟨f', index, hindex, rfl⟩ |
    ⟨g', hlocal, hglobal, rfl⟩
  · refine ⟨fun m _ m' hm => ?_⟩
    cases hm
    refine ⟨?_, rfl⟩
    by_cases hx : t.ident = x
    · obtain rfl : f' = f := Option.some.inj (hlocal.symm.trans (hx ▸ h.field))
      rw [if_pos ⟨hx, hindex⟩]
      exact get_set_self m.fields f' v
    · have hne : f' ≠ f := fun heq => hx (eq_of_local? (heq ▸ hlocal) h.field)
      rw [if_neg fun hassigned => hx hassigned.1]
      exact get_set_of_ne m.fields hne v
  · rw [if_neg fun hassigned => hindex hassigned.2]
    exact (keeps_setElement ..).tracks
  · refine ⟨fun m _ m' hm => ?_⟩
    cases hm
    have hx : t.ident ≠ x := by
      rintro rfl
      rw [h.field] at hlocal
      cases hlocal
    have hne : g' ≠ g := fun heq => hx (eq_of_global? (heq ▸ hglobal) h.slot)
    rw [if_neg fun hassigned => hx hassigned.1]
    exact ⟨rfl, get_set_of_ne m.store hne v⟩

mutual

theorem tracks_perform {x : Text} (h : σ.Beside x f g) (rounds : Nat) :
    ∀ s : Stmt, Tracks f g (σ.perform rounds s) (σ.assigned x rounds s)
  | .assign _ t e => by
    -- To find the place and the value leaves the field and the slot as they are.
    refine (keeps_target t).before fun place hplace => ?_
    obtain ⟨m, m', hplace⟩ := hplace
    exact (keeps_value e).before fun v _ => tracks_assign h hplace v
  | .eval _ e => (Keeps.bind (keeps_value e) fun _ => .pure _).tracks
  | .ifThen _ guard body => by
    refine (keeps_value guard).before fun v _ => ?_
    split
    · exact (Keeps.pure _).tracks
    · exact tracks_performAll h rounds body
  | .ifElse _ guard yes no => by
    refine (keeps_value guard).before fun v _ => ?_
    split
    · exact tracks_performAll h rounds no
    · exact tracks_performAll h rounds yes
  | .loop _ guard body =>
    tracks_repeatWhile (keeps_value guard) (tracks_performAll h rounds body) rounds
  | .output _ args => (Keeps.bind (keeps_values args) keeps_send).tracks
  | .extend _ e => by
    refine Keeps.tracks ?_
    exact .bind (keeps_value e) fun _ => .modified fun _ => ⟨rfl, rfl⟩
  | .turnoff _ => by
    refine Keeps.tracks ?_
    exact .modified fun _ => ⟨rfl, rfl⟩
  | .ret _ _ => (Keeps.throw _).tracks

theorem tracks_performAll {x : Text} (h : σ.Beside x f g) (rounds : Nat) :
    ∀ ss : List Stmt, Tracks f g (σ.performAll rounds ss) (σ.assignedAll x rounds ss)
  | [] => (Keeps.pure _).tracks
  | s :: ss => (tracks_perform h rounds s).bind fun _ _ => tracks_performAll h rounds ss

end

/-! ### Passes -/

theorem tracks_statements (h : σ.Beside x f g) (checked : CheckedUnit) (slot : Slot)
    (rounds n : Nat) (ss : List Stmt) : Tracks f g (σ.statements checked slot rounds n ss)
      (σ.statementsAssigned x checked slot rounds n ss) := by
  induction ss generalizing n with
  | nil => exact (Keeps.pure _).tracks
  | cons s ss ih =>
    rw [statements, statementsAssigned]
    split
    · exact (tracks_perform h rounds s).bind fun _ _ => ih (n + 1)
    · exact ih (n + 1)

/-- Whether a variable of the name is chosen among those of a slot's rate. -/
def isShared (x : Text) (slot : Slot) (chosen : Entry → Bool) (es : List Entry) : Bool :=
  es.any fun e => e.ident = x ∧ chosen e = true ∧ Slot.ofRate? e.rate = some slot

theorem share_ok {slot : Slot} {chosen : Entry → Bool} {copy : Entry → σ.Evaluation Unit}
    (source dest : σ.Memory → Float32)
    (hcopy : ∀ e m m', copy e m = .ok () m' →
      source m' = source m ∧ dest m' = if e.ident = x then source m else dest m)
    {es : List Entry} (hm : σ.share slot chosen copy es m = .ok () m') :
    source m' = source m ∧
      dest m' = if isShared x slot chosen es = true then source m else dest m := by
  induction es generalizing m with
  | nil =>
    cases hm
    exact ⟨rfl, rfl⟩
  | cons e es ih =>
    rw [share] at hm
    by_cases hchosen : chosen e = true ∧ Slot.ofRate? e.rate = some slot
    · rw [if_pos hchosen] at hm
      obtain ⟨_, m₁, hm₁, hm⟩ := exists_of_run_bind_eq_ok hm
      obtain ⟨hsource, hdest⟩ := hcopy e m m₁ hm₁
      obtain ⟨hsource', hdest'⟩ := ih hm
      refine ⟨hsource'.trans hsource, ?_⟩
      rw [hdest', hsource, hdest]
      by_cases hx : e.ident = x
      · simp [isShared, hx, hchosen]
      · simp [isShared, hx]
    · rw [if_neg hchosen] at hm
      obtain ⟨hsource, hdest⟩ := ih hm
      refine ⟨hsource, ?_⟩
      rw [hdest]
      simp [isShared, hchosen]

theorem importEntry_cases (hm : σ.importEntry e m = .ok () m') :
    ∃ f g, σ.Beside e.ident f g ∧
      m' = { m with fields := m.fields.set f (m.store.get g) f.isLt } := by
  rw [importEntry] at hm
  rcases hfield : σ.local? e.ident with _ | f <;> rcases hslot : σ.global? e.ident with _ | g <;>
    rw [hfield, hslot] at hm <;> cases hm
  exact ⟨f, g, ⟨hfield, hslot⟩, rfl⟩

theorem exportEntry_cases (hm : σ.exportEntry e m = .ok () m') :
    ∃ f g, σ.Beside e.ident f g ∧
      m' = { m with store := m.store.set g (m.fields.get f) g.isLt } := by
  rw [exportEntry] at hm
  rcases hfield : σ.local? e.ident with _ | f <;> rcases hslot : σ.global? e.ident with _ | g <;>
    rw [hfield, hslot] at hm <;> cases hm
  exact ⟨f, g, ⟨hfield, hslot⟩, rfl⟩

theorem importEntry_ok (h : σ.Beside x f g) (hm : σ.importEntry e m = .ok () m') :
    m'.store.get g = m.store.get g ∧
      m'.fields.get f = if e.ident = x then m.store.get g else m.fields.get f := by
  obtain ⟨f', g', h', rfl⟩ := importEntry_cases hm
  refine ⟨rfl, ?_⟩
  split
  next hx =>
    obtain ⟨rfl, rfl⟩ := h.eq_of_eq (hx ▸ h')
    exact get_set_self ..
  next hx => exact get_set_of_ne _ (h'.ne_of_ne h hx).1 _

theorem exportEntry_ok (h : σ.Beside x f g) (hm : σ.exportEntry e m = .ok () m') :
    m'.fields.get f = m.fields.get f ∧
      m'.store.get g = if e.ident = x then m.fields.get f else m.store.get g := by
  obtain ⟨f', g', h', rfl⟩ := exportEntry_cases hm
  refine ⟨rfl, ?_⟩
  split
  next hx =>
    obtain ⟨rfl, rfl⟩ := h.eq_of_eq (hx ▸ h')
    exact get_set_self ..
  next hx => exact get_set_of_ne _ (h'.ne_of_ne h hx).2 _

theorem isShared_eq {v : Entry} {es : List Entry} (hnodup : (es.map Entry.ident).Nodup)
    (hv : v ∈ es) (slot : Slot) (chosen : Entry → Bool) :
    isShared v.ident slot chosen es = (chosen v && (Slot.ofRate? v.rate = some slot : Bool)) := by
  rw [Bool.eq_iff_iff, isShared, List.any_eq_true]
  simp only [decide_eq_true_eq, Bool.and_eq_true]
  refine ⟨fun ⟨e, he, hident, hchosen⟩ => ?_, fun hchosen => ⟨v, hv, rfl, hchosen⟩⟩
  rwa [← List.inj_on_of_nodup_map hnodup he hv hident]

theorem pass_ok {v : Entry} (h : σ.Beside v.ident f g)
    (hnodup : (σ.locals.entries.map Entry.ident).Nodup) (hv : v ∈ σ.locals.entries)
    {checked : CheckedUnit} {i : Instrument} {slot : Slot} {rounds : Nat}
    (hm : σ.pass checked i slot rounds m = .ok () m') :
    (m'.fields.get f = (σ.passAssigned v.ident checked i slot rounds m).getLastD
      (if v.imports = true ∧ Slot.ofRate? v.rate = some slot then m.store.get g
        else m.fields.get f)) ∧
    m'.store.get g = if v.exports = true ∧ Slot.ofRate? v.rate = some slot then m'.fields.get f
      else m.store.get g := by
  obtain ⟨_, m₁, himports, hm⟩ := exists_of_run_bind_eq_ok hm
  obtain ⟨_, m₂, hstatements, hexports⟩ := exists_of_run_bind_eq_ok hm
  have hassigned : σ.passAssigned v.ident checked i slot rounds m =
      σ.statementsAssigned v.ident checked slot rounds 0 i.body m₁ := by
    rw [passAssigned, assignedAfter, himports]
  obtain ⟨hslot₁, hfield₁⟩ := share_ok (fun m => m.store.get g) (fun m => m.fields.get f)
    (fun _ _ _ => importEntry_ok h) himports
  obtain ⟨hfield₂, hslot₂⟩ :=
    (tracks_statements h checked slot rounds 0 i.body).of_ok m₁ () m₂ hstatements
  obtain ⟨hfield', hslot'⟩ := share_ok (fun m => m.fields.get f) (fun m => m.store.get g)
    (fun _ _ _ => exportEntry_ok h) hexports
  simp only [isShared_eq hnodup hv, Bool.and_eq_true, decide_eq_true_eq] at hfield₁ hslot'
  refine ⟨?_, ?_⟩
  · rw [hfield', hfield₂, hfield₁, hassigned]
  · rw [hslot', hslot₂, hslot₁, hfield']

end Tracks

end Orchestrion.Scene
