import Orchestrion.Proofs.Code.Jumps
import Orchestrion.Proofs.Code.Rules
import Orchestrion.Proofs.Code.Unit

/-!
# The constants that code pushes

The code of every slot is closed, and its only return is its last instruction. The instructions that
push constants are, one after the other, those for the constants of the source.
-/

namespace Orchestrion

/-- The constants that are pushed for a declaration: all arguments of the generator of a table but
its size. -/
def Decl.pushed : Decl → List Float
  | .vars _ => []
  | .table d => d.args.tail.map Expr.constantOrZero

/-- The constants that are pushed in a slot for the statements at the top of a unit, the first of
them being number `n`. -/
def CheckedUnit.pushed (checked : CheckedUnit) (slot : Slot) (n : Nat) : List Stmt → List Float
  | [] => []
  | s :: ss =>
    (if Slot.ofRate? (checked.stmtRate n) = some slot then s.pushed else []) ++
      checked.pushed slot (n + 1) ss

/-- The constants that are pushed in a slot of an instrument: tables are filled in the construct
slot, and each statement is carried out in the slot of its rate. -/
def Instrument.pushed (i : Instrument) (checked : CheckedUnit) (slot : Slot) : List Float :=
  (if slot = .construct then i.decls.flatMap Decl.pushed else []) ++ checked.pushed slot 0 i.body

namespace Instruction

def isNum : Instruction → Bool
  | num _ => true
  | _ => false

theorem of_isPlain {i : Instruction} (h : i.isPlain = true) :
    i.offset? = none ∧ i.isNum = false := by
  cases i with
  | num | jump | jumpIf | ret => cases h
  | _ => exact ⟨rfl, rfl⟩

end Instruction

open Instruction

namespace Emit

/-! ### Closed code that pushes constants -/

/-- The code is closed, has no return, and pushes the constants one after the other. -/
structure Pushing (u : CompiledUnit) (vs : List Float) (is : List Instruction) : Prop where
  closed : Closed is
  ret : .ret ∉ is
  nums : List.Forall₂ (PushCode u) vs (is.filter isNum)

namespace Pushing

variable {u : CompiledUnit} {vs ws : List Float} {is js : List Instruction}

theorem append (his : Pushing u vs is) (hjs : Pushing u ws js) :
    Pushing u (vs ++ ws) (is ++ js) where
  closed := his.closed.append hjs.closed
  ret := by simp [his.ret, hjs.ret]
  nums := by
    rw [List.filter_append]
    exact List.rel_append his.nums hjs.nums

theorem of_isPlain (h : ∀ i ∈ is, i.isPlain = true) : Pushing u [] is where
  closed := .of_offset? fun i hi => (Instruction.of_isPlain (h i hi)).1
  ret hret := by cases h _ hret
  nums := by
    have hnone : is.filter isNum = [] := List.filter_eq_nil_iff.2 fun i hi => by
      rw [(Instruction.of_isPlain (h i hi)).2]
      decide
    rw [hnone]
    exact .nil

theorem nil : Pushing u [] [] := of_isPlain (List.forall_mem_nil _)

theorem snoc (h : Pushing u vs is) {i : Instruction} (hi : i.isPlain = true) :
    Pushing u vs (is ++ [i]) := by
  have hlast : Pushing u [] [i] := .of_isPlain (by simpa using hi)
  have happend := h.append hlast
  rwa [List.append_nil] at happend

theorem push {v : Float} {i : Instruction} (h : PushCode u v i) : Pushing u [v] [i] := by
  obtain ⟨n, rfl, hn⟩ := h
  exact ⟨.of_offset? (by simp [offset?]), by simp, .cons ⟨n, rfl, hn⟩ .nil⟩

theorem skip (comparison : Comparison) (h : Pushing u vs is) :
    Pushing u vs (.jumpIf comparison (wordCount is) :: is) :=
  ⟨.skip comparison h.closed, by simp [h.ret], h.nums⟩

theorem choice (comparison : Comparison) (his : Pushing u vs is) (hjs : Pushing u ws js) :
    Pushing u (vs ++ ws)
      (.jumpIf comparison (wordCount is + 2 : Nat) :: is ++ .jump (wordCount js) :: js) where
  closed := .choice comparison his.closed hjs.closed
  ret := by simp [his.ret, hjs.ret]
  nums := by
    rw [List.filter_append]
    exact List.rel_append his.nums hjs.nums

theorem loop (comparison : Comparison) (his : Pushing u vs is) (hjs : Pushing u ws js) :
    Pushing u (vs ++ ws) (is ++ .jumpIf comparison (wordCount js + 2 : Nat) ::
      (js ++ [.jump (-(wordCount is + wordCount js + 4 : Nat))])) where
  closed := .loop comparison his.closed hjs.closed
  ret := by simp [his.ret, hjs.ret]
  nums := by
    simpa [isNum, List.filter_cons] using List.rel_append his.nums hjs.nums

theorem closed_ret (h : Pushing u vs is) : Closed (is ++ [.ret]) :=
  h.closed.append (.of_offset? (by simp [offset?]))

end Pushing

theorem rules_emits (c : EmitContext) (slot : Slot) :
    Rules c slot False False fun _ vs _ _ x => Emits slot x fun _ u is => Pushing u vs is where
  sees := False.elim
  pure _ := .pure fun _ => .nil
  bind hx hf := (hx.bind hf).mono <| by
    rintro _ u _ ⟨_, js, ks, hjs, hks, rfl⟩
    exact hjs.append hks
  refuse _ _ _ := .throw _
  relabel _ hx := hx
  missing _ := .throw _
  snoc hx hi _ := hx.snoc fun _ _ h => h.snoc hi
  push _ := (emits_push slot _).mono <| by
    rintro _ u _ ⟨i, hi, rfl⟩
    exact .push hi
  room n := by
    intro E E' _ h
    cases h
    refine ⟨[], ⟨?_, ?_, List.prefix_rfl, Nat.le_max_left .., fun _ _ => rfl⟩, fun _ _ => .nil⟩
    · simp [Emitter.settled]
    · simp
  skip hbody := (emits_skip (isBranch_jumpIf _) hbody).mono <| by
    rintro _ u _ ⟨bs, hbs, rfl⟩
    exact hbs.skip _
  choice _ hyes hno := (emits_choice hyes hno).mono <| by
    rintro _ u _ ⟨ys, ns, hys, hns, rfl⟩
    exact .choice _ hys hns
  loop hguard hbody := (emits_loop hguard hbody).mono <| by
    rintro _ u _ ⟨gs, bs, hgs, hbs, rfl⟩
    exact .loop _ hgs hbs

/-! ### Units -/

theorem pushing_of_tablesCode {c : EmitContext} {u : CompiledUnit} {ds : List Decl}
    {is : List Instruction} (h : TablesCode c u ds is) : Pushing u (ds.flatMap Decl.pushed) is := by
  have hconstants {es : List Expr} {as : List Instruction} (has : ConstantsCode u es as) :
      Pushing u (es.map Expr.constantOrZero) as := by
    induction has with
    | nil => exact .nil
    | cons h _ ih => exact (Pushing.push h).append ih
  induction h with
  | nil => exact .nil
  | vars _ ih => exact ih
  | table _ hargs has _ ih =>
    rw [List.flatMap_cons, Decl.pushed, hargs]
    exact ((hconstants has).snoc rfl).append ih

theorem pushing_arraysCode {u : CompiledUnit} (n : Nat) (fs : List Field) :
    Pushing u [] (arraysCode n fs) := by
  induction fs generalizing n with
  | nil => exact .nil
  | cons f fs ih =>
    rw [arraysCode]
    split
    · exact (Pushing.nil.snoc rfl).append (ih _)
    · exact ih _

theorem pushing_of_sharedCode {c : EmitContext} {u : CompiledUnit} {slot : Slot}
    {chosen : Entry → Bool} {move : Int → Int → Instruction} {es : List Entry}
    {is : List Instruction} (hmove : ∀ f g, (move f g).isPlain = true)
    (h : SharedCode c slot chosen move es is) : Pushing u [] is := .of_isPlain (h.forall_mem hmove)

theorem emits_body_pushing (c : EmitContext) (checked : CheckedUnit) (n : Nat) (ss : List Stmt) :
    EmitsAll (body c checked n ss) fun _ u added =>
      ∀ slot, Pushing u (checked.pushed slot n ss) (added slot) := by
  induction ss generalizing n with
  | nil =>
    refine (EmitsAll.pure _).mono ?_
    rintro _ u _ ⟨-, rfl⟩ slot
    exact .nil
  | cons s ss ih =>
    rw [body]
    split
    next =>
      intro E E' a h
      obtain ⟨_, _, hrefuse, -⟩ := bind_ok h
      exact absurd hrefuse throw_ne_ok
    next own hown =>
      refine (((rules_emits c own).stmt [] s False.elim False.elim).all.bind fun _ =>
        ih (n + 1)).mono ?_
      rintro _ u _ ⟨_, _, added, ⟨is, his, rfl⟩, hadded, rfl⟩ slot
      refine Pushing.append ?_ (hadded slot)
      rw [hown, only]
      by_cases hslot : slot = own
      · rw [if_pos hslot, if_pos (congrArg some hslot.symm)]
        exact his
      · rw [if_neg hslot, if_neg fun h => hslot (Option.some.inj h).symm]
        exact .nil

end Emit

theorem Instrument.generate_pushing {l : Linkage} {checked : CheckedUnit} {i : Instrument}
    {u : CompiledUnit} (h : i.generate l checked = .ok u) (slot : Slot) :
    ∃ is, u.code.get slot = wordsOf (is ++ [.ret]) ∧
      Emit.Pushing u (i.pushed checked slot) is := by
  obtain ⟨-, -, -, -, bodies, hbodies, hcode⟩ :=
    Instrument.generate_frame (Emit.emits_body_pushing _ checked 0 i.body) h
  obtain ⟨is, hwords, -, storage, imports, exports, ⟨ts, hts, rfl⟩, himports, hexports, rfl⟩ :=
    hcode slot
  refine ⟨_, hwords, ?_⟩
  have hstorage : Emit.Pushing u (if slot = .construct then i.decls.flatMap Decl.pushed else [])
      (only .construct (arraysCode 0 (l.context checked i).fields ++ ts) slot) := by
    rw [only]
    split
    · exact (Emit.pushing_arraysCode _ _).append (Emit.pushing_of_tablesCode hts)
    · exact .nil
  have himports' := hstorage.append (Emit.pushing_of_sharedCode (fun _ _ => rfl) himports)
  have hexports' := (himports'.append (hbodies slot)).append
    (Emit.pushing_of_sharedCode (fun _ _ => rfl) hexports)
  rwa [List.append_nil, List.append_nil] at hexports'

end Orchestrion
