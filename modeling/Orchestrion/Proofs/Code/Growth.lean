import Orchestrion.Code.Emitter
import Orchestrion.Proofs.Code.Stream
import Orchestrion.Proofs.Number.Sign
import Orchestrion.Proofs.Outcome

/-!
# How code grows

What a step that emits code and succeeds has done: it appends instructions to the settled code of
some slots, and adds to the pool of constants at its end. Forward branches are appended with the
offset zero and get their offset once the code behind them is known.
-/

namespace Orchestrion

open Instruction List Number

namespace Slots

variable {α : Type}

@[simp]
theorem get_modify (s : Slots α) (slot other : Slot) (f : α → α) :
    (s.modify slot f).get other = if other = slot then f (s.get other) else s.get other := by
  cases slot <;> cases other <;> rfl

@[simp]
theorem get_map {β : Type} (s : Slots α) (f : α → β) (slot : Slot) :
    (s.map f).get slot = f (s.get slot) := by
  cases slot <;> rfl

@[simp]
theorem get_const (a : α) (slot : Slot) : (const a).get slot = a := by
  cases slot <;> rfl

end Slots

def only (slot : Slot) (is : List Instruction) (other : Slot) : List Instruction :=
  if other = slot then is else []

@[simp]
theorem only_self (slot : Slot) (is : List Instruction) : only slot is slot = is := if_pos rfl

@[simp]
theorem only_nil (slot : Slot) : only slot [] = fun _ => [] := by
  funext other
  simp [only]

theorem only_append (slot : Slot) (is js : List Instruction) :
    (fun other => only slot is other ++ only slot js other) = only slot (is ++ js) := by
  funext other
  simp only [only]
  split <;> rfl

namespace CompiledUnit

/-- The constant that stands for a number in the pool of a unit: the first that equals it. -/
def pooled (u : CompiledUnit) (v : Float) : Float32 :=
  (u.nums.find? fun y => y == narrow v).getD (narrow v)

/-- The constant that stands for a number is at the given place, and a zero is at that of all. -/
def PoolsAt (u : CompiledUnit) (n : Nat) (v : Float) : Prop :=
  u.nums[n]? = some (u.pooled v) ∧
    ((narrow v == 0) = true → u.nums.findIdx? (fun y => y == 0) = some n)

end CompiledUnit

namespace Emitter

/-- The code of a slot, the pending branches leading to its end. -/
def settled (E : Emitter) (slot : Slot) : List Int := (E.streams.get slot).settled

/-- What has been emitted becomes part of a unit. -/
structure Within (E : Emitter) (u : CompiledUnit) : Prop where
  nums : E.nums <+: u.nums
  maxOutput : (E.maxOutput : Int) ≤ u.maxOutput

theorem exists_within (E : Emitter) : ∃ u, E.Within u :=
  ⟨⟨[], [], [], E.nums, .const [], 0, E.maxOutput⟩, prefix_rfl, Int.le_refl _⟩

/-- The code of every slot has grown by the given instructions. -/
structure Grows (added : Slot → List Instruction) (E E' : Emitter) : Prop where
  settled : ∀ slot, E'.settled slot = E.settled slot ++ wordsOf (added slot)
  pushes : ∀ slot,
    (E'.streams.get slot).pushes = (E.streams.get slot).pushes + pushCount (added slot)
  nums : E.nums <+: E'.nums
  maxOutput : E.maxOutput ≤ E'.maxOutput
  /-- A slot that no code is added to is left alone. -/
  untouched : ∀ slot, added slot = [] → E'.streams.get slot = E.streams.get slot

namespace Grows

variable {E E' E₁ : Emitter} {added more : Slot → List Instruction}

theorem refl (E : Emitter) : Grows (fun _ => []) E E := by
  constructor <;> simp

theorem trans (h : Grows added E E₁) (h' : Grows more E₁ E') :
    Grows (fun slot => added slot ++ more slot) E E' where
  settled slot := by rw [h'.settled, h.settled, wordsOf_append, append_assoc]
  pushes slot := by rw [h'.pushes, h.pushes, pushCount_append, Nat.add_assoc]
  nums := h.nums.trans h'.nums
  maxOutput := Nat.le_trans h.maxOutput h'.maxOutput
  untouched slot hnone := by
    obtain ⟨hadded, hmore⟩ := append_eq_nil_iff.1 hnone
    rw [h'.untouched slot hmore, h.untouched slot hadded]

theorem trans_only {slot : Slot} {is js : List Instruction} (h : Grows (only slot is) E E₁)
    (h' : Grows (only slot js) E₁ E') : Grows (only slot (is ++ js)) E E' := by
  rw [← only_append]
  exact h.trans h'

theorem within {u : CompiledUnit} (h : Grows added E E') (hu : E'.Within u) : E.Within u where
  nums := h.nums.trans hu.nums
  maxOutput := Int.le_trans (Int.ofNat_le.2 h.maxOutput) hu.maxOutput

theorem size (h : Grows added E E') (slot : Slot) :
    (E'.streams.get slot).code.size = (E.streams.get slot).code.size + wordCount (added slot) := by
  have hlength := congrArg List.length (h.settled slot)
  simpa [Emitter.settled] using hlength

theorem setPending {slot : Slot} (is js : List Instruction)
    {jump : Int → Instruction} {mark : Nat} (hjump : IsBranch jump)
    (h : Grows (only slot (is ++ jump 0 :: js)) E E')
    (hmark : mark = (E.streams.get slot).code.size + wordCount is + 1) :
    Grows (only slot (is ++ jump (wordCount js) :: js)) E
      { E' with streams := E'.streams.modify slot (·.setPending mark) } where
  settled other := by
    by_cases hother : other = slot
    · subst hother
      have hsettled := h.settled other
      have hsize := h.size other
      simp only [only_self, wordsOf_append, wordCount_append, wordCount_cons,
        hjump.size] at hsettled hsize
      have hlength : (E.settled other ++ wordsOf is).length + 1 = mark := by
        simp [Emitter.settled, hmark]
      have htarget : (E'.streams.get other).code.size =
          (E.settled other ++ wordsOf is).length + 2 + wordCount js := by
        simp only [length_append, Emitter.settled, Stream.length_settled, length_wordsOf]
        omega
      have hpatch := Stream.set_offset_of_branch hjump (E.settled other ++ wordsOf is) js
      rw [hlength, ← htarget, append_assoc, ← hsettled] at hpatch
      simpa [Emitter.settled] using hpatch
    · simpa [only, hother, Emitter.settled] using h.settled other
  pushes other := by
    have hpushes := h.pushes other
    by_cases hother : other = slot
    · subst hother
      simpa [Stream.setPending, hjump.not_pushes] using hpushes
    · simpa [only, hother] using hpushes
  nums := h.nums
  maxOutput := h.maxOutput
  untouched other hnone := by
    by_cases hother : other = slot
    · simp [only, hother] at hnone
    · simpa [hother] using h.untouched other (by simp [only, hother])

end Grows

end Emitter

namespace Emit

variable {α : Type} {i : Instruction} {v : Float} {kind : CompiledUnit → List Instruction → Prop}

variable {E E' : Emitter} {slot : Slot}

theorem bind_ok {β : Type} {x : Emit α} {f : α → Emit β} {b : β}
    (h : (x >>= f).run E = .ok (b, E')) :
    ∃ a E₁, x.run E = .ok (a, E₁) ∧ (f a).run E₁ = .ok (b, E') := by
  obtain ⟨p, hx, hf⟩ := exists_of_bind_eq_ok h
  exact ⟨p.1, p.2, hx, hf⟩

theorem pure_ok {a b : α} (h : (pure a : Emit α).run E = .ok (b, E')) : a = b ∧ E = E' := by
  cases h
  exact ⟨rfl, rfl⟩

theorem throw_ne_ok {fault : EmitFault} {a : α} : (throw fault : Emit α).run E ≠ .ok (a, E') := by
  intro h
  cases h

theorem eq_of_append_ok (h : (append slot i).run E = .ok ((), E')) :
    E' = { E with streams := E.streams.modify slot (·.add i) } := by
  obtain ⟨_, _, hget, hrest⟩ := bind_ok h
  cases hget
  split at hrest
  · exact absurd hrest throw_ne_ok
  · cases hrest
    rfl

theorem append_ok (h : (append slot i).run E = .ok ((), E')) :
    Emitter.Grows (only slot [i]) E E' := by
  obtain rfl := eq_of_append_ok h
  constructor
  · intro other
    by_cases hother : other = slot <;> simp [Emitter.settled, only, hother]
  · intro other
    by_cases hother : other = slot <;> simp [only, hother, Stream.add]
    split <;> simp [*]
  · exact prefix_rfl
  · exact Nat.le_refl _
  · intro other hnone
    by_cases hother : other = slot
    · simp [only, hother] at hnone
    · simp [hother]

theorem instruction_ok (h : (instruction slot i).run E = .ok ((), E')) :
    Emitter.Grows (only slot [i]) E E' := by
  rw [instruction] at h
  split at h
  · exact absurd h throw_ne_ok
  · exact append_ok h

theorem branch_ok {jump : Int → Instruction} {mark : Nat} (hjump : IsBranch jump)
    (h : (branch slot jump).run E = .ok (mark, E')) :
    Emitter.Grows (only slot [jump 0]) E E' ∧ mark = (E.streams.get slot).code.size + 1 := by
  obtain ⟨_, E₁, happend, hrest⟩ := bind_ok h
  have hgrows := append_ok happend
  obtain ⟨_, _, hget, hpure⟩ := bind_ok hrest
  cases hget
  obtain ⟨rfl, rfl⟩ := pure_ok hpure
  have hsize := hgrows.size slot
  simp only [only_self, wordCount_cons, wordCount_nil, hjump.size] at hsize
  exact ⟨hgrows, by simp [Stream.mark, hsize]⟩

theorem setPending_ok {mark : Nat} (h : (setPending slot mark).run E = .ok ((), E')) :
    E' = { E with streams := E.streams.modify slot (·.setPending mark) } := by
  cases h
  rfl

theorem label_ok {top : Nat} (h : (label slot).run E = .ok (top, E')) :
    top = (E.streams.get slot).code.size ∧ E = E' := by
  cases h
  exact ⟨rfl, rfl⟩

theorem jumpBack_ok {top : Nat} (h : (jumpBack slot top).run E = .ok ((), E')) :
    Emitter.Grows (only slot [.jump (top - ((E.streams.get slot).code.size + 2))]) E E' := by
  obtain ⟨_, _, hget, hrest⟩ := bind_ok h
  cases hget
  exact instruction_ok hrest

theorem poolsAt_of_findIdx? {u : CompiledUnit} {n : Nat} (hnums : E.nums <+: u.nums)
    (h : E.nums.findIdx? (fun y => y == narrow v) = some n) : u.PoolsAt n v := by
  have hindex := hnums.findIdx?_eq_some h
  obtain ⟨hlt, -⟩ := findIdx?_eq_some_iff_getElem.1 hindex
  refine ⟨?_, fun hzero => by simpa only [beq_eq_beq_zero hzero] using hindex⟩
  rw [CompiledUnit.pooled, find?_eq_bind_findIdx?_getElem?, hindex, Option.bind_some,
    getElem?_eq_getElem hlt, Option.getD_some]

theorem poolsAt_of_findIdx?_eq_none {u : CompiledUnit}
    (hnums : E.nums ++ [narrow v] <+: u.nums)
    (h : E.nums.findIdx? (fun y => y == narrow v) = none) :
    u.PoolsAt E.nums.length v := by
  obtain ⟨rest, hrest⟩ := hnums
  have hnone : E.nums.find? (fun y => y == narrow v) = none := by
    rw [find?_eq_bind_findIdx?_getElem?, h, Option.bind_none]
  have hpooled : u.pooled v = narrow v := by
    rw [CompiledUnit.pooled, ← hrest, append_assoc, find?_append, hnone, Option.none_or,
      singleton_append, find?_cons]
    cases hself : narrow v == narrow v with
    | true => rfl
    | false =>
      have habsent : rest.find? (fun y => y == narrow v) = none := by
        rw [find?_eq_none]
        intro y _ hy
        rw [beq_self_of_beq hy] at hself
        cases hself
      simp [habsent]
  rw [CompiledUnit.PoolsAt, hpooled, ← hrest]
  refine ⟨by simp, fun hzero => ?_⟩
  simp only [beq_eq_beq_zero hzero] at h
  simp [findIdx?_append, findIdx?_cons, h, hzero]

theorem constant_ok {n : Nat} (h : (constant v).run E = .ok (n, E')) :
    Emitter.Grows (fun _ => []) E E' ∧ ∀ u : CompiledUnit, E'.Within u → u.PoolsAt n v := by
  simp only [constant, modifyGet, MonadStateOf.modifyGet, StateT.modifyGet, StateT.run] at h
  cases hfind : E.nums.findIdx? fun y => y == narrow v with
  | some i =>
    rw [hfind] at h
    cases h
    exact ⟨.refl _, fun u hu => poolsAt_of_findIdx? hu.nums hfind⟩
  | none =>
    rw [hfind] at h
    cases h
    refine ⟨⟨?_, ?_, prefix_append .., Nat.le_refl _, fun _ _ => rfl⟩, fun u hu => ?_⟩
    · simp [Emitter.settled]
    · simp
    · exact poolsAt_of_findIdx?_eq_none hu.nums hfind

def PushCode (u : CompiledUnit) (v : Float) (i : Instruction) : Prop :=
  ∃ n : Nat, i = .num n ∧ u.PoolsAt n v

/-- If the step succeeds, it has appended code of some kind to the slot and nothing to the others;
the kind may depend on the unit that the code becomes part of. -/
def Emits {α : Type} (slot : Slot) (x : Emit α)
    (kind : α → CompiledUnit → List Instruction → Prop) : Prop :=
  ∀ E E' a, x.run E = .ok (a, E') →
    ∃ is, Emitter.Grows (only slot is) E E' ∧ ∀ u, E'.Within u → kind a u is

namespace Emits

variable {α β : Type} {kind : α → CompiledUnit → List Instruction → Prop}

theorem mono {x : Emit α} {wider : α → CompiledUnit → List Instruction → Prop}
    (h : Emits slot x kind) (hkind : ∀ a u is, kind a u is → wider a u is) :
    Emits slot x wider := by
  intro E E' a hx
  obtain ⟨is, hgrows, his⟩ := h E E' a hx
  exact ⟨is, hgrows, fun u hu => hkind a u is (his u hu)⟩

theorem pure {a : α} (h : ∀ u, kind a u []) : Emits slot (Pure.pure a : Emit α) kind := by
  intro E E' b hb
  obtain ⟨rfl, rfl⟩ := pure_ok hb
  exact ⟨[], by rw [only_nil]; exact .refl _, fun u _ => h u⟩

theorem throw (fault : EmitFault) : Emits slot (MonadExcept.throw fault : Emit α) kind :=
  fun _ _ _ h => absurd h throw_ne_ok

theorem bind {x : Emit α} {f : α → Emit β} {more : α → β → CompiledUnit → List Instruction → Prop}
    (hx : Emits slot x kind) (hf : ∀ a, Emits slot (f a) (more a)) :
    Emits slot (x >>= f) fun b u is =>
      ∃ a js ks, kind a u js ∧ more a b u ks ∧ is = js ++ ks := by
  intro E E' b h
  obtain ⟨a, E₁, ha, hb⟩ := bind_ok h
  obtain ⟨js, hjs, hkind⟩ := hx E E₁ a ha
  obtain ⟨ks, hks, hmore⟩ := hf a E₁ E' b hb
  exact ⟨js ++ ks, hjs.trans_only hks, fun u hu =>
    ⟨a, js, ks, hkind u (hks.within hu), hmore u hu, rfl⟩⟩

end Emits

theorem emits_instruction (slot : Slot) (i : Instruction) :
    Emits slot (instruction slot i) fun _ _ is => is = [i] :=
  fun _ _ _ h => ⟨[i], instruction_ok h, fun _ _ => rfl⟩

theorem Emits.snoc {α : Type} {x : Emit α} {i : Instruction}
    {wider : CompiledUnit → List Instruction → Prop} (hx : Emits slot x fun _ => kind)
    (h : ∀ u is, kind u is → wider u (is ++ [i])) :
    Emits slot (x >>= fun _ => instruction slot i) fun _ => wider := by
  refine (hx.bind fun _ => emits_instruction slot i).mono ?_
  rintro _ u _ ⟨_, is, _, his, rfl, rfl⟩
  exact h u is his

theorem emits_push (slot : Slot) (v : Float) :
    Emits slot (push slot v) fun _ u is => ∃ i, PushCode u v i ∧ is = [i] := by
  intro E E' _ h
  obtain ⟨n, E₁, hconstant, hrest⟩ := bind_ok h
  obtain ⟨hgrows, hpool⟩ := constant_ok hconstant
  have hnum := instruction_ok hrest
  rw [← only_nil slot] at hgrows
  exact ⟨[.num n], hgrows.trans_only hnum, fun u hu =>
    ⟨.num n, ⟨n, rfl, hpool u (hnum.within hu)⟩, rfl⟩⟩

theorem emits_skip {body : Emit Unit} {jump : Int → Instruction} (hjump : IsBranch jump)
    (hbody : Emits slot body fun _ => kind) :
    Emits slot (do let skip ← branch slot jump; body; setPending slot skip) fun _ u is =>
      ∃ bs, kind u bs ∧ is = jump (wordCount bs) :: bs := by
  intro E E' _ h
  obtain ⟨mark, E₁, hbranch, h⟩ := bind_ok h
  obtain ⟨_, E₂, hbody', h⟩ := bind_ok h
  obtain rfl := setPending_ok h
  obtain ⟨hgrows, hmark⟩ := branch_ok hjump hbranch
  obtain ⟨bs, hbs, hkind⟩ := hbody E₁ E₂ () hbody'
  refine ⟨jump (wordCount bs) :: bs, ?_, fun u hu => ⟨bs, hkind u ⟨hu.nums, hu.maxOutput⟩, rfl⟩⟩
  exact Emitter.Grows.setPending [] bs hjump (hgrows.trans_only hbs) hmark

theorem emits_choice {yes no : Emit Unit} {comparison : Comparison}
    {other : CompiledUnit → List Instruction → Prop} (hyes : Emits slot yes fun _ => kind)
    (hno : Emits slot no fun _ => other) :
    Emits slot (do
        let toElse ← branch slot (.jumpIf comparison)
        yes
        let join ← branch slot .jump
        setPending slot toElse
        no
        setPending slot join) fun _ u is =>
      ∃ ys ns, kind u ys ∧ other u ns ∧
        is = .jumpIf comparison (wordCount ys + 2 : Nat) :: ys ++ .jump (wordCount ns) :: ns := by
  intro E E' _ h
  obtain ⟨toElse, E₁, hbranch, h⟩ := bind_ok h
  obtain ⟨_, E₂, hyes', h⟩ := bind_ok h
  obtain ⟨join, E₃, hjoin, h⟩ := bind_ok h
  obtain ⟨_, E₄, hpending, h⟩ := bind_ok h
  obtain rfl := setPending_ok hpending
  obtain ⟨_, E₅, hno', h⟩ := bind_ok h
  obtain rfl := setPending_ok h
  obtain ⟨hgrows, hmark⟩ := branch_ok (isBranch_jumpIf comparison) hbranch
  obtain ⟨ys, hys, hkind⟩ := hyes E₁ E₂ () hyes'
  obtain ⟨hgrows', hmark'⟩ := branch_ok isBranch_jump hjoin
  obtain ⟨ns, hns, hother⟩ := hno _ E₅ () hno'
  -- The branch first leads over the first piece and a jump that still has the offset zero.
  have hfirst := Emitter.Grows.setPending [] (ys ++ [.jump 0]) (isBranch_jumpIf comparison)
    (hgrows.trans_only (hys.trans_only hgrows')) hmark
  have hsize : wordCount (ys ++ [.jump 0]) = wordCount ys + 2 := by
    rw [wordCount_append, wordCount_cons, isBranch_jump.size, wordCount_nil]
  rw [hsize, nil_append] at hfirst
  have hboth := hfirst.trans_only hns
  rw [cons_append, append_assoc, ← cons_append] at hboth
  refine ⟨_, Emitter.Grows.setPending _ ns isBranch_jump hboth ?_, fun u hu =>
    ⟨ys, ns, hkind u ?_, hother u ⟨hu.nums, hu.maxOutput⟩, rfl⟩⟩
  · rw [hmark', (hgrows.trans_only hys).size slot]
    simp [(isBranch_jumpIf comparison).size]
  · have hwithin := hns.within ⟨hu.nums, hu.maxOutput⟩
    exact hgrows'.within ⟨hwithin.nums, hwithin.maxOutput⟩

theorem emits_loop {guard body : Emit Unit} {comparison : Comparison}
    {other : CompiledUnit → List Instruction → Prop} (hguard : Emits slot guard fun _ => kind)
    (hbody : Emits slot body fun _ => other) :
    Emits slot (do
        let top ← label slot
        guard
        let exit ← branch slot (.jumpIf comparison)
        body
        jumpBack slot top
        setPending slot exit) fun _ u is =>
      ∃ gs bs, kind u gs ∧ other u bs ∧
        is = gs ++ .jumpIf comparison (wordCount bs + 2 : Nat) ::
          (bs ++ [.jump (-(wordCount gs + wordCount bs + 4 : Nat))]) := by
  intro E E' _ h
  obtain ⟨top, _, hlabel, h⟩ := bind_ok h
  obtain ⟨rfl, rfl⟩ := label_ok hlabel
  obtain ⟨_, E₁, hguard', h⟩ := bind_ok h
  obtain ⟨exit, E₂, hbranch, h⟩ := bind_ok h
  obtain ⟨_, E₃, hbody', h⟩ := bind_ok h
  obtain ⟨_, E₄, hback, h⟩ := bind_ok h
  obtain rfl := setPending_ok h
  obtain ⟨gs, hgs, hkind⟩ := hguard E E₁ () hguard'
  obtain ⟨hgrows, hmark⟩ := branch_ok (isBranch_jumpIf comparison) hbranch
  obtain ⟨bs, hbs, hother⟩ := hbody E₂ E₃ () hbody'
  have hjump := jumpBack_ok hback
  -- The jump back is counted from behind itself, which is two words further.
  have hsize := (hgs.trans_only (hgrows.trans_only hbs)).size slot
  have hoffset : ((E.streams.get slot).code.size : Int) - ((E₃.streams.get slot).code.size + 2) =
      -(wordCount gs + wordCount bs + 4 : Nat) := by
    rw [hsize]
    simp [(isBranch_jumpIf comparison).size]
    omega
  rw [hoffset] at hjump
  have hall := hgs.trans_only (hgrows.trans_only (hbs.trans_only hjump))
  rw [singleton_append] at hall
  refine ⟨_, Emitter.Grows.setPending gs _ (isBranch_jumpIf comparison) hall ?_,
    fun u hu => ⟨gs, bs, hkind u ?_, hother u ?_, ?_⟩⟩
  · rw [hmark, hgs.size slot, only_self]
  · exact hgrows.within (hbs.within (hjump.within ⟨hu.nums, hu.maxOutput⟩))
  · exact hjump.within ⟨hu.nums, hu.maxOutput⟩
  · rw [wordCount_append, wordCount_cons, isBranch_jump.size, wordCount_nil]

end Emit

end Orchestrion
