import Orchestrion.Proofs.Code.Extent

/-!
# Branches find their targets

Code is appended by calls in any order: instructions, branches whose targets are not yet known,
jumps back to labels, and requests that make the next instruction the target of a branch. The caller
has to treat the marks of branches as something to be used up: each is passed on exactly once, after
it was given.
-/

namespace Orchestrion

open List

/-- A call that lets the code of a slot grow. -/
inductive StreamCall where
  | add (i : Instruction)
  | branch (jump : Int → Instruction)
  | setPending (mark : Nat)
  | label
  | jumpBack (place : Nat)

namespace StreamCall

/-- Carries out a call, and gives back the mark of a branch or the place of a label. -/
def emit (slot : Slot) : StreamCall → Emit (Option Nat)
  | add i => do
    Emit.append slot i
    return none
  | branch jump => do return some (← Emit.branch slot jump)
  | setPending mark => do
    Emit.setPending slot mark
    return none
  | label => do return some (← Emit.label slot)
  | jumpBack place => do
    Emit.jumpBack slot place
    return none

/-! ### What a caller knows -/

/-- What is known from the calls so far: the number of words, the marks of all branches, those among
them that have not been passed on, and the places of labels. -/
structure Progress where
  size : Nat := 0
  marks : List Nat := []
  unset : List Nat := []
  labels : List Nat := []

/-- What is known after one more call. -/
def next (p : Progress) : StreamCall → Progress
  | add i => { p with size := p.size + i.size }
  | branch _ => ⟨p.size + 2, (p.size + 1) :: p.marks, (p.size + 1) :: p.unset, p.labels⟩
  | setPending mark => { p with unset := p.unset.erase mark }
  | label => { p with labels := p.size :: p.labels }
  | jumpBack _ => { p with size := p.size + 2 }

def given (n : Nat) : StreamCall → Option Nat
  | branch _ => some (n + 1)
  | label => some n
  | _ => none

def givenAll (p : Progress) : List StreamCall → List (Option Nat)
  | [] => []
  | c :: cs => c.given p.size :: givenAll (c.next p) cs

/-- A branch takes one operand, only a mark that has not been passed on yet is, and jumps lead back
to labels. -/
def Allowed (p : Progress) : StreamCall → Prop
  | branch jump => (jump 0).operands.length = 1
  | setPending mark => mark ∈ p.unset
  | jumpBack place => place ∈ p.labels
  | _ => True

/-- All calls are allowed. In the end every mark has been passed on, and there is room for a return
within `2 ^ 31` words. -/
def Disciplined (p : Progress) : List StreamCall → Prop
  | [] => p.unset = [] ∧ p.size + 1 < 2 ^ 31
  | c :: cs => c.Allowed p ∧ Disciplined (c.next p) cs

variable {p : Progress} {s : Stream} {c : StreamCall} {cs : List StreamCall}

theorem size_le_next (p : Progress) (c : StreamCall) : p.size ≤ (c.next p).size := by
  cases c <;> simp [next]

theorem Disciplined.size_lt (h : Disciplined p cs) : p.size + 1 < 2 ^ 31 := by
  induction cs generalizing p with
  | nil => exact h.2
  | cons c cs ih =>
    have hlater := ih h.2
    have hle := size_le_next p c
    omega

theorem Disciplined.split {before after : List StreamCall} (h : Disciplined p (before ++ after)) :
    Disciplined (before.foldl next p) after := by
  induction before generalizing p with
  | nil => exact h
  | cons c cs ih => exact ih h.2

/-! ### One call -/

def apply (s : Stream) : StreamCall → Stream
  | add i => s.add i
  | branch jump => s.add (jump 0)
  | setPending mark => s.setPending mark
  | label => s
  | jumpBack place => s.add (.jump (s.backOffset place))

/-- What is known is true of the stream, and a branch is pending only if its mark has been passed
on. -/
structure Holds (p : Progress) (s : Stream) : Prop where
  size : s.code.size = p.size
  marks : ∀ m ∈ p.marks, m < p.size
  labels : ∀ l ∈ p.labels, l ≤ p.size
  unset : p.unset ⊆ p.marks
  nodup : p.unset.Nodup
  pending : ∀ m ∈ s.pending, m ∈ p.marks ∧ m ∉ p.unset

theorem holds_empty : Holds {} {} :=
  ⟨rfl, forall_mem_nil _, forall_mem_nil _, nil_subset _, nodup_nil,
    forall_mem_nil _⟩

theorem Holds.add (h : Holds p s) (i : Instruction) :
    Holds { p with size := p.size + i.size } (s.add i) where
  size := by rw [Stream.size_add, h.size]
  marks m hm := Nat.lt_add_right _ (h.marks m hm)
  labels l hl := Nat.le_add_right_of_le (h.labels l hl)
  unset := h.unset
  nodup := h.nodup
  pending := forall_mem_nil _

theorem size_of_branch {jump : Int → Instruction} (h : (branch jump).Allowed p) :
    (jump 0).size = 2 := by
  rw [Instruction.size, show (jump 0).operands.length = 1 from h]

theorem Holds.next (h : Holds p s) (hc : c.Allowed p) : Holds (c.next p) (c.apply s) := by
  cases c with
  | add i => exact h.add i
  | jumpBack place => exact h.add (.jump (s.backOffset place))
  | label => exact { h with labels := forall_mem_cons.2 ⟨Nat.le_refl _, h.labels⟩ }
  | branch jump =>
    have hadd := h.add (jump 0)
    rw [size_of_branch hc] at hadd
    -- The mark lies behind the code so far, so that it is none of the marks so far.
    have hnew : p.size + 1 ∉ p.unset := fun hm => by
      have hlt := h.marks _ (h.unset hm)
      omega
    exact { hadd with
      marks := forall_mem_cons.2 ⟨Nat.lt_succ_self _, hadd.marks⟩
      unset := cons_subset_cons _ h.unset
      nodup := nodup_cons.2 ⟨hnew, h.nodup⟩
      pending := forall_mem_nil _ }
  | setPending mark =>
    refine { h with unset := ?_, nodup := h.nodup.erase mark, pending := ?_ }
    · exact fun m hm => h.unset (mem_of_mem_erase hm)
    · intro m hm
      rcases mem_append.1 hm with hm | hm
      · exact ⟨(h.pending m hm).1, fun herase => (h.pending m hm).2 (mem_of_mem_erase herase)⟩
      · obtain rfl := mem_singleton.1 hm
        exact ⟨h.unset hc, h.nodup.not_mem_erase⟩

theorem Holds.foldl {before : List StreamCall} (h : Holds p s)
    (hcalls : Disciplined p (before ++ cs)) :
    Holds (before.foldl StreamCall.next p) (before.foldl apply s) := by
  induction before generalizing p s with
  | nil => exact h
  | cons c before ih => exact ih (h.next hcalls.1) hcalls.2

/-! ### Words that are final -/

/-- The word is in the code, and no branch with this mark is still to be passed on. -/
def Final (p : Progress) (i : Nat) : Prop := i < p.size ∧ i ∉ p.unset

theorem size_le_foldl (p : Progress) (cs : List StreamCall) : p.size ≤ (cs.foldl next p).size := by
  induction cs generalizing p with
  | nil => exact Nat.le_refl _
  | cons c cs ih => exact Nat.le_trans (size_le_next p c) (ih _)

theorem Final.next {i : Nat} (h : Final p i) : Final (c.next p) i := by
  refine ⟨Nat.lt_of_lt_of_le h.1 (size_le_next p c), ?_⟩
  have hlt := h.1
  have hunset := h.2
  cases c with
  | branch jump =>
    intro hm
    rcases mem_cons.1 hm with rfl | hm
    · omega
    · exact hunset hm
  | setPending mark => exact fun hm => hunset (mem_of_mem_erase hm)
  | _ => exact hunset

theorem settled_apply {i : Nat} (h : Holds p s) (hc : c.Allowed p) (hi : Final p i) :
    (c.apply s).settled[i]? = s.settled[i]? := by
  have hlength : i < s.settled.length := by rw [Stream.length_settled, h.size]; exact hi.1
  have happend (ws : List Int) : (s.settled ++ ws)[i]? = s.settled[i]? :=
    getElem?_append_left hlength
  cases c with
  | label => rfl
  | setPending mark =>
    have hne : mark ≠ i := fun heq => hi.2 (heq ▸ hc)
    rw [apply, Stream.settled_setPending, getElem?_set_ne hne]
  | _ => rw [apply, Stream.settled_add, happend]

theorem settled_foldl {i : Nat} (h : Holds p s) (hcs : Disciplined p cs) (hi : Final p i) :
    (cs.foldl apply s).settled[i]? = s.settled[i]? := by
  induction cs generalizing p s with
  | nil => rfl
  | cons c cs ih => rw [foldl_cons, ih (h.next hcs.1) hcs.2 hi.next, settled_apply h hcs.1 hi]

theorem settled_of_not_mem_pending {i : Nat} (h : i ∉ s.pending) : s.settled[i]? = s.code[i]? := by
  have hpatch (marks : List Nat) (code : Array Int) (hmarks : i ∉ marks) :
      (marks.foldl (Stream.patch s.code.size) code)[i]? = code[i]? := by
    induction marks generalizing code with
    | nil => rfl
    | cons m marks ih =>
      rw [mem_cons, not_or] at hmarks
      rw [foldl_cons, ih _ hmarks.2, Stream.patch,
        Array.getElem?_setIfInBounds_ne (Ne.symm hmarks.1)]
  rw [Stream.settled, Array.getElem?_toList, hpatch _ _ h]

/-! ### Emission -/

section Emission

open Emit

variable {slot : Slot} {E : Emitter}

theorem append_ok (h : Holds p (E.streams.get slot)) (hsize : p.size < 2 ^ 31) (i : Instruction) :
    (append slot i).run E = .ok ((), { E with streams := E.streams.modify slot (·.add i) }) := by
  have hfits : (E.streams.get slot).pendingOffsets.find? (fun a => !fits a) = none := by
    rw [find?_eq_none, Stream.pendingOffsets, forall_mem_map]
    intro m hm
    have hlt := h.marks m (h.pending m hm).1
    have hfit : fits (Stream.offsetTo (E.streams.get slot).code.size m) = true := by
      rw [fits_iff, Stream.offsetTo, greatest, h.size]
      omega
    simp [hfit]
  rw [append_run, hfits]
  rfl

theorem emit_ok (h : Holds p (E.streams.get slot)) (hc : c.Allowed p)
    (hsize : (c.next p).size < 2 ^ 31) : ∃ E', (c.emit slot).run E = .ok (c.given p.size, E') ∧
      E'.streams.get slot = c.apply (E.streams.get slot) := by
  have happend := append_ok h (Nat.lt_of_le_of_lt (size_le_next p c) hsize)
  have hget (f : Stream → Stream) : (E.streams.modify slot f).get slot =
      f (E.streams.get slot) := by
    rw [Slots.get_modify, if_pos rfl]
  cases c with
  | add i => exact ⟨_, bind_of_eq_ok (happend i) _, hget _⟩
  | branch jump =>
    have hmark : ((E.streams.modify slot (·.add (jump 0))).get slot).mark = p.size + 1 := by
      rw [hget, Stream.mark, Stream.size_add, size_of_branch hc, h.size]
      rfl
    have hbranch : (Emit.branch slot jump).run E =
        .ok (_, { E with streams := E.streams.modify slot (·.add (jump 0)) }) :=
      bind_of_eq_ok (happend (jump 0)) _
    exact ⟨_, (bind_of_eq_ok hbranch _).trans (by rw [hmark]; rfl), hget (·.add (jump 0))⟩
  | setPending mark => exact ⟨_, rfl, hget (·.setPending mark)⟩
  | label =>
    refine ⟨E, ?_, rfl⟩
    rw [given, ← h.size]
    rfl
  | jumpBack place =>
    have hle := h.labels place hc
    have hfit : fits ((E.streams.get slot).backOffset place) = true := by
      have hlt : p.size + 2 < 2 ^ 31 := hsize
      rw [fits_iff, Stream.backOffset, greatest, h.size]
      omega
    have hback : (Emit.jumpBack slot place).run E =
        (append slot (.jump ((E.streams.get slot).backOffset place))).run E := by
      change (instruction slot _).run E = _
      rw [instruction, find?_eq_none.2 (by simp [Instruction.operands, hfit])]
    exact ⟨_, bind_of_eq_ok (hback.trans (happend _)) _, hget _⟩

theorem emitAll_ok {rest : List StreamCall} (h : Holds p (E.streams.get slot))
    (hcs : Disciplined p (cs ++ rest)) :
    ∃ E', (cs.mapM (emit slot)).run E = .ok (givenAll p cs, E') ∧
      E'.streams.get slot = cs.foldl apply (E.streams.get slot) := by
  induction cs generalizing p E with
  | nil => exact ⟨E, rfl, rfl⟩
  | cons c cs ih =>
    obtain ⟨E₁, hrun, hE₁⟩ := emit_ok h hcs.1 (Nat.lt_of_succ_lt hcs.2.size_lt)
    obtain ⟨E', hruns, hE'⟩ := ih (E := E₁) (hE₁ ▸ h.next hcs.1) hcs.2
    refine ⟨E', ?_, by rw [hE', hE₁]; rfl⟩
    rw [mapM_cons, StateT.run_bind, bind_of_eq_ok hrun]
    exact bind_of_eq_ok hruns _

end Emission

/-- What is known after calls on an empty stream. -/
def progress (calls : List StreamCall) : Progress := calls.foldl next {}

end StreamCall

open StreamCall

/-- What calls, which lead from one emitter to another one, have made of the code of a slot. -/
structure Stream.Patched (slot : Slot) (calls : List StreamCall) (E E' : Emitter) : Prop where
  /-- A branch whose mark was passed on leads to the instruction that was appended next. -/
  forward : ∀ (before : List StreamCall) (mark : Nat) (after : List StreamCall),
    calls = before ++ .setPending mark :: after →
      ∃ offset, (E'.streams.get slot).code[mark]? = some offset ∧
        (mark + 1 : Nat) + offset = (progress before).size
  /-- A jump back leads to the place that its label had. -/
  backward : ∀ (before : List StreamCall) (place : Nat) (after : List StreamCall),
    calls = before ++ .jumpBack place :: after →
      ∃ offset, (E'.streams.get slot).code[(progress before).size + 1]? = some offset ∧
        ((progress before).size + 2 : Nat) + offset = place
  /-- No branch is left pending. -/
  pending : (E'.streams.get slot).pending = []
  /-- At any time the marks and places that were given back are the known ones, and apart from the
  operands of branches the code stays as it is from then on. -/
  kept : ∀ before after, calls = before ++ after → ∃ E₁,
    (before.mapM (emit slot)).run E = .ok (givenAll {} before, E₁) ∧
      (E₁.streams.get slot).code.size = (progress before).size ∧
      ∀ i < (progress before).size, i ∉ (progress before).marks →
        (E'.streams.get slot).code[i]? = (E₁.streams.get slot).code[i]?

/-- If each mark is passed on exactly once after it was given, and the code is short, then nothing
overflows, every branch leads to its target in the finished code, and nothing but the operands of
branches was changed on the way. -/
theorem Emit.branches_find_targets (slot : Slot) (E : Emitter) (hE : E.streams.get slot = {})
    (calls : List StreamCall) (hcalls : Disciplined {} calls) :
    ∃ E', (do let given ← calls.mapM (emit slot); finish [] slot; return given : Emit _).run E =
        .ok (givenAll {} calls, E') ∧ Stream.Patched slot calls E E' := by
  have hempty : Holds {} (E.streams.get slot) := hE ▸ holds_empty
  have hall : Disciplined {} (calls ++ []) := by rwa [append_nil]
  obtain ⟨E₁, hrun, hE₁⟩ := emitAll_ok hempty hall
  have hholds : Holds (progress calls) (E₁.streams.get slot) := hE₁ ▸ hempty.foldl hall
  have hret := StreamCall.append_ok hholds (Nat.lt_of_succ_lt hall.split.size_lt) .ret
  have hget : (E₁.streams.modify slot (·.add .ret)).get slot = (E₁.streams.get slot).add .ret := by
    rw [Slots.get_modify, if_pos rfl]
  -- The return settles the code of all calls, so that what is final at some time is final for good.
  have hfinal (before : List StreamCall) {after : List StreamCall} (heq : calls = before ++ after)
      {i : Nat} (hi : Final (progress before) i) : ((E₁.streams.get slot).add .ret).code[i]? =
        (before.foldl apply (E.streams.get slot)).settled[i]? := by
    subst heq
    have hpending : i ∉ ((E₁.streams.get slot).add .ret).pending := not_mem_nil
    have hlt : i < (E₁.streams.get slot).settled.length := by
      rw [Stream.length_settled, hholds.size, progress, foldl_append]
      exact Nat.lt_of_lt_of_le hi.1 (size_le_foldl _ _)
    rw [← settled_of_not_mem_pending hpending, Stream.settled_add, getElem?_append_left hlt,
      hE₁, foldl_append, settled_foldl (hempty.foldl hcalls) hcalls.split hi]
  refine ⟨_, (bind_of_eq_ok hrun _).trans (bind_of_eq_ok hret _), ?_⟩
  constructor <;> dsimp only <;> rw [hget]
  · intro before mark after heq
    have hbefore : Holds (progress before) _ := hempty.foldl (heq ▸ hcalls)
    have hmark : mark ∈ (progress before).unset := (heq ▸ hcalls).split.1
    have hlt := hbefore.marks mark (hbefore.unset hmark)
    have hused : Final (progress (before ++ [.setPending mark])) mark := by
      rw [progress, foldl_append]
      exact ⟨hlt, hbefore.nodup.not_mem_erase⟩
    refine ⟨Stream.offsetTo (progress before).size mark, ?_, by rw [Stream.offsetTo]; omega⟩
    rw [hfinal (before ++ [.setPending mark]) (by simpa using heq) hused, foldl_append]
    change (Stream.setPending _ mark).settled[mark]? = _
    rw [Stream.settled_setPending, getElem?_set_self, hbefore.size]
    rwa [Stream.length_settled, hbefore.size]
  · intro before place after heq
    have hbefore : Holds (progress before) _ := hempty.foldl (heq ▸ hcalls)
    have happended :
        Final (progress (before ++ [.jumpBack place])) ((progress before).size + 1) := by
      rw [progress, foldl_append]
      refine ⟨Nat.lt_succ_self _, fun hm => ?_⟩
      have hlt := hbefore.marks _ (hbefore.unset hm)
      omega
    refine ⟨place - ((progress before).size + 2), ?_, by omega⟩
    rw [hfinal (before ++ [.jumpBack place]) (by simpa using heq) happended,
      foldl_append]
    change (Stream.add _ (.jump (Stream.backOffset _ place))).settled[_]? = _
    rw [Stream.settled_add, getElem?_append_right, Stream.length_settled, hbefore.size,
      Nat.add_sub_cancel_left, Stream.backOffset, hbefore.size]
    · rfl
    · rw [Stream.length_settled, hbefore.size]
      exact Nat.le_succ _
  · rfl
  · intro before after heq
    have hbefore : Holds (progress before) _ := hempty.foldl (heq ▸ hcalls)
    obtain ⟨E₂, hrun₂, hE₂⟩ := emitAll_ok hempty (heq ▸ hcalls)
    refine ⟨E₂, hrun₂, by rw [hE₂, hbefore.size], fun i hi hmark => ?_⟩
    have hunpatched : Final (progress before) i := ⟨hi, fun hm => hmark (hbefore.unset hm)⟩
    rw [hfinal before heq hunpatched, hE₂]
    exact settled_of_not_mem_pending fun hm => hmark (hbefore.pending i hm).1

/-- A loop that is left by two branches, which are pending at the same time. -/
def StreamCall.loopWithExits : List StreamCall :=
  [.label, .branch (.jumpIf .eq), .branch .jump, .add .pop, .jumpBack 0, .setPending 1,
  .setPending 3]

theorem Emit.branches_find_targets_loop : Disciplined {} loopWithExits ∧
    ∃ E', (do
        let given ← loopWithExits.mapM (emit .audio); finish [] .audio; return given : Emit _).run
        {} = .ok ([some 0, some 1, some 3, none, none, none, none], E') ∧
      Stream.Patched .audio loopWithExits {} E' := by
  have hdisciplined : Disciplined {} loopWithExits :=
    ⟨trivial, rfl, rfl, trivial, mem_cons_self, mem_cons_of_mem _ mem_cons_self,
      mem_cons_self, rfl, by decide⟩
  exact ⟨hdisciplined, Emit.branches_find_targets .audio {} rfl loopWithExits hdisciplined⟩

end Orchestrion
