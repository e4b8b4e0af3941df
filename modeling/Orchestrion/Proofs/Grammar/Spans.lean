import Orchestrion.Code.Generate

/-!
# Nodes in rows

The children of a node, from left to right, and what it means that they stand within it one after
the other. A walk visits every node before its children. If the children of all nodes that it visits
stand in rows, it visits them in the order of their places.
-/

namespace Orchestrion

open List

/-! ### Children -/

def Expr.children : Expr → List Node
  | constant .. | name .. => []
  | element _ _ e | unary _ _ e => [.expr e]
  | call _ _ args => args.map .expr
  | binary _ _ left right => [.expr left, .expr right]
  | conditional _ guard yes no => [.expr guard, .expr yes, .expr no]

def Stmt.children : Stmt → List Node
  | assign _ target value => [.target target, .expr value]
  | eval _ e | extend _ e => [.expr e]
  | ifThen _ guard body | loop _ guard body => .expr guard :: body.map .stmt
  | ifElse _ guard yes no => .expr guard :: (yes.map .stmt ++ no.map .stmt)
  | output _ args | ret _ args => args.map .expr
  | turnoff _ => []

def GlobalItem.node : GlobalItem → Node
  | setting s => .setting s
  | decl d => d.node

/-- The children of a node, from left to right. -/
def Node.children : Node → List Node
  | orchestra o => o.items.map Item.node
  | global b => b.items.map GlobalItem.node
  | instrument i | template i =>
    i.params.map InstrumentParam.node ++ i.decls.map Decl.node ++ i.body.map stmt
  | opcode o => o.params.map vars ++ o.decls.map Decl.node ++ o.body.map stmt
  | vars d => (d.tags.map tags).toList ++ [type d.type, names d.names]
  | table d => (d.tags.map tags).toList ++ d.args.map expr
  | names l => l.names.map declared
  | target t => (t.index.map expr).toList
  | stmt s => s.children
  | expr e => e.children
  | setting _ | tags _ | type _ | declared _ => []

/-- The nodes of a forest are visited, each of them once and before its children. Only the children
of the nodes that are entered are looked at. -/
inductive Visits (enter : Node → Bool) : List Node → List Node → Prop
  | nil : Visits enter [] []
  | cons {n : Node} {forest inner rest : List Node}
    (hinner : Visits enter (if enter n then n.children else []) inner)
    (hrest : Visits enter forest rest) : Visits enter (n :: forest) (n :: inner ++ rest)

namespace Visits

variable {enter : Node → Bool} {forest forest' visited visited' : List Node}

theorem append (h : Visits enter forest visited) (h' : Visits enter forest' visited') :
    Visits enter (forest ++ forest') (visited ++ visited') := by
  induction h with
  | nil => exact h'
  | cons hinner _ _ ih => simpa using Visits.cons hinner ih

theorem mem_of_mem {n : Node} (h : Visits enter forest visited) (hn : n ∈ forest) :
    n ∈ visited := by
  induction h with
  | nil => exact hn
  | cons _ _ _ ih =>
    rcases mem_cons.1 hn with rfl | hn
    · exact mem_cons_self
    · exact mem_append_right _ (ih hn)

theorem before {n : Node} {nodes : List (Path × Node)}
    (h : Visits enter n.children (nodes.map Prod.snd))
    (path : Path) : Visits enter [n] ((Node.before enter path n nodes).map Prod.snd) := by
  have hinner : Visits enter (if enter n then n.children else [])
      ((if enter n then nodes else []).map Prod.snd) := by
    split
    · exact h
    · exact .nil
  simpa [Node.before] using hinner.cons .nil

end Visits

/-! ### Rows -/

/-- The spans follow each other between two offsets, and none begins before the one in front of it
ends. -/
def Row (lo : Nat) : List Span → Nat → Prop
  | [], hi => lo ≤ hi
  | s :: ss, hi => lo ≤ s.start.offset ∧ s.start.offset ≤ s.stop.offset ∧ Row s.stop.offset ss hi

namespace Row

variable {lo lo' mid hi hi' : Nat} {s : Span} {ss ss' : List Span}

theorem mono (h : Row lo ss hi) (hlo : lo' ≤ lo) (hhi : hi ≤ hi') : Row lo' ss hi' := by
  induction ss generalizing lo lo' with
  | nil => exact Nat.le_trans hlo (Nat.le_trans h hhi)
  | cons s ss ih => exact ⟨Nat.le_trans hlo h.1, h.2.1, ih h.2.2 (Nat.le_refl _)⟩

theorem le (h : Row lo ss hi) : lo ≤ hi := by
  induction ss generalizing lo with
  | nil => exact h
  | cons s ss ih => exact Nat.le_trans h.1 (Nat.le_trans h.2.1 (ih h.2.2))

theorem append (h : Row lo ss mid) (h' : Row mid ss' hi) : Row lo (ss ++ ss') hi := by
  induction ss generalizing lo with
  | nil => exact h'.mono h (Nat.le_refl hi)
  | cons s ss ih => exact ⟨h.1, h.2.1, ih h.2.2⟩

theorem exists_of_append (h : Row lo (ss ++ ss') hi) : ∃ mid, Row lo ss mid ∧ Row mid ss' hi := by
  induction ss generalizing lo with
  | nil => exact ⟨lo, Nat.le_refl lo, h⟩
  | cons s ss ih =>
    obtain ⟨mid, hss, hss'⟩ := ih h.2.2
    exact ⟨mid, ⟨h.1, h.2.1, hss⟩, hss'⟩

theorem within (h : Row lo ss hi) : (∀ s ∈ ss, lo ≤ s.start.offset ∧ s.stop.offset ≤ hi) ∧
    ss.Pairwise fun s s' => s.stop.offset ≤ s'.start.offset := by
  induction ss generalizing lo with
  | nil => exact ⟨forall_mem_nil _, .nil⟩
  | cons s ss ih =>
    obtain ⟨hlo, hle, hrest⟩ := h
    obtain ⟨hwithin, hapart⟩ := ih hrest
    refine ⟨forall_mem_cons.2 ⟨⟨hlo, hrest.le⟩, fun s' hs' => ⟨?_, (hwithin s' hs').2⟩⟩,
      .cons (fun s' hs' => (hwithin s' hs').1) hapart⟩
    exact Nat.le_trans (Nat.le_trans hlo hle) (hwithin s' hs').1

theorem of_cons (h : Row lo (s :: ss) hi) : lo ≤ s.start.offset ∧ Row s.start.offset (s :: ss) hi :=
  ⟨h.1, Nat.le_refl _, h.2⟩

theorem of_concat (h : Row lo (ss ++ [s]) hi) :
    s.stop.offset ≤ hi ∧ Row lo (ss ++ [s]) s.stop.offset := by
  obtain ⟨mid, hss, hlo, hle, hhi⟩ := h.exists_of_append
  exact ⟨hhi, hss.append ⟨hlo, hle, Nat.le_refl _⟩⟩

end Row

/-- The children of the node stand within it in a row. -/
def Node.Orderly (n : Node) : Prop :=
  Row n.span.start.offset (n.children.map Node.span) n.span.stop.offset

theorem Visits.bounds {enter : Node → Bool} {forest visited : List Node} {lo hi : Nat}
    (h : Visits enter forest visited) (hrow : Row lo (forest.map Node.span) hi)
    (horderly : ∀ n ∈ visited, n.Orderly) :
    (∀ n ∈ visited, lo ≤ n.span.start.offset ∧ n.span.stop.offset ≤ hi) ∧
      (visited.map fun n => n.span.start.offset).Pairwise (· ≤ ·) := by
  induction h generalizing lo hi with
  | nil => exact ⟨forall_mem_nil _, .nil⟩
  | @cons n forest inner rest _ _ ihInner ihRest =>
    obtain ⟨hlo, hle, hrow⟩ := hrow
    have hn : n.Orderly := horderly n mem_cons_self
    -- What is inside of the node stands between its ends, and what follows it behind them.
    have hchildren : Row n.span.start.offset ((if enter n then n.children else []).map Node.span)
        n.span.stop.offset := by
      split
      · exact hn
      · exact hle
    obtain ⟨hinner, hsorted⟩ := ihInner hchildren fun m hm =>
      horderly m (mem_cons_of_mem n (mem_append_left rest hm))
    obtain ⟨hrest, hsorted'⟩ := ihRest hrow fun m hm =>
      horderly m (mem_cons_of_mem n (mem_append_right inner hm))
    have hhi := hrow.le
    have hbounds : ∀ m ∈ n :: inner ++ rest, lo ≤ m.span.start.offset ∧
        m.span.stop.offset ≤ hi := by
      intro m hm
      rcases mem_cons.1 hm with rfl | hm
      · exact ⟨hlo, hhi⟩
      rcases mem_append.1 hm with hm | hm
      · exact ⟨Nat.le_trans hlo (hinner m hm).1, Nat.le_trans (hinner m hm).2 hhi⟩
      · exact ⟨Nat.le_trans (Nat.le_trans hlo hle) (hrest m hm).1, (hrest m hm).2⟩
    refine ⟨hbounds, ?_⟩
    simp only [map_cons, cons_append, map_append, pairwise_cons,
      pairwise_append, mem_append, mem_map]
    refine ⟨?_, hsorted, hsorted', ?_⟩
    · rintro _ (⟨m, hm, rfl⟩ | ⟨m, hm, rfl⟩)
      · exact (hinner m hm).1
      · exact Nat.le_trans hle (hrest m hm).1
    · rintro _ ⟨m, hm, rfl⟩ _ ⟨m', hm', rfl⟩
      have hm_le := (horderly m (mem_cons_of_mem n (mem_append_left rest hm))).le
      exact Nat.le_trans hm_le (Nat.le_trans (hinner m hm).2 (hrest m' hm').1)

end Orchestrion
