import Orchestrion.Proofs.Lexing
import Orchestrion.Proofs.WholeTexts

/-!
# The places of nodes

The tokens of an orchestra stand in a row, from the beginning of its text to its end. So its nodes
are nested: every node holds its children, one after the other, and a walk goes through the text
from left to right.
-/

namespace Orchestrion

open Text Token Reader List

theorem Token.row_of_cut {before t : Text} {ts : List Token} (h : Cut Stands before t ts)
    (hlegal : Legal ts) : Row before.length (ts.map Token.span) (before.length + t.length) := by
  induction h with
  | done => exact Nat.le_add_right _ _
  | @token before g bytes rest t ts _ hstart ht _ ih =>
    have hvalue := ht.value_eq (hlegal t mem_cons_self)
    have hrest := ih fun u hu => hlegal u (mem_cons_of_mem t hu)
    have hfrom : t.span.start.offset = before.length + g.length := by
      rw [Token.span, hstart]
      exact length_append
    have hto : t.span.stop.offset = (before ++ g ++ bytes).length := by
      rw [length_append, length_append, ← hfrom, ← hvalue]
      rfl
    refine ⟨?_, ?_, ?_⟩
    · rw [hfrom]
      exact Nat.le_add_right _ _
    · rw [hfrom, hto, length_append, length_append]
      exact Nat.le_add_right _ _
    · rw [hto]
      refine hrest.mono (Nat.le_refl _) ?_
      simp only [length_append]
      omega

theorem Token.offset_finish_scan (source : Text) : (scan source).finish.offset = source.length := by
  have hrest : (Unread.all source).rest = source.beforeZero ++ source.fromZero :=
    takeWhile_append_dropWhile.symm
  have hplace : (Unread.all source).place = .behind [] := rfl
  have hlength : source.length = source.beforeZero.length + source.fromZero.length := by
    rw [← length_append]
    exact congrArg List.length hrest
  rw [scan, (cut_scanFrom hrest (zero_notMem_beforeZero source) (ends_fromZero source) hplace).2,
    hlength]
  rcases source.fromZero with _ | ⟨b, more⟩
  · rfl
  · rfl

namespace OrchestraTree

/-- The nodes of an orchestra, each before its children. -/
def nodes (tree : OrchestraTree) : List Node := (tree.walk (fun _ => true) []).map Prod.snd

/-- The spans of the nodes of an orchestra that is read from a text. -/
structure Nests (source : Text) (tree : OrchestraTree) : Prop where
  bounded : ∀ n ∈ tree.nodes,
    n.span.start.offset ≤ n.span.stop.offset ∧ n.span.stop.offset ≤ source.length
  /-- Children stand within their parents. -/
  within : ∀ n ∈ tree.nodes, ∀ child ∈ n.children,
    n.span.start.offset ≤ child.span.start.offset ∧ child.span.stop.offset ≤ n.span.stop.offset
  /-- Every child ends before the next one begins. -/
  apart : ∀ n ∈ tree.nodes,
    n.children.Pairwise fun left right => left.span.stop.offset ≤ right.span.start.offset
  /-- Nodes begin where tokens do. If there are no tokens, the orchestra begins where its text
  ends. -/
  starts : ∀ n ∈ tree.nodes, (∃ t ∈ (scan source).tokens, n.span.start = t.start) ∨
    n = .orchestra tree ∧ (scan source).tokens = [] ∧ n.span.start = (scan source).finish
  /-- They end where tokens do, except for the orchestra: it ends where its text ends. -/
  stops : ∀ n ∈ tree.nodes, (∃ t ∈ (scan source).tokens, n.span.stop = t.stop) ∨
    n = .orchestra tree ∧ n.span.stop = (scan source).finish ∧ n.span.stop.offset = source.length
  /-- They are visited in the order in which they begin. -/
  sorted : (tree.nodes.map fun n => n.span.start.offset).Pairwise (· ≤ ·)
  /-- Every node is visited once, or every one that is not inside of a node that is not entered. -/
  visited : ∀ enter, Visits enter [.orchestra tree] ((tree.walk enter []).map Prod.snd)

/-- The nodes of an orchestra are nested as they stand in its text. -/
theorem node_spans_nest {source : Text} {tree : OrchestraTree} (h : parse source = .ok tree) :
    Nests source tree := by
  have htree := orchestra_of_parse h
  have hlaid := htree.laid (fun _ => true) []
  have hspan : tree.span = ⟨((scan source).tokens.head?.map Token.start).getD (scan source).finish,
      (scan source).finish⟩ := by
    obtain ⟨h⟩ := htree
    rfl
  have hlegal : Legal (scan source).tokens := fun t ht => (hlaid.proper t ht).legal
  have hfinish : tree.span.stop.offset = source.length := by
    rw [hspan]
    exact offset_finish_scan source
  -- The tokens stand in a row from the first of them to the end of the text.
  have hrow : Row tree.span.start.offset ((scan source).tokens.map Token.span)
      tree.span.stop.offset := by
    have hle : ([] : Text).length + source.beforeZero.length ≤ tree.span.stop.offset := by
      rw [hfinish, length_nil, Nat.zero_add]
      exact (List.takeWhile_prefix _).length_le
    have hrow := (row_of_cut (stands_of_parse h) hlegal).mono (Nat.le_refl 0) hle
    rw [hspan] at hrow ⊢
    cases hts : (scan source).tokens with
    | nil => exact Nat.le_refl _
    | cons t ts =>
      rw [hts] at hrow
      exact hrow.of_cons.2
  obtain ⟨hitems, horderly⟩ := hlaid.row _ _ hrow
  have hvisits (enter) : Visits enter [.orchestra tree] ((tree.walk enter []).map Prod.snd) :=
    (htree.laid enter []).visits.before []
  have hnodes : ∀ n ∈ tree.nodes, n = .orchestra tree ∨
      ∃ m ∈ walkList [] (Item.walk fun _ => true) tree.items, m.2 = n := by
    intro n hn
    obtain ⟨m, hm, rfl⟩ := mem_map.1 hn
    rcases mem_cons.1 hm with rfl | hm
    · exact .inl rfl
    · exact .inr ⟨m, hm, rfl⟩
  have hall : ∀ n ∈ tree.nodes, n.Orderly := by
    intro n hn
    rcases hnodes n hn with rfl | ⟨m, hm, rfl⟩
    · exact hitems
    · exact horderly m hm
  have hroot : Row 0 ([Node.orchestra tree].map Node.span) source.length :=
    ⟨Nat.zero_le _, hrow.le, hfinish.le⟩
  obtain ⟨hbounds, hsorted⟩ := (hvisits fun _ => true).bounds hroot hall
  refine ⟨fun n hn => ⟨(hall n hn).le, (hbounds n hn).2⟩, fun n hn child hchild => ?_,
    fun n hn => ?_, fun n hn => ?_, fun n hn => ?_, hsorted, hvisits⟩
  · exact (hall n hn).within.1 _ (mem_map_of_mem hchild)
  · exact pairwise_map.1 (hall n hn).within.2
  · rcases hnodes n hn with rfl | ⟨m, hm, rfl⟩
    · cases hts : (scan source).tokens with
      | nil =>
        refine .inr ⟨rfl, rfl, ?_⟩
        rw [Node.span, hspan, hts]
        rfl
      | cons t ts =>
        refine .inl ⟨t, mem_cons_self, ?_⟩
        rw [Node.span, hspan, hts]
        rfl
    · exact .inl (hlaid.ends m hm).1
  · rcases hnodes n hn with rfl | ⟨m, hm, rfl⟩
    · exact .inr ⟨rfl, congrArg Span.stop hspan, hfinish⟩
    · exact .inl (hlaid.ends m hm).2

/-- An orchestra with nodes that keep, drop and share the ends of their tokens. -/
def nested : Text :=
  "aopcode f(asig v)\x7b return((v)*-2); \x7d " ++
  "instr a()\x7b imports exports ksig x,y[2]; (x)=1; \x7d"

theorem node_spans_nest_nested : ∃ tree, parse nested = .ok tree ∧ Nests nested tree := by
  have hread : (parse nested).toOption.isSome = true := by decide +kernel
  obtain ⟨tree, htree⟩ := Option.isSome_iff_exists.1 hread
  rw [toOption_eq_some_iff] at htree
  exact ⟨tree, htree, node_spans_nest htree⟩

end OrchestraTree

end Orchestrion
