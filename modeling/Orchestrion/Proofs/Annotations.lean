import Orchestrion.Grammar.Orchestra
import Orchestrion.Proofs.Check.Attribution

/-!
# Every node annotated, once

All units of an orchestra can be checked in one table of attributes, whatever is wrong with them: no
attribute of any node is set a second time. In the table stands in the end what the check of each
unit by itself finds out. If there are no complaints about a unit, each of its expressions,
statements and targets has a width and a rate, and each reference to a variable carries the entry of
the variable.
-/

namespace Orchestrion

/-- The check of all units in one table is never broken off, and finds the same variables and
complaints as the checks of the units one by one. Below the node of a unit stands what its own table
holds. If there are no complaints about the unit, this annotates all its nodes. -/
theorem OrchestraTree.every_node_annotated_once (tree : OrchestraTree) :
    ∃ o us shared, CheckedOrchestra.ofTree tree = .ok o ∧ tree.checkTogether = .ok (us, shared) ∧
      List.Forall₂ CheckedUnit.Agrees o.units us ∧
      ∀ k item, tree.sections.items[k]? = some item → ∃ u, o.units[k]? = some u ∧
        (∀ q, shared.get (q ++ [k]) = u.attributes.get q) ∧
        (u.errors = [] → ∀ q node, (q, node) ∈ item.walk (fun _ => true) [] →
          node.Annotated (item.scope o.surroundings u.locals) (shared.get (q ++ [k]))) := by
  obtain ⟨o, ho⟩ := CheckedOrchestra.exists_ofTree tree
  have hchecks := CheckedOrchestra.checks_of_ofTree ho
  obtain ⟨us, shared, hshared, hagrees, hbelow⟩ := hchecks.exists_checkTogether
  have hunits := hchecks.units
  refine ⟨o, us, shared, ho, hshared, hagrees, ?_⟩
  intro k item hitem
  obtain ⟨hk, rfl⟩ := List.getElem?_eq_some_iff.1 hitem
  have hlength : k < o.units.length := hunits.length_eq ▸ hk
  have hu := List.getElem?_eq_getElem hlength
  refine ⟨o.units[k], hu, hbelow k _ hu, ?_⟩
  intro hclean q node hnode
  rw [hbelow k _ hu q]
  exact Item.annotates_of_ofCheck (hunits.get hk hlength) hclean (q, node) hnode

/-- An orchestra with two global blocks, a name that is declared twice, an argument that is a table,
an element that is assigned to, and a unit whose check is abandoned. -/
def OrchestraTree.ledger : Text :=
  "global \x7b ksig g; \x7d instr a(n) \x7b ivar x[2]; table t(data, 2, 1, -1); " ++
  "x[n] = tableread(t, 0); output(g * x[1]); \x7d global \x7b table w(harm, 8, 1); \x7d " ++
  "kopcode a() \x7b return(0); \x7d instr b() \x7b xsig y; output(y); \x7d"

theorem OrchestraTree.every_node_annotated_once_ledger :
    ∃ tree o us shared item u, OrchestraTree.parse ledger = .ok tree ∧
      CheckedOrchestra.ofTree tree = .ok o ∧ tree.checkTogether = .ok (us, shared) ∧
      tree.sections.items[1]? = some item ∧ o.units[1]? = some u ∧ u.errors = [] ∧
      ∀ q node, (q, node) ∈ item.walk (fun _ => true) [] →
        node.Annotated (item.scope o.surroundings u.locals) (shared.get (q ++ [1])) := by
  have hchecks : (do
      let tree ← (OrchestraTree.parse ledger).toOption
      let item ← tree.sections.items[1]?
      let o ← (CheckedOrchestra.ofTree tree).toOption
      let u ← o.units[1]?
      some u.errors) = some [] := by decide +kernel
  simp only [Option.bind_eq_bind, Option.bind_eq_some_iff, toOption_eq_some_iff, Option.some.injEq]
    at hchecks
  obtain ⟨tree, htree, item, hitem, o, ho, u, hu, hclean⟩ := hchecks
  obtain ⟨o', us, shared, ho', hshared, -, hall⟩ := OrchestraTree.every_node_annotated_once tree
  obtain rfl : o' = o := Except.ok.inj (ho'.symm.trans ho)
  obtain ⟨u', hu', -, hannotated⟩ := hall 1 item hitem
  obtain rfl : u' = u := Option.some.inj (hu'.symm.trans hu)
  exact ⟨tree, o', us, shared, item, u', htree, ho', hshared, hitem, hu', hclean,
    hannotated hclean⟩

end Orchestrion
