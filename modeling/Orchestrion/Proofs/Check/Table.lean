import Orchestrion.Proofs.Check.Rates

/-!
# The table of a unit

What stands in the table of an instrument after its check can be told from the tree: its parameters
and then the variables of its declarations, in the order of the text and with nothing left out,
unless there are complaints. A variable with tags has a global variable of its name and rate beside
it, or else there is a complaint; since the global section declares variables of few rates only,
whatever is wrong with it, a variable with tags has one of these rates.
-/

namespace Orchestrion

namespace CheckedUnit

open Check

variable {s : Surroundings} {keyword : Keyword} {i : Instrument} {u : CheckedUnit}

variable (h : ofInstrument s keyword i = .ok u)

include h

theorem variables_of_ofInstrument :
    u.locals.Built ∧
      (∀ e ∈ u.locals.entries, Admits (s.context .instrument (.named keyword i.ident)) e) ∧
      (u.errors = [] → u.locals.entries = i.entries ∧ ∀ e ∈ u.locals.entries,
        Tied (s.context .instrument (.named keyword i.ident)) e) := by
  obtain ⟨u', hu', hbuilt, hadmits, hspec⟩ := ofInstrument_spec s keyword i
  obtain rfl : u' = u := Except.ok.inj (hu'.symm.trans h)
  refine ⟨hbuilt, hadmits, fun hclean => ?_⟩
  obtain ⟨hentries, -, hdecls, -⟩ := hspec hclean
  refine ⟨hentries, fun e he => ?_⟩
  rw [hentries, Instrument.entries, List.mem_append] at he
  rcases he with he | he
  · -- A parameter has no tags.
    obtain ⟨q, -, rfl⟩ := List.mem_map.1 he
    exact fun htagged => absurd htagged Bool.false_ne_true
  · obtain ⟨d, hd, he⟩ := List.mem_flatMap.1 he
    obtain ⟨n, hn⟩ := List.mem_iff_getElem?.1 hd
    exact (hdecls (d, n) (List.mem_zipIdx_iff_getElem?.2 hn)).tied e he

theorem nodup_params (hclean : u.errors = []) : (i.params.map InstrumentParam.ident).Nodup := by
  obtain ⟨hbuilt, -, hspec⟩ := variables_of_ofInstrument h
  have hnodup := hbuilt.aligned.nodup
  rw [VariableTable.names, (hspec hclean).1, Instrument.entries, List.map_append,
    List.map_map] at hnodup
  exact hnodup.of_append_left

theorem global_of_tagged (hclean : u.errors = []) {e : Entry}
    (he : e ∈ u.locals.entries) (htagged : e.isTagged = true) (htable : e.rate ≠ .table) :
    ∃ g, s.globals.lookup? e.ident = some g ∧ g.array = false ∧ g.rate = e.rate := by
  have hfault := ((variables_of_ofInstrument h).2.2 hclean).2 e he htagged htable
  rw [tagFault?] at hfault
  split at hfault
  · cases hfault
  next g hg =>
    split at hfault
    · cases hfault
    next harray =>
      split at hfault
      · cases hfault
      next hrate =>
        rw [Bool.or_eq_true, not_or] at harray
        exact ⟨g, hg, Bool.eq_false_iff.2 harray.2, not_not.1 hrate⟩

theorem rate_of_tagged (hclean : u.errors = []) {e : Entry}
    (he : e ∈ u.locals.entries) (htagged : e.isTagged = true) :
    e.rate = .table ∨ ∃ g ∈ s.globals.entries, g.rate = e.rate := by
  by_cases htable : e.rate = .table
  · exact .inl htable
  · obtain ⟨g, hg, -, hrate⟩ := global_of_tagged h hclean he htagged htable
    exact .inr ⟨g, VariableTable.mem_of_lookup? hg, hrate⟩

end CheckedUnit

def Rate.IsGlobal (r : Rate) : Prop := r = .i ∨ r = .k ∨ r = .table

theorem CheckedUnit.isGlobalRate_of_ofGlobal {block : GlobalBlock} {u : CheckedUnit}
    (h : CheckedUnit.ofGlobal block = .ok u) : ∀ e ∈ u.locals.entries, e.rate.IsGlobal := by
  intro e he
  obtain ⟨u', hu', -, hadmits, -⟩ := ofCheck_spec (checks_globalBlock _ block)
  obtain rfl : u' = u := Except.ok.inj (hu'.symm.trans h)
  simpa [Check.UnitKind.declares, Rate.IsGlobal, or_assoc] using (hadmits e he).rate

end Orchestrion
