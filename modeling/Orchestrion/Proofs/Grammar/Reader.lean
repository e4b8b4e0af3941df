import Mathlib.Tactic.Common
import Orchestrion.Proofs.Grammar.Rules

/-!
# What readers give

Rules for reasoning about readers, in both directions: what a reader has taken if it succeeds, and
where the fault is if it does not (`Reader.Gives`); and what it makes of tokens that are known
(`Reader.Reads`).
-/

namespace Orchestrion

/-- All places that a cursor can come to are places of a text. -/
structure Cursor.Valid (c : Cursor) : Prop where
  finish : c.finish.isValid = true
  rest : ∀ t ∈ c.rest, t.start.isValid = true

theorem Cursor.Valid.current {c : Cursor} (h : c.Valid) : c.current.start.isValid = true := by
  obtain ⟨_ | ⟨t, rest⟩, finish⟩ := c
  · exact h.finish
  · exact h.rest t List.mem_cons_self

theorem Cursor.rest_eq_cons {c : Cursor} (h : c.current.kind ≠ .endOfText) :
    c.rest = c.current :: c.tail.rest := by
  obtain ⟨_ | ⟨t, rest⟩, finish⟩ := c
  · exact absurd rfl h
  · rfl

/-- Behind the given tokens, the first cursor becomes the second one. -/
structure Cursor.Reaches (c : Cursor) (ts : List Token) (c' : Cursor) : Prop where
  finish : c'.finish = c.finish
  rest : c.rest = ts ++ c'.rest

namespace Cursor.Reaches

variable {c c₁ c₂ : Cursor} {ts us : List Token}

theorem trans (h₁ : c.Reaches ts c₁) (h₂ : c₁.Reaches us c₂) : c.Reaches (ts ++ us) c₂ :=
  ⟨h₂.finish.trans h₁.finish, by rw [h₁.rest, h₂.rest, List.append_assoc]⟩

theorem valid (h : c.Reaches ts c₁) (hc : c.Valid) : c₁.Valid :=
  ⟨h.finish ▸ hc.finish, fun t ht => hc.rest t (h.rest ▸ List.mem_append_right ts ht)⟩

theorem start_isValid (h : c.Reaches ts c₁) (hc : c.Valid) {t : Token} (ht : t ∈ ts) :
    t.start.isValid = true :=
  hc.rest t (h.rest ▸ List.mem_append_left c₁.rest ht)

theorem head?_start (h : c.Reaches ts c₁) (hts : ts ≠ []) :
    ts.head?.map Token.start = some c.current.start := by
  obtain ⟨t, us, rfl⟩ := List.exists_cons_of_ne_nil hts
  rw [Cursor.current, h.rest]
  rfl

end Cursor.Reaches

namespace Reader

variable {α β : Type} {c : Cursor}

/-- At a cursor in a text, a reader takes tokens and gives a value that have a property, or there is
a fault at a place of the text. -/
def Gives (x : Reader α) (c : Cursor) (post : List Token → α → Prop) : Prop :=
  c.Valid → match x.run c with
    | .ok (a, c') => ∃ ts, c.Reaches ts c' ∧ post ts a
    | .error e => e.place.isValid = true

namespace Gives

variable {x : Reader α} {f : α → Reader β} {mid post : List Token → α → Prop}
  {last : List Token → β → Prop}

theorem pure {a : α} (h : post [] a) : (Pure.pure a : Reader α).Gives c post :=
  fun _ => ⟨[], ⟨rfl, rfl⟩, h⟩

theorem bind (hx : x.Gives c mid)
    (hf : ∀ ts a (c' : Cursor), c.Reaches ts c' → mid ts a →
      (f a).Gives c' fun us b => last (ts ++ us) b) :
    (x >>= f).Gives c last := by
  intro hc
  change match (x.run c >>= fun p => (f p.1).run p.2) with | .ok (a, c') => _ | .error e => _
  have hx := hx hc
  cases hrun : x.run c with
  | error e =>
    rw [hrun] at hx
    exact hx
  | ok p =>
    rw [hrun] at hx
    obtain ⟨a, c₁⟩ := p
    obtain ⟨ts, hts, ha⟩ := hx
    have hf := hf ts a c₁ hts ha (hts.valid hc)
    change match (f a).run c₁ with | .ok (a, c') => _ | .error e => _
    cases hrun' : (f a).run c₁ with
    | error e =>
      rw [hrun'] at hf
      exact hf
    | ok q =>
      rw [hrun'] at hf
      obtain ⟨us, hus, hb⟩ := hf
      exact ⟨ts ++ us, hts.trans hus, hb⟩

theorem step (hx : x.Gives c mid)
    (hf : ∀ ts a, mid ts a → ∀ {c' : Cursor}, (f a).Gives c' fun us b => last (ts ++ us) b) :
    (x >>= f).Gives c last :=
  .bind hx fun ts a _ _ ha => hf ts a ha

theorem map {f : α → β} (h : x.Gives c fun ts a => last ts (f a)) : (f <$> x).Gives c last := by
  intro hc
  change match (x.run c >>= fun p => Except.ok (f p.1, p.2)) with | .ok (a, c') => _ | .error e => _
  have h := h hc
  cases hrun : x.run c with
  | error e =>
    rw [hrun] at h
    exact h
  | ok p =>
    rw [hrun] at h
    exact h

theorem mono (h : x.Gives c mid) (hpost : ∀ ts a, mid ts a → post ts a) : x.Gives c post := by
  intro hc
  have h := h hc
  split at h
  next => exact h.imp fun ts hts => ⟨hts.1, hpost _ _ hts.2⟩
  next => exact h

theorem of_valid (h : c.Valid → x.Gives c post) : x.Gives c post := fun hc => h hc hc

/-! ### Looking ahead -/

theorem peek {f : Token → Reader α} (h : (f c.current).Gives c post) :
    (Reader.peek >>= f).Gives c post := h

theorem kind {f : TokenKind → Reader α} (h : (f c.current.kind).Gives c post) :
    (Reader.kind >>= f).Gives c post := h

theorem sees {p : Punctuation} {yes no : Reader α}
    (hyes : c.current.kind = .punctuation p → yes.Gives c post) (hno : no.Gives c post) :
    (Reader.sees p >>= fun b => if b = true then yes else no).Gives c post := by
  change (if decide (c.current.kind = .punctuation p) = true then yes else no).Gives c post
  split
  next h => exact hyes (of_decide_eq_true h)
  next => exact hno

theorem seesWord {k : Keyword} {yes no : Reader α}
    (hyes : c.current.kind = .keyword k → yes.Gives c post) (hno : no.Gives c post) :
    (Reader.seesWord k >>= fun b => if b = true then yes else no).Gives c post := by
  change (if decide (c.current.kind = .keyword k) = true then yes else no).Gives c post
  split
  next h => exact hyes (of_decide_eq_true h)
  next => exact hno

end Gives

/-! ### Single tokens -/

variable {post : List Token → α → Prop}

theorem gives_failAt {place : Position} {fault : SyntaxFault} (h : place.isValid = true) :
    (failAt place fault : Reader α).Gives c post := fun _ => h

theorem gives_failAt_current {fault : SyntaxFault} :
    (failAt c.current.start fault : Reader α).Gives c post := fun hc => hc.current

theorem gives_unexpected {what : String} : (unexpected what : Reader α).Gives c post :=
  fun hc => hc.current

theorem run_take (c : Cursor) : take.run c =
    if c.tail.current.kind = .illegal then
      .error ⟨c.tail.current.start, .illegal c.tail.current.value⟩
    else .ok (c.current, c.tail) := by
  change (((if c.tail.current.kind = .illegal then
    failAt c.tail.current.start (.illegal c.tail.current.value) else Pure.pure () : Reader Unit).run
      c.tail) >>= fun p => Except.ok (c.current, p.2)) = _
  split <;> rfl

theorem gives_take {kind : TokenKind} (h : c.current.kind = kind) (hkind : kind ≠ .endOfText) :
    take.Gives c fun ts t => ts = [t] ∧ t = c.current := by
  intro hc
  have htail : c.Reaches [c.current] c.tail := ⟨rfl, c.rest_eq_cons (by rwa [h])⟩
  rw [run_take]
  by_cases hillegal : c.tail.current.kind = .illegal
  · rw [if_pos hillegal]
    exact (htail.valid hc).current
  · rw [if_neg hillegal]
    exact ⟨[c.current], htail, rfl, rfl⟩

theorem gives_expect {kind : TokenKind} (hkind : kind ≠ .endOfText) :
    (expect kind).Gives c fun ts t => ts = [t] ∧ t.kind = kind := by
  change Gives (if c.current.kind = kind then take else unexpected kind.expectation) c _
  split
  next h =>
    refine (gives_take h hkind).mono ?_
    rintro ts t ⟨rfl, rfl⟩
    exact ⟨rfl, h⟩
  next => exact gives_unexpected

namespace Gives

variable {f : Token → Reader α}

theorem take {kind : TokenKind} (h : c.current.kind = kind) (hkind : kind ≠ .endOfText)
    (hf : ∀ {c' : Cursor}, (f c.current).Gives c' fun us b => post (c.current :: us) b) :
    (Reader.take >>= f).Gives c post := by
  refine .step (gives_take h hkind) ?_
  rintro _ _ ⟨rfl, rfl⟩
  exact hf

theorem expect {kind : TokenKind} (hkind : kind ≠ .endOfText)
    (hf : ∀ t, t.kind = kind → ∀ {c' : Cursor}, (f t).Gives c' fun us b => post (t :: us) b) :
    (Reader.expect kind >>= f).Gives c post := by
  refine .step (gives_expect hkind) ?_
  rintro _ t ⟨rfl, ht⟩
  exact hf t ht

theorem mark (p : Punctuation)
    (hf : ∀ t, t.IsMark p → ∀ {c' : Cursor}, (f t).Gives c' fun us b => post (t :: us) b) :
    (Reader.mark p >>= f).Gives c post := .expect nofun hf

theorem name
    (hf : ∀ t, t.kind = .name → ∀ {c' : Cursor}, (f t).Gives c' fun us b => post (t :: us) b) :
    (Reader.name >>= f).Gives c post := .expect nofun hf

end Gives

theorem gives_integer : integer.Gives c fun ts n => ∃ t, ts = [t] ∧ Grammar.Integer t n := by
  refine .of_valid fun hc => .bind (gives_expect nofun) ?_
  rintro _ t c₁ hts ⟨rfl, ht⟩
  have hstart := hts.start_isValid hc List.mem_cons_self
  split
  next n hn =>
    split
    next hlt => exact .pure ⟨t, rfl, ht, hn, hlt⟩
    next => exact gives_failAt hstart
  next => exact gives_failAt hstart

/-! ### Known tokens -/

def Legal (ts : List Token) : Prop := ∀ t ∈ ts, t.kind ≠ .illegal

end Reader

def Cursor.before (c : Cursor) (ts : List Token) : Cursor := ⟨ts ++ c.rest, c.finish⟩

@[simp]
theorem Cursor.current_before_nil (c : Cursor) : (c.before []).current = c.current := rfl

@[simp]
theorem Cursor.current_before_cons (c : Cursor) (t : Token) (ts : List Token) :
    (c.before (t :: ts)).current = t := rfl

namespace Reader

variable {α β : Type} {c : Cursor} {ts us : List Token} {t : Token} {a : α} {b : β}

theorem Legal.current_ne_illegal (h : Legal c.rest) : c.current.kind ≠ .illegal := by
  obtain ⟨_ | ⟨t, rest⟩, finish⟩ := c
  · nofun
  · exact h t List.mem_cons_self

/-- In front of the given tokens, a reader takes them and gives the value, unless one of the tokens
is illegal. -/
def Reads (x : Reader α) (ts : List Token) (a : α) (c : Cursor) : Prop :=
  Legal (c.before ts).rest → x.run (c.before ts) = .ok (a, c)

namespace Reads

variable {x yes no : Reader α} {p : Punctuation} {f : Token → Reader β}

theorem pure : (Pure.pure a : Reader α).Reads [] a c := fun _ => rfl

theorem bind {f : α → Reader β} (hx : x.Reads ts a (c.before us)) (hf : (f a).Reads us b c) :
    (x >>= f).Reads (ts ++ us) b c := by
  intro hlegal
  have hbefore : c.before (ts ++ us) = (c.before us).before ts := by simp [Cursor.before]
  rw [hbefore] at hlegal ⊢
  have hrest : Legal (c.before us).rest := fun t ht => hlegal t (List.mem_append_right ts ht)
  change (x.run _ >>= fun p => (f p.1).run p.2) = _
  rw [hx hlegal]
  exact hf hrest

theorem bind_nil {f : α → Reader β} (hx : x.Reads ts a c) (hf : (f a).Reads [] b c) :
    (x >>= f).Reads ts b c := by
  simpa using Reads.bind hx hf

theorem map {f : α → β} (hx : x.Reads ts a c) : (f <$> x).Reads ts (f a) c := by
  intro hlegal
  change (x.run _ >>= fun p => Except.ok (f p.1, p.2)) = _
  rw [hx hlegal]
  rfl

/-! ### Looking ahead -/

theorem peek {f : Token → Reader α} (h : (f (c.before ts).current).Reads ts a c) :
    (Reader.peek >>= f).Reads ts a c := h

theorem kind {f : TokenKind → Reader α} {k : TokenKind} (hk : (c.before ts).current.kind = k)
    (h : (f k).Reads ts a c) : (Reader.kind >>= f).Reads ts a c := by
  subst hk
  exact h

theorem sees (hp : (c.before ts).current.kind = .punctuation p) (h : yes.Reads ts a c) :
    (Reader.sees p >>= fun b => if b = true then yes else no).Reads ts a c := by
  change (if decide ((c.before ts).current.kind = .punctuation p) = true then yes
    else no).Reads ts a c
  rwa [if_pos (by simpa using hp)]

theorem sees_not (hp : (c.before ts).current.kind ≠ .punctuation p) (h : no.Reads ts a c) :
    (Reader.sees p >>= fun b => if b = true then yes else no).Reads ts a c := by
  change (if decide ((c.before ts).current.kind = .punctuation p) = true then yes
    else no).Reads ts a c
  rwa [if_neg (by simpa using hp)]

theorem seesWord {k : Keyword} (hk : (c.before ts).current.kind = .keyword k)
    (h : yes.Reads ts a c) :
    (Reader.seesWord k >>= fun b => if b = true then yes else no).Reads ts a c := by
  change (if decide ((c.before ts).current.kind = .keyword k) = true then yes else no).Reads ts a c
  rwa [if_pos (by simpa using hk)]

theorem seesWord_not {k : Keyword} (hk : (c.before ts).current.kind ≠ .keyword k)
    (h : no.Reads ts a c) :
    (Reader.seesWord k >>= fun b => if b = true then yes else no).Reads ts a c := by
  change (if decide ((c.before ts).current.kind = .keyword k) = true then yes else no).Reads ts a c
  rwa [if_neg (by simpa using hk)]

/-! ### Single tokens -/

theorem take (hf : (f t).Reads us b c) : (Reader.take >>= f).Reads (t :: us) b c := by
  have htake : Reader.take.Reads [t] t (c.before us) := by
    intro hlegal
    have hrest : Legal (c.before us).rest := fun u hu => hlegal u (List.mem_cons_of_mem t hu)
    rw [run_take]
    exact if_neg hrest.current_ne_illegal
  exact htake.bind hf

theorem expect {kind : TokenKind} (ht : t.kind = kind) (hf : (f t).Reads us b c) :
    (Reader.expect kind >>= f).Reads (t :: us) b c := by
  have htake : (Reader.take >>= f).Reads (t :: us) b c := .take hf
  change ((if t.kind = kind then Reader.take else unexpected kind.expectation) >>= f).Reads _ b c
  rwa [if_pos ht]

theorem mark (ht : t.IsMark p) (hf : (f t).Reads us b c) :
    (Reader.mark p >>= f).Reads (t :: us) b c := .expect ht hf

end Reads

theorem reads_integer {n : Nat} (ht : Grammar.Integer t n) : integer.Reads [t] n c := by
  obtain ⟨hkind, hvalue, hlt⟩ := ht
  refine .expect hkind ?_
  simp only [hvalue]
  rw [if_pos hlt]
  exact .pure

end Reader

end Orchestrion
