import Orchestrion.Proofs.Token.Longest

/-!
# How a text is cut into tokens

The tokens of a text and what stands between them make up the text, up to the first zero byte.
Nothing is left out: between two tokens there are blanks and complete comments only (`Token.IsGap`),
and every token stands for bytes of its own (`Token.Stands`). The relation `Token.Cut` says this of
the whole text, with the places of the tokens.
-/

namespace Orchestrion

open Text List

/-! ### Places -/

/-- The place right behind a text: on the line after its last newline, as many columns further as
bytes follow that. -/
def Position.behind (t : Text) : Position :=
  ⟨1 + t.count 10, 1 + (t.reverse.takeWhile (· ≠ 10)).length, t.length⟩

theorem Position.behind_concat (t : Text) (b : UInt8) : behind (t ++ [b]) = (behind t).after b := by
  by_cases hb : b = 10
  · subst hb
    simp [behind, after, Nat.add_assoc]
  · simp [behind, after, right, hb, Nat.add_assoc]

theorem Position.foldl_after_behind (t x : Text) : x.foldl after (behind t) = behind (t ++ x) := by
  induction x generalizing t with
  | nil => simp
  | cons b x ih => rw [foldl_cons, ← behind_concat, ih, append_assoc,
      singleton_append]

theorem Unread.drop_eq {u : Unread} {before x after : Text} (hrest : u.rest = x ++ after)
    (hplace : u.place = .behind before) : u.drop x.length = ⟨after, .behind (before ++ x)⟩ := by
  simp only [drop, hrest, hplace, drop_left, take_left, Position.foldl_after_behind]

/-! ### The end of a text -/

namespace Text

/-- The text is empty or begins with a zero byte. -/
def Ends (t : Text) : Prop := Unled (fun b => b ≠ 0) t

theorem Ends.eq_nil_or_cons {t : Text} (h : Ends t) : t = [] ∨ ∃ more, t = 0 :: more := by
  cases t with
  | nil => exact .inl rfl
  | cons b more =>
    have hb := h b more rfl
    exact .inr ⟨more, by simpa using hb⟩

theorem ends_nil : Ends [] := fun _ _ h => by cases h

theorem ends_zero (more : Text) : Ends (0 :: more) := by
  rintro _ _ ⟨⟩
  rfl

theorem Ends.eq_nil_of_append {t z : Text} (h : Ends (t ++ z)) (ht : 0 ∉ t) : t = [] := by
  cases t with
  | nil => rfl
  | cons b t =>
    obtain ⟨more, hmore⟩ := h.eq_nil_or_cons.resolve_left (cons_ne_nil b _)
    cases hmore
    exact absurd mem_cons_self ht

theorem exists_of_append_eq {x after t z : Text} (h : x ++ after = t ++ z) (hx : 0 ∉ x)
    (hz : Ends z) : ∃ t', t = x ++ t' ∧ after = t' ++ z := by
  rcases append_eq_append_iff.1 h with ⟨t', rfl, rfl⟩ | ⟨c, rfl, hc⟩
  · exact ⟨t', rfl, rfl⟩
  · rcases hz.eq_nil_or_cons with rfl | ⟨more, rfl⟩
    · obtain ⟨rfl, rfl⟩ := append_eq_nil_iff.1 hc.symm
      exact ⟨[], by simp, rfl⟩
    · cases c with
      | nil => exact ⟨[], by simp, by simpa using hc.symm⟩
      | cons b c =>
        cases hc
        simp at hx

end Text

namespace Token

/-! ### Gaps -/

/-- Blanks and complete comments in front of a text. A comment of the one sort reaches to the end of
its line, which is a newline or the end of the text, one of the other to the first closing mark. -/
inductive IsGap (rest : Text) : Text → Prop
  | nil : IsGap rest []
  | blank {b : UInt8} {g : Text} (hb : isBlank b = true) (h : IsGap rest g) : IsGap rest (b :: g)
  | lineComment {body g : Text} (hbody : 10 ∉ body) (hend : Unled (fun b => b ≠ 10) (g ++ rest))
    (h : IsGap rest g) : IsGap rest ("//" ++ (body ++ g))
  | blockComment {body g : Text} (hbody : ¬("*/" : Text) <:+: body) (h : IsGap rest g) :
    IsGap rest ("/*" ++ (body ++ ("*/" ++ g)))

theorem blockCommentLength?_eq_some {t : Text} {n : Nat} (h : blockCommentLength? t = some n) :
    ∃ body after, t = body ++ ("*/" ++ after) ∧ n = body.length + 2 ∧ 0 ∉ body ∧
      ¬("*/" : Text) <:+: body := by
  fun_induction blockCommentLength? t generalizing n with
  | case1 => cases h
  | case2 => cases h
  | case3 b rest hb hclose =>
    cases h
    obtain ⟨after, hafter⟩ := List.isPrefixOf_iff_prefix.1 hclose
    exact ⟨[], after, hafter.symm, rfl, not_mem_nil, by decide⟩
  | case4 b rest hb hclose ih =>
    obtain ⟨m, hm, rfl⟩ := Option.map_eq_some_iff.1 h
    obtain ⟨body, after, rfl, rfl, hzero, hbody⟩ := ih hm
    refine ⟨b :: body, after, rfl, by simp [Nat.add_right_comm], by simp [Ne.symm hb, hzero], ?_⟩
    intro hinfix
    rcases infix_cons_iff.1 hinfix with hbegin | hinfix
    · exact hclose (List.isPrefixOf_iff_prefix.2 (hbegin.trans (prefix_append _ _)))
    · exact hbody hinfix

theorem blockCommentLength?_eq_none {t : Text} (h : blockCommentLength? t = none) :
    ∃ body after, t = body ++ after ∧ 0 ∉ body ∧ Ends after ∧ ¬("*/" : Text) <:+: body := by
  fun_induction blockCommentLength? t with
  | case1 => exact ⟨[], [], rfl, not_mem_nil, ends_nil, by decide⟩
  | case2 rest =>
    exact ⟨[], 0 :: rest, rfl, not_mem_nil, ends_zero rest, by decide⟩
  | case3 => cases h
  | case4 b rest hb hclose ih =>
    obtain ⟨body, after, rfl, hzero, hend, hbody⟩ := ih (Option.map_eq_none_iff.1 h)
    refine ⟨b :: body, after, rfl, by simp [Ne.symm hb, hzero], hend, ?_⟩
    intro hinfix
    rcases infix_cons_iff.1 hinfix with hbegin | hinfix
    · exact hclose (List.isPrefixOf_iff_prefix.2 (hbegin.trans (prefix_append _ _)))
    · exact hbody hinfix

theorem lineComment_spec (t : Text) :
    ∃ body after, t = body ++ after ∧ lineCommentLength t = body.length ∧ 0 ∉ body ∧ 10 ∉ body ∧
      Unled (fun b => b ≠ 0 && b ≠ 10) after := by
  refine ⟨_, _, takeWhile_append_dropWhile.symm, rfl, ?_, ?_, ?_⟩
  · intro hzero
    simpa using mem_takeWhile_imp hzero
  · intro hnewline
    simpa using mem_takeWhile_imp hnewline
  · intro b after hb
    have hhead := head?_dropWhile_not (fun b : UInt8 => b ≠ 0 && b ≠ 10) t
    rw [hb] at hhead
    simpa using hhead

theorem blankLength?_eq_succ {t : Text} {n : Nat} (h : blankLength? t = some (n + 1)) :
    ∃ x after, t = x ++ after ∧ x.length = n + 1 ∧ 0 ∉ x ∧
      ∀ g rest z, after = g ++ rest ++ z → 0 ∉ g ++ rest → IsGap rest g → IsGap rest (x ++ g) := by
  unfold blankLength? at h
  split at h
  next => cases h
  next b rest =>
    split at h
    next hb =>
      cases h
      refine ⟨[b], rest, rfl, rfl, ?_, fun g rest z _ _ hg => .blank hb hg⟩
      intro hzero
      cases mem_singleton.1 hzero
      cases hb
    next =>
      split at h
      next hline =>
        obtain ⟨t, ht⟩ := List.isPrefixOf_iff_prefix.1 hline
        cases ht
        obtain ⟨body, after, hsplit, hlength, hzero, hnewline, hend⟩ := lineComment_spec t
        change some (2 + lineCommentLength t) = some (n + 1) at h
        refine ⟨"//" ++ body, after, by rw [hsplit]; rfl, ?_, not_mem_append (by decide) hzero,
          ?_⟩
        · rw [hlength] at h
          rw [length_append, ← Option.some.inj h]
          rfl
        · intro g rest z hafter hinside hg
          refine .lineComment hnewline ?_ hg
          -- The comment ends at a newline or at the end, and a zero byte is no part of the text.
          intro c more hc
          have hled := hend c (more ++ z) (by rw [hafter, hc]; rfl)
          have hc0 : c ≠ 0 := by
            rintro rfl
            rw [hc] at hinside
            exact hinside mem_cons_self
          simpa [hc0] using hled
      next =>
        split at h
        next hblock =>
          obtain ⟨m, hm, hn⟩ := Option.map_eq_some_iff.1 h
          obtain ⟨t, ht⟩ := List.isPrefixOf_iff_prefix.1 hblock
          cases ht
          obtain ⟨body, after, hbody, rfl, hzero, hclose⟩ := blockCommentLength?_eq_some hm
          change t = _ at hbody
          refine ⟨"/*" ++ (body ++ "*/"), after, ?_, ?_,
            not_mem_append (by decide) (not_mem_append hzero (by decide)), ?_⟩
          · rw [hbody, append_assoc, append_assoc]
            rfl
          · simp only [length_append]
            exact hn
          · intro g rest z _ _ hg
            rw [append_assoc, append_assoc]
            exact .blockComment hclose hg
        next => cases h

theorem blankLength?_eq_none {t : Text} (h : blankLength? t = none) :
    ∃ body after, t = "/*" ++ body ++ after ∧ 0 ∉ body ∧ Ends after ∧ ¬("*/" : Text) <:+: body := by
  unfold blankLength? at h
  split at h
  next => cases h
  next b rest =>
    split at h
    next => cases h
    next =>
      split at h
      next => cases h
      next =>
        split at h
        next hblock =>
          obtain ⟨t, ht⟩ := List.isPrefixOf_iff_prefix.1 hblock
          cases ht
          obtain ⟨body, after, hsplit, hzero, hend, hclose⟩ :=
            blockCommentLength?_eq_none (Option.map_eq_none_iff.1 h)
          change t = _ at hsplit
          exact ⟨body, after, by rw [hsplit, append_assoc]; rfl, hzero, hend, hclose⟩
        next => cases h

variable {u v : Unread} {before t z : Text}

theorem drop_of_blankLength? {n : Nat} (h : blankLength? u.rest = some (n + 1))
    (hrest : u.rest = t ++ z) (ht : 0 ∉ t) (hz : Ends z) (hplace : u.place = .behind before) :
    ∃ x t', t = x ++ t' ∧ u.drop (n + 1) = ⟨t' ++ z, .behind (before ++ x)⟩ ∧
      ∀ g rest, t' = g ++ rest → IsGap rest g → IsGap rest (x ++ g) := by
  obtain ⟨x, after, hsplit, hx, hzero, hgap⟩ := blankLength?_eq_succ h
  obtain ⟨t', rfl, rfl⟩ := exists_of_append_eq (hsplit.symm.trans hrest) hzero hz
  refine ⟨x, t', rfl, ?_, ?_⟩
  · rw [← hx]
    exact Unread.drop_eq hsplit hplace
  · rintro g rest rfl hg
    exact hgap g rest z rfl (fun hmem => ht (mem_append_right x hmem)) hg

theorem skipBlank_closed (h : skipBlank u = .closed v) (hrest : u.rest = t ++ z) (ht : 0 ∉ t)
    (hz : Ends z) (hplace : u.place = .behind before) :
    ∃ g t', t = g ++ t' ∧ v = ⟨t' ++ z, .behind (before ++ g)⟩ ∧ IsGap t' g ∧
      blankLength? (t' ++ z) = some 0 := by
  fun_induction skipBlank u generalizing before t with
  | case1 => cases h
  | case2 u hzero =>
    cases h
    refine ⟨[], t, rfl, ?_, .nil, hrest ▸ hzero⟩
    rw [append_nil, ← hrest, ← hplace]
  | case3 u n hlength ih =>
    obtain ⟨x, t₁, rfl, hdrop, hgap⟩ := drop_of_blankLength? hlength hrest ht hz hplace
    rw [hdrop] at ih
    obtain ⟨g, t', rfl, rfl, hg, hend⟩ :=
      ih (hdrop ▸ h) rfl (fun hmem => ht (mem_append_right x hmem)) rfl
    refine ⟨x ++ g, t', (append_assoc ..).symm, ?_, hgap g t' rfl hg, hend⟩
    rw [append_assoc]

theorem skipBlank_unclosed {p : Position} (h : skipBlank u = .unclosed p) (hrest : u.rest = t ++ z)
    (ht : 0 ∉ t) (hz : Ends z) (hplace : u.place = .behind before) :
    ∃ g body, t = g ++ ("/*" ++ body) ∧ p = .behind (before ++ g) ∧ IsGap ("/*" ++ body) g ∧
      ¬("*/" : Text) <:+: body := by
  fun_induction skipBlank u generalizing before t with
  | case1 u hnone =>
    cases h
    obtain ⟨body, after, hsplit, hzero, hend, hbody⟩ := blankLength?_eq_none hnone
    obtain ⟨t', rfl, rfl⟩ := exists_of_append_eq (hsplit.symm.trans hrest)
      (not_mem_append (by decide) hzero) hz
    obtain rfl : t' = [] := hend.eq_nil_of_append fun hmem => ht (mem_append_right _ hmem)
    exact ⟨[], body, by simp, by rw [hplace, append_nil], .nil, hbody⟩
  | case2 => cases h
  | case3 u n hlength ih =>
    obtain ⟨x, t₁, rfl, hdrop, hgap⟩ := drop_of_blankLength? hlength hrest ht hz hplace
    rw [hdrop] at ih
    obtain ⟨g, body, rfl, rfl, hg, hbody⟩ :=
      ih (hdrop ▸ h) rfl (fun hmem => ht (mem_append_right x hmem)) rfl
    refine ⟨x ++ g, body, (append_assoc ..).symm, ?_, hgap g _ rfl hg, hbody⟩
    rw [append_assoc]

/-! ### Tokens in their places -/

/-- How a token stands for bytes in front of the rest of a text. It is the longest token at its
place and its value is these bytes; or it is illegal and stands for one byte that no token begins
with, or for a comment that is never closed. -/
inductive Stands : Token → Text → Text → Prop
  | token {t : Token} {bytes rest : Text} (hlongest : Longest t.kind bytes rest)
    (hcomment : ¬("//" : Text) <+: bytes ++ rest ∧ ¬("/*" : Text) <+: bytes ++ rest)
    (hvalue : t.value = bytes) : Stands t bytes rest
  | byte {t : Token} {b : UInt8} {rest : Text} (hkind : t.kind = .illegal)
      (hbare : Bare (b :: rest)) :
    Stands t [b] rest
  | comment {t : Token} {body : Text} (hkind : t.kind = .illegal)
    (hbody : ¬("*/" : Text) <:+: body) : Stands t ("/*" ++ body) []

/-- The same in front of the given end of the text: the last word or numeral takes it along. -/
inductive StandsBefore (z : Text) : Token → Text → Text → Prop
  | stands {t : Token} {bytes rest : Text} (h : Stands t bytes rest) : StandsBefore z t bytes rest
  | overrun {t : Token} {bytes : Text} (hz : z ≠ []) (h : Overruns z t.kind t.value bytes) :
    StandsBefore z t bytes []

/-- The tokens cut a text that stands behind another one: they stand one after the other, each at
the place where it begins, and there are only gaps between them and behind the last one. -/
inductive Cut (stands : Token → Text → Text → Prop) : Text → Text → List Token → Prop
  | done {before g : Text} (hg : IsGap [] g) : Cut stands before g []
  | token {before g bytes rest : Text} {t : Token} {ts : List Token} (hg : IsGap (bytes ++ rest) g)
    (hstart : t.start = .behind (before ++ g)) (ht : stands t bytes rest)
    (h : Cut stands (before ++ g ++ bytes) rest ts) :
    Cut stands before (g ++ (bytes ++ rest)) (t :: ts)

theorem Cut.imp {stands stands' : Token → Text → Text → Prop} {ts : List Token}
    (h : Cut stands before t ts)
    (himp : ∀ tok ∈ ts, ∀ bytes rest, stands tok bytes rest → stands' tok bytes rest) :
    Cut stands' before t ts := by
  induction h with
  | done hg => exact .done hg
  | token hg hstart ht _ ih =>
    exact .token hg hstart (himp _ mem_cons_self _ _ ht)
      (ih fun tok hmem => himp tok (mem_cons_of_mem _ hmem))

theorem Cut.exists_of_mem {stands : Token → Text → Text → Prop} {ts : List Token}
    (h : Cut stands before t ts) {tok : Token} (htok : tok ∈ ts) :
    ∃ front bytes rest, before ++ t = front ++ (bytes ++ rest) ∧ tok.start = .behind front ∧
      stands tok bytes rest := by
  induction h with
  | done => cases htok
  | @token before g bytes rest tok' ts _ hstart hstands _ ih =>
    rcases mem_cons.1 htok with rfl | htok
    · exact ⟨before ++ g, bytes, rest, by simp, hstart, hstands⟩
    · obtain ⟨front, bytes', rest', hsplit, hfront⟩ := ih htok
      exact ⟨front, bytes', rest', by rw [← hsplit]; simp, hfront⟩

theorem not_comment_of_blankLength? {t : Text} (h : blankLength? t = some 0) :
    ¬("//" : Text) <+: t ∧ ¬("/*" : Text) <+: t := by
  unfold blankLength? at h
  split at h
  next => decide
  next b rest =>
    split at h
    next => cases h
    next =>
      split at h
      next => simp at h
      next hline =>
        split at h
        next =>
          obtain ⟨m, -, hm⟩ := Option.map_eq_some_iff.1 h
          omega
        next hblock =>
          exact ⟨fun h => hline (List.isPrefixOf_iff_prefix.2 h),
            fun h => hblock (List.isPrefixOf_iff_prefix.2 h)⟩

theorem ends_of_next_eq_done {p : Position} (h : next u = .done p) :
    ∃ v, skipBlank u = .closed v ∧ Ends v.rest ∧ p = v.endPlace := by
  obtain ⟨v, hskip, hp⟩ := next_eq_done h
  refine ⟨v, hskip, ?_, hp⟩
  simp only [next, hskip] at h
  split at h
  next hv =>
    rw [hv]
    exact ends_nil
  next b rest hv =>
    split at h
    next hb =>
      rw [hv, hb]
      exact ends_zero rest
    next => cases h

theorem standsBefore_of_classify {b : UInt8} {after : Text} (hv : v.rest = b :: after)
    (hrest : v.rest = t ++ z) (ht : 0 ∉ t) (hz : Ends z) (hb : b ≠ 0)
    (hblank : blankLength? v.rest = some 0) :
    ∃ bytes rest, t = bytes ++ rest ∧ (classify v b after).size = bytes.length ∧
      StandsBefore z ⟨(classify v b after).kind, (classify v b after).value, v.place⟩
      bytes rest := by
  rcases classify_spec hv with ⟨hkind, hsize, hbare⟩ | ⟨kind, bytes, after', hsplit, hsize,
    hlongest, hvalue⟩
  · obtain ⟨rest, rfl, rfl⟩ :=
      exists_of_append_eq (x := [b]) (hv.symm.trans hrest) (by simpa using hb.symm) hz
    refine ⟨[b], rest, rfl, hsize, .stands (.byte hkind ?_)⟩
    intro kind x hx hbegin
    exact hbare kind x hx (hbegin.trans (prefix_append (b :: rest) z))
  · obtain ⟨rest, rfl, rfl⟩ :=
      exists_of_append_eq (hsplit.symm.trans hrest) hlongest.spells.zero_notMem hz
    refine ⟨bytes, rest, rfl, hsize, ?_⟩
    have hwider : bytes ++ rest <+: bytes ++ (rest ++ z) := by
      rw [← append_assoc]
      exact prefix_append _ z
    rcases hvalue with ⟨hkind, hvalue⟩ | ⟨⟨more, hmore⟩, hoverrun⟩
    · obtain ⟨hline, hblock⟩ := not_comment_of_blankLength? (hsplit ▸ hblank)
      refine .stands (.token ⟨hkind ▸ hlongest.spells, ?_⟩
        ⟨fun h => hline (h.trans hwider), fun h => hblock (h.trans hwider)⟩ hvalue)
      exact fun other x hx hbegin => hlongest.longest other x hx (hbegin.trans hwider)
    · obtain rfl : rest = [] :=
        Ends.eq_nil_of_append (hmore ▸ ends_zero more) fun h => ht (mem_append_right _ h)
      refine .overrun ?_ hoverrun
      rintro rfl
      cases hmore

theorem cut_scanFrom (hrest : u.rest = t ++ z) (ht : 0 ∉ t) (hz : Ends z)
    (hplace : u.place = .behind before) :
    Cut (StandsBefore z) before t (scanFrom u).tokens ∧
      (scanFrom u).finish = Unread.endPlace ⟨z, .behind (before ++ t)⟩ := by
  fun_induction scanFrom u generalizing before t with
  | case1 u p hnext =>
    obtain ⟨v, hskip, hend, rfl⟩ := ends_of_next_eq_done hnext
    obtain ⟨g, t', rfl, rfl, hg, -⟩ := skipBlank_closed hskip hrest ht hz hplace
    obtain rfl : t' = [] := hend.eq_nil_of_append fun hmem => ht (mem_append_right _ hmem)
    rw [append_nil]
    exact ⟨.done hg, rfl⟩
  | case2 u tok left hnext ih =>
    rcases next_eq_token hnext with
      ⟨start, hskip, rfl, rfl⟩ | ⟨v, b, after, hskip, hv, hb, rfl, rfl⟩
    · -- An open comment takes all that is left of the text.
      obtain ⟨g, body, rfl, rfl, hg, hbody⟩ := skipBlank_unclosed hskip hrest ht hz hplace
      have htake : u.rest.takeWhile (· ≠ 0) = g ++ ("/*" ++ body) := by
        rw [hrest]
        refine takeWhile_append_of_unled (fun b hb => ?_) hz
        simp only [ne_eq, decide_not, Bool.not_eq_true', decide_eq_false_iff_not]
        rintro rfl
        exact ht hb
      rw [htake, Unread.drop_eq hrest hplace] at ih ⊢
      obtain ⟨hcut, hfinish⟩ := ih (t := []) rfl not_mem_nil rfl
      rw [append_nil] at hfinish
      refine ⟨?_, hfinish⟩
      have hg' : IsGap (("/*" : Text) ++ body ++ []) g := by rwa [append_nil]
      have hstands : StandsBefore z ⟨.illegal, "unterminated comment", .behind (before ++ g)⟩
          ("/*" ++ body) [] := .stands (.comment rfl hbody)
      rw [← append_assoc before] at hcut
      have hwhole := Cut.token hg' rfl hstands hcut
      rwa [append_nil, append_assoc] at hwhole
    · obtain ⟨g, t', rfl, rfl, hg, hblank⟩ := skipBlank_closed hskip hrest ht hz hplace
      have ht' : 0 ∉ t' := fun hmem => ht (mem_append_right _ hmem)
      obtain ⟨bytes, rest, rfl, hsize, hstands⟩ := standsBefore_of_classify hv rfl ht' hz hb hblank
      rw [hsize, Unread.drop_eq (append_assoc ..) rfl] at ih ⊢
      obtain ⟨hcut, hfinish⟩ := ih rfl (fun hmem => ht' (mem_append_right _ hmem)) rfl
      refine ⟨.token hg rfl hstands hcut, ?_⟩
      simp only [append_assoc] at hfinish ⊢
      exact hfinish

end Token

end Orchestrion
