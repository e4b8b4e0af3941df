import Orchestrion.Proofs.Instances
import Orchestrion.Proofs.Number.Nearest
import Orchestrion.Proofs.Performance.Tape
import Orchestrion.Proofs.ScoreOrder

/-!
# Feeding a score

What a score leaves in a performance that it is fed to depends on nothing but its valid commands: on
the instruments that it asks for, in the order of the lines, and on the times at which it ends the
performance. A line that is malformed or asks for an unknown instrument leaves one complaint with
its number, and nothing else.
-/

namespace Orchestrion

open List

/-- The number of the line that a complaint is about. -/
def FeedError.line : FeedError → Int
  | .score e => e.line
  | .misuse e => e.line

/-- Instances of all instruments can be made and given values. -/
def Repertoire.Ready (r : Repertoire) : Prop :=
  ∀ u ∈ r.units, ∀ values, ∃ new i, u.instantiate = .made new ∧ new.withParams? values = some i ∧
    i.Given u values

namespace Feeder

/-! ### What a line asks for -/

/-- A known instrument that a line asks for. -/
structure Play where
  unit : CompiledUnit
  time : Float
  duration : Float
  params : List Float

namespace Play

variable (settings : Settings) (p : Play)

/-- When the instrument plays; it has no end if the duration is negative. -/
def life : Lifetime :=
  ⟨settings.ticks p.time,
    if p.duration < 0 then Tick.unbounded else settings.ticks (p.time + p.duration)⟩

/-- The last tick of the instrument, if it has an end. -/
def stop? : Option Tick :=
  if p.duration < 0 then none else some (settings.ticks (p.time + p.duration))

def voice? : Option Instance :=
  match p.unit.instantiate with
  | .made i =>
    (i.withParams? (p.params.map Number.narrow)).map (Playable.withLifetime · (p.life settings))
  | _ => none

end Play

/-- The time at which a line ends the performance, if it does. -/
def end? (line : Text) : Option Float :=
  match command? line with
  | some ⟨_, time, .finish⟩ => some time
  | _ => none

/-- The known instrument that a line asks for, if it asks for one. -/
def play? (r : Repertoire) (line : Text) : Option Play :=
  match command? line with
  | some ⟨_, time, .play name duration params⟩ => (r.unit? name).map (⟨·, time, duration, params⟩)
  | _ => none

/-- Whether a line is neither blank nor a command. -/
def isMalformed (line : Text) : Bool :=
  match Command.parse [] 1 (trimLine line) with
  | .error _ => true
  | .ok _ => false

/-- Whether a line asks for an instrument that is not known. -/
def asksUnknown (r : Repertoire) (line : Text) : Bool :=
  match command? line with
  | some ⟨_, _, .play name _ _⟩ => (r.unit? name).isNone
  | _ => false

/-- Whether a line cannot be carried out. -/
def isBad (r : Repertoire) (line : Text) : Bool := isMalformed line || asksUnknown r line

/-- Whether a line is a command that can be carried out. -/
def isGood (r : Repertoire) (line : Text) : Bool := (end? line).isSome || (play? r line).isSome

/-- The complaint about a line with the given number, if it cannot be carried out. -/
def complaint? (r : Repertoire) (file : Text) (line : Text) (number : Nat) : Option FeedError :=
  match Command.parse file number (trimLine line) with
  | .error e => some (.score e)
  | .ok (some ⟨_, _, .play name _ _⟩) =>
    if (r.unit? name).isNone then some (.misuse ⟨number, name, .unknown name⟩) else none
  | .ok _ => none

theorem parse_eq (file : Text) (number : Int) (line : Text) :
    Command.parse file number line = match Command.parse [] 1 line with
      | .error e => .error ⟨file, number, e.fault⟩
      | .ok c => .ok c := by
  unfold Command.parse
  by_cases hblank : Command.isBlankLine line = true
  · rw [if_pos hblank, if_pos hblank]
  · rw [if_neg hblank, if_neg hblank]
    cases ScoreWord.scan line with
    | error g => rfl
    | ok scanned =>
      dsimp only
      cases Command.ofWords scanned <;> rfl

/-! ### What lines ask for -/

/-- The times at which lines end the performance. -/
def ends (ls : List Text) : List Float := ls.filterMap end?

/-- The known instruments that lines ask for. -/
def plays (r : Repertoire) (ls : List Text) : List Play := ls.filterMap (play? r)

/-- The complaints about lines, the first of them having the given number. -/
def complaints (r : Repertoire) (file : Text) (number : Nat) (ls : List Text) : List FeedError :=
  (ls.zipIdx number).filterMap fun p => complaint? r file p.1 p.2

def latestOf (latest : Option Tick) (ticks : List Tick) : Option Tick :=
  ticks.foldl (fun latest t => some (later latest t)) latest

section Reads

variable {σ : Type} {r : Repertoire} {n : Nat} {ls : List Text} {f f₁ f' : Feeding σ}

/-- What reading lines does to a feeder and a performance. -/
structure Reads (r : Repertoire) (n : Nat) (ls : List Text) (f f' : Feeding σ) : Prop where
  file : f'.1.file = f.1.file
  errors : f'.1.errors = f.1.errors ++ complaints r f.1.file n ls
  sawEnd : f'.1.sawEnd = (f.1.sawEnd || (ends ls).getLast?.isSome)
  latest : f'.1.latest =
    latestOf f.1.latest ((plays r ls).filterMap (Play.stop? f.2.settings))
  scheduler : f'.2 = { f.2 with
    pending := f.2.pending ++ (plays r ls).filterMap (Play.voice? f.2.settings)
    finish := ((ends ls).getLast?.map f.2.settings.ticks).getD f.2.finish }

theorem Reads.nil (f : Feeding σ) : Reads r n [] f f where
  file := rfl
  errors := (append_nil _).symm
  sawEnd := (Bool.or_false _).symm
  latest := rfl
  scheduler := by
    obtain ⟨feeder, s⟩ := f
    simp [plays, ends]

theorem Reads.append {ls' : List Text} (h : Reads r n ls f f₁)
    (h' : Reads r (n + ls.length) ls' f₁ f') : Reads r n (ls ++ ls') f f' := by
  have hsettings : f₁.2.settings = f.2.settings := by rw [h.scheduler]
  refine ⟨h'.file.trans h.file, ?_, ?_, ?_, ?_⟩
  · rw [h'.errors, h.errors, h.file, complaints, complaints, complaints, zipIdx_append,
      filterMap_append, append_assoc]
  · rw [h'.sawEnd, h.sawEnd, ends, ends, ends, filterMap_append, getLast?_append,
      Option.isSome_or, Bool.or_assoc, Bool.or_comm (List.getLast? _).isSome]
  · rw [h'.latest, h.latest, hsettings, plays, plays, plays, filterMap_append,
      filterMap_append, latestOf, latestOf, latestOf, foldl_append]
  · rw [h'.scheduler, h.scheduler]
    simp only [plays, ends, filterMap_append, append_assoc, getLast?_append]
    -- The last end is the one of the later lines, if they have any.
    cases (ls'.filterMap end?).getLast? <;> rfl

theorem Reads.of_line (n : Nat) (line : Text) (feeder : Feeder) (s : Scheduler Instance σ) :
    Reads r n [line] (feeder, s)
      ({ feeder with
          errors := feeder.errors ++ (complaint? r feeder.file line n).toList
          sawEnd := feeder.sawEnd || (end? line).isSome
          latest := latestOf feeder.latest ((play? r line).bind (Play.stop? s.settings)).toList },
        { s with
          pending := s.pending ++ ((play? r line).bind (Play.voice? s.settings)).toList
          finish := ((end? line).map s.settings.ticks).getD s.finish }) := by
  have hsingle {α β : Type} (f : α → Option β) (o : Option α) :
      o.toList.filterMap f = (o.bind f).toList := by
    cases o with
    | none => rfl
    | some a => cases hf : f a <;> simp [hf]
  have hends : ends [line] = (end? line).toList := hsingle end? (some line)
  have hplays : plays r [line] = (play? r line).toList := hsingle (play? r) (some line)
  have hcomplaints : complaints r feeder.file n [line] = (complaint? r feeder.file line n).toList :=
    hsingle (fun p : Text × Nat => complaint? r feeder.file p.1 p.2) (some (line, n))
  have hlast : (ends [line]).getLast? = end? line := by
    rw [hends]
    cases end? line <;> rfl
  refine ⟨rfl, by rw [hcomplaints], by rw [hlast], by rw [hplays, hsingle], ?_⟩
  rw [hplays, hlast, hsingle]

theorem exists_readLine (hr : r.Ready) (n : Nat) (f : Feeding σ) (line : Text) :
    ∃ f', readLine r n f line = some f' ∧ Reads r n [line] f f' := by
  obtain ⟨feeder, s⟩ := f
  refine ⟨_, ?_, .of_line n line feeder s⟩
  unfold readLine complaint? end? play? command?
  dsimp only
  rw [parse_eq feeder.file n (trimLine line)]
  match Command.parse [] 1 (trimLine line) with
  | .error e | .ok none | .ok (some ⟨place, time, .finish⟩) => simp [apply, latestOf]
  | .ok (some ⟨place, time, .play name duration params⟩) =>
    cases hunit : r.unit? name with
    | none => simp [apply, Repertoire.instantiate, hunit, latestOf]
    | some u =>
      -- The unit is ready, and so an instance of it is made.
      obtain ⟨new, i, hmade, hi, -⟩ := hr u (mem_of_find?_eq_some hunit)
        (params.map Number.narrow)
      by_cases hduration : duration < 0 <;>
        simp [apply, Repertoire.instantiate, hunit, hmade, hi, scheduleAt, hduration, latestOf,
          Scheduler.schedule, Play.voice?, Play.stop?, Play.life]

variable [Sink σ]

theorem exists_readLines (hr : r.Ready) (hlines : ∀ line ∈ ls, line.length < maxLine)
    (hlive : Sink.isCancelled f.2.sink = false) :
    ∃ f', readLines r n f ls = (f', none) ∧ Reads r n ls f f' := by
  induction ls generalizing n f with
  | nil => exact ⟨f, rfl, .nil f⟩
  | cons line ls ih =>
    rw [forall_mem_cons] at hlines
    obtain ⟨f₁, hline, hreads⟩ := exists_readLine hr n f line
    have hlive₁ : Sink.isCancelled f₁.2.sink = false := by rwa [hreads.scheduler]
    obtain ⟨f', hrest, hreads'⟩ := ih (n := n + 1) hlines.2 hlive₁
    refine ⟨f', ?_, hreads.append hreads'⟩
    rw [readLines, if_neg (Nat.not_le.2 hlines.1), hlive, if_neg Bool.false_ne_true, hline]
    exact hrest

end Reads

/-! ### What a score leaves -/

theorem toInt_latestOf (ticks : List Tick) :
    (latestOf none ticks).map Int64.toInt = (ticks.map Int64.toInt).max? := by
  have hsome (ticks : List Tick) (t : Tick) :
      (latestOf (some t) ticks).map Int64.toInt =
      some ((ticks.map Int64.toInt).foldl max t.toInt) := by
    induction ticks generalizing t with
    | nil => rfl
    | cons t' ticks ih =>
      rw [latestOf, foldl_cons, ← latestOf, ih, map_cons, foldl_cons, toInt_later]
  cases ticks with
  | nil => rfl
  | cons t ticks => exact hsome ticks t

/-- The last ticks of the instruments that lines ask for and that have an end. -/
def stops (r : Repertoire) (settings : Settings) (ls : List Text) : List Tick :=
  (plays r ls).filterMap (Play.stop? settings)

/-- A performance after a score with the given lines was fed to it. -/
structure Follows {σ : Type} (r : Repertoire) (ls : List Text) (s s' : Scheduler Instance σ) :
    Prop where
  /-- One voice waits for each command that asks for a known instrument, in the order of the lines,
  with its lifetime and the values of its parameters. Nothing else has changed but the end. -/
  voices : ∃ voices, s' = { s with pending := s.pending ++ voices, finish := s'.finish } ∧
    List.Forall₂ (fun p v => v.Given p.unit (p.params.map Number.narrow) ∧
      v.lifetime = p.life s.settings) (plays r ls) voices
  /-- The last command that ends the performance sets the end. -/
  ended : ∀ time, (ends ls).getLast? = some time → s'.finish = s.settings.ticks time
  /-- If there is none, the end is one tick after the last instrument that has one. -/
  settled : ends ls = [] → ∀ last, ((stops r s.settings ls).map Int64.toInt).max? = some last →
    s'.finish.toInt = last + 1
  /-- If there is none either, the end stays. -/
  unsettled : ends ls = [] → stops r s.settings ls = [] → s'.finish = s.finish

theorem toInt_le_of_mem_stops {r : Repertoire} {settings : Settings} {ls : List Text} {t : Tick}
    (h : t ∈ stops r settings ls) : t.toInt ≤ 2 ^ 63 - 2 ^ 10 := by
  obtain ⟨p, -, hp⟩ := mem_filterMap.1 h
  rw [Play.stop?] at hp
  split at hp
  · cases hp
  · cases hp
    exact settings.toInt_ticks_le _

theorem forall₂_voices {r : Repertoire} (hr : r.Ready) (settings : Settings) (ls : List Text) :
    List.Forall₂ (fun p v => v.Given p.unit (p.params.map Number.narrow) ∧
      v.lifetime = p.life settings) (plays r ls)
      ((plays r ls).filterMap (Play.voice? settings)) := by
  have hknown : ∀ p ∈ plays r ls, p.unit ∈ r.units := by
    intro p hp
    obtain ⟨line, -, hline⟩ := mem_filterMap.1 hp
    rw [play?] at hline
    split at hline
    next =>
      obtain ⟨u, hu, rfl⟩ := Option.map_eq_some_iff.1 hline
      exact mem_of_find?_eq_some hu
    next => cases hline
  generalize plays r ls = ps at hknown ⊢
  induction ps with
  | nil => exact .nil
  | cons p ps ih =>
    rw [forall_mem_cons] at hknown
    obtain ⟨new, i, hmade, hi, hgiven⟩ := hr p.unit hknown.1 (p.params.map Number.narrow)
    have hvoice : p.voice? settings = some (Playable.withLifetime i (p.life settings)) := by
      rw [Play.voice?, hmade]
      dsimp only
      rw [hi, Option.map_some]
    rw [filterMap_cons_some hvoice]
    refine .cons ⟨⟨hgiven.unit, hgiven.size, hgiven.param, hgiven.other, hgiven.arrays⟩, rfl⟩ ?_
    exact ih hknown.2

section Feed

variable {σ : Type} [Sink σ] {r : Repertoire}

/-- A score that can be read to its end, and whose lines are not too long. -/
structure Source.Fits (score : Source) : Prop where
  fault : score.fault = none
  lines : ∀ line ∈ lines score.text, line.length < maxLine

/-- A new feeder, which knows of no line yet. -/
structure IsNew (feeder : Feeder) : Prop where
  latest : feeder.latest = none
  sawEnd : feeder.sawEnd = false

omit [Sink σ] in
theorem settleEnd_eq (feeder : Feeder) (s : Scheduler Instance σ) :
    settleEnd (feeder, s) = (feeder, { s with
      finish :=
        if feeder.sawEnd then s.finish else (feeder.latest.map (· + 1)).getD s.finish }) := by
  obtain ⟨file, latest, sawEnd, errors⟩ := feeder
  cases sawEnd <;> cases latest <;> rfl

omit [Sink σ] in
theorem Reads.follows {f f' : Feeding σ} {n : Nat} {ls : List Text} (h : Reads r n ls f f')
    (hr : r.Ready) (hnew : f.1.IsNew) : Follows r ls f.2 (settleEnd f').2 := by
  obtain ⟨feeder', s'⟩ := f'
  have hsawEnd : feeder'.sawEnd = (ends ls).getLast?.isSome := by
    rw [show feeder'.sawEnd = _ from h.sawEnd, hnew.sawEnd, Bool.false_or]
  have hlatest : feeder'.latest = latestOf none (stops r f.2.settings ls) := by
    rw [show feeder'.latest = _ from h.latest, hnew.latest, stops]
  have hscheduler : s' = _ := h.scheduler
  rw [settleEnd_eq, hsawEnd, hlatest]
  refine ⟨⟨_, by rw [hscheduler], forall₂_voices hr f.2.settings ls⟩, ?_, ?_, ?_⟩
  · intro time hlast
    rw [hscheduler, hlast]
    rfl
  · intro hends last hlast
    rw [hends]
    -- The latest end is that of a time, so that there is a tick after it.
    obtain ⟨t, ht, rfl⟩ := Option.map_eq_some_iff.1 ((toInt_latestOf _).trans hlast)
    obtain ⟨t', ht', heq⟩ := mem_map.1 (max?_mem hlast)
    have hle := toInt_le_of_mem_stops ht'
    have hmax : Tick.unbounded.toInt = 2 ^ 63 - 1 := by decide
    rw [ht]
    exact Tick.toInt_succ (by omega)
  · intro hends hstops
    rw [hstops, hscheduler, hends]
    rfl

theorem exists_feed {score : Source} {f : Feeding σ} (hr : r.Ready) (hscore : score.Fits)
    (hlive : Sink.isCancelled f.2.sink = false) :
    ∃ f', feed r f score = (settleEnd f', none) ∧ Reads r 1 (lines score.text) f f' := by
  obtain ⟨f', hlines, hreads⟩ := exists_readLines (n := 1) hr hscore.lines hlive
  refine ⟨f', ?_, hreads⟩
  rw [feed, hlines, hscore.fault]

end Feed

/-! ### Lines that are left out -/

theorem isGood_of_isBad {r : Repertoire} {line : Text} (h : isBad r line = true) :
    isGood r line = false := by
  rw [isBad, Bool.or_eq_true, isMalformed, asksUnknown] at h
  rw [isGood, end?, play?]
  unfold command? at h ⊢
  match hline : Command.parse [] 1 (trimLine line) with
  | .error e => rfl
  | .ok none => simp [hline] at h
  | .ok (some ⟨place, time, .finish⟩) => simp [hline] at h
  | .ok (some ⟨place, time, .play name duration params⟩) => simpa [hline] using h

theorem complaint?_spec (r : Repertoire) (file line : Text) (number : Nat) :
    (complaint? r file line number).map FeedError.line =
      if isBad r line then some (number : Int) else none := by
  rw [isBad, isMalformed, asksUnknown, complaint?, parse_eq]
  unfold command?
  match hline : Command.parse [] 1 (trimLine line) with
  | .error e => rfl
  | .ok none => rfl
  | .ok (some ⟨place, time, .finish⟩) => rfl
  | .ok (some ⟨place, time, .play name duration params⟩) =>
    dsimp only
    rw [Bool.false_or]
    split <;> rfl

theorem line_complaints (r : Repertoire) (file : Text) (number : Nat) (ls : List Text) :
    (complaints r file number ls).map FeedError.line =
      ((ls.zipIdx number).filter fun p => isBad r p.1).map fun p => (p.2 : Int) := by
  rw [complaints, map_filterMap, ← filterMap_eq_filter, map_filterMap]
  refine filterMap_congr fun p _ => ?_
  rw [complaint?_spec]
  cases hbad : isBad r p.1 <;> simp [Option.guard, hbad]

theorem asks_of_isGood {r : Repertoire} {ls ls' : List Text}
    (h : ls'.filter (isGood r) = ls.filter (isGood r)) :
    ends ls' = ends ls ∧ plays r ls' = plays r ls := by
  have hgood {α : Type} (f : Text → Option α)
      (hf : ∀ line a, f line = some a → isGood r line = true)
      (ls : List Text) : (ls.filter (isGood r)).filterMap f = ls.filterMap f := by
    rw [filterMap_filter]
    refine filterMap_congr fun line _ => ?_
    cases hline : f line with
    | none => exact ite_self _
    | some a => rw [if_pos (hf line a hline)]
  have hends := hgood end? fun line a ha => by rw [isGood, ha, Option.isSome_some, Bool.true_or]
  have hplays := hgood (play? r) fun line a ha => by
    rw [isGood, ha, Option.isSome_some, Bool.or_true]
  rw [ends, ends, plays, plays, ← hends ls', ← hends ls, ← hplays ls', ← hplays ls, h]
  exact ⟨rfl, rfl⟩

theorem filter_isGood_of_isBad {r : Repertoire} {ls ls' : List Text}
    (h : ls'.filter (fun line => !isBad r line) = ls.filter (fun line => !isBad r line)) :
    ls'.filter (isGood r) = ls.filter (isGood r) := by
  have hgood (ls : List Text) : (ls.filter fun line => !isBad r line).filter (isGood r) =
      ls.filter (isGood r) := by
    rw [filter_filter]
    refine filter_congr fun line _ => ?_
    cases hbad : isBad r line with
    | false => simp
    | true => simp [isGood_of_isBad hbad]
  rw [← hgood ls', ← hgood ls, h]

theorem Reads.eq_of_asks {σ : Type} {r : Repertoire} {n n' : Nat} {ls ls' : List Text}
    {f f₁ f₂ : Feeding σ} (h : Reads r n ls f f₁) (h' : Reads r n' ls' f f₂)
    (hends : ends ls' = ends ls) (hplays : plays r ls' = plays r ls) :
    f₂ = ({ f₁.1 with errors := f.1.errors ++ complaints r f.1.file n' ls' }, f₁.2) := by
  obtain ⟨⟨file₁, latest₁, sawEnd₁, errors₁⟩, s₁⟩ := f₁
  obtain ⟨⟨file₂, latest₂, sawEnd₂, errors₂⟩, s₂⟩ := f₂
  obtain ⟨hfile, herrors, hsawEnd, hlatest, hscheduler⟩ := h'
  rw [hends] at hsawEnd hscheduler
  rw [hplays] at hlatest hscheduler
  dsimp only at hfile herrors hsawEnd hlatest hscheduler ⊢
  rw [hfile, herrors, hsawEnd, hlatest, hscheduler, ← h.scheduler, ← h.latest, ← h.sawEnd, ← h.file]

variable {σ : Type} [Sink σ] {r : Repertoire}

theorem feed_of_isGood {score score' : Source} {f : Feeding σ} (hr : r.Ready) (hscore : score.Fits)
    (hscore' : score'.Fits) (hlive : Sink.isCancelled f.2.sink = false)
    (h : (lines score'.text).filter (isGood r) = (lines score.text).filter (isGood r)) :
    feed r f score' = (({ (feed r f score).1.1 with
      errors := f.1.errors ++ complaints r f.1.file 1 (lines score'.text) },
        (feed r f score).1.2), none) := by
  obtain ⟨⟨feeder₁, s₁⟩, hfeed, hreads⟩ := exists_feed hr hscore hlive
  obtain ⟨f₂, hfeed', hreads'⟩ := exists_feed hr hscore' hlive
  obtain ⟨hends, hplays⟩ := asks_of_isGood h
  rw [hfeed, hfeed', hreads.eq_of_asks hreads' hends hplays, settleEnd_eq, settleEnd_eq]

end Feeder

/-! ### Playing a score -/

theorem Orchestra.ready {source : Text} {o : Orchestra} (h : Orchestra.compile source = .ok o)
    (hroom : ∀ u ∈ o.repertoire.units, u.InMemory) : o.repertoire.Ready :=
  fun u hu values => (Orchestra.builds h hu).exists_given (hroom u hu) values

theorem Feeder.Follows.unbounded_iff {σ : Type} {r : Repertoire} {ls : List Text}
    {s s' : Scheduler Instance σ} (h : Follows r ls s s') (hs : s.finish = Tick.unbounded) :
    s'.finish = Tick.unbounded ↔ ends ls = [] ∧ stops r s.settings ls = [] := by
  have hmax : Tick.unbounded.toInt = 2 ^ 63 - 1 := by decide
  constructor
  · intro hfinish
    have hends : ends ls = [] := by
      by_contra hne
      obtain ⟨time, htime⟩ := Option.ne_none_iff_exists'.1 (mt getLast?_eq_none_iff.1 hne)
      have hle := s.settings.toInt_ticks_le time
      rw [← h.ended time htime, hfinish, hmax] at hle
      omega
    refine ⟨hends, ?_⟩
    by_contra hne
    have hne' : (stops r s.settings ls).map Int64.toInt ≠ [] := mt map_eq_nil_iff.1 hne
    obtain ⟨last, hlast⟩ := Option.ne_none_iff_exists'.1 (mt max?_eq_none_iff.1 hne')
    obtain ⟨t, ht, rfl⟩ := mem_map.1 (max?_mem hlast)
    have hle := toInt_le_of_mem_stops ht
    have hsucc := h.settled hends _ hlast
    rw [hfinish, hmax] at hsucc
    omega
  · rintro ⟨hends, hstops⟩
    rw [h.unsettled hends hstops, hs]

theorem Feeder.stops_eq_nil_iff {r : Repertoire} {settings : Settings} {ls : List Text} :
    stops r settings ls = [] ↔ ∀ p ∈ plays r ls, p.duration < 0 := by
  rw [stops, filterMap_eq_nil_iff]
  refine forall₂_congr fun p _ => ?_
  rw [Play.stop?]
  split <;> simp_all

theorem Orchestra.noEnd_iff {σ : Type} [Sink σ] {o : Orchestra} {c : PlayConfig}
    {score : Feeder.Source} {sink : σ} (hr : o.repertoire.Ready) (hscore : score.Fits)
    (hlive : Sink.isCancelled sink = false)
    (hconfig : (c.withDefaults o.settings).fault? o.settings (Sink.width sink) = none) :
    (o.play c score sink).ending = .noEnd ↔ Feeder.ends (Feeder.lines score.text) = [] ∧
      ∀ p ∈ Feeder.plays o.repertoire (Feeder.lines score.text), p.duration < 0 := by
  have hplay : o.play c score sink = o.perform (c.withDefaults o.settings) score sink := by
    simp only [play, hconfig]
  obtain ⟨f', hfeed, hreads⟩ := Feeder.exists_feed
    (f := ({ file := (c.withDefaults o.settings).scoreName },
      o.scheduler (c.withDefaults o.settings) sink)) hr hscore hlive
  have hiff := (hreads.follows hr ⟨rfl, rfl⟩).unbounded_iff rfl
  rw [hplay, perform_eq, hfeed, ← Feeder.stops_eq_nil_iff, ← hiff]
  obtain ⟨feeder, s⟩ := Feeder.settleEnd f'
  dsimp only
  by_cases hfinish : s.finish = Tick.unbounded
  · rw [if_pos hfinish]
    exact iff_of_true rfl hfinish
  · rw [if_neg hfinish]
    exact iff_of_false (by simp [Played.ofFed]) hfinish

/-- What comes of a score. Whatever its lines are, feeding it to a performance leaves one voice for
each command that asks for a known instrument and the end that follows from its commands, and a
complaint with its number for each line that cannot be carried out. Lines that are no such commands
may be inserted or deleted anywhere without changing anything but these complaints. A score is not
played for lack of an end if and only if no command of it has one. -/
theorem Orchestra.feeding_follows_score {source : Text} {o : Orchestra}
    (h : Orchestra.compile source = .ok o) (hroom : ∀ u ∈ o.repertoire.units, u.InMemory) {σ : Type}
    [Sink σ] {score : Feeder.Source} (hscore : score.Fits) :
    (∀ (feeder : Feeder) (s : Scheduler Instance σ), feeder.IsNew →
      Sink.isCancelled s.sink = false →
      ∃ feeder' s', Feeder.feed o.repertoire (feeder, s) score = ((feeder', s'), none) ∧
        Feeder.Follows o.repertoire (Feeder.lines score.text) s s' ∧
        feeder'.errors = feeder.errors ++
          Feeder.complaints o.repertoire feeder.file 1 (Feeder.lines score.text) ∧
        (Feeder.complaints o.repertoire feeder.file 1
          (Feeder.lines score.text)).map FeedError.line =
          (((Feeder.lines score.text).zipIdx 1).filter fun p => Feeder.isBad o.repertoire p.1).map
            (fun p => (p.2 : Int)) ∧
        ∀ score' : Feeder.Source, score'.Fits →
          (Feeder.lines score'.text).filter (Feeder.isGood o.repertoire) =
              (Feeder.lines score.text).filter (Feeder.isGood o.repertoire) ∨
            (Feeder.lines score'.text).filter (fun line => !Feeder.isBad o.repertoire line) =
              (Feeder.lines score.text).filter (fun line => !Feeder.isBad o.repertoire line) →
          Feeder.feed o.repertoire (feeder, s) score' = (({ feeder' with
            errors := feeder.errors ++
              Feeder.complaints o.repertoire feeder.file 1 (Feeder.lines score'.text) },
          s'), none)) ∧
    ∀ (c : PlayConfig) (sink : σ), Sink.isCancelled sink = false →
      (c.withDefaults o.settings).fault? o.settings (Sink.width sink) = none →
      ((o.play c score sink).ending = .noEnd ↔ Feeder.ends (Feeder.lines score.text) = [] ∧
        ∀ p ∈ Feeder.plays o.repertoire (Feeder.lines score.text), p.duration < 0) := by
  have hr := Orchestra.ready h hroom
  refine ⟨?_, fun c sink hlive hconfig => Orchestra.noEnd_iff hr hscore hlive hconfig⟩
  intro feeder s hnew hlive
  obtain ⟨⟨feeder', s'⟩, hfeed, hreads⟩ :=
    Feeder.exists_feed (f := (feeder, s)) hr hscore hlive
  have hfollows := hreads.follows hr hnew
  rw [Feeder.settleEnd_eq] at hfeed hfollows
  refine ⟨_, _, hfeed, hfollows, hreads.errors, Feeder.line_complaints _ _ _ _, ?_⟩
  intro score' hscore' hlines
  have hgood : (Feeder.lines score'.text).filter (Feeder.isGood o.repertoire) =
      (Feeder.lines score.text).filter (Feeder.isGood o.repertoire) :=
    hlines.elim id Feeder.filter_isGood_of_isBad
  rw [Feeder.feed_of_isGood hr hscore hscore' hlive hgood, hfeed]

/-- A score with a voice that has no end, a command with more values than parameters and one with
fewer, a comment, and two lines that cannot be carried out. -/
def Orchestra.rehearsal : Feeder.Source :=
  ⟨"1 a 1 3 4\n# from the top\nonce more\n0 b 1\n0.5 a -1 2\n0 a 0.5\n", none⟩

/-- The score without the lines that cannot be carried out. -/
def Orchestra.cleanRehearsal : Feeder.Source :=
  ⟨"1 a 1 3 4\n# from the top\n0.5 a -1 2\n0 a 0.5\n", none⟩

theorem Orchestra.feeding_follows_score_rehearsal :
    ∃ o feeder, ∃ s : Scheduler Instance Buffer, Orchestra.compile bell = .ok o ∧
      Feeder.feed o.repertoire ({}, o.scheduler ⟨4, 2, []⟩ (.ofChannels 1)) rehearsal =
        ((feeder, s), none) ∧
      Feeder.Follows o.repertoire (Feeder.lines rehearsal.text)
        (o.scheduler ⟨4, 2, []⟩ (.ofChannels 1)) s ∧
      feeder.errors.map FeedError.line = [3, 4] ∧
      Feeder.feed o.repertoire ({}, o.scheduler ⟨4, 2, []⟩ (.ofChannels 1)) cleanRehearsal =
        (({ feeder with errors := [] }, s), none) ∧
      (o.play {} rehearsal (Buffer.ofChannels 1)).ending ≠ .noEnd := by
  have hfacts : (Orchestra.compile bell).toOption.any (fun o =>
      decide (∀ u ∈ o.repertoire.units, u.InMemory) &&
      decide ((((Feeder.lines rehearsal.text).zipIdx 1).filter fun p : Text × Nat =>
        Feeder.isBad o.repertoire p.1).map (fun p => (p.2 : Int)) = [3, 4]) &&
      decide (
        (Feeder.lines cleanRehearsal.text).filter (fun line => !Feeder.isBad o.repertoire line) =
        (Feeder.lines rehearsal.text).filter (fun line => !Feeder.isBad o.repertoire line)) &&
      decide (Feeder.complaints o.repertoire [] 1 (Feeder.lines cleanRehearsal.text) = []) &&
      decide ((PlayConfig.withDefaults {} o.settings).fault? o.settings 1 = none) &&
      (Feeder.plays o.repertoire (Feeder.lines rehearsal.text)).any fun p =>
        !decide (p.duration < 0)) = true := by decide +kernel
  obtain ⟨o, ho, hfacts⟩ := (Option.any_eq_true _ _).1 hfacts
  simp only [Bool.and_eq_true, decide_eq_true_eq, any_eq_true,
    Bool.not_eq_eq_eq_not, Bool.not_true, decide_eq_false_iff_not] at hfacts
  obtain ⟨⟨⟨⟨⟨hroom, hbad⟩, hlines⟩, hclean⟩, hconfig⟩, p, hp, hduration⟩ := hfacts
  have hcompiles := toOption_eq_some_iff.1 ho
  have hfits : rehearsal.Fits := ⟨rfl, by decide +kernel⟩
  have hfits' : cleanRehearsal.Fits := ⟨rfl, by decide +kernel⟩
  obtain ⟨hfeeds, hplays⟩ := @Orchestra.feeding_follows_score _ _ hcompiles hroom Buffer _ _ hfits
  obtain ⟨feeder, s, hfeed, hfollows, herrors, hnumbers, hother⟩ :=
    hfeeds {} (o.scheduler ⟨4, 2, []⟩ (.ofChannels 1)) ⟨rfl, rfl⟩ rfl
  refine ⟨o, feeder, s, hcompiles, hfeed, hfollows, ?_, ?_, ?_⟩
  · rw [herrors, map_append, hnumbers, hbad]
    rfl
  · rw [hother cleanRehearsal hfits' (.inr hlines), hclean]
    rfl
  · rw [Ne, hplays {} (.ofChannels 1) rfl hconfig]
    exact fun hnone => hduration (hnone.2 p hp)

end Orchestrion
