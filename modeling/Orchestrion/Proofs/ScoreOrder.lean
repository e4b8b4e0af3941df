import Mathlib.Data.List.Perm.Basic
import Orchestrion.Performance.Play
import Orchestrion.Proofs.Performance.Queue
import Orchestrion.Sound.Buffer

/-!
# The order of a score

A score is read as a whole before anything is played. What its lines ask for waits in the order of
the lines, and the end of the performance is that of the last instrument that has one, wherever it
stands. So the order of lines matters for what becomes active at the same tick, and for nothing
else.
-/

namespace Orchestrion

open List Option

/-- The tick at which what the command asks for becomes active. -/
def Command.promotion (settings : Settings) (c : Command) : Tick := max 0 (settings.ticks c.time)

namespace Feeder

variable {line : Text} {r : Repertoire} {ls : List Text}

/-! ### What a line asks for -/

def command? (line : Text) : Option Command :=
  match Command.parse [] 1 (trimLine line) with
  | .ok c => c
  | .error _ => none

/-- The tick at which what the line asks for becomes active; zero if it asks for nothing. -/
def promotion (settings : Settings) (line : Text) : Tick :=
  ((command? line).map (·.promotion settings)).getD 0

/-- The line is a valid command that names an instrument of the repertoire. -/
def Asks (r : Repertoire) (line : Text) : Prop :=
  ∃ c name duration params, command? line = some c ∧ c.kind = .play name duration params ∧
    (r.unit? name).isSome = true

instance (r : Repertoire) (line : Text) : Decidable (Asks r line) :=
  match h : command? line with
  | some ⟨place, time, .play name duration params⟩ =>
    if hname : (r.unit? name).isSome = true then
      isTrue ⟨_, name, duration, params, h, rfl, hname⟩
    else isFalse fun ⟨c, name', _, _, hc, hkind, hname'⟩ => by
      cases h.symm.trans hc
      cases hkind
      exact hname hname'
  | some ⟨_, _, .finish⟩ => isFalse fun ⟨c, _, _, _, hc, hkind, _⟩ => by
    cases h.symm.trans hc
    cases hkind
  | none => isFalse fun ⟨c, _, _, _, hc, _, _⟩ => by cases h.symm.trans hc

theorem parse_of_command? {c : Command} (h : command? line = some c) (file : Text) (number : Int) :
    Command.parse file number (trimLine line) = .ok (some c) := by
  rw [Command.parse]
  by_cases hblank : Command.isBlankLine (trimLine line) = true
  · simp [command?, Command.parse, hblank] at h
  · rw [command?, Command.parse, if_neg hblank] at h
    rw [if_neg hblank]
    cases hscan : ScoreWord.scan (trimLine line) with
    | error g =>
      rw [hscan] at h
      cases h
    | ok scanned =>
      rw [hscan] at h
      dsimp only at h ⊢
      cases hwords : Command.ofWords scanned with
      | error fault =>
        rw [hwords] at h
        cases h
      | ok c' =>
        rw [hwords] at h
        cases h
        rfl

/-- What a line adds to a performance. -/
structure Entrance where
  player : Instance
  /-- The last tick of the instrument, if it has an end. -/
  stop? : Option Tick

/-- What a line adds to a performance: `none` if there is no way on, and nothing if no instance can
be made. -/
def entrance? (r : Repertoire) (settings : Settings) (line : Text) : Option (Option Entrance) :=
  match command? line with
  | some ⟨_, time, .play name duration params⟩ =>
    match r.instantiate name with
    | .refused _ => some none
    | .stuck => none
    | .made i =>
      (i.withParams? (params.map Number.narrow)).map fun i =>
        let start := settings.ticks time
        let stop := settings.ticks (time + duration)
        if duration < 0 then some ⟨Playable.withLifetime i ⟨start, Tick.unbounded⟩, none⟩
        else some ⟨Playable.withLifetime i ⟨start, stop⟩, some stop⟩
  | _ => some none

theorem promotion_of_entrance? {settings : Settings} {e : Entrance}
    (h : entrance? r settings line = some (some e)) :
    promotion settings line = (Playable.lifetime e.player).promotion := by
  rw [entrance?] at h
  split at h
  next place time name duration params hcommand =>
    rw [promotion, hcommand]
    split at h
    · cases h
    · cases h
    · obtain ⟨i, -, hi⟩ := map_eq_some_iff.1 h
      split at hi <;> cases hi <;> rfl
  next => cases h

/-- The last tick of the instruments with an end, with one more instrument. -/
def latestWith (latest : Option Tick) (e : Entrance) : Option Tick :=
  match e.stop? with
  | some stop => some (later latest stop)
  | none => latest

variable {σ : Type}

theorem readLine_of_asks (h : Asks r line) (number : Nat) (feeder : Feeder)
    (s : Scheduler Instance σ) : match entrance? r s.settings line with
    | none => readLine r number (feeder, s) line = none
    | some e => ∃ feeder', feeder'.sawEnd = feeder.sawEnd ∧
        feeder'.latest = e.toList.foldl latestWith feeder.latest ∧
        readLine r number (feeder, s) line =
          some (feeder', s.withPending (s.pending ++ e.toList.map Entrance.player)) := by
  obtain ⟨⟨place, time, kind⟩, name, duration, params, hcommand, rfl, -⟩ := h
  have hparse := parse_of_command? hcommand feeder.file number
  rw [entrance?, hcommand]
  simp only [readLine, hparse, apply]
  cases r.instantiate name with
  | refused e =>
    refine ⟨{ feeder with errors := feeder.errors ++ [.misuse ⟨number, name, e⟩] }, rfl, rfl, ?_⟩
    rw [toList_none, map_nil, append_nil]
    rfl
  | stuck => rfl
  | made i =>
    cases hi : i.withParams? (params.map Number.narrow) with
    | none => simp [hi]
    | some i' =>
      simp only [hi, map_some, bind_eq_bind, bind_some, scheduleAt]
      by_cases hduration : duration < 0
      · simp only [hduration, if_true]
        exact ⟨feeder, rfl, rfl, rfl⟩
      · simp only [hduration, if_false]
        refine ⟨{ feeder with
          latest := some (later feeder.latest (s.settings.ticks (time + duration))) },
          rfl, rfl, rfl⟩

/-! ### What a score leaves -/

/-- What lines add to a performance. -/
def entrances (r : Repertoire) (settings : Settings) (ls : List Text) : List Entrance :=
  ls.filterMap fun line => (entrance? r settings line).join

theorem entrances_cons {settings : Settings} {e : Option Entrance}
    (h : entrance? r settings line = some e) (ls : List Text) :
    entrances r settings (line :: ls) = e.toList ++ entrances r settings ls := by
  rw [entrances, filterMap_cons, h, join_some]
  cases e <;> rfl

variable [Sink σ]

/-- Reading does not stop at the line. -/
def Passes (r : Repertoire) (s : Scheduler Instance σ) (line : Text) : Prop :=
  line.length < maxLine ∧ Sink.isCancelled s.sink = false ∧
    (entrance? r s.settings line).isSome = true

theorem readLines_of_asks (hasks : ∀ line ∈ ls, Asks r line) (number : Nat) (feeder : Feeder)
    (s : Scheduler Instance σ) (h : ∀ line ∈ ls, Passes r s line) :
    ∃ feeder', feeder'.sawEnd = feeder.sawEnd ∧
      feeder'.latest = (entrances r s.settings ls).foldl latestWith feeder.latest ∧
      readLines r number (feeder, s) ls =
        ((feeder', s.withPending (s.pending ++ (entrances r s.settings ls).map Entrance.player)),
          none) := by
  induction ls generalizing number feeder s with
  | nil =>
    refine ⟨feeder, rfl, rfl, ?_⟩
    rw [entrances, filterMap_nil, map_nil, append_nil]
    rfl
  | cons line ls ih =>
    rw [forall_mem_cons] at hasks h
    obtain ⟨⟨hshort, hlive, hsome⟩, hls⟩ := h
    obtain ⟨e, he⟩ := isSome_iff_exists.1 hsome
    have hline := readLine_of_asks hasks.1 number feeder s
    rw [he] at hline
    obtain ⟨feeder₁, hsaw₁, hlatest₁, hread⟩ := hline
    obtain ⟨feeder₂, hsaw₂, hlatest₂, hreads⟩ := ih hasks.2 (number + 1) feeder₁
      (s.withPending (s.pending ++ e.toList.map Entrance.player)) hls
    refine ⟨feeder₂, hsaw₂.trans hsaw₁, ?_, ?_⟩
    · rw [entrances_cons he, foldl_append, ← hlatest₁]
      exact hlatest₂
    · rw [readLines, if_neg (by omega), hlive, if_neg (by simp), hread]
      dsimp only
      rw [hreads, entrances_cons he, map_append, ← append_assoc]
      rfl

theorem readLines_stops (hasks : ∀ line ∈ ls, Asks r line) (number : Nat) (feeder : Feeder)
    (s : Scheduler Instance σ) (h : ¬∀ line ∈ ls, Passes r s line) :
    ∃ feeder' queue reason, readLines r number (feeder, s) ls =
      ((feeder', s.withPending queue), some reason) := by
  induction ls generalizing number feeder s with
  | nil => exact absurd (forall_mem_nil _) h
  | cons line ls ih =>
    rw [forall_mem_cons] at hasks h
    rw [readLines]
    split
    next => exact ⟨feeder, s.pending, _, rfl⟩
    next hshort =>
      split
      next => exact ⟨feeder, s.pending, _, rfl⟩
      next hlive =>
        have hline := readLine_of_asks hasks.1 number feeder s
        cases he : entrance? r s.settings line with
        | none =>
          rw [he] at hline
          rw [hline]
          exact ⟨feeder, s.pending, _, rfl⟩
        | some e =>
          rw [he] at hline
          obtain ⟨feeder₁, -, -, hread⟩ := hline
          rw [hread]
          refine ih hasks.2 (number + 1) feeder₁ (s.withPending _) fun hls => h ⟨?_, hls⟩
          exact ⟨by omega, by simpa using hlive, by rw [he]; rfl⟩

/-! ### Rearranged scores -/

def ofLines (ls : List Text) : Text := ls.flatMap (· ++ [10])

theorem lines_ofLines (h : ∀ line ∈ ls, 10 ∉ line) : lines (ofLines ls) = ls := by
  have hsplit : (ofLines ls).splitOn 10 = ls ++ [[]] := by
    induction ls with
    | nil => rfl
    | cons line ls ih =>
      rw [forall_mem_cons] at h
      rw [ofLines, flatMap_cons, append_assoc, singleton_append, List.splitOn,
        splitOnP_append_cons_of_forall_mem (fun b hb => ?_) 10 rfl, cons_append]
      · exact congrArg _ (ih h.2)
      · exact beq_eq_false_iff_ne.2 fun heq => h.1 (heq ▸ hb)
  rw [lines, hsplit]
  simp

theorem not_mem_of_mem_splitOn {text part : Text} (h : part ∈ text.splitOn 10) : 10 ∉ part := by
  induction text generalizing part with
  | nil =>
    cases mem_singleton.1 h
    exact not_mem_nil
  | cons b text ih =>
    rw [List.splitOn, splitOnP_cons_eq_if_modifyHead] at h
    split at h
    next =>
      rcases mem_cons.1 h with rfl | h
      · exact not_mem_nil
      · exact ih h
    next hb =>
      obtain ⟨first, parts, hparts⟩ :=
        exists_cons_of_ne_nil (splitOnP_ne_nil (· == 10) text)
      rw [List.splitOn, hparts] at ih
      rw [hparts, modifyHead_cons] at h
      rcases mem_cons.1 h with rfl | h
      · rw [mem_cons, not_or]
        exact ⟨fun heq => hb (by simp [← heq]), ih mem_cons_self⟩
      · exact ih (mem_cons_of_mem _ h)

theorem not_mem_of_mem_lines {text : Text} (h : line ∈ lines text) : 10 ∉ line := by
  rw [lines] at h
  split at h
  · exact not_mem_of_mem_splitOn (dropLast_subset _ h)
  · exact not_mem_of_mem_splitOn h

def Source.sortBy (key : Text → Tick) (score : Source) : Source :=
  { score with text := ofLines ((lines score.text).mergeSort fun a b => key a ≤ key b) }

theorem Source.lines_sortBy (key : Text → Tick) (score : Source) :
    lines (score.sortBy key).text = (lines score.text).mergeSort fun a b => key a ≤ key b :=
  lines_ofLines fun _ hline => not_mem_of_mem_lines (mem_mergeSort.1 hline)

section Reordered

variable {r : Repertoire} {settings : Settings} {ls ls' : List Text}

theorem agreeBy_entrances (h : AgreeBy (promotion settings) ls ls') :
    AgreeBy (fun player : Instance => (Playable.lifetime player).promotion)
      ((entrances r settings ls).map Entrance.player)
      ((entrances r settings ls').map Entrance.player) := by
  rw [entrances, entrances, map_filterMap, map_filterMap]
  refine h.filterMap fun line _ player hplayer => ?_
  obtain ⟨e, he, rfl⟩ := map_eq_some_iff.1 hplayer
  exact (promotion_of_entrance? (join_eq_some_iff.1 he)).symm

theorem toInt_later (l t : Tick) : (later (some l) t).toInt = max l.toInt t.toInt := by
  rw [later]
  split
  next h =>
    rw [Int64.lt_iff_toInt_lt] at h
    omega
  next h =>
    rw [Int64.lt_iff_toInt_lt] at h
    omega

/-- The latest one of some ticks does not depend on their order. -/
instance : RightCommutative latestWith where
  right_comm latest e e' := by
    rw [latestWith, latestWith, latestWith, latestWith]
    cases e.stop? with
    | none => rfl
    | some t =>
      cases e'.stop? with
      | none => rfl
      | some t' =>
        dsimp only
        rw [Option.some.injEq, ← Int64.toInt_inj, toInt_later, toInt_later]
        cases latest with
        | none => exact Int.max_comm _ _
        | some l => rw [toInt_later, toInt_later, Int.max_assoc, Int.max_comm t.toInt,
            ← Int.max_assoc]

theorem foldl_latestWith_eq (h : ls.Perm ls') (latest : Option Tick) :
    (entrances r settings ls).foldl latestWith latest =
      (entrances r settings ls').foldl latestWith latest :=
  (h.filterMap _).foldl_eq latest

end Reordered

end Feeder

namespace Orchestra

variable {σ : Type} [Sink σ] {o : Orchestra} {c : PlayConfig} {sink : σ}

theorem perform_of_passes {score : Feeder.Source}
    (hasks : ∀ line ∈ Feeder.lines score.text, Feeder.Asks o.repertoire line)
    (h : ∀ line ∈ Feeder.lines score.text, Feeder.Passes o.repertoire (o.scheduler c sink) line) :
    ∃ scoreErrors, o.perform c score sink =
      let s := o.scheduler c sink
      let es := Feeder.entrances o.repertoire s.settings (Feeder.lines score.text)
      match score.fault, es.foldl Feeder.latestWith none with
      | some reason, _ => ⟨.feedStopped (.unreadable reason), c, (Sink.close sink).1,
          scoreErrors, []⟩
      | none, none => ⟨.noEnd, c, (Sink.close sink).1, scoreErrors, []⟩
      | none, some latest =>
        if latest + 1 = Tick.unbounded then ⟨.noEnd, c, (Sink.close sink).1, scoreErrors, []⟩
        else
          let (s, e) := Scheduler.run
            (Scheduler.withPending { s with finish := latest + 1 } (es.map Feeder.Entrance.player))
          ⟨.run e, c, s.sink, scoreErrors, s.failures⟩ := by
  obtain ⟨feeder, hsaw, hlatest, hread⟩ := Feeder.readLines_of_asks hasks 1 { file := c.scoreName }
    (o.scheduler c sink) h
  obtain ⟨file, latest, sawEnd, errors⟩ := feeder
  cases hsaw
  refine ⟨errors.map .ofFeedError, ?_⟩
  rw [perform, Feeder.feed, hread]
  dsimp only
  rw [← hlatest]
  cases score.fault with
  | some reason => rfl
  | none => cases latest <;> rfl

theorem perform_of_not_passes {score : Feeder.Source}
    (hasks : ∀ line ∈ Feeder.lines score.text, Feeder.Asks o.repertoire line)
    (h : ¬∀ line ∈ Feeder.lines score.text, Feeder.Passes o.repertoire (o.scheduler c sink) line) :
    ∃ scoreErrors reason, o.perform c score sink =
      ⟨.feedStopped reason, c, (Sink.close sink).1, scoreErrors, []⟩ := by
  obtain ⟨feeder, queue, reason, hread⟩ := Feeder.readLines_stops hasks 1 { file := c.scoreName }
    (o.scheduler c sink) h
  refine ⟨feeder.errors.map .ofFeedError, reason, ?_⟩
  rw [perform, Feeder.feed, hread]
  rfl

theorem perform_agreeBy {score score' : Feeder.Source}
    (hasks : ∀ line ∈ Feeder.lines score.text, Feeder.Asks o.repertoire line)
    (hfault : score'.fault = score.fault)
    (h : AgreeBy (Feeder.promotion (o.scheduler c sink).settings) (Feeder.lines score.text)
      (Feeder.lines score'.text)) :
    (o.perform c score' sink).sink = (o.perform c score sink).sink ∧
      (o.perform c score' sink).failures = (o.perform c score sink).failures := by
  have hperm := h.perm
  have hasks' : ∀ line ∈ Feeder.lines score'.text, Feeder.Asks o.repertoire line :=
    fun line hline => hasks line (hperm.mem_iff.2 hline)
  by_cases hpasses : ∀ line ∈ Feeder.lines score.text,
      Feeder.Passes o.repertoire (o.scheduler c sink) line
  · have hpasses' : ∀ line ∈ Feeder.lines score'.text,
        Feeder.Passes o.repertoire (o.scheduler c sink) line :=
      fun line hline => hpasses line (hperm.mem_iff.2 hline)
    obtain ⟨_, hperform⟩ := perform_of_passes hasks hpasses
    obtain ⟨_, hperform'⟩ := perform_of_passes hasks' hpasses'
    rw [hperform, hperform', hfault]
    dsimp only
    rw [← Feeder.foldl_latestWith_eq hperm]
    cases score.fault with
    | some reason => exact ⟨rfl, rfl⟩
    | none =>
      cases List.foldl Feeder.latestWith none (Feeder.entrances o.repertoire
          (o.scheduler c sink).settings (Feeder.lines score.text)) with
      | none => exact ⟨rfl, rfl⟩
      | some latest =>
        dsimp only
        split
        · exact ⟨rfl, rfl⟩
        · -- Nothing is left of the queues in what is told of the performances.
          have hwaits : Scheduler.Waits { o.scheduler c sink with finish := latest + 1 }
              ((Feeder.entrances o.repertoire (o.scheduler c sink).settings
                (Feeder.lines score.text)).map Feeder.Entrance.player)
              ((Feeder.entrances o.repertoire (o.scheduler c sink).settings
                (Feeder.lines score'.text)).map Feeder.Entrance.player) :=
            ⟨Feeder.agreeBy_entrances h, Int64.le_refl _, fun _ _ => Lifetime.promotion_nonneg _,
              fun _ _ => Lifetime.promotion_nonneg _⟩
          obtain ⟨s, queue, queue', ending, hrun, hrun'⟩ := hwaits.run
          rw [hrun, hrun']
          exact ⟨rfl, rfl⟩
  · -- Both scores stop the reading, and nothing is played.
    have hpasses' : ¬∀ line ∈ Feeder.lines score'.text,
        Feeder.Passes o.repertoire (o.scheduler c sink) line :=
      fun hall => hpasses fun line hline => hall line (hperm.mem_iff.1 hline)
    obtain ⟨_, _, hperform⟩ := perform_of_not_passes hasks hpasses
    obtain ⟨_, _, hperform'⟩ := perform_of_not_passes hasks' hpasses'
    rw [hperform, hperform']
    exact ⟨rfl, rfl⟩

def tempo (o : Orchestra) (c : PlayConfig) : Settings :=
  { o.settings with
    srate := (c.withDefaults o.settings).srate
    krate := (c.withDefaults o.settings).krate }

theorem play_agreeBy {score score' : Feeder.Source}
    (hasks : ∀ line ∈ Feeder.lines score.text, Feeder.Asks o.repertoire line)
    (hfault : score'.fault = score.fault)
    (h : AgreeBy (Feeder.promotion (o.tempo c)) (Feeder.lines score.text)
      (Feeder.lines score'.text)) :
    (o.play c score' sink).sink = (o.play c score sink).sink ∧
      (o.play c score' sink).failures = (o.play c score sink).failures := by
  rw [play, play]
  split
  · exact ⟨rfl, rfl⟩
  · exact perform_agreeBy hasks hfault h

/-- A score keeps its samples and its failures, in number and order, if its lines change places and
those for the same tick stay in order. So it does if its lines are sorted by their ticks. -/
theorem play_reordered (o : Orchestra) (c : PlayConfig) (sink : σ) {score : Feeder.Source}
    (hasks : ∀ line ∈ Feeder.lines score.text, Feeder.Asks o.repertoire line) :
    (∀ (score' : Feeder.Source)
      (π : Fin (Feeder.lines score'.text).length ≃ Fin (Feeder.lines score.text).length),
      score'.fault = score.fault →
      (∀ i, (Feeder.lines score'.text).get i = (Feeder.lines score.text).get (π i)) →
      (∀ i j, i < j → Feeder.promotion (o.tempo c) ((Feeder.lines score'.text).get i) =
        Feeder.promotion (o.tempo c) ((Feeder.lines score'.text).get j) → π i < π j) →
      (o.play c score' sink).sink = (o.play c score sink).sink ∧
        (o.play c score' sink).failures = (o.play c score sink).failures) ∧
    (o.play c (score.sortBy (Feeder.promotion (o.tempo c))) sink).sink =
        (o.play c score sink).sink ∧
      (o.play c (score.sortBy (Feeder.promotion (o.tempo c))) sink).failures =
        (o.play c score sink).failures := by
  refine ⟨fun score' π hfault hget horder => ?_, ?_⟩
  · exact play_agreeBy hasks hfault (.of_equiv π hget horder)
  · refine play_agreeBy hasks rfl ?_
    rw [Feeder.Source.lines_sortBy]
    refine AgreeBy.mergeSort (fun t t' : Tick => decide (t ≤ t')) ?_ ?_ ?_ _
    · exact fun t => decide_eq_true (Int64.le_refl t)
    · exact fun t₁ t₂ t₃ h h' =>
        decide_eq_true (Int64.le_trans (of_decide_eq_true h) (of_decide_eq_true h'))
    · intro t t'
      rw [Bool.or_eq_true, decide_eq_true_eq, decide_eq_true_eq]
      exact Int64.le_total t t'

/-- An orchestra with an instrument that sounds at the level that its parameter gives. -/
def bell : Text :=
  "global \x7b srate 4; krate 2; \x7d instr a(x) \x7b output(x); \x7d"

/-- A score whose first line waits longest. -/
def peal : Feeder.Source := ⟨"1 a 1 2\n0 a 1 3\n0 a 1 4\n", none⟩

/-- The score with its first two lines exchanged. -/
def changedPeal : Feeder.Source := ⟨"0 a 1 3\n1 a 1 2\n0 a 1 4\n", none⟩

def pealOrder : Fin (Feeder.lines changedPeal.text).length ≃ Fin (Feeder.lines peal.text).length :=
  (Equiv.swap ⟨0, by decide +kernel⟩ ⟨1, by decide +kernel⟩).trans (finCongr (by decide +kernel))

theorem play_reordered_peal :
    ∃ o, Orchestra.compile bell = .ok o ∧
      (o.play {} changedPeal (Buffer.ofChannels 1)).sink =
        (o.play {} peal (Buffer.ofChannels 1)).sink ∧
      (o.play {} changedPeal (Buffer.ofChannels 1)).failures =
        (o.play {} peal (Buffer.ofChannels 1)).failures := by
  have hcompiles : (Orchestra.compile bell).toOption.any (fun o =>
      decide (∀ line ∈ Feeder.lines peal.text, Feeder.Asks o.repertoire line) &&
      decide (∀ i j, i < j → Feeder.promotion (o.tempo {}) ((Feeder.lines changedPeal.text).get i) =
        Feeder.promotion (o.tempo {}) ((Feeder.lines changedPeal.text).get j) →
          pealOrder i < pealOrder j)) = true := by decide +kernel
  match h : Orchestra.compile bell, hcompiles with
  | .ok o, hplays =>
    simp only [Except.toOption, any_some, Bool.and_eq_true, decide_eq_true_eq] at hplays
    exact ⟨o, rfl, (play_reordered o {} (Buffer.ofChannels 1) hplays.1).1 changedPeal pealOrder rfl
      (by decide +kernel) hplays.2⟩

end Orchestra

end Orchestrion
