import Orchestrion.Number.Decimal
import Orchestrion.Score.Word
import Orchestrion.Text.Quoted

/-!
# Score commands

A line of a score is blank, or it holds one command: the time in seconds and then either the word
`end` or the name of an instrument, a duration and values for its parameters. All that is left of a
line behind a number sign or two slashes is a comment.

* `Command.parse`: the command of a line, if there is one.
-/

namespace Orchestrion

/-- What a command does. -/
inductive CommandKind where
  /-- The performance ends. -/
  | finish
  /-- An instrument plays; it has no end if the duration is negative. -/
  | play (name : Text) (duration : Float) (params : List Float)
deriving Repr

/-- A line of a score. -/
structure Command where
  place : ScorePlace
  /-- When it happens, in seconds. -/
  time : Float
  kind : CommandKind
deriving Repr

/-- The numbers of a command. -/
inductive CommandNumber where
  | time
  | duration
  | param
deriving DecidableEq, Repr

def CommandNumber.label : CommandNumber → String
  | time => "Command.Time"
  | duration => "Command.Dur"
  | param => "Command.PFields"

/-- What a message says to be expected. -/
inductive Expectation where
  /-- Nothing is told. -/
  | untold
  /-- What follows the time. -/
  | kind
  /-- What follows the name of an instrument. -/
  | duration
deriving DecidableEq, Repr

def Expectation.message : Expectation → Text
  | untold => []
  | kind => " (expected (\"end\" | (<ident> <number> <number>*)))"
  | duration => " (expected <number> <number>*)"

/-- Why a line of a score is no command. -/
inductive ScoreFault where
  /-- No rule applies to what is left. -/
  | garbage (g : ScoreGarbage)
  /-- A word that does not belong there; `none` is the end of the line. -/
  | unexpected (place : ScorePlace) (word : Option Text) (expected : Expectation)
  /-- A number beyond all that can be represented. -/
  | range (number : CommandNumber) (numeral : Text)
deriving DecidableEq, Repr

def sample (t : Text) : Text :=
  let chars := t.chars
  let shown := (chars.take 16).flatMap Text.ofChar
  if 16 < chars.length then shown ++ "..." else shown

def ScorePlace.label (file : Text) (p : ScorePlace) : Text :=
  let name : Text := if file.isEmpty then file else file ++ ":"
  name ++ "1:" ++ Text.ofNat p.column ++ ": "

def ScoreFault.message (file : Text) : ScoreFault → Text
  | garbage g => g.place.label file ++ "invalid input text " ++ Text.quoted (sample g.rest)
  | unexpected place word expected =>
    place.label file ++ "unexpected token " ++ Text.quoted (word.getD "<EOF>") ++ expected.message
  | range number numeral =>
    number.label ++ ": strconv.ParseFloat: parsing " ++ Text.quoted numeral
      ++ ": value out of range"

/-- A fault with its line. -/
structure ScoreError where
  file : Text
  line : Int
  fault : ScoreFault
deriving DecidableEq, Repr

def ScoreError.message (e : ScoreError) : Text :=
  let name : Text := if e.file.isEmpty then "score" else e.file
  name ++ ":" ++ Text.ofInt e.line ++ ": " ++ e.fault.message e.file

namespace Command

def value (number : CommandNumber) (numeral : Text) : Except ScoreFault Float :=
  match (Number.Decimal.read? numeral).bind Number.Decimal.value? with
  | some v => .ok v
  | none => .error (.range number numeral)

def unexpected (scanned : ScoreWords) (words : List ScoreWord) (expected : Expectation) :
    ScoreFault :=
  match words with
  | w :: _ => .unexpected w.place (some w.text) expected
  | [] => .unexpected scanned.finish none expected

def expectNothing (scanned : ScoreWords) (words : List ScoreWord) : Except ScoreFault Unit :=
  if words.isEmpty then .ok () else .error (unexpected scanned words .untold)

def kindOf (scanned : ScoreWords) (time : ScoreWord) :
    List ScoreWord → Except ScoreFault Command
  | [] => .error (unexpected scanned [] .kind)
  | w :: rest =>
    if w.isNumber then .error (unexpected scanned (w :: rest) .kind)
    else if w.text = ("end" : Text) then do
      let seconds ← value .time time.text
      expectNothing scanned rest
      return ⟨time.place, seconds, .finish⟩
    else
      match rest with
      | [] => .error (unexpected scanned [] .duration)
      | d :: rest =>
        if d.isNumber then do
          let seconds ← value .time time.text
          let duration ← value .duration d.text
          let params ← (rest.takeWhile ScoreWord.isNumber).mapM fun p => value .param p.text
          expectNothing scanned (rest.dropWhile ScoreWord.isNumber)
          return ⟨time.place, seconds, .play w.text duration params⟩
        else .error (unexpected scanned (d :: rest) .duration)

def ofWords (scanned : ScoreWords) : Except ScoreFault Command :=
  match scanned.words with
  | [] => .error (unexpected scanned [] .untold)
  | w :: rest =>
    if w.isNumber then kindOf scanned w rest else .error (unexpected scanned (w :: rest) .untold)

def isBlankLine (line : Text) : Bool :=
  let t := line.trimStart
  t.isEmpty || t.startsWith "#" || t.startsWith "//"

def parse (file : Text) (number : Int) (line : Text) : Except ScoreError (Option Command) :=
  if isBlankLine line then .ok none
  else
    let command := match ScoreWord.scan line with
      | .ok scanned => ofWords scanned
      | .error g => .error (.garbage g)
    match command with
    | .ok c => .ok (some c)
    | .error fault => .error ⟨file, number, fault⟩

end Command

end Orchestrion
