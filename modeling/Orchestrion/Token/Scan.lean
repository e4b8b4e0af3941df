import Orchestrion.Token

/-!
# Scanning

Cutting a text into tokens. Blanks and comments between tokens are dropped, and of the tokens that
could begin at a place the longest one is taken.

A zero byte ends the text: nothing behind it is scanned. A name or numeral that runs up to the end
of the text takes along all bytes that are left, those from the zero byte on included.

* `Token.scan`: the tokens of a text and the place where it ends.
-/

namespace Orchestrion

/-- The part of a text that is left to read. -/
structure Unread where
  /-- The bytes not yet read. -/
  rest : Text
  place : Position
deriving DecidableEq, Repr

namespace Unread

def all (t : Text) : Unread := ⟨t, .first⟩

def drop (u : Unread) (n : Nat) : Unread :=
  ⟨u.rest.drop n, (u.rest.take n).foldl Position.after u.place⟩

@[simp]
theorem length_drop (u : Unread) (n : Nat) : (u.drop n).rest.length = u.rest.length - n := by
  simp [drop]

def atEnd (u : Unread) : Bool :=
  match u.rest with
  | [] => true
  | b :: _ => b = 0

def endPlace (u : Unread) : Position :=
  let length := u.place.offset + u.rest.length
  match u.rest with
  | [] => u.place
  | b :: _ => { u.place.after b with offset := length }

def lexeme (u : Unread) (n : Nat) : Text :=
  if (u.drop n).atEnd then u.rest else u.rest.take n

end Unread

namespace Token

def isBlank (b : UInt8) : Bool :=
  b = 32 || b = 9 || b = 13 || b = 10

def lineCommentLength (t : Text) : Nat :=
  (t.takeWhile fun b => b ≠ 0 && b ≠ 10).length

def blockCommentLength? : Text → Option Nat
  | [] => none
  | b :: rest =>
    if b = 0 then none
    else if Text.startsWith (b :: rest) "*/" then some 2
    else (blockCommentLength? rest).map (· + 1)

/-- What stands between two tokens. -/
inductive Gap where
  /-- Blanks and complete comments, up to the next token. -/
  | closed (next : Unread)
  /-- A comment that begins at the given place and is never closed. -/
  | unclosed (start : Position)
deriving DecidableEq, Repr

def blankLength? (t : Text) : Option Nat :=
  match t with
  | [] => some 0
  | b :: rest =>
    if isBlank b then some 1
    else if Text.startsWith t "//" then some (2 + lineCommentLength (rest.drop 1))
    else if Text.startsWith t "/*" then (blockCommentLength? (rest.drop 1)).map (2 + ·)
    else some 0

theorem ne_nil_of_blankLength? {t : Text} {n : Nat} (h : blankLength? t = some (n + 1)) :
    t ≠ [] := by
  rintro rfl
  simp [blankLength?] at h

def skipBlank (u : Unread) : Gap :=
  match h : blankLength? u.rest with
  | none => .unclosed u.place
  | some 0 => .closed u
  | some (n + 1) => skipBlank (u.drop (n + 1))
termination_by u.rest.length
decreasing_by
  have := List.length_pos_iff.mpr (ne_nil_of_blankLength? h)
  simp only [Unread.length_drop]
  omega

theorem length_skipBlank_le {u next : Unread} (h : skipBlank u = .closed next) :
    next.rest.length ≤ u.rest.length := by
  fun_induction skipBlank u with
  | case1 => simp at h
  | case2 => simp_all
  | case3 u n _ ih =>
    have := ih h
    simp only [Unread.length_drop] at this
    omega

theorem takeWhile_ne_nil_of_skipBlank {u : Unread} {p : Position} (h : skipBlank u = .unclosed p) :
    u.rest.takeWhile (· ≠ 0) ≠ [] := by
  intro hnil
  have hend : blankLength? u.rest = some 0 := by
    match hu : u.rest with
    | [] => rfl
    | b :: rest =>
      have hb : b = 0 := by simpa [hu, List.takeWhile_cons] using hnil
      subst hb
      simp [blankLength?, isBlank, Text.startsWith, Text.ofString, String.utf8EncodeChar]
  rw [skipBlank] at h
  split at h <;> simp_all

def exponentLength (t : Text) : Nat :=
  match t with
  | mark :: rest =>
    if Text.isSymbol 'e' mark || Text.isSymbol 'E' mark then
      let signed := match rest with
        | s :: _ => Text.isSymbol '+' s || Text.isSymbol '-' s
        | [] => false
      let sign := if signed then 1 else 0
      match (rest.drop sign).takeWhile Text.isDigit with
      | [] => 0
      | digits => 1 + sign + digits.length
    else 0
  | [] => 0

def numeralLength (t : Text) : Nat × Bool :=
  let whole := (t.takeWhile Text.isDigit).length
  let rest := t.drop whole
  let fraction := match rest with
    | b :: after => if Text.isSymbol '.' b then 1 + (after.takeWhile Text.isDigit).length else 0
    | [] => 0
  let exponent := exponentLength (rest.drop fraction)
  (whole + fraction + exponent, fraction = 0 && exponent = 0)

def startsNumeral : Text → Bool
  | [] => false
  | b :: rest =>
    Text.isDigit b ||
      (Text.isSymbol '.' b && match rest with
        | d :: _ => Text.isDigit d
        | [] => false)

def single? (b : UInt8) : Option Punctuation :=
  match Text.symbol b with
  | '+' => some .plus
  | '-' => some .minus
  | '*' => some .star
  | '/' => some .slash
  | '(' => some .leftParen
  | ')' => some .rightParen
  | '{' => some .leftBrace
  | '}' => some .rightBrace
  | '[' => some .leftBracket
  | ']' => some .rightBracket
  | ',' => some .comma
  | ';' => some .semicolon
  | ':' => some .colon
  | '?' => some .question
  | '=' => some .assign
  | '!' => some .not
  | '<' => some .less
  | '>' => some .greater
  | _ => none

def double? (a b : UInt8) : Option Punctuation :=
  match Text.symbol a, Text.symbol b with
  | '=', '=' => some .equal
  | '!', '=' => some .notEqual
  | '<', '=' => some .lessEqual
  | '>', '=' => some .greaterEqual
  | '&', '&' => some .and
  | '|', '|' => some .or
  | _, _ => none

/-- A token without its place, and how many bytes it takes. -/
structure Lexeme where
  kind : TokenKind
  value : Text
  size : Nat
deriving DecidableEq, Repr

def classify (u : Unread) (b : UInt8) (rest : Text) : Lexeme :=
  match rest.head?.bind (double? b), single? b with
  | some p, _ => ⟨.punctuation p, p.spelling, 2⟩
  | none, some p => ⟨.punctuation p, p.spelling, 1⟩
  | none, none =>
    if startsNumeral u.rest then
      let (n, whole) := numeralLength u.rest
      ⟨if whole then .integer else .number, u.lexeme n, n⟩
    else if Text.isNameStart b then
      let n := (u.rest.takeWhile Text.isNamePart).length
      let word := u.lexeme n
      ⟨.ofWord word, word, n⟩
    else if Text.isSymbol '&' b || Text.isSymbol '|' b then
      ⟨.illegal, "unexpected '" ++ Text.ofChar (Text.symbol b) ++ "'", 1⟩
    else ⟨.illegal, Text.ofChar (Text.symbol b), 1⟩

theorem numeralLength_pos {t : Text} (h : startsNumeral t) : 0 < (numeralLength t).1 := by
  match t with
  | [] => simp [startsNumeral] at h
  | b :: rest =>
    by_cases hb : Text.isDigit b
    · simp only [numeralLength, List.takeWhile_cons, hb, ↓reduceIte, List.length_cons]
      omega
    · simp only [startsNumeral, hb, Bool.false_or, Bool.and_eq_true] at h
      simp only [numeralLength, List.takeWhile_cons, hb, Bool.false_eq_true, ↓reduceIte,
        List.length_nil, List.drop_zero, h.1]
      omega

theorem classify_size_pos {u : Unread} {b : UInt8} {rest : Text} (h : u.rest = b :: rest) :
    0 < (classify u b rest).size := by
  unfold classify
  split
  · exact Nat.zero_lt_succ _
  · exact Nat.zero_lt_succ _
  · split
    · exact numeralLength_pos ‹_›
    · split
      · rename_i hb
        simp [h, Text.isNamePart, hb]
      · split <;> exact Nat.zero_lt_succ _

/-- What comes next in a text. -/
inductive Next where
  | token (t : Token) (left : Unread)
  | done (place : Position)
deriving DecidableEq, Repr

def next (u : Unread) : Next :=
  match skipBlank u with
  | .unclosed start =>
    let length := (u.rest.takeWhile (· ≠ 0)).length
    .token ⟨.illegal, "unterminated comment", start⟩ (u.drop length)
  | .closed v =>
    match v.rest with
    | [] => .done v.endPlace
    | b :: rest =>
      if b = 0 then .done v.endPlace
      else
        let lexeme := classify v b rest
        .token ⟨lexeme.kind, lexeme.value, v.place⟩ (v.drop lexeme.size)

theorem length_next_lt {u left : Unread} {t : Token} (h : next u = .token t left) :
    left.rest.length < u.rest.length := by
  unfold next at h
  split at h
  · rename_i hskip
    have hne := List.length_pos_iff.mpr (takeWhile_ne_nil_of_skipBlank hskip)
    have hle := (List.takeWhile_sublist (l := u.rest) (· ≠ 0)).length_le
    simp only [Next.token.injEq] at h
    rw [← h.2, Unread.length_drop]
    omega
  · rename_i v hskip
    have hle := length_skipBlank_le hskip
    split at h
    · simp at h
    · rename_i b rest hv
      split at h
      · simp at h
      · have hpos := classify_size_pos hv
        have hlen : 0 < v.rest.length := by simp [hv]
        simp only [Next.token.injEq] at h
        rw [← h.2, Unread.length_drop]
        omega

/-- A text in tokens. -/
structure Scanned where
  /-- The tokens, without the end. -/
  tokens : List Token
  /-- The place where the text ends. -/
  finish : Position
deriving DecidableEq, Repr

def Scanned.cons (t : Token) (s : Scanned) : Scanned := { s with tokens := t :: s.tokens }

def scanFrom (u : Unread) : Scanned :=
  match _h : next u with
  | .done place => ⟨[], place⟩
  | .token t left => (scanFrom left).cons t
termination_by u.rest.length
decreasing_by exact length_next_lt _h

def scan (t : Text) : Scanned := scanFrom (.all t)

end Token

end Orchestrion
