import ShapeQuery.Text

/-!
# Tokens of source text

The options of an attribute and the segments of a path are read from tokens.
`SourceToken.ofSource` cuts source text into them.

**Gaps.**  White space and comments may stand between two tokens.  A comment begins with two
slashes and runs to the end of its line, or it stands between `/*` and `*/` and may hold
further comments of that kind.  A comment that begins with `///`, `//!`, `/**` or `/*!`
documents what follows or surrounds it, and is no gap; a longer row of slashes or asterisks
documents nothing, and neither does the empty comment `/**/`.  The marks of writing direction
U+200E and U+200F count as white space here, although they do not have that property.

**Words.**  An identifier or a keyword is a word as it is written; the mark of a raw
identifier belongs to it.

**Literals.**  Of a string literal the value is kept.  Any other literal is a number
or not, and nothing else about it matters.  Since it fits nowhere, the text behind it
is not cut any further.

**Signs.**  Two colons directly beside each other are the separator of a path.  Any
other character is a sign of its own, brackets included.

**Paths.**  Types and attributes are named by paths, which are words with separators between
them.  A path is compared by its segments; how it is written matters only where it is given
back.  A path that begins with a separator has an empty segment in front, so it is never a
path of one word.
-/

namespace ShapeQuery

namespace Declaration

namespace Gap

/-- The character can be between two tokens. -/
def isBlankChar (c : Char) : Bool :=
  Text.isWhiteSpace c || c = '\u200e' || c = '\u200f'

/-- A comment is documentation, `mark` being the second character that opens it, and
the text being what follows. -/
def documents (mark : Char) : List Char → Bool
  | [] => false
  | [c] => c = '!' || c = mark
  | c :: d :: _ => c = '!' || (c = mark && d ≠ mark && d ≠ '/')

/-- Where a reader stands in a gap. -/
inductive Position
  | between
  /-- In a comment that ends with its line. -/
  | line
  /-- In a comment that is closed, with a number of such comments around it. -/
  | block (outer : Nat)

/-- The text after a gap. -/
def skip : Position → List Char → List Char
  | _, [] => []
  | .between, '/' :: '/' :: rest =>
    if documents '/' rest then '/' :: '/' :: rest else skip .line rest
  | .between, '/' :: '*' :: rest =>
    if documents '*' rest then '/' :: '*' :: rest else skip (.block 0) rest
  | .between, c :: rest => if isBlankChar c then skip .between rest else c :: rest
  | .line, c :: rest => if c = '\n' then skip .between rest else skip .line rest
  | .block outer, '/' :: '*' :: rest => skip (.block (outer + 1)) rest
  | .block 0, '*' :: '/' :: rest => skip .between rest
  | .block (outer + 1), '*' :: '/' :: rest => skip (.block outer) rest
  | .block outer, _ :: rest => skip (.block outer) rest

/-- A gap adds nothing to the text. -/
theorem length_skip_le
    (p : Position)
    (cs : List Char) :
    (skip p cs).length ≤ cs.length := by
  fun_induction skip p cs with
  | case1 | case2 | case4 | case7 => simp
  | case3 | case5 | case6 | case8 | case9 | case10 | case11 | case12 | case13 =>
      simp
      omega

end Gap

/-- A token of source text. -/
inductive SourceToken
  | word (name : String)
  /-- A string literal, by its value. -/
  | text (value : String)
  | number
  /-- A literal of any other kind. -/
  | literal
  /-- The separator of a path. -/
  | pathSign
  | sign (c : Char)
  deriving DecidableEq

namespace SourceToken

/-- A word can begin with the character. -/
def isWordStart (c : Char) : Bool :=
  c.isAlpha || c = '_' || (0x80 ≤ c.toNat && !Gap.isBlankChar c)

/-- A word can go on with the character. -/
def isWordChar (c : Char) : Bool :=
  isWordStart c || c.isDigit

/-- The text after the suffix of a literal, which is a word directly behind it. -/
def afterSuffix : List Char → List Char
  | [] => []
  | c :: rest => if isWordStart c then rest.dropWhile isWordChar else c :: rest

/-- The string literal that was read between quotes. -/
def ofRead : Option (List Char × List Char) → SourceToken × List Char
  | none => (literal, [])
  | some (value, rest) => (text (String.ofList value), afterSuffix rest)

/-- The literal whose opening quote comes next, if there is one, after the letters in
front of it and a number of hash signs. -/
def atQuote? (letters : List Char) (hashes : Nat) (cs : List Char) :
    Option (SourceToken × List Char) :=
  match letters, hashes, cs with
  | [], 0, '"' :: rest => some (ofRead (StringLiteral.readPlain .text rest))
  | ['r'], hashes, '"' :: rest => some (ofRead (StringLiteral.readRaw hashes rest))
  | ['b'], 0, '"' :: _ => some (literal, [])
  | ['c'], 0, '"' :: _ => some (literal, [])
  | ['b', 'r'], _, '"' :: _ => some (literal, [])
  | ['c', 'r'], _, '"' :: _ => some (literal, [])
  | ['b'], 0, '\'' :: _ => some (literal, [])
  | [], 0, '\'' :: '\\' :: _ => some (literal, [])
  | [], 0, '\'' :: _ :: '\'' :: _ => some (literal, [])
  | _, _, _ => none

/-- The literal in quotes that a text begins with, if there is one, after the letters
in front of it.  Only a raw literal may have hash signs before its quote. -/
def quoted? (letters rest : List Char) : Option (SourceToken × List Char) :=
  let hashes := (rest.takeWhile (· = '#')).length
  atQuote? letters hashes (rest.drop hashes)

/-- The word whose first letters were taken off the text. -/
def ofLetters : List Char → List Char → SourceToken × List Char
  | ['r'], '#' :: rest =>
    (word (String.ofList ('r' :: '#' :: rest.takeWhile isWordChar)),
      rest.dropWhile isWordChar)
  | letters, rest => (word (String.ofList letters), rest)

/-- The first token of a text that does not begin with a gap, and the text after it. -/
def first (c : Char) (rest : List Char) : SourceToken × List Char :=
  let letters := (c :: rest).takeWhile isWordChar
  let after := (c :: rest).dropWhile isWordChar
  match quoted? letters after with
  | some found => found
  | none =>
    if c.isDigit then (number, [])
    else if isWordStart c then ofLetters letters after
    else if c = ':' ∧ rest.head? = some ':' then (pathSign, rest.tail)
    else (sign c, rest)

/-- Dropping characters adds none. -/
theorem length_dropWhile_le
    (p : Char → Bool)
    (cs : List Char) :
    (cs.dropWhile p).length ≤ cs.length :=
  (List.dropWhile_suffix p).length_le

/-- A suffix adds nothing to the text. -/
theorem length_afterSuffix_le
    (cs : List Char) :
    (afterSuffix cs).length ≤ cs.length := by
  cases cs with
  | nil =>
      simp [afterSuffix]
  | cons c rest =>
      have hrest := length_dropWhile_le isWordChar rest
      simp only [afterSuffix]
      split
      · simp
        omega
      · simp

/-- What is behind a string literal is shorter than what is behind its quote. -/
theorem length_ofRead_le
    {found : Option (List Char × List Char)} {rest : List Char}
    (h : ∀ {value more}, found = some (value, more) → more.length < rest.length) :
    (ofRead found).2.length ≤ rest.length := by
  cases found with
  | none =>
      simp [ofRead]
  | some r =>
      exact Nat.le_trans (length_afterSuffix_le r.2) (Nat.le_of_lt (h rfl))

/-- What is behind a literal is shorter than the text at its quote. -/
theorem length_lt_of_atQuote?
    {letters cs : List Char} {hashes : Nat} {found : SourceToken × List Char}
    (h : atQuote? letters hashes cs = some found) :
    found.2.length < cs.length := by
  unfold atQuote? at h
  split at h
  case h_1 =>
      cases h
      exact Nat.lt_succ_of_le (length_ofRead_le StringLiteral.length_lt_of_readPlain)
  case h_2 =>
      cases h
      exact Nat.lt_succ_of_le (length_ofRead_le StringLiteral.length_lt_of_readRaw)
  case h_10 =>
      cases h
  all_goals
    cases h
    simp

/-- A word takes its letters off the text and adds nothing to it. -/
theorem length_ofLetters_le
    (letters rest : List Char) :
    (ofLetters letters rest).2.length ≤ rest.length := by
  unfold ofLetters
  split
  case h_1 raw =>
      have hraw := length_dropWhile_le isWordChar raw
      simp
      omega
  case h_2 =>
      simp

/-- What is behind the first token is no longer than what is behind its first
character. -/
theorem length_first_le
    (c : Char)
    (rest : List Char) :
    (first c rest).2.length ≤ rest.length := by
  have hafter := length_dropWhile_le isWordChar (c :: rest)
  simp only [first]
  split
  next found hfound =>
      have hlt := length_lt_of_atQuote? hfound
      simp at hlt hafter
      omega
  next =>
      split
      · simp
      split
      next hstart =>
          have hcons : (c :: rest).dropWhile isWordChar = rest.dropWhile isWordChar := by
            simp [isWordChar, hstart]
          rw [hcons]
          exact Nat.le_trans (length_ofLetters_le _ _) (length_dropWhile_le _ _)
      next =>
          split <;> simp

/-- Cuts a text into tokens. -/
def cut (cs : List Char) : List SourceToken :=
  match _h : Gap.skip .between cs with
  | [] => []
  | c :: rest =>
    let found := first c rest
    found.1 :: cut found.2
  termination_by cs.length
  decreasing_by
    have hgap := Gap.length_skip_le .between cs
    have hfirst := length_first_le c rest
    simp only [_h, List.length_cons] at hgap
    omega

/-- The tokens of a text. -/
def ofSource (text : String) : List SourceToken :=
  cut (Text.withoutMark text.toList)

end SourceToken

/-- A path as it is written, and its segments. -/
structure Path where
  written : String
  segments : List String
  deriving DecidableEq

namespace SourceToken

def word? : SourceToken → Option String
  | word name => some name
  | _ => none

end SourceToken

namespace Path

/-- The segments of a path from its tokens. -/
def segmentsOf : List SourceToken → List String
  | .pathSign :: rest => "" :: rest.filterMap SourceToken.word?
  | tokens => tokens.filterMap SourceToken.word?

def ofSource (text : String) : Path :=
  ⟨text, segmentsOf (SourceToken.ofSource text)⟩

/-- The last segment of a path, empty for a path without segments. -/
def lastSegment (p : Path) : String :=
  p.segments.getLast?.getD ""

end Path

end Declaration

end ShapeQuery
