import ShapeQuery.Text
import ShapeQuery.Release.Windows

/-!
# Release settings

Release windows are configured by a text in the TOML format.  The only keys are
`popular_days` and `recent_days`, each given at most once, and the only values are
whole numbers below `2 ^ 32`; a key that is missing keeps its standard value.  A
text with any other entry is refused, and so is every construct of the format that
could only stand in such an entry: tables, dotted keys, texts, arrays and dates.

What is left of the format is a text of lines.  A line is empty or holds one entry,
and may end in a comment.
-/

namespace ShapeQuery
namespace Settings

/-- The blanks inside of a line. -/
def isGap (c : Char) : Bool :=
  c = ' ' || c = '\t'

/-- The characters of a comment or of a quoted key: no control character but the tab. -/
def isPrintable (c : Char) : Bool :=
  c = '\t' || (0x20 ≤ c.toNat && c.toNat ≠ 0x7f)

/-- The lines of a text.  A line ends at a line feed, a carriage return right before it
being part of the end. -/
def lines : List Char → List (List Char)
  | [] => [[]]
  | '\r' :: '\n' :: rest => [] :: lines rest
  | '\n' :: rest => [] :: lines rest
  | c :: rest =>
    match lines rest with
    | [] => [[c]]
    | line :: more => (c :: line) :: more

/-- Nothing but blanks and a comment is left of a line. -/
def isDone : List Char → Bool
  | [] => true
  | '#' :: comment => comment.all isPrintable
  | c :: rest => isGap c && isDone rest

section Keys

/-- The characters of a key without quotes. -/
def isBareKeyChar (c : Char) : Bool :=
  c.isAlphanum || c = '_' || c = '-'

/-- What stands for one character after a backslash. -/
def simpleEscape? : Char → Option Char
  | 'b' => some '\x08'
  | 't' => some '\t'
  | 'n' => some '\n'
  | 'f' => some '\x0c'
  | 'r' => some '\r'
  | 'e' => some '\x1b'
  | '"' => some '"'
  | '\\' => some '\\'
  | _ => none

/-- How many digits follow the letter of a numeric escape. -/
def escapeDigits? : Char → Option Nat
  | 'x' => some 2
  | 'u' => some 4
  | 'U' => some 8
  | _ => none

/-- Where a reader stands in a quoted key. -/
inductive KeyPosition
  | text
  | escape
  /-- Digits of a numeric escape are missing, after the value read so far. -/
  | digits (missing value : Nat)

/-- Reads a quoted key from behind its opening quote. -/
def readQuotedKey : KeyPosition → List Char → Option (List Char × List Char)
  | _, [] => none
  | .text, '"' :: rest => some ([], rest)
  | .text, '\\' :: rest => readQuotedKey .escape rest
  | .text, c :: rest =>
    if isPrintable c then
      (readQuotedKey .text rest).map fun r => (c :: r.1, r.2)
    else none
  | .escape, c :: rest =>
    match simpleEscape? c, escapeDigits? c with
    | some value, _ => (readQuotedKey .text rest).map fun r => (value :: r.1, r.2)
    | none, some digits => readQuotedKey (.digits digits 0) rest
    | none, none => none
  | .digits missing value, c :: rest =>
    match Text.hexDigit? c with
    | none => none
    | some digit =>
      if missing ≤ 1 then
        match Text.character? (16 * value + digit) with
        | none => none
        | some c => (readQuotedKey .text rest).map fun r => (c :: r.1, r.2)
      else readQuotedKey (.digits (missing - 1) (16 * value + digit)) rest

/-- Reads a key, quoted or not, and returns the text after it. -/
def readKey : List Char → Option (List Char × List Char)
  | '"' :: rest => readQuotedKey .text rest
  | '\'' :: rest =>
    match rest.span (· ≠ '\'') with
    | (key, _ :: rest) => if key.all isPrintable then some (key, rest) else none
    | (_, []) => none
  | cs => some (cs.span isBareKeyChar)

end Keys

section Numbers

/-- The value of a digit in a base up to sixteen. -/
def digit? (base : Nat) (c : Char) : Option Nat :=
  match Text.hexDigit? c with
  | some d => if d < base then some d else none
  | none => none

/-- Reads the digits that follow the value `n`; one underscore may stand between two. -/
def moreDigits? (base n : Nat) : List Char → Option Nat
  | [] => some n
  | '_' :: c :: rest =>
    match digit? base c with
    | some d => moreDigits? base (base * n + d) rest
    | none => none
  | c :: rest =>
    match digit? base c with
    | some d => moreDigits? base (base * n + d) rest
    | none => none

/-- Reads one digit or more. -/
def digits? (base : Nat) : List Char → Option Nat
  | [] => none
  | c :: rest =>
    match digit? base c with
    | some d => moreDigits? base d rest
    | none => none

/-- Reads a decimal number without a sign.  It begins with zero only if it is zero. -/
def decimal? : List Char → Option Nat
  | '0' :: _ :: _ => none
  | cs => digits? 10 cs

/-- Reads a whole number: decimal with an optional sign, or after the mark of a base. -/
def wholeNumber? : List Char → Option Int
  | '0' :: 'x' :: rest => (digits? 16 rest).map Int.ofNat
  | '0' :: 'o' :: rest => (digits? 8 rest).map Int.ofNat
  | '0' :: 'b' :: rest => (digits? 2 rest).map Int.ofNat
  | '+' :: rest => (decimal? rest).map Int.ofNat
  | '-' :: rest => (decimal? rest).map fun n => -Int.ofNat n
  | cs => (decimal? cs).map Int.ofNat

end Numbers

/-- Reads the value of an entry up to the end of its line. -/
def readValue (cs : List Char) : Option Int :=
  match cs.span fun c => !(isGap c || c = '#') with
  | (value, rest) => if isDone rest then wholeNumber? value else none

/-- Reads a line that holds an entry. -/
def readEntry (cs : List Char) : Option (List Char × Int) :=
  match readKey cs with
  | none => none
  | some (key, rest) =>
    match rest.dropWhile isGap with
    | '=' :: rest => (readValue (rest.dropWhile isGap)).map fun n => (key, n)
    | _ => none

end Settings

/-- Release settings as far as they are read. -/
structure Settings where
  popularDays : Option UInt32
  recentDays : Option UInt32
  deriving DecidableEq

namespace Settings

def empty : Settings :=
  ⟨none, none⟩

/-- A number of days that an entry may give. -/
def days? (n : Int) : Option UInt32 :=
  if 0 ≤ n ∧ n < UInt32.size then some (UInt32.ofNat n.toNat) else none

/-- Takes in an entry with a known key that is not set yet. -/
def set (s : Settings) (key : List Char) (n : Int) : Option Settings :=
  match days? n with
  | none => none
  | some days =>
    if key = "popular_days".toList ∧ s.popularDays = none then
      some { s with popularDays := some days }
    else if key = "recent_days".toList ∧ s.recentDays = none then
      some { s with recentDays := some days }
    else none

/-- Takes in lines one after another. -/
def readLines (s : Settings) : List (List Char) → Option Settings
  | [] => some s
  | line :: rest =>
    if isDone line then readLines s rest
    else
      match readEntry (line.dropWhile isGap) with
      | none => none
      | some (key, n) =>
        match s.set key n with
        | none => none
        | some s => readLines s rest

/-- Reads settings. -/
def ofText? (text : String) : Option Settings :=
  empty.readLines (lines (Text.withoutMark text.toList))

def windows (s : Settings) : ReleaseWindows where
  popularDays := s.popularDays.getD ReleaseWindows.standard.popularDays
  recentDays := s.recentDays.getD ReleaseWindows.standard.recentDays

end Settings

/-- The windows that a settings text gives, if it can be read. -/
def ReleaseWindows.ofText? (text : String) : Option ReleaseWindows :=
  (Settings.ofText? text).map Settings.windows

end ShapeQuery
