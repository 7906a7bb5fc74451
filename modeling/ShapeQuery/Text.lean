/-!
# Texts and string literals

What the readers of source text and of settings share.

**Blank text.**  White space is the characters with the Unicode property `White_Space`, all
twenty-five of them, and a text is blank if it holds no other character.  Separators of
ASCII control (U+001C to U+001F), the zero-width space and the byte order mark do not have
the property.

**Byte order mark.**  The character U+FEFF at the beginning of a text marks how the text was
stored and does not belong to it.  Anywhere else it is a character like any other.

**String literals.**  Between plain quotes a backslash begins an escape, and a line break
that a backslash stands before is left out together with the blanks that follow it.  A raw
literal holds no escapes and ends at a quote followed by as many hash signs as it began
with.  Both readers begin after the opening quote and return the characters of the value
and the text after the closing quote, which is shorter than what they were given.
-/

namespace ShapeQuery

namespace Text

/-- The first and the last code point of every run of white space. -/
def whiteSpaceRuns : List (Nat × Nat) :=
  [(0x9, 0xd), (0x20, 0x20), (0x85, 0x85), (0xa0, 0xa0), (0x1680, 0x1680),
    (0x2000, 0x200a), (0x2028, 0x2029), (0x202f, 0x202f), (0x205f, 0x205f),
    (0x3000, 0x3000)]

def isWhiteSpace (c : Char) : Bool :=
  whiteSpaceRuns.any fun run => run.1 ≤ c.toNat && c.toNat ≤ run.2

/-- The text is empty or all white space. -/
def isBlank (s : String) : Bool :=
  s.toList.all isWhiteSpace

theorem isBlank_eq_false_iff
    {s : String} :
    isBlank s = false ↔ ∃ c ∈ s.toList, isWhiteSpace c = false := by
  simp [isBlank]

/-- A text without the byte order mark that it may begin with. -/
def withoutMark : List Char → List Char
  | '\ufeff' :: rest => rest
  | cs => cs

theorem withoutMark_of_head
    {cs : List Char}
    (h : '\ufeff' ∉ cs.head?) :
    withoutMark cs = cs := by
  unfold withoutMark
  split
  next => simp at h
  next => rfl

section Scanning

variable {p : Char → Bool} {front rest : List Char}

/-- Reading on while a property holds stops at the first character without it. -/
theorem takeWhile_append
    (hfront : ∀ c ∈ front, p c = true) (hrest : ∀ c ∈ rest.head?, p c = false) :
    (front ++ rest).takeWhile p = front := by
  rw [List.takeWhile_append_of_pos hfront]
  cases rest with
  | nil =>
      rw [List.takeWhile_nil, List.append_nil]
  | cons c more =>
      rw [List.takeWhile_cons_of_neg (by simp [hrest c rfl]), List.append_nil]

theorem dropWhile_append
    (hfront : ∀ c ∈ front, p c = true) (hrest : ∀ c ∈ rest.head?, p c = false) :
    (front ++ rest).dropWhile p = rest := by
  rw [List.dropWhile_append_of_pos hfront]
  cases rest with
  | nil =>
      rw [List.dropWhile_nil]
  | cons c more =>
      rw [List.dropWhile_cons_of_neg (by simp [hrest c rfl])]

end Scanning

theorem isDigit_of_mem_repr
    {c : Char} {n : Nat}
    (h : c ∈ n.repr.toList) :
    c.isDigit = true := by
  rw [Nat.toList_repr] at h
  exact Nat.isDigit_of_mem_toDigits (by omega) (by omega) h

/-- A number is written with digits. -/
theorem notMem_repr
    {c : Char}
    (hc : c.isDigit = false) (n : Nat) :
    c ∉ n.repr.toList := by
  intro hmem
  rw [isDigit_of_mem_repr hmem] at hc
  cases hc

/-- The value of a hexadecimal digit. -/
def hexDigit? (c : Char) : Option Nat :=
  if '0' ≤ c ∧ c ≤ '9' then some (c.toNat - '0'.toNat)
  else if 'a' ≤ c ∧ c ≤ 'f' then some (c.toNat - 'a'.toNat + 10)
  else if 'A' ≤ c ∧ c ≤ 'F' then some (c.toNat - 'A'.toNat + 10)
  else none

/-- The character of a code point. -/
def character? (n : Nat) : Option Char :=
  if n.isValidChar then some (Char.ofNat n) else none

end Text

namespace StringLiteral

/-- What stands for itself after a backslash, or for one character. -/
def simpleEscape? : Char → Option Char
  | 'n' => some '\n'
  | 'r' => some '\r'
  | 't' => some '\t'
  | '0' => some '\x00'
  | '\\' => some '\\'
  | '\'' => some '\''
  | '"' => some '"'
  | _ => none

/-- Where a reader stands between plain quotes. -/
inductive Position
  | text
  | escape
  /-- Before the first digit of an escape of two digits. -/
  | byte
  /-- Before its second digit. -/
  | lowByte (high : Nat)
  /-- Before the brace of a code point. -/
  | openBrace
  | codePoint (n : Nat)
  /-- After a line break that is left out. -/
  | continued
  /-- After a carriage return, which is part of a line break. -/
  | lineBreak

/-- Adds a character to the value read from the rest. -/
def push (c : Char) (read : Option (List Char × List Char)) :
    Option (List Char × List Char) :=
  read.map fun r => (c :: r.1, r.2)

/-- A character in front changes the value only. -/
theorem exists_of_push
    {c : Char} {found : Option (List Char × List Char)} {value rest : List Char}
    (h : push c found = some (value, rest)) :
    ∃ more, found = some (more, rest) := by
  obtain ⟨r, hfound, hr⟩ := Option.map_eq_some_iff.mp h
  obtain ⟨_, rfl⟩ := Prod.mk.inj hr
  exact ⟨r.1, hfound⟩

/-- Reads between plain quotes. -/
def readPlain : Position → List Char → Option (List Char × List Char)
  | _, [] => none
  | .text, '"' :: rest => some ([], rest)
  | .text, '\\' :: rest => readPlain .escape rest
  | .text, '\r' :: rest => readPlain .lineBreak rest
  | .text, c :: rest => push c (readPlain .text rest)
  | .escape, 'x' :: rest => readPlain .byte rest
  | .escape, 'u' :: rest => readPlain .openBrace rest
  | .escape, '\n' :: rest => readPlain .continued rest
  | .escape, '\r' :: rest => readPlain .continued rest
  | .escape, c :: rest =>
    match simpleEscape? c with
    | some value => push value (readPlain .text rest)
    | none => none
  | .byte, c :: rest =>
    match Text.hexDigit? c with
    | some high => readPlain (.lowByte high) rest
    | none => none
  | .lowByte high, c :: rest =>
    match Text.hexDigit? c with
    | some low =>
      if high < 8 then push (Char.ofNat (16 * high + low)) (readPlain .text rest) else none
    | none => none
  | .openBrace, c :: rest => if c = '\x7b' then readPlain (.codePoint 0) rest else none
  | .codePoint n, c :: rest =>
    if c = '\x7d' then
      match Text.character? n with
      | some value => push value (readPlain .text rest)
      | none => none
    else if c = '_' then readPlain (.codePoint n) rest
    else
      match Text.hexDigit? c with
      | some digit => readPlain (.codePoint (16 * n + digit)) rest
      | none => none
  | .continued, '"' :: rest => some ([], rest)
  | .continued, '\\' :: rest => readPlain .escape rest
  | .continued, c :: rest =>
    if c = ' ' ∨ c = '\t' ∨ c = '\n' ∨ c = '\r' then readPlain .continued rest
    else push c (readPlain .text rest)
  | .lineBreak, c :: rest =>
    if c = '\n' then push '\n' (readPlain .text rest) else none

/-- Reading between plain quotes takes a part of the text away. -/
theorem length_lt_of_readPlain
    {p : Position} {cs value rest : List Char}
    (h : readPlain p cs = some (value, rest)) :
    rest.length < cs.length := by
  fun_induction readPlain p cs generalizing value rest with
  | case1 | case11 | case13 | case15 | case16 | case18 | case20 | case23 | case29 =>
      simp at h
  | case2 | case24 =>
      simp_all
  | case3 | case4 | case6 | case7 | case8 | case9 | case12 | case17 | case21
  | case22 | case25 | case26 =>
      rename_i ih
      exact Nat.lt_succ_of_lt (ih h)
  | case5 | case10 | case14 | case19 | case27 | case28 =>
      rename_i ih
      obtain ⟨more, hmore⟩ := exists_of_push h
      exact Nat.lt_succ_of_lt (ih hmore)

/-- Reads a raw literal that began with `hashes` hash signs. -/
def readRaw (hashes : Nat) : List Char → Option (List Char × List Char)
  | [] => none
  | c :: rest =>
    if c = '"' ∧ rest.take hashes = List.replicate hashes '#' then
      some ([], rest.drop hashes)
    else push c (readRaw hashes rest)

/-- Reading a raw literal takes a part of the text away. -/
theorem length_lt_of_readRaw
    {hashes : Nat} {cs value rest : List Char}
    (h : readRaw hashes cs = some (value, rest)) :
    rest.length < cs.length := by
  fun_induction readRaw hashes cs generalizing value rest with
  | case1 =>
      simp at h
  | case2 =>
      cases h
      rw [List.length_drop, List.length_cons]
      omega
  | case3 c rest' hclose ih =>
      obtain ⟨more, hmore⟩ := exists_of_push h
      exact Nat.lt_succ_of_lt (ih hmore)

end StringLiteral

end ShapeQuery
