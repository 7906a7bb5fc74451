import ShapeQuery.Text

/-!
# Characters of string literals

The characters between plain quotes stand for a value, one character or escape after another
(`Spells`).  Reading them gives that value back and stops behind the closing quote
(`readPlain_of_spells`), and every value has characters that stand for it (`exists_spells`).

A raw literal stands for the characters in it, whatever they are, as long as the mark that
ends the literal is not among them (`readRaw_eq`).
-/

namespace ShapeQuery
namespace StringLiteral

variable {value written rest : List Char}

/-- From a number read so far, the digits of a code point lead to another. -/
inductive HexDigits : Nat → List Char → Nat → Prop
  | nil (n : Nat) :
      HexDigits n [] n
  | digit {n d m : Nat} {c : Char} {digits : List Char} :
      Text.hexDigit? c = some d → HexDigits (16 * n + d) digits m →
      HexDigits n (c :: digits) m
  | underscore {n m : Nat} {digits : List Char} :
      HexDigits n digits m →
      HexDigits n ('_' :: digits) m

/-- The blanks that a line break which is left out takes along. -/
def IsContinued (c : Char) : Prop :=
  c = ' ' ∨ c = '\t' ∨ c = '\n' ∨ c = '\r'

/-- A value, and the characters between plain quotes that stand for it. -/
inductive Spells : List Char → List Char → Prop
  | nil :
      Spells [] []
  | char {c : Char} {value written : List Char} :
      c ≠ '"' → c ≠ '\\' → c ≠ '\r' → Spells value written →
      Spells (c :: value) (c :: written)
  | escape {letter c : Char} {value written : List Char} :
      simpleEscape? letter = some c → Spells value written →
      Spells (c :: value) ('\\' :: letter :: written)
  | byte {h l : Char} {high low : Nat} {value written : List Char} :
      Text.hexDigit? h = some high → high < 8 → Text.hexDigit? l = some low →
      Spells value written →
      Spells (Char.ofNat (16 * high + low) :: value) ('\\' :: 'x' :: h :: l :: written)
  | codePoint {n : Nat} {c : Char} {digits value written : List Char} :
      HexDigits 0 digits n → Text.character? n = some c → Spells value written →
      Spells (c :: value) ('\\' :: 'u' :: '\x7b' :: (digits ++ '\x7d' :: written))
  | lineBreak {value written : List Char} :
      Spells value written →
      Spells ('\n' :: value) ('\r' :: '\n' :: written)
  | continued {blanks value written : List Char} :
      (∀ c ∈ blanks, IsContinued c) → (∀ c ∈ written.head?, ¬ IsContinued c) →
      Spells value written →
      Spells value ('\\' :: '\n' :: (blanks ++ written))

theorem readPlain_codePoint
    {n m : Nat} {c : Char} {digits : List Char}
    (h : HexDigits n digits m) (hc : Text.character? m = some c) :
    readPlain (.codePoint n) (digits ++ '\x7d' :: rest) = push c (readPlain .text rest) := by
  induction h with
  | nil n =>
      rw [List.nil_append, readPlain, if_pos rfl, hc]
  | @digit n d m c' digits hd _ ih =>
      have hbrace : c' ≠ '\x7d' := by
        rintro rfl
        cases hd
      have hscore : c' ≠ '_' := by
        rintro rfl
        cases hd
      rw [List.cons_append, readPlain, if_neg hbrace, if_neg hscore, hd]
      exact ih hc
  | underscore _ ih =>
      rw [List.cons_append, readPlain, if_neg (by simp), if_pos rfl]
      exact ih hc

theorem readPlain_blank
    {b : Char}
    (hb : IsContinued b) :
    readPlain .continued (b :: rest) = readPlain .continued rest := by
  rw [readPlain]
  · exact if_pos hb
  all_goals
    rintro rfl
    simp [IsContinued] at hb

/--
Behind a line break that is left out, reading goes on at the first character that is no
blank.
-/
theorem readPlain_continued
    {blanks : List Char} {c : Char}
    (hblanks : ∀ c ∈ blanks, IsContinued c) (hc : ¬ IsContinued c) :
    readPlain .continued (blanks ++ c :: rest) = readPlain .text (c :: rest) := by
  induction blanks with
  | nil =>
      have hreturn : c ≠ '\r' := fun h => hc (.inr (.inr (.inr h)))
      by_cases hquote : c = '"'
      · rw [hquote, List.nil_append, readPlain, readPlain]
      by_cases hslash : c = '\\'
      · rw [hslash, List.nil_append, readPlain, readPlain]
      rw [List.nil_append, readPlain, readPlain]
      · exact if_neg hc
      all_goals assumption
  | cons b more ih =>
      obtain ⟨hb, hmore⟩ := List.forall_mem_cons.mp hblanks
      rw [List.cons_append, readPlain_blank hb]
      exact ih hmore

theorem readPlain_escape
    {letter c : Char}
    (h : simpleEscape? letter = some c) :
    readPlain .escape (letter :: rest) = push c (readPlain .text rest) := by
  rw [readPlain, h]
  all_goals
    rintro rfl
    cases h

/-- Reading between plain quotes gives the value that the characters stand for. -/
theorem readPlain_of_spells
    (h : Spells value written) :
    readPlain .text (written ++ '"' :: rest) = some (value, rest) := by
  induction h with
  | nil =>
      rw [List.nil_append, readPlain]
  | char hquote hslash hreturn _ ih =>
      rw [List.cons_append, readPlain, ih]
      · rfl
      · exact hquote
      · exact hslash
      · exact hreturn
  | escape hc _ ih =>
      rw [List.cons_append, List.cons_append, readPlain, readPlain_escape hc, ih]
      rfl
  | byte hhigh hlt hlow _ ih =>
      simp only [List.cons_append, readPlain, hhigh, hlow, if_pos hlt, ih]
      rfl
  | codePoint hdigits hc _ ih =>
      simp only [List.cons_append, List.append_assoc, readPlain, if_true]
      rw [readPlain_codePoint hdigits hc, ih]
      rfl
  | lineBreak _ ih =>
      simp only [List.cons_append, readPlain, if_true, ih]
      rfl
  | @continued blanks value written hblanks hwritten _ ih =>
      simp only [List.cons_append, List.append_assoc, readPlain]
      cases written with
      | nil =>
          rw [List.nil_append, readPlain_continued hblanks (by simp [IsContinued])]
          exact ih
      | cons c more =>
          rw [List.cons_append, readPlain_continued hblanks (hwritten c rfl)]
          exact ih

/-- Every value can be written between plain quotes. -/
theorem exists_spells
    (value : List Char) :
    ∃ written, Spells value written := by
  induction value with
  | nil =>
      exact ⟨[], .nil⟩
  | cons c value ih =>
      obtain ⟨written, h⟩ := ih
      by_cases hquote : c = '"'
      · subst hquote
        exact ⟨_, .escape (show simpleEscape? '"' = some '"' from rfl) h⟩
      by_cases hslash : c = '\\'
      · subst hslash
        exact ⟨_, .escape (show simpleEscape? '\\' = some '\\' from rfl) h⟩
      by_cases hreturn : c = '\r'
      · subst hreturn
        exact ⟨_, .escape (show simpleEscape? 'r' = some '\r' from rfl) h⟩
      exact ⟨_, .char hquote hslash hreturn h⟩

/-- A raw literal stands for the characters in it, if the mark that ends it is not among them. -/
theorem readRaw_eq
    {hashes : Nat}
    (h : ¬ '"' :: List.replicate hashes '#' <:+: value) :
    readRaw hashes (value ++ '"' :: (List.replicate hashes '#' ++ rest)) = some (value, rest) := by
  induction value with
  | nil =>
      simp [readRaw]
  | cons c value ih =>
      have hopen : ¬ (c = '"' ∧ (value ++ '"' :: (List.replicate hashes '#' ++ rest)).take hashes =
          List.replicate hashes '#') := by
        rintro ⟨rfl, htake⟩
        have hmarks := List.take_prefix hashes (value ++ '"' :: (List.replicate hashes '#' ++ rest))
        rw [htake] at hmarks
        have hinside : ¬ List.replicate hashes '#' <+: value := fun hin =>
          h (List.IsPrefix.isInfix (List.cons_prefix_cons.mpr ⟨rfl, hin⟩))
        obtain hin | ⟨tail, htail⟩ :=
          List.prefix_or_prefix_of_prefix hmarks (List.prefix_append _ _)
        · exact hinside hin
        · obtain ⟨more, hmore⟩ := hmarks
          rw [← htail, List.append_assoc, List.append_cancel_left_eq] at hmore
          cases tail with
          | nil =>
              rw [List.append_nil] at htail
              exact hinside (htail ▸ List.prefix_rfl)
          | cons q tail =>
              have hq : q ∈ List.replicate hashes '#' := by
                rw [← htail]
                simp
              cases (List.cons.inj hmore).1
              cases (List.mem_replicate.mp hq).2
      rw [List.cons_append, readRaw, if_neg hopen, ih fun hin => h (List.infix_cons hin)]
      rfl

end StringLiteral
end ShapeQuery
