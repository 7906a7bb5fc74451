import ShapeQuery.Proofs.AttributeOutcome
import ShapeQuery.Proofs.LiteralText

/-!
# Source text and its tokens

A text of tokens with gaps between them is cut into these tokens (`cut_of_writes`).

**Gaps.**  Blanks, comments to the end of a line and closed comments with comments in them
may stand between tokens, as long as the comments document nothing (`Gap.Fills`).

**Tokens.**  A word or a string literal may run on into what follows, and must be kept apart
from it.  A sign stands for itself, and two colons are the separator of a path.

**Paths and options.**  Words with separators between them are the segments of the path that
they write (`Path.segments_intercalate`).  An attribute has the options that its source text
writes, and every list of options has such a text (`Options.exists_source`).
-/

namespace ShapeQuery
namespace Declaration
namespace Gap

variable {gap comment rest : List Char}

/-- The rest of a comment behind the mark that opens it, up to the mark that closes it. -/
inductive Closes : List Char → Prop
  | close :
      Closes ['*', '/']
  | nested {inner rest : List Char} :
      Closes inner → Closes rest →
      Closes ('/' :: '*' :: (inner ++ rest))
  | char {c : Char} {rest : List Char} :
      ¬ ['/', '*'] <+: c :: rest → ¬ ['*', '/'] <+: c :: rest → Closes rest →
      Closes (c :: rest)

/-- Blanks and comments that document nothing. -/
inductive Fills : List Char → Prop
  | nil :
      Fills []
  | blank {c : Char} {gap : List Char} :
      isBlankChar c = true → Fills gap →
      Fills (c :: gap)
  | line {comment gap : List Char} :
      documents '/' (comment ++ ['\n']) = false → '\n' ∉ comment → Fills gap →
      Fills ('/' :: '/' :: (comment ++ '\n' :: gap))
  | block {comment gap : List Char} :
      documents '*' comment = false → Closes comment → Fills gap →
      Fills ('/' :: '*' :: (comment ++ gap))

theorem skip_char
    {c : Char} {outer : Nat}
    (hopen : ¬ ['/', '*'] <+: c :: rest) (hclose : ¬ ['*', '/'] <+: c :: rest) :
    skip (.block outer) (c :: rest) = skip (.block outer) rest := by
  rw [skip]
  · rintro more rfl rfl
    exact hopen (List.prefix_append ['/', '*'] more)
  · rintro more _ rfl rfl
    exact hclose (List.prefix_append ['*', '/'] more)
  · rintro _ more _ rfl rfl
    exact hclose (List.prefix_append ['*', '/'] more)

theorem Closes.exists_cons
    (h : Closes comment) :
    ∃ c d more, comment = c :: d :: more := by
  cases h with
  | close =>
      exact ⟨_, _, _, rfl⟩
  | nested =>
      exact ⟨_, _, _, rfl⟩
  | char _ _ h =>
      cases h <;> exact ⟨_, _, _, rfl⟩

/-- Two characters are enough to see that a mark does not begin there. -/
theorem not_prefix_append
    {a b c : Char}
    (h : Closes comment) (hne : ¬ [a, b] <+: c :: comment) :
    ¬ [a, b] <+: c :: (comment ++ rest) := by
  obtain ⟨d, e, more, rfl⟩ := h.exists_cons
  simpa using hne

/-- A comment that is closed leaves the comments around it open. -/
theorem skip_closes
    {outer : Nat}
    (h : Closes comment) :
    skip (.block outer) (comment ++ rest) =
      match outer with
      | 0 => skip .between rest
      | outer + 1 => skip (.block outer) rest := by
  induction h generalizing outer rest with
  | close =>
      cases outer <;>
        · rw [List.cons_append, List.cons_append, List.nil_append, skip]
  | nested _ _ ihinner ih =>
      rw [List.cons_append, List.cons_append, List.append_assoc, skip, ihinner]
      exact ih
  | @char c more hopen hclose hmore ih =>
      rw [List.cons_append, skip_char (not_prefix_append hmore hopen)
        (not_prefix_append hmore hclose), ih]

theorem documents_append
    {mark : Char}
    (h : Closes comment) :
    documents mark (comment ++ rest) = documents mark comment := by
  obtain ⟨c, d, more, rfl⟩ := h.exists_cons
  rfl

theorem documents_line
    (comment rest : List Char) :
    documents '/' (comment ++ '\n' :: rest) = documents '/' (comment ++ ['\n']) := by
  match comment with
  | [] => cases rest <;> rfl
  | [c] => rfl
  | c :: d :: more => rfl

theorem skip_line
    (h : '\n' ∉ comment) :
    skip .line (comment ++ '\n' :: rest) = skip .between rest := by
  induction comment with
  | nil =>
      rw [List.nil_append, skip, if_pos rfl]
  | cons c more ih =>
      rw [List.mem_cons, not_or] at h
      rw [List.cons_append, skip, if_neg (Ne.symm h.1)]
      exact ih h.2

/-- Nothing of a gap is left when the text behind it is read. -/
theorem skip_fills
    (h : Fills gap) :
    skip .between (gap ++ rest) = skip .between rest := by
  induction h with
  | nil =>
      rfl
  | @blank c gap hc _ ih =>
      have hslash : c ≠ '/' := by
        rintro rfl
        cases hc
      rw [List.cons_append, skip, if_pos hc, ih]
      · exact fun _ h => absurd h hslash
      · exact fun _ h => absurd h hslash
  | line hdocuments hcomment _ ih =>
      simp only [List.cons_append, List.append_assoc, skip, documents_line, hdocuments]
      exact (skip_line hcomment).trans ih
  | block hdocuments hcloses _ ih =>
      simp only [List.cons_append, List.append_assoc, skip, documents_append hcloses, hdocuments]
      exact (skip_closes hcloses).trans ih

end Gap
namespace SourceToken

open StringLiteral

variable {token : SourceToken} {tokens : List SourceToken} {cs chunk rest : List Char} {c : Char}

/-- The text does not go on with what could belong to a word or a literal in front of it. -/
def Apart (rest : List Char) : Prop :=
  ∀ c ∈ rest.head?, isWordChar c = false ∧ c ≠ '"' ∧ c ≠ '\'' ∧ c ≠ '#'

theorem apart_nil :
    Apart [] := by
  rintro c ⟨⟩

theorem apart_cons
    (hword : isWordChar c = false) (hmarks : c ∉ ['"', '\'', '#']) :
    Apart (c :: rest) := by
  rintro _ ⟨⟩
  simpa [hword] using hmarks

/-- The token can go on with the characters behind it. -/
def runsOn : SourceToken → Bool
  | word _ => true
  | text _ => true
  | _ => false

/-- A character that is a sign wherever it stands. -/
structure IsSign (c : Char) : Prop where
  outside : isWordChar c = false
  visible : Gap.isBlankChar c = false
  alone : c ∉ ['"', '\'', '/', ':']

/-- The characters that a token is written with. -/
inductive Written : SourceToken → List Char → Prop
  | word {c : Char} {letters : List Char} :
      isWordStart c = true → (∀ d ∈ letters, isWordChar d = true) →
      Written (.word (String.ofList (c :: letters))) (c :: letters)
  | text {value written : List Char} :
      Spells value written →
      Written (.text (String.ofList value)) ('"' :: (written ++ ['"']))
  | rawText {hashes : Nat} {value : List Char} :
      ¬ '"' :: List.replicate hashes '#' <:+: value →
      Written (.text (String.ofList value))
        ('r' :: (List.replicate hashes '#' ++ '"' :: (value ++ '"' :: List.replicate hashes '#')))
  | pathSign :
      Written .pathSign [':', ':']
  | sign {c : Char} :
      IsSign c →
      Written (.sign c) [c]

/-- Tokens, and a text of them with gaps between them. -/
inductive Writes : List SourceToken → List Char → Prop
  | nil {gap : List Char} :
      Gap.Fills gap →
      Writes [] gap
  | cons {token : SourceToken} {tokens : List SourceToken} {gap chunk rest : List Char} :
      Gap.Fills gap → token.Written chunk → (token.runsOn = true → Apart rest) →
      Writes tokens rest →
      Writes (token :: tokens) (gap ++ (chunk ++ rest))

section Characters

theorem isWordChar_of_isWordStart
    (h : isWordStart c = true) :
    isWordChar c = true := by
  rw [isWordChar, h, Bool.true_or]

theorem codes_of_isWordStart
    (h : isWordStart c = true) :
    65 ≤ c.toNat ∧ (c.toNat < 128 ∨ Gap.isBlankChar c = false) := by
  rw [isWordStart, Bool.or_eq_true, Bool.or_eq_true] at h
  obtain (halpha | hline) | hwide := h
  · have hcase : c.isUpper = true ∨ c.isLower = true := Bool.or_eq_true_iff.mp halpha
    obtain hupper | hlower := hcase
    · have hcodes : 65 ≤ c.toNat ∧ c.toNat ≤ 90 := of_decide_eq_true hupper
      omega
    · have hcodes : 97 ≤ c.toNat ∧ c.toNat ≤ 122 :=
        (Bool.and_eq_true_iff.mp hlower).imp of_decide_eq_true of_decide_eq_true
      omega
  · obtain rfl := of_decide_eq_true hline
    decide
  · simp only [Bool.and_eq_true, decide_eq_true_eq, Bool.not_eq_true'] at hwide
    exact ⟨by omega, .inr hwide.2⟩

theorem not_isDigit_of_isWordStart
    (h : isWordStart c = true) :
    c.isDigit = false := by
  obtain ⟨hlow, _⟩ := codes_of_isWordStart h
  rw [Bool.eq_false_iff]
  intro hdigit
  have hhigh : c.toNat ≤ 57 := (Char.isDigit_iff_toNat.mp hdigit).2
  omega

theorem not_isBlankChar_of_isWordStart
    (h : isWordStart c = true) :
    Gap.isBlankChar c = false := by
  obtain ⟨hlow, hhigh | hblank⟩ := codes_of_isWordStart h
  · rw [Bool.eq_false_iff]
    intro hblank
    simp only [Gap.isBlankChar, Text.isWhiteSpace, Text.whiteSpaceRuns, List.any_cons, List.any_nil,
      Bool.or_eq_true, Bool.and_eq_true, decide_eq_true_eq, Bool.or_false] at hblank
    rcases hblank with (hblank | rfl) | rfl
    · omega
    · simp at hhigh
    · simp at hhigh
  · exact hblank

end Characters

section Literals

theorem quoted?_of_apart
    (letters : List Char) (h : Apart rest) :
    quoted? letters rest = none := by
  have hmarks : rest.takeWhile (· = '#') = [] := by
    cases rest with
    | nil => rfl
    | cons c more => simp [(h c rfl).2.2.2]
  rw [quoted?, hmarks, List.length_nil, List.drop_zero]
  unfold atQuote?
  split
  case h_10 => rfl
  all_goals
    have hhead := h _ rfl
    simp at hhead

theorem afterSuffix_of_apart
    (h : Apart rest) :
    afterSuffix rest = rest := by
  cases rest with
  | nil => rfl
  | cons c more =>
      have hstart : isWordStart c = false := by
        rw [Bool.eq_false_iff]
        intro hstart
        have hword := (h c rfl).1
        rw [isWordChar_of_isWordStart hstart] at hword
        cases hword
      rw [afterSuffix, hstart]
      rfl

/-- A sign opens no literal. -/
theorem quoted?_of_isSign
    (h : IsSign c) :
    quoted? [] (c :: rest) = none := by
  have hquote : c ≠ '"' := fun hc => h.alone (by simp [hc])
  have hmark : c ≠ '\'' := fun hc => h.alone (by simp [hc])
  by_cases hhash : c = '#'
  · rw [quoted?, hhash, List.takeWhile_cons_of_pos rfl, List.length_cons]
    rfl
  · rw [quoted?, List.takeWhile_cons_of_neg (by simpa using hhash), List.length_nil, List.drop_zero]
    unfold atQuote?
    split
    case h_10 => rfl
    all_goals simp_all

theorem quoted?_rawMark
    (hashes : Nat) (raw : List Char) :
    quoted? ['r'] (List.replicate hashes '#' ++ '"' :: raw) =
      some (ofRead (readRaw hashes raw)) := by
  have hmarks : ∀ d ∈ List.replicate hashes '#', (decide (d = '#')) = true := fun d hd => by
    simp [List.eq_of_mem_replicate hd]
  have hstop : ∀ d ∈ ('"' :: raw).head?, (decide (d = '#')) = false := by
    rintro d ⟨⟩
    rfl
  rw [quoted?, Text.takeWhile_append hmarks hstop, List.length_replicate,
    List.drop_left' (List.length_replicate ..)]
  rfl

theorem first_of_quoted
    {letters after : List Char} {found : SourceToken × List Char}
    (hletters : (c :: rest).takeWhile isWordChar = letters)
    (hafter : (c :: rest).dropWhile isWordChar = after)
    (h : quoted? letters after = some found) :
    first c rest = found := by
  simp only [first, hletters, hafter, h]

end Literals

theorem first_word
    {letters : List Char}
    (hstart : isWordStart c = true) (hletters : ∀ d ∈ letters, isWordChar d = true)
    (hrest : Apart rest) :
    first c (letters ++ rest) = (word (String.ofList (c :: letters)), rest) := by
  have hall : ∀ d ∈ c :: letters, isWordChar d = true :=
    List.forall_mem_cons.mpr ⟨isWordChar_of_isWordStart hstart, hletters⟩
  have hstops : ∀ d ∈ rest.head?, isWordChar d = false := fun d hd => (hrest d hd).1
  have htake := Text.takeWhile_append hall hstops
  have hdrop := Text.dropWhile_append hall hstops
  rw [List.cons_append] at htake hdrop
  simp only [first, htake, hdrop, quoted?_of_apart _ hrest, not_isDigit_of_isWordStart hstart,
    hstart, Bool.false_eq_true, if_false, if_true]
  unfold ofLetters
  split
  next more _ =>
    exact absurd rfl (hrest '#' rfl).2.2.2
  next => rfl

theorem first_text
    {value written : List Char}
    (h : Spells value written) (hrest : Apart rest) :
    first '"' ((written ++ ['"']) ++ rest) = (text (String.ofList value), rest) := by
  have hread : readPlain .text (written ++ ['"'] ++ rest) = some (value, rest) := by
    rw [List.append_assoc]
    exact readPlain_of_spells h
  have hquoted : quoted? [] ('"' :: (written ++ ['"'] ++ rest)) =
      some (ofRead (readPlain .text (written ++ ['"'] ++ rest))) := rfl
  rw [hread, ofRead, afterSuffix_of_apart hrest] at hquoted
  exact first_of_quoted rfl rfl hquoted

theorem first_rawText
    {hashes : Nat} {value : List Char}
    (h : ¬ '"' :: List.replicate hashes '#' <:+: value) (hrest : Apart rest) :
    first 'r'
        ((List.replicate hashes '#' ++ '"' :: (value ++ '"' :: List.replicate hashes '#')) ++
          rest) =
      (text (String.ofList value), rest) := by
  simp only [List.append_assoc, List.cons_append]
  generalize hraw : value ++ '"' :: (List.replicate hashes '#' ++ rest) = raw
  have hword : ∀ d ∈ ['r'], isWordChar d = true := List.all_eq_true.mp rfl
  have hletters : ∀ d ∈ (List.replicate hashes '#' ++ '"' :: raw).head?,
      isWordChar d = false := by
    cases hashes <;>
      · rintro d ⟨⟩
        rfl
  have hquoted := quoted?_rawMark hashes raw
  rw [← hraw, readRaw_eq h, ofRead, afterSuffix_of_apart hrest, hraw] at hquoted
  have htake := Text.takeWhile_append hword hletters
  have hdrop := Text.dropWhile_append hword hletters
  exact first_of_quoted htake hdrop hquoted

theorem first_sign
    (h : IsSign c) :
    first c rest = (sign c, rest) := by
  have hout := h.outside
  have hkind : isWordStart c = false ∧ c.isDigit = false := by
    rwa [isWordChar, Bool.or_eq_false_iff] at hout
  have hcolon : c ≠ ':' := fun hc => h.alone (by simp [hc])
  have htake : (c :: rest).takeWhile isWordChar = [] := List.takeWhile_cons_of_neg (by simp [hout])
  have hdrop : (c :: rest).dropWhile isWordChar = c :: rest :=
    List.dropWhile_cons_of_neg (by simp [hout])
  simp only [first, htake, hdrop, quoted?_of_isSign h, hkind, Bool.false_eq_true, if_false, hcolon,
    false_and]

/-- The first token of a text is the one that is written there. -/
theorem first_of_written
    (h : token.Written (c :: chunk)) (hrest : token.runsOn = true → Apart rest) :
    first c (chunk ++ rest) = (token, rest) := by
  cases h with
  | word hstart hletters =>
      exact first_word hstart hletters (hrest rfl)
  | text hspells =>
      exact first_text hspells (hrest rfl)
  | rawText hclose =>
      exact first_rawText hclose (hrest rfl)
  | pathSign =>
      rfl
  | sign hsign =>
      exact first_sign hsign

theorem skip_written
    (h : token.Written chunk) :
    Gap.skip .between (chunk ++ rest) = chunk ++ rest := by
  have hskip : ∀ {c : Char} {cs : List Char}, c ≠ '/' → Gap.isBlankChar c = false →
      Gap.skip .between (c :: cs) = c :: cs := by
    intro c cs hslash hblank
    rw [Gap.skip, if_neg (by simp [hblank])]
    · exact fun _ h => absurd h hslash
    · exact fun _ h => absurd h hslash
  cases h with
  | @word c letters hstart _ =>
      refine hskip ?_ (not_isBlankChar_of_isWordStart hstart)
      rintro rfl
      cases hstart
  | text => exact hskip (by simp) rfl
  | rawText => exact hskip (by simp) rfl
  | pathSign => exact hskip (by simp) rfl
  | sign hsign =>
      refine hskip ?_ hsign.visible
      rintro rfl
      exact hsign.alone (by simp)

theorem cut_of_skip_eq_nil
    (h : Gap.skip .between cs = []) :
    cut cs = [] := by
  rw [cut]
  split
  next => rfl
  next hcons =>
    rw [h] at hcons
    cases hcons

theorem cut_of_skip_eq_cons
    (h : Gap.skip .between cs = c :: rest) :
    cut cs = (first c rest).1 :: cut (first c rest).2 := by
  rw [cut]
  split
  next hnil =>
    rw [h] at hnil
    cases hnil
  next hcons =>
    rw [h] at hcons
    cases hcons
    rfl

/-- A text is cut into the tokens that it is written for. -/
theorem cut_of_writes
    (h : Writes tokens cs) :
    cut cs = tokens := by
  induction h with
  | @nil gap hgap =>
      have hskip : Gap.skip .between (gap ++ []) = Gap.skip .between [] := Gap.skip_fills hgap
      rw [List.append_nil] at hskip
      exact cut_of_skip_eq_nil hskip
  | @cons token tokens gap chunk rest hgap hwritten hrest _ ih =>
      have hskip : Gap.skip .between (gap ++ (chunk ++ rest)) = chunk ++ rest :=
        (Gap.skip_fills hgap).trans (skip_written hwritten)
      cases chunk with
      | nil => cases hwritten
      | cons c chunk =>
          rw [List.cons_append] at hskip
          rw [List.cons_append, cut_of_skip_eq_cons hskip, first_of_written hwritten hrest, ih]

theorem ofSource_of_writes
    {source : String}
    (h : Writes tokens (Text.withoutMark source.toList)) :
    ofSource source = tokens :=
  cut_of_writes h

end SourceToken

section Paths

open SourceToken

variable {words : List String} {name : String} {rest : List Char}

/-- The name is a word, without the mark of a raw identifier. -/
def IsWord (name : String) : Prop :=
  ∃ c letters, name = String.ofList (c :: letters) ∧ c ≠ '\ufeff' ∧
    isWordStart c = true ∧ ∀ d ∈ letters, isWordChar d = true

theorem IsWord.written
    (h : IsWord name) :
    (SourceToken.word name).Written name.toList := by
  obtain ⟨c, letters, rfl, _, hstart, hletters⟩ := h
  rw [String.toList_ofList]
  exact .word hstart hletters

theorem writes_intercalate
    (h : ∀ w ∈ words, IsWord w) :
    Writes ((words.map .word).intersperse .pathSign) ("::".intercalate words).toList := by
  induction words with
  | nil =>
      exact .nil .nil
  | cons w words ih =>
      obtain ⟨hw, hwords⟩ := List.forall_mem_cons.mp h
      cases words with
      | nil =>
          have hwrites := Writes.cons .nil hw.written (fun _ => apart_nil) (.nil .nil)
          simpa using hwrites
      | cons v more =>
          have hcolons : Apart ([] ++ ([':', ':'] ++ ("::".intercalate (v :: more)).toList)) :=
            apart_cons rfl (by simp)
          have hwrites := Writes.cons .nil hw.written (fun _ => hcolons)
            (.cons .nil .pathSign (fun h => nomatch h) (ih hwords))
          simpa [String.intercalate_cons_cons] using hwrites

theorem head?_intercalate
    {w : String}
    (h : IsWord w) :
    '\ufeff' ∉ ("::".intercalate (w :: words)).toList.head? := by
  obtain ⟨c, letters, rfl, hc, _⟩ := h
  cases words with
  | nil => simpa using hc
  | cons v more => simpa [String.intercalate_cons_cons] using hc

theorem filterMap_word?_intersperse
    (words : List String) :
    ((words.map .word).intersperse .pathSign).filterMap SourceToken.word? = words := by
  induction words with
  | nil =>
      rfl
  | cons w words ih =>
      cases words with
      | nil =>
          rfl
      | cons v more =>
          have hsign : SourceToken.word? .pathSign = none := rfl
          simpa [SourceToken.word?, List.filterMap_cons_none hsign] using ih

/-- Words with separators between them are the segments of the path that they write. -/
theorem Path.segments_intercalate
    (h : ∀ w ∈ words, IsWord w) :
    (Path.ofSource ("::".intercalate words)).segments = words := by
  cases words with
  | nil =>
      have htokens : SourceToken.ofSource "" = [] := ofSource_of_writes (.nil .nil)
      exact congrArg segmentsOf htokens
  | cons w words =>
      have hmark : '\ufeff' ∉ ("::".intercalate (w :: words)).toList.head? :=
        head?_intercalate (h w (List.mem_cons_self ..))
      have htokens : SourceToken.ofSource ("::".intercalate (w :: words)) =
          ((w :: words).map .word).intersperse .pathSign :=
        ofSource_of_writes (by rw [Text.withoutMark_of_head hmark]; exact writes_intercalate h)
      have hsegments : segmentsOf (((w :: words).map .word).intersperse .pathSign) =
          (((w :: words).map .word).intersperse .pathSign).filterMap SourceToken.word? := by
        cases words <;> rfl
      rw [Path.ofSource, htokens, hsegments, filterMap_word?_intersperse]

end Paths

section Options

open SourceToken WrittenOption StringLiteral

variable {written : List WrittenOption} {tokens : List SourceToken} {rest : List Char}

theorem Options.ofForm_of_source
    {source : String}
    (h : Writes (joined written) (Text.withoutMark source.toList)) :
    ofForm (.options (SourceToken.ofSource source)) = .ok (ofWritten written) := by
  rw [ofSource_of_writes h]
  exact ofForm_of_writes (.list written)

theorem isWord_name :
    IsWord "name" :=
  ⟨'n', ['a', 'm', 'e'], rfl, by simp, rfl, List.all_eq_true.mp rfl⟩

theorem isWord_nested :
    IsWord "nested" :=
  ⟨'n', ['e', 's', 't', 'e', 'd'], rfl, by simp, rfl, List.all_eq_true.mp rfl⟩

/-- An option can be written in front of what is apart from it. -/
theorem WrittenOption.exists_writes
    (w : WrittenOption) (h : Writes tokens rest) (hrest : Apart rest) :
    ∃ cs, Writes (w.tokens ++ tokens) ('n' :: cs) := by
  cases w with
  | nested =>
      exact ⟨_, .cons .nil isWord_nested.written (fun _ => hrest) h⟩
  | name value =>
      obtain ⟨inside, hinside⟩ := exists_spells value.toList
      have htext := Written.text hinside
      rw [String.ofList_toList] at htext
      have hgap : Gap.Fills [' '] := .blank rfl .nil
      have hequals : IsSign '=' := ⟨rfl, rfl, by simp⟩
      exact ⟨_, .cons .nil isWord_name.written (fun _ => apart_cons rfl (by simp))
        (.cons hgap (.sign hequals) (fun h => nomatch h) (.cons hgap htext (fun _ => hrest) h))⟩

/-- Every list of options has a source text from which it is read. -/
theorem Options.exists_source
    (written : List WrittenOption) :
    ∃ source, ofForm (.options (SourceToken.ofSource source)) = .ok (ofWritten written) := by
  have hcomma : IsSign ',' := ⟨rfl, rfl, by simp⟩
  have hwrites : ∃ cs, Writes (joined written) cs ∧ '\ufeff' ∉ cs.head? := by
    induction written with
    | nil =>
        exact ⟨[], .nil .nil, by simp⟩
    | cons w written ih =>
        obtain ⟨cs, hcs, _⟩ := ih
        cases written with
        | nil =>
            obtain ⟨cs, hcs⟩ := w.exists_writes (.nil .nil) apart_nil
            exact ⟨_, by simpa using hcs, by simp⟩
        | cons v more =>
            have hmore : Writes (.sign ',' :: joined (v :: more)) ([] ++ ([','] ++ cs)) :=
              .cons .nil (.sign hcomma) (fun h => nomatch h) hcs
            obtain ⟨cs', hcs'⟩ := w.exists_writes hmore (apart_cons rfl (by simp))
            exact ⟨_, by simpa using hcs', by simp⟩
  obtain ⟨cs, hcs, hmark⟩ := hwrites
  refine ⟨String.ofList cs, ofForm_of_source ?_⟩
  rw [String.toList_ofList, Text.withoutMark_of_head hmark]
  exact hcs

end Options
end Declaration
end ShapeQuery
