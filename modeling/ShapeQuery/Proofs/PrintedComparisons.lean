import ShapeQuery.Proofs.ConditionText
import ShapeQuery.Proofs.QueryText

/-!
# Comparisons read from a text

A reader of texts that knows nothing of queries.  It cuts a text at its terminators and
each piece at its spaces; the pieces that begin with the keyword of a condition are read
as comparisons, three words each, and nothing but a conjunction is read.

**What is read.**  From the text of a query without a terminator inside its clauses, the
reader gets the words of the condition (`conditionWords_render`).  If the condition is a
conjunction of plain comparisons with single values, it gets these comparisons, whatever
their grouping (`comparisons?_render`).
-/

namespace ShapeQuery

section Pieces

variable {mark : Char} {separator : String}

/-- The pieces of a text between the marks in it. -/
def pieces (mark : Char) (text : String) : List String :=
  (text.toList.splitOn mark).map String.ofList

theorem pieces_append_mark {front : String}
    (hseparator : separator.toList = [mark])
    (hfront : mark ∉ front.toList)
    (rest : String) :
    pieces mark (front ++ separator ++ rest) = front :: pieces mark rest := by
  have hchars : (front ++ separator ++ rest).toList =
      front.toList ++ mark :: rest.toList := by
    simp [hseparator]
  rw [pieces, hchars, List.splitOn_append_cons_self_of_not_mem hfront]
  simp [pieces]

theorem pieces_intercalate {texts : List String}
    (hseparator : separator.toList = [mark])
    (hne : texts ≠ [])
    (htexts : ∀ text ∈ texts, mark ∉ text.toList) :
    pieces mark (separator.intercalate texts) = texts := by
  rw [pieces, String.toList_intercalate, hseparator,
    List.splitOn_intercalate mark (List.forall_mem_map.mpr htexts) (by simpa using hne)]
  simp

end Pieces

/-- The words behind the keyword of a condition, for each condition in a text. -/
def conditionWords (text : String) : List (List String) :=
  (((pieces ';' text).map (pieces ' ')).filter (·.head? = some "where")).map List.tail

/-- A comparison as it stands in a text. -/
structure PrintedComparison where
  field : String
  token : String
  operand : String
  deriving DecidableEq

namespace PrintedComparison

/-- The comparisons in a conjunction, three words each. -/
def ofWords? : List String → Option (List PrintedComparison)
  | [field, token, operand] => some [⟨field, token, operand⟩]
  | field :: token :: operand :: "&" :: rest =>
      (ofWords? rest).map (⟨field, token, operand⟩ :: ·)
  | _ => none

/-- A comparison with an integer holds for an integer. -/
def Admits (p : PrintedComparison) (n : Int) : Prop :=
  match p.token, p.operand.toInt? with
  | "=", some bound => n = bound
  | "!=", some bound => n ≠ bound
  | ">", some bound => bound < n
  | ">=", some bound => bound ≤ n
  | "<", some bound => n < bound
  | "<=", some bound => n ≤ bound
  | _, _ => False

/-- How a predicate is printed. -/
def ofPredicate (p : Predicate) : PrintedComparison :=
  ⟨p.field, p.operator.token, p.operand.render p.operator⟩

end PrintedComparison

/-- The comparisons of the one condition in a text, if that is a conjunction. -/
def comparisons? (text : String) : Option (List PrintedComparison) :=
  match conditionWords text with
  | [words] => PrintedComparison.ofWords? words
  | _ => none

namespace Clause

theorem terminator_notMem_keyword
    (c : Clause) :
    ';' ∉ c.keyword.toList := by
  cases c <;> simp [keyword, Token.search, Token.fields, Token.exclude, Token.filter,
    Token.offset, Token.limit, Token.sort]

theorem pieces_join {cs : List Clause}
    (hcs : ∀ c ∈ cs, ';' ∉ c.value.toList) :
    pieces ';' (String.join (cs.map render)) =
      cs.map (fun c => c.keyword ++ " " ++ c.value) ++ [""] := by
  induction cs with
  | nil =>
      rfl
  | cons c cs ih =>
      rw [List.forall_mem_cons] at hcs
      have hfront : ';' ∉ (c.keyword ++ " " ++ c.value).toList := by
        simpa using ⟨c.terminator_notMem_keyword, hcs.1⟩
      rw [List.map_cons, String.join_cons, render, pieces_append_mark rfl hfront, ih hcs.2]
      rfl

theorem pieces_keyword_value
    (c : Clause) :
    pieces ' ' (c.keyword ++ " " ++ c.value) = c.keyword :: pieces ' ' c.value :=
  pieces_append_mark rfl c.space_notMem_keyword c.value

theorem keyword_eq_iff
    {c : Clause} :
    c.keyword = "where" ↔ c.kind = .filter := by
  cases c <;> simp [keyword, kind, Token.search, Token.fields, Token.exclude, Token.filter,
    Token.offset, Token.limit, Token.sort]

end Clause

namespace Query

variable {q : Query}

/-- The clauses of a kind are what the slot of the kind holds. -/
theorem filter_kind_clauses
    (q : Query) (k : ClauseKind) :
    q.clauses.filter (·.kind = k) = (q.held k).toList := by
  have hkind : ∀ k', (q.held k').filter (·.kind = k) = if k' = k then q.held k else none := by
    intro k'
    rcases eq_or_ne k' k with rfl | hne
    · rw [if_pos rfl]
      cases h : q.held k' with
      | none => rfl
      | some c => simp [kind_of_held h]
    · rw [if_neg hne, Option.filter_eq_none_iff]
      intro c hc
      simpa [kind_of_held hc] using hne
  rw [clauses_eq_filterMap_held, List.filter_filterMap]
  simp only [hkind]
  generalize q.held k = held
  cases k <;> cases held <;> rfl

/-- The conditions that are read from the text of a query are the one it has, or none. -/
theorem conditionWords_render
    (hq : ∀ c ∈ q.clauses, ';' ∉ c.value.toList) :
    conditionWords q.render = q.condition.toList.map (pieces ' ') := by
  have hlast : pieces ' ' "" = [""] := by
    rfl
  rw [conditionWords, render, Clause.pieces_join hq]
  simp only [List.map_append, List.map_map, List.filter_append, List.filter_map,
    Function.comp_def, Clause.pieces_keyword_value, List.head?_cons, Option.some.injEq,
    Clause.keyword_eq_iff, filter_kind_clauses, held]
  cases q.condition <;> simp [hlast, Clause.value]

end Query

/-- A comparison with a single value has three words. -/
theorem Predicate.words_of_value {p : Predicate}
    (hvalue : p.operand.isList = false) :
    p.words = [p.field, p.operator.token, p.operand.render p.operator] := by
  obtain ⟨field, op, o⟩ := p
  cases o with
  | value text => rfl
  | list texts => cases hvalue

namespace PrintedComparison

/-- The steps of a conjunction are read one after another. -/
theorem ofWords?_steps
    {steps : List (Combinator × Predicate)}
    (hands : ∀ step ∈ steps, step.1 = .and)
    (hvalues : ∀ step ∈ steps, step.2.operand.isList = false)
    (p : Predicate) (hvalue : p.operand.isList = false) :
    ofWords? (p.words ++ steps.flatMap Condition.stepWords) =
      some (ofPredicate p :: steps.map (ofPredicate ·.2)) := by
  induction steps generalizing p with
  | nil =>
      simp [Predicate.words_of_value hvalue, ofWords?, ofPredicate]
  | cons step steps ih =>
      obtain ⟨op, next⟩ := step
      rw [List.forall_mem_cons] at hands hvalues
      obtain rfl : op = .and := hands.1
      have hrest := ih hands.2 hvalues.2 next hvalues.1
      simp [Predicate.words_of_value hvalue, Condition.stepWords, Combinator.token, ofWords?,
        hrest, ofPredicate]

end PrintedComparison

namespace Condition

variable {c d : Condition}

/-- The words of a plain condition are read back from its text. -/
theorem pieces_render
    (hc : ∀ p ∈ c.predicates, p.Plain) :
    pieces ' ' c.render = c.words := by
  rw [render_eq_intercalate]
  exact pieces_intercalate rfl c.words_ne_nil (space_notMem_words hc)

/-- A conjunction of comparisons with single values, all of which can be read back. -/
structure Conjunction (c : Condition) : Prop where
  plain : ∀ p ∈ c.predicates, p.Plain
  value : ∀ p ∈ c.predicates, p.operand.isList = false
  joined : ∀ op ∈ c.combinators, op = .and

theorem Conjunction.leaf {p : Predicate}
    (hp : p.Plain)
    (hvalue : p.operand.isList = false) :
    Conjunction (.leaf p) :=
  ⟨by simpa [predicates] using hp, by simpa [predicates] using hvalue, by simp [combinators]⟩

theorem Conjunction.and
    (hc : c.Conjunction) (hd : d.Conjunction) :
    (c.and d).Conjunction where
  plain := List.forall_mem_append.mpr ⟨hc.plain, hd.plain⟩
  value := List.forall_mem_append.mpr ⟨hc.value, hd.value⟩
  joined := List.forall_mem_append.mpr ⟨hc.joined, List.forall_mem_cons.mpr ⟨rfl, hd.joined⟩⟩

theorem Conjunction.ofWords?_pieces
    (hc : c.Conjunction) :
    PrintedComparison.ofWords? (pieces ' ' c.render) = some (c.predicates.map .ofPredicate) := by
  have hvalue := hc.value
  have hjoined := hc.joined
  rw [predicates_eq_first_steps, List.forall_mem_cons, List.forall_mem_map] at hvalue
  rw [combinators_eq_steps, List.forall_mem_map] at hjoined
  rw [pieces_render hc.plain, words, PrintedComparison.ofWords?_steps hjoined hvalue.2 _ hvalue.1,
    predicates_eq_first_steps, List.map_cons, List.map_map]
  rfl

end Condition

/-- The comparisons that are read from the text of a query are those it filters by. -/
theorem Query.comparisons?_render {q : Query} {c : Condition}
    (hq : ∀ c ∈ q.clauses, ';' ∉ c.value.toList)
    (hcondition : q.condition = some c.render)
    (hc : c.Conjunction) :
    comparisons? q.render = some (c.predicates.map .ofPredicate) := by
  rw [comparisons?, q.conditionWords_render hq, hcondition]
  exact hc.ofWords?_pieces

example : comparisons? "fields id;where rating != null & first_release_date > -5;limit 3;" =
    some [⟨"rating", "!=", "null"⟩, ⟨"first_release_date", ">", "-5"⟩] := by
  decide

/-- A disjunction is not read, since its comparisons need not hold together. -/
example : comparisons? "where rating != null | first_release_date > -5;" = none := by
  decide

end ShapeQuery
