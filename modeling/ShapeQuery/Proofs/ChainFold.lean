import ShapeQuery.WhereClause

/-!
# Chains as folds

A chain joins one right-hand side after another to the whole clause so far.  Its
condition is therefore the left fold of its joins over the condition it starts with,
where a right-hand side that is a chain counts as one condition, found in the same
way.

**Handing over.**  How a right-hand side is handed over leaves no trace.  The same
tree comes out when conditions are joined by hand, each time by a method, by an
operator or by the plain constructor (`spelledOut_iff`).

**Text.**  Every join writes its combinator and the text of its right-hand side
behind the text so far, which stays as it is.
-/

namespace ShapeQuery

/-- The tree after one more join: all of it becomes the left-hand side. -/
def Condition.attach (tree : Condition) (step : Combinator × Condition) : Condition :=
  combine tree step.1 step.2

/-- The text after one more join. -/
def Condition.attachText (text : String) (step : Combinator × Condition) : String :=
  text ++ (match step.1 with
    | .and => " & "
    | .or => " | ") ++ step.2.render

theorem Condition.render_attach
    (tree : Condition) (step : Combinator × Condition) :
    (tree.attach step).render = attachText tree.render step := by
  rcases step with ⟨op, right⟩
  cases op with
  | and =>
      simp only [attach, attachText, render, String.append_assoc]
      rfl
  | or =>
      simp only [attach, attachText, render, String.append_assoc]
      rfl

theorem Condition.prefix_attachText
    (text : String) (step : Combinator × Condition) :
    text.toList <+: (attachText text step).toList := by
  rw [attachText, String.append_assoc, String.toList_append]
  exact List.prefix_append _ _

theorem Condition.map_render_scanl
    (tree : Condition) (steps : List (Combinator × Condition)) :
    (steps.scanl attach tree).map render = steps.scanl attachText tree.render := by
  induction steps generalizing tree with
  | nil =>
      rfl
  | cons step rest ih =>
      rw [List.scanl_cons, List.scanl_cons, List.map_cons, ih, render_attach]

theorem Condition.prefix_of_mem_scanl
    {text later : String} {steps : List (Combinator × Condition)}
    (h : later ∈ steps.scanl attachText text) :
    text.toList <+: later.toList := by
  induction steps generalizing text with
  | nil =>
      rw [List.scanl_nil, List.mem_singleton] at h
      subst h
      exact List.prefix_rfl
  | cons step rest ih =>
      rw [List.scanl_cons, List.mem_cons] at h
      rcases h with rfl | h
      · exact List.prefix_rfl
      · exact (prefix_attachText text step).trans (ih h)

/-- Among the texts of a clause that grows, each is a prefix of all later ones. -/
theorem Condition.pairwise_scanl_attachText
    (text : String) (steps : List (Combinator × Condition)) :
    (steps.scanl attachText text).Pairwise fun earlier later =>
      earlier.toList <+: later.toList := by
  induction steps generalizing text with
  | nil =>
      rw [List.scanl_nil]
      exact List.pairwise_singleton _ _
  | cons step rest ih =>
      rw [List.scanl_cons, List.pairwise_cons]
      refine ⟨fun later hlater => ?_, ih _⟩
      exact (prefix_attachText text step).trans (prefix_of_mem_scanl hlater)

/-- A way to write the join of two conditions. -/
inductive Spelling
  | method
  | operator
  | constructor

/-- The join of two conditions as it is spelled. -/
def Spelling.join : Spelling → Combinator → Condition → Condition → Condition
  | method, .and, left, right => left.and right
  | method, .or, left, right => left.or right
  | operator, .and, left, right => left &&& right
  | operator, .or, left, right => left ||| right
  | constructor, op, left, right => .combine left op right

theorem Spelling.join_eq_combine
    (s : Spelling) (op : Combinator) (left right : Condition) :
    s.join op left right = .combine left op right := by
  cases s <;> cases op <;> rfl

namespace Chain

/-- The condition that a chain starts with. -/
def opening : Chain → Condition
  | start c => c
  | join before _ _ => before.opening
  | joinChain before _ _ _ => before.opening

/-- The joins of a chain in order; a chain on the right counts as its own fold. -/
def joins : Chain → List (Combinator × Condition)
  | start _ => []
  | join before op right => before.joins ++ [(op, right)]
  | joinChain before op _ right =>
      before.joins ++ [(op, right.joins.foldl Condition.attach right.opening)]

/-- A tree built from the conditions of a chain by hand, each join spelled in some way. -/
inductive SpelledOut : Chain → Condition → Prop
  | start (c : Condition) :
      SpelledOut (start c) c
  | join {before : Chain} {tree : Condition} (s : Spelling) (op : Combinator) (right : Condition) :
      SpelledOut before tree →
      SpelledOut (join before op right) (s.join op tree right)
  | joinChain {before right : Chain} {tree rightTree : Condition}
      (s : Spelling) (op : Combinator) (handover : Handover) :
      SpelledOut before tree →
      SpelledOut right rightTree →
      SpelledOut (joinChain before op handover right) (s.join op tree rightTree)

theorem condition_join
    (before : Chain) (op : Combinator) (right : Condition) :
    (join before op right).condition = .combine before.condition op right := by
  cases op <;> rfl

theorem condition_joinChain
    (before : Chain) (op : Combinator) (handover : Handover) (right : Chain) :
    (joinChain before op handover right).condition =
      .combine before.condition op right.condition := by
  cases op <;> cases handover <;> rfl

theorem foldl_joins
    (c : Chain) :
    c.joins.foldl Condition.attach c.opening = c.condition := by
  induction c with
  | start c =>
      rfl
  | join before op right ih =>
      rw [joins, opening, List.foldl_append, ih, condition_join]
      rfl
  | joinChain before op handover right ihbefore ihright =>
      rw [joins, opening, List.foldl_append, ihbefore, ihright, condition_joinChain]
      rfl

theorem spelledOut_iff
    {c : Chain} {tree : Condition} :
    c.SpelledOut tree ↔ tree = c.condition := by
  constructor
  · intro h
    induction h with
    | start c =>
        rfl
    | join s op right _ ih =>
        rw [s.join_eq_combine, ih, condition_join]
    | joinChain s op handover _ _ ihbefore ihright =>
        rw [s.join_eq_combine, ihbefore, ihright, condition_joinChain]
  · rintro rfl
    induction c with
    | start c =>
        exact .start c
    | join before op right ih =>
        rw [condition_join]
        exact .join .constructor op right ih
    | joinChain before op handover right ihbefore ihright =>
        rw [condition_joinChain]
        exact .joinChain .constructor op handover ihbefore ihright

theorem trace_join
    (before : Chain) (op : Combinator) (right : Condition) :
    (join before op right).trace =
      before.trace ++ [(before.condition.attach (op, right)).render] := by
  cases op <;> rfl

theorem trace_joinChain
    (before : Chain) (op : Combinator) (handover : Handover) (right : Chain) :
    (joinChain before op handover right).trace =
      before.trace ++ [(before.condition.attach (op, right.condition)).render] := by
  cases op <;> cases handover <;> rfl

theorem trace_eq_map_render
    (c : Chain) :
    c.trace = (c.joins.scanl Condition.attach c.opening).map Condition.render := by
  induction c with
  | start c =>
      rfl
  | join before op right ih =>
      rw [trace_join, ih, joins, opening, List.scanl_append, foldl_joins, List.map_append]
      rfl
  | joinChain before op handover right ihbefore _ =>
      rw [trace_joinChain, ihbefore, joins, opening, List.scanl_append, foldl_joins,
        foldl_joins, List.map_append]
      rfl

/--
The condition of a chain is the left fold of its joins over the condition that it
starts with, and the only tree that comes out when its conditions are joined by hand,
whatever way each join is spelled in.  The texts after the start and after each join
are the text so far, the combinator between two spaces, and the whole text of the
right-hand side; the last of them is the text of the clause, and each is a prefix of
all later ones.
-/
theorem condition_eq_foldl_joins
    (c : Chain) :
    c.condition = c.joins.foldl Condition.attach c.opening ∧
    (∀ tree, c.SpelledOut tree ↔ tree = c.condition) ∧
    c.trace = c.joins.scanl Condition.attachText c.opening.render ∧
    c.trace.getLast? = some c.clause.render ∧
    c.trace.Pairwise (fun earlier later => earlier.toList <+: later.toList) := by
  have htrace : c.trace = c.joins.scanl Condition.attachText c.opening.render := by
    rw [trace_eq_map_render, Condition.map_render_scanl]
  refine ⟨c.foldl_joins.symm, fun tree => spelledOut_iff, htrace, ?_, ?_⟩
  · rw [trace_eq_map_render, List.getLast?_map, List.getLast?_scanl, foldl_joins]
    rfl
  · rw [htrace]
    exact Condition.pairwise_scanl_attachText _ _

end Chain
end ShapeQuery
