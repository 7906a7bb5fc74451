import ShapeQuery.Comparison

/-!
# Conditions built from comparisons

The types allow a predicate to have any operator with any operand.  The named comparisons
pair them properly, and joins only put conditions together; so whatever is built with
these means has well-paired predicates all over.

**Comparisons.**  Each of the fifteen comparisons has one operator and one operand.  The
four ways of entering it make the same predicate of them (`Comparison.enter_eq_leaf`).

**Building.**  `Condition.BuiltFrom` relates a condition to the comparisons that it was
built from, in their order, over all joins of conditions and of clauses.

**Lists.**  The values of a list stand in their order between the brackets of the operator,
behind the token of equality (`Predicate.render_of_brackets`).
-/

namespace ShapeQuery

/-- The brackets that a list operator has around its values. -/
inductive Operator.Brackets : Operator → String → String → Prop
  | containsAllOf : Brackets .containsAllOf "[" "]"
  | doesNotContainAllOf : Brackets .doesNotContainAllOf "![" "]"
  | containsAnyOf : Brackets .containsAnyOf "(" ")"
  | doesNotContainAnyOf : Brackets .doesNotContainAnyOf "!(" ")"
  | containsExclusivelyAllOf : Brackets .containsExclusivelyAllOf "\x7b" "\x7d"

theorem Operator.isList_iff_brackets
    {op : Operator} :
    op.isList = true ↔ ∃ opening closing, op.Brackets opening closing := by
  constructor
  · intro h
    cases op with
    | containsAllOf => exact ⟨_, _, .containsAllOf⟩
    | doesNotContainAllOf => exact ⟨_, _, .doesNotContainAllOf⟩
    | containsAnyOf => exact ⟨_, _, .containsAnyOf⟩
    | doesNotContainAnyOf => exact ⟨_, _, .doesNotContainAnyOf⟩
    | containsExclusivelyAllOf => exact ⟨_, _, .containsExclusivelyAllOf⟩
    | _ => cases h
  · rintro ⟨_, _, h⟩
    cases h <;> rfl

theorem Operand.isList_iff
    {o : Operand} :
    o.isList = true ↔ ∃ texts, o = .list texts := by
  cases o <;> simp [isList]

namespace Predicate

variable {p : Predicate}

/-- The text of a list predicate, by the brackets of its operator. -/
theorem render_of_brackets
    {texts : List String} {opening closing : String}
    (hoperand : p.operand = .list texts)
    (hbrackets : p.operator.Brackets opening closing) :
    p.render = p.field ++ " = " ++ opening ++ ", ".intercalate texts ++ closing := by
  rcases p with ⟨field, op, o⟩
  obtain rfl := hoperand
  have hassoc : field ++ " = " = field ++ " " ++ "=" ++ " " := by
    simp [String.append_assoc]
  rw [hassoc]
  cases hbrackets <;> simp only [render, Operand.render, String.append_assoc] <;> rfl

/-- A well-paired predicate with a list operator has a list, and stands for it in brackets. -/
theorem WellPaired.exists_brackets
    (hp : p.WellPaired) (hlist : p.operator.isList = true) :
    ∃ texts opening closing,
      p.operand = .list texts ∧
      p.operator.Brackets opening closing ∧
      p.render = p.field ++ " = " ++ opening ++ ", ".intercalate texts ++ closing := by
  obtain ⟨texts, htexts⟩ := Operand.isList_iff.mp (hp.trans hlist)
  obtain ⟨opening, closing, hbrackets⟩ := Operator.isList_iff_brackets.mp hlist
  exact ⟨texts, opening, closing, htexts, hbrackets, render_of_brackets htexts hbrackets⟩

end Predicate

namespace Comparison

/-- The operator of a comparison. -/
def operator : Comparison → Operator
  | isTrue => .equal
  | isFalse => .equal
  | isNull => .equal
  | isNotNull => .notEqual
  | isEqual _ => .equal
  | isNotEqual _ => .notEqual
  | isLargerThan _ => .largerThan
  | isLargerThanOrEqualTo _ => .largerThanOrEqual
  | isSmallerThan _ => .smallerThan
  | isSmallerThanOrEqualTo _ => .smallerThanOrEqual
  | containsAllOf _ => .containsAllOf
  | doesNotContainAllOf _ => .doesNotContainAllOf
  | containsAnyOf _ => .containsAnyOf
  | doesNotContainAnyOf _ => .doesNotContainAnyOf
  | containsExclusivelyAllOf _ => .containsExclusivelyAllOf

/-- What a comparison compares with: a word, a value, or values in their order. -/
def operand : Comparison → Operand
  | isTrue => .value "true"
  | isFalse => .value "false"
  | isNull => .value "null"
  | isNotNull => .value "null"
  | isEqual v => .value v.render
  | isNotEqual v => .value v.render
  | isLargerThan v => .value v.render
  | isLargerThanOrEqualTo v => .value v.render
  | isSmallerThan v => .value v.render
  | isSmallerThanOrEqualTo v => .value v.render
  | containsAllOf vs => .list (vs.map Value.render)
  | doesNotContainAllOf vs => .list (vs.map Value.render)
  | containsAnyOf vs => .list (vs.map Value.render)
  | doesNotContainAnyOf vs => .list (vs.map Value.render)
  | containsExclusivelyAllOf vs => .list (vs.map Value.render)

/-- The predicate that a comparison makes on a named field. -/
def predicate (name : String) (c : Comparison) : Predicate :=
  ⟨name, c.operator, c.operand⟩

theorem wellPaired_predicate
    (name : String) (c : Comparison) :
    (c.predicate name).WellPaired := by
  cases c <;> rfl

theorem onField_eq_leaf
    (f : FieldRef) (c : Comparison) :
    c.onField f = .leaf (c.predicate f.name) := by
  cases c <;> rfl

theorem onName_eq_leaf
    {α : Type} [NamesField α]
    (name : α) (c : Comparison) :
    c.onName name = .leaf (c.predicate (NamesField.field name).name) := by
  cases c <;> rfl

theorem condition_begin
    (start : ClauseStart) (f : FieldRef) (c : Comparison) :
    (c.begin start f).condition = .leaf (c.predicate f.name) := by
  cases c <;> rfl

/-- However a comparison is entered, it makes the same predicate. -/
theorem enter_eq_leaf
    (name : String) (c : Comparison) (e : Entry) :
    c.enter name e = .leaf (c.predicate name) := by
  cases e with
  | slice =>
      rw [enter, onName_eq_leaf, NamesField.field_slice, String.copy_toSlice]
  | text =>
      exact onName_eq_leaf _ c
  | field =>
      exact onField_eq_leaf _ c
  | clause =>
      exact condition_begin _ _ c

end Comparison

namespace Condition

/-- A condition is built from comparisons on named fields, which are listed in their order. -/
inductive BuiltFrom : List (String × Comparison) → Condition → Prop
  | enter (name : String) (c : Comparison) (e : Comparison.Entry) :
      BuiltFrom [(name, c)] (c.enter name e)
  | and {xs ys : List (String × Comparison)} {left right : Condition} :
      BuiltFrom xs left → BuiltFrom ys right → BuiltFrom (xs ++ ys) (left.and right)
  | or {xs ys : List (String × Comparison)} {left right : Condition} :
      BuiltFrom xs left → BuiltFrom ys right → BuiltFrom (xs ++ ys) (left.or right)
  | combine {xs ys : List (String × Comparison)} {left right : Condition} (op : Combinator) :
      BuiltFrom xs left → BuiltFrom ys right → BuiltFrom (xs ++ ys) (combine left op right)
  | andOperator {xs ys : List (String × Comparison)} {left right : Condition} :
      BuiltFrom xs left → BuiltFrom ys right → BuiltFrom (xs ++ ys) (left &&& right)
  | orOperator {xs ys : List (String × Comparison)} {left right : Condition} :
      BuiltFrom xs left → BuiltFrom ys right → BuiltFrom (xs ++ ys) (left ||| right)
  /-- A clause that is begun with a condition. -/
  | begin {xs : List (String × Comparison)} {c : Condition} (start : ClauseStart) :
      BuiltFrom xs c → BuiltFrom xs (start.condition c).condition
  /-- The right-hand side is a condition, a clause, or a function that builds one. -/
  | clauseAnd {xs ys : List (String × Comparison)} {w : WhereClause} {α : Type} [ToCondition α]
      {right : α} :
      BuiltFrom xs w.condition → BuiltFrom ys (toCondition right) →
      BuiltFrom (xs ++ ys) (w.and right).condition
  | clauseOr {xs ys : List (String × Comparison)} {w : WhereClause} {α : Type} [ToCondition α]
      {right : α} :
      BuiltFrom xs w.condition → BuiltFrom ys (toCondition right) →
      BuiltFrom (xs ++ ys) (w.or right).condition
  | andWith {xs ys : List (String × Comparison)} {w : WhereClause}
      {build : ClauseStart → WhereClause} :
      BuiltFrom xs w.condition → BuiltFrom ys (build {}).condition →
      BuiltFrom (xs ++ ys) (w.andWith build).condition
  | orWith {xs ys : List (String × Comparison)} {w : WhereClause}
      {build : ClauseStart → WhereClause} :
      BuiltFrom xs w.condition → BuiltFrom ys (build {}).condition →
      BuiltFrom (xs ++ ys) (w.orWith build).condition

variable {c : Condition} {leaves : List (String × Comparison)}

/-- The predicates of a join are those of its two sides. -/
theorem predicates_combine_of_map
    {xs ys : List (String × Comparison)} {left right : Condition}
    (op : Combinator)
    (hleft : left.predicates = xs.map fun leaf => leaf.2.predicate leaf.1)
    (hright : right.predicates = ys.map fun leaf => leaf.2.predicate leaf.1) :
    (combine left op right).predicates = (xs ++ ys).map fun leaf => leaf.2.predicate leaf.1 := by
  rw [predicates, hleft, hright, List.map_append]

/-- The predicates of a condition are those of the comparisons that it is built from. -/
theorem BuiltFrom.predicates_eq
    (h : BuiltFrom leaves c) :
    c.predicates = leaves.map fun leaf => leaf.2.predicate leaf.1 := by
  induction h with
  | enter name c e =>
      rw [Comparison.enter_eq_leaf]
      rfl
  | begin _ _ ih =>
      exact ih
  | combine op _ _ ihl ihr =>
      exact predicates_combine_of_map op ihl ihr
  | and _ _ ihl ihr | andOperator _ _ ihl ihr | clauseAnd _ _ ihl ihr | andWith _ _ ihl ihr =>
      exact predicates_combine_of_map .and ihl ihr
  | or _ _ ihl ihr | orOperator _ _ ihl ihr | clauseOr _ _ ihl ihr | orWith _ _ ihl ihr =>
      exact predicates_combine_of_map .or ihl ihr

/--
A condition that is built from comparisons has their predicates in their order, and each
of them has a list iff its operator is a list operator.  Such a predicate is written as
its field, the token of equality, and its texts in their order between the brackets of the
operator.  A comparison makes the same condition in whichever way it is entered.
-/
theorem builtFrom_wellPaired
    (h : BuiltFrom leaves c) :
    c.predicates = leaves.map (fun leaf => leaf.2.predicate leaf.1) ∧
    (∀ p ∈ c.predicates,
      p.WellPaired ∧
      (p.operator.isList = true →
        ∃ texts opening closing,
          p.operand = .list texts ∧
          p.operator.Brackets opening closing ∧
          p.render = p.field ++ " = " ++ opening ++ ", ".intercalate texts ++ closing)) ∧
    ∀ name (comparison : Comparison) e e',
      comparison.enter name e = comparison.enter name e' := by
  refine ⟨h.predicates_eq, fun p hp => ?_, fun name comparison e e' => ?_⟩
  · rw [h.predicates_eq] at hp
    obtain ⟨⟨name, comparison⟩, _, rfl⟩ := List.mem_map.mp hp
    have hpaired := comparison.wellPaired_predicate name
    exact ⟨hpaired, hpaired.exists_brackets⟩
  · rw [Comparison.enter_eq_leaf, Comparison.enter_eq_leaf]

/-- A clause begun by a comparison, joined with a closure of two list comparisons. -/
theorem builtFrom_wellPaired_closure :
    let genres := Comparison.containsExclusivelyAllOf [.integer 20, .text "a, b"]
    let build : ClauseStart → WhereClause := fun w =>
      (w.containsExclusivelyAllOf "genres" [.integer 20, .text "a, b"]).or
        (FieldRef.doesNotContainAnyOf "tags" [])
    let clause := (({} : ClauseStart).isTrue "isLiked").andWith build
    BuiltFrom [("isLiked", .isTrue), ("genres", genres), ("tags", .doesNotContainAnyOf [])]
      clause.condition ∧
    (∀ p ∈ clause.condition.predicates, p.WellPaired) ∧
    clause.render = "isLiked = true & genres = \x7b20, a, b\x7d | tags = !()" := by
  intro genres build clause
  have hliked : BuiltFrom [("isLiked", .isTrue)] (({} : ClauseStart).isTrue "isLiked").condition :=
    .enter "isLiked" .isTrue .clause
  have hbuild : BuiltFrom [("genres", genres), ("tags", .doesNotContainAnyOf [])]
      (build {}).condition :=
    .clauseOr (.enter "genres" genres .clause) (.enter "tags" (.doesNotContainAnyOf []) .text)
  have hclause := hliked.andWith hbuild
  obtain ⟨_, hpaired, _⟩ := builtFrom_wellPaired hclause
  exact ⟨hclause, fun p hp => (hpaired p hp).1, rfl⟩

end Condition
end ShapeQuery
