import ShapeQuery.Proofs.InOrder
import ShapeQuery.Proofs.OperandWords

/-!
# The text of a condition

A condition is written as a sequence of words with a space between each two: for a
predicate its field, its token and the words of its operand, and between two
predicates the token of their combinator.  No word of a plain predicate has a space,
so a text determines its words; and the words of a plain predicate end by
themselves, so they determine the in-order reading of the condition, which is all
that the text can tell of it.
-/

namespace ShapeQuery

/-- Words without a space are told by their text. -/
theorem eq_of_intercalate_space {ws ws' : List String}
    (hne : ws ≠ [])
    (hne' : ws' ≠ [])
    (hws : ∀ w ∈ ws, ' ' ∉ w.toList)
    (hws' : ∀ w ∈ ws', ' ' ∉ w.toList)
    (h : " ".intercalate ws = " ".intercalate ws') :
    ws = ws' := by
  have hsplit : ∀ vs : List String, vs ≠ [] → (∀ v ∈ vs, ' ' ∉ v.toList) →
      (" ".intercalate vs).toList.splitOn ' ' = vs.map String.toList := by
    intro vs hvs hspace
    rw [String.toList_intercalate]
    exact List.splitOn_intercalate ' ' (List.forall_mem_map.mpr hspace) (by simpa using hvs)
  have hmap : ws.map String.toList = ws'.map String.toList := by
    rw [← hsplit ws hne hws, ← hsplit ws' hne' hws', h]
  exact (List.map_inj_right fun _ _ => String.toList_inj.mp).mp hmap

namespace Predicate

def words (p : Predicate) : List String :=
  p.field :: p.operator.token :: p.operand.words p.operator

/-- Predicates whose text can be read back. -/
structure Plain (p : Predicate) : Prop where
  wellPaired : p.WellPaired
  field : ' ' ∉ p.field.toList
  operand : p.operand.Plain

instance (p : Predicate) : Decidable p.Plain :=
  decidable_of_iff (p.WellPaired ∧ ' ' ∉ p.field.toList ∧ p.operand.Plain)
    ⟨fun h => ⟨h.1, h.2.1, h.2.2⟩, fun h => ⟨h.1, h.2, h.3⟩⟩

variable {p q : Predicate} {r r' : List String}

theorem words_ne_nil
    (p : Predicate) :
    p.words ≠ [] := by
  simp [words]

theorem render_eq_intercalate
    (p : Predicate) :
    p.render = " ".intercalate p.words := by
  rw [words, String.intercalate_cons_cons,
    String.intercalate_cons_of_ne_nil (Operand.words_ne_nil _ _),
    ← Operand.render_eq_intercalate, render]
  simp [String.append_assoc]

theorem space_notMem_words
    (hp : p.Plain) :
    ∀ w ∈ p.words, ' ' ∉ w.toList := by
  simp only [words, List.forall_mem_cons]
  exact ⟨hp.field, p.operator.space_notMem_token, Operand.space_notMem_words hp.operand⟩

/-- The words of a plain predicate end by themselves. -/
theorem words_append_cancel
    (hp : p.Plain)
    (hq : q.Plain)
    (h : p.words ++ r = q.words ++ r') :
    p = q ∧ r = r' := by
  obtain ⟨field, op, o⟩ := p
  obtain ⟨field', op', o'⟩ := q
  have hpair : o.isList = op.isList := hp.wellPaired
  have hpair' : o'.isList = op'.isList := hq.wellPaired
  simp only [words, List.cons_append, List.cons.injEq] at h
  obtain ⟨hfield, htoken, hwords⟩ := h
  cases o with
  | value text =>
      cases o' with
      | value text' =>
          have hop := Operator.eq_of_token hpair.symm hpair'.symm htoken
          simp only [Operand.words, List.cons_append, List.nil_append, List.cons.injEq] at hwords
          rw [hfield, hop, hwords.1]
          exact ⟨rfl, hwords.2⟩
      | list texts' =>
          exact absurd hwords (Operand.words_value_ne_words_list hp.operand hpair'.symm)
  | list texts =>
      cases o' with
      | value text' =>
          exact absurd hwords.symm (Operand.words_value_ne_words_list hq.operand hpair.symm)
      | list texts' =>
          have hop := Operand.operator_eq_of_words_list hpair.symm hpair'.symm hwords
          subst hop
          obtain ⟨htexts, hr⟩ := Operand.words_list_append_cancel hp.operand hq.operand hwords
          rw [hfield, htexts]
          exact ⟨rfl, hr⟩

theorem eq_of_render
    (hp : p.Plain)
    (hq : q.Plain)
    (h : p.render = q.render) :
    p = q := by
  rw [render_eq_intercalate, render_eq_intercalate] at h
  have hwords := eq_of_intercalate_space p.words_ne_nil q.words_ne_nil
    (space_notMem_words hp) (space_notMem_words hq) h
  exact (words_append_cancel hp hq (congrArg (· ++ []) hwords)).1

end Predicate

namespace Condition

/-- The words of a combinator and the predicate after it. -/
def stepWords (step : Combinator × Predicate) : List String :=
  step.1.token :: step.2.words

def words (c : Condition) : List String :=
  c.first.words ++ c.steps.flatMap stepWords

variable {c d : Condition} {xs ys : List (Combinator × Predicate)}

theorem words_combine
    (left right : Condition) (op : Combinator) :
    (combine left op right).words = left.words ++ op.token :: right.words := by
  simp [words, first, steps, stepWords]

theorem words_ne_nil
    (c : Condition) :
    c.words ≠ [] := by
  simp [words, Predicate.words_ne_nil]

/-- The text of a condition is its words with a space between each two. -/
theorem render_eq_intercalate
    (c : Condition) :
    c.render = " ".intercalate c.words := by
  induction c with
  | leaf p =>
      simp [render, words, first, steps, Predicate.render_eq_intercalate]
  | combine left op right ihl ihr =>
      rw [words_combine,
        String.intercalate_append_of_ne_nil left.words_ne_nil (List.cons_ne_nil _ _),
        String.intercalate_cons_of_ne_nil right.words_ne_nil,
        ← ihl, ← ihr, render]
      simp [String.append_assoc]

theorem plain_first_steps
    (hc : ∀ p ∈ c.predicates, p.Plain) :
    c.first.Plain ∧ ∀ step ∈ c.steps, step.2.Plain := by
  rw [predicates_eq_first_steps, List.forall_mem_cons, List.forall_mem_map] at hc
  exact hc

theorem space_notMem_words
    (hc : ∀ p ∈ c.predicates, p.Plain) :
    ∀ w ∈ c.words, ' ' ∉ w.toList := by
  obtain ⟨hfirst, hsteps⟩ := plain_first_steps hc
  simp only [words, List.forall_mem_append, List.forall_mem_flatMap, stepWords,
    List.forall_mem_cons]
  refine ⟨Predicate.space_notMem_words hfirst, fun step hstep => ?_⟩
  exact ⟨step.1.space_notMem_token, Predicate.space_notMem_words (hsteps step hstep)⟩

/-- The words of plain steps determine the steps. -/
theorem steps_eq_of_words
    (hxs : ∀ step ∈ xs, step.2.Plain)
    (hys : ∀ step ∈ ys, step.2.Plain)
    (h : xs.flatMap stepWords = ys.flatMap stepWords) :
    xs = ys := by
  induction xs generalizing ys with
  | nil =>
      cases ys with
      | nil =>
          rfl
      | cons y ys =>
          simp [stepWords] at h
  | cons x xs ih =>
      cases ys with
      | nil =>
          simp [stepWords] at h
      | cons y ys =>
          rw [List.forall_mem_cons] at hxs hys
          simp only [List.flatMap_cons, stepWords, List.cons_append, List.cons.injEq] at h
          obtain ⟨hp, hrest⟩ := Predicate.words_append_cancel hxs.1 hys.1 h.2
          have hstep : x = y := Prod.ext (Combinator.eq_of_token h.1) hp
          rw [hstep, ih hxs.2 hys.2 hrest]

/-- The text of a plain condition tells everything about it but its grouping. -/
theorem render_eq_render_iff
    (hc : ∀ p ∈ c.predicates, p.Plain)
    (hd : ∀ p ∈ d.predicates, p.Plain) :
    c.render = d.render ↔
      c.predicates = d.predicates ∧ c.combinators = d.combinators := by
  rw [views_eq_iff]
  constructor
  · intro h
    rw [render_eq_intercalate, render_eq_intercalate] at h
    have hwords : c.words = d.words :=
      eq_of_intercalate_space c.words_ne_nil d.words_ne_nil
        (space_notMem_words hc) (space_notMem_words hd) h
    obtain ⟨hfirst, hsteps⟩ := plain_first_steps hc
    obtain ⟨hfirst', hsteps'⟩ := plain_first_steps hd
    obtain ⟨heq, hrest⟩ := Predicate.words_append_cancel hfirst hfirst' hwords
    exact ⟨heq, steps_eq_of_words hsteps hsteps' hrest⟩
  · rintro ⟨hfirst, hsteps⟩
    rw [render_eq_intercalate, render_eq_intercalate, words, words, hfirst, hsteps]

/-- Two groupings of three predicates, an operand of which is written as a combinator is. -/
theorem render_eq_render_iff_regrouped :
    let name := leaf ⟨"name", .equal, .value "&"⟩
    let tags := leaf ⟨"tags", .containsAnyOf, .list []⟩
    let platforms := leaf ⟨"platforms", .containsAllOf, .list ["6", "48"]⟩
    let c := (name &&& tags) ||| platforms
    let d := name &&& (tags ||| platforms)
    (∀ p ∈ c.predicates, p.Plain) ∧ (∀ p ∈ d.predicates, p.Plain) ∧
      c ≠ d ∧ c.render = d.render := by
  intro name tags platforms c d
  have hc : ∀ p ∈ c.predicates, p.Plain := by decide
  have hd : ∀ p ∈ d.predicates, p.Plain := by decide
  have htext := (render_eq_render_iff hc hd).mpr ⟨by decide, by decide⟩
  exact ⟨hc, hd, by decide, htext⟩

end Condition
end ShapeQuery
