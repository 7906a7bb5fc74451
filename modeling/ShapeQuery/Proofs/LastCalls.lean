import ShapeQuery.Proofs.CacheTransparency
import ShapeQuery.Proofs.ClauseSlots
import ShapeQuery.Query.Call

/-!
# The last call of each kind

What a query holds after any calls is, for each kind of clause, what the last call
of that kind has set.  Calls that fail set nothing, and the registry that the calls
share has no part in what they set.

**Steps.**  A call fills the slot of its clause and leaves the other slots, and it
leaves the registry sound (`query_call`, `sound_call`).

**Runs.**  By induction on the calls, each slot holds the last clause of its kind
that was set, or what it held at the beginning (`held_run`).
-/

namespace ShapeQuery

variable {ι : Type} [DecidableEq ι]

/-- The clause that a call sets, unless it fails. -/
def QueryCall.clause? (t : ShapeTable ι) : QueryCall ι → Option Clause
  | .search term => some (.search term)
  | .select fields => some (.fields (.list fields))
  | .selectFields fields => some (.fields (.list (Token.fieldSeparator.intercalate fields)))
  | .selectAll => some (.fields .all)
  | .selectShape i =>
      (Registry.empty.fieldList t i).1.toOption.map fun fields => .fields (.list fields)
  | .selectShapeWith r i =>
      (r.fieldList t i).1.toOption.map fun fields => .fields (.list fields)
  | .exclude fields => some (.exclude fields)
  | .excludeFields fields => some (.exclude (Token.fieldSeparator.intercalate fields))
  | .filter chain => some (.filter chain.condition.render)
  | .filterCondition c => some (.filter c.render)
  | .offset n => some (.offset n)
  | .limit n => some (.limit n)
  | .sort field direction => some (.sort ⟨field, direction⟩)
  | .sortAscending field => some (.sort ⟨field, .ascending⟩)
  | .sortDescending field => some (.sort ⟨field, .descending⟩)

/-- The clause that the last call of a kind sets; calls that fail are passed over. -/
def QueryCall.lastOf (t : ShapeTable ι) (k : ClauseKind) (calls : List (QueryCall ι)) :
    Option Clause :=
  ((calls.filterMap (QueryCall.clause? t)).filter fun c => c.kind = k).getLast?

theorem QueryCall.lastOf_cons
    (t : ShapeTable ι) (k : ClauseKind) (call : QueryCall ι) (calls : List (QueryCall ι)) :
    lastOf t k (call :: calls) = (lastOf t k calls).or (lastOf t k [call]) := by
  unfold lastOf
  rw [← List.singleton_append, List.filterMap_append, List.filter_append, List.getLast?_append]

variable {t : ShapeTable ι}

namespace QuerySession

variable {s : QuerySession ι}

theorem call_selectShape
    (t : ShapeTable ι) (s : QuerySession ι) (i : ι) :
    (s.call t (.selectShape i)).2 =
      ⟨((s.registry.fieldList t i).1.toOption.map s.query.select).getD s.query,
        (s.registry.fieldList t i).2⟩ := by
  rw [call, Query.selectShape]
  rcases s.registry.fieldList t i with ⟨e | fields, registry⟩
  · rfl
  · rfl

theorem call_selectShapeWith
    (t : ShapeTable ι) (s : QuerySession ι) (r : Registry ι) (i : ι) :
    (s.call t (.selectShapeWith r i)).2 =
      { s with query := ((r.fieldList t i).1.toOption.map s.query.select).getD s.query } := by
  rw [call, Query.selectShape]
  rcases r.fieldList t i with ⟨e | fields, registry⟩
  · rfl
  · rfl

theorem sound_call
    (hs : s.registry.Sound t) (call : QueryCall ι) :
    (s.call t call).2.registry.Sound t := by
  cases call with
  | selectShape i =>
      rw [call_selectShape]
      exact Registry.sound_answer hs (.fieldList i)
  | selectShapeWith r i =>
      rw [call_selectShapeWith]
      exact hs
  | _ =>
      exact hs

/-- A call fills the slot of the clause that it sets, and no slot if it fails. -/
theorem query_call
    (hs : s.registry.Sound t) (call : QueryCall ι) :
    (s.call t call).2.query = ((call.clause? t).map s.query.set).getD s.query := by
  cases call with
  | selectShape i =>
      rw [call_selectShape, hs.fieldList_fst, QueryCall.clause?, Option.map_map]
      rfl
  | selectShapeWith r i =>
      rw [call_selectShapeWith, QueryCall.clause?, Option.map_map]
      rfl
  | selectFields fields =>
      simp only [call, withQuery, Query.selectFields, Query.select, fieldList_eq_intercalate]
      rfl
  | excludeFields fields =>
      simp only [call, withQuery, Query.excludeFields, Query.exclude, fieldList_eq_intercalate]
      rfl
  | _ =>
      rfl

theorem held_call
    (hs : s.registry.Sound t) (call : QueryCall ι) (k : ClauseKind) :
    (s.call t call).2.query.held k = (QueryCall.lastOf t k [call]).or (s.query.held k) := by
  rw [query_call hs, QueryCall.lastOf, List.filterMap_cons]
  cases call.clause? t with
  | none =>
      rfl
  | some c =>
      by_cases hk : c.kind = k
      · simp [Query.held_set, hk]
      · simp [Query.held_set, hk]

/-- After any calls, a slot holds the last clause that was set there, if there is one. -/
theorem held_run
    (hs : s.registry.Sound t) (calls : List (QueryCall ι)) (k : ClauseKind) :
    (s.run t calls).query.held k = (QueryCall.lastOf t k calls).or (s.query.held k) := by
  induction calls generalizing s with
  | nil =>
      rfl
  | cons call rest ih =>
      have hrest := ih (sound_call hs call)
      rw [held_call hs, ← Option.or_assoc, ← QueryCall.lastOf_cons] at hrest
      exact hrest

theorem held_run_empty
    {r : Registry ι}
    (hr : r.Sound t) (calls : List (QueryCall ι)) (k : ClauseKind) :
    (QuerySession.run t ⟨.empty, r⟩ calls).query.held k = QueryCall.lastOf t k calls := by
  have h := held_run (s := ⟨.empty, r⟩) hr calls k
  rw [Query.held_empty, Option.or_none] at h
  exact h

end QuerySession

/--
Calls on the empty query, whatever the registry that they share has resolved before:
the query holds of each kind what the last call of that kind has set, and nothing
where there is no such call; it lists the kinds that are set once each and in their
order; and its text is the clauses one after another, each a keyword, a space, a
value and the terminator, which is spelled out for each kind.  So calls whose last
clauses of each kind are the same give the same query and the same text.
-/
theorem query_of_last_calls
    (t : ShapeTable ι) (resolved : List (RegistryCall ι)) (calls : List (QueryCall ι)) :
    let q := (QuerySession.run t ⟨.empty, Registry.empty.after t resolved⟩ calls).query
    (∀ k, q.held k = QueryCall.lastOf t k calls) ∧
    q.clauses = ClauseKind.inOrder.filterMap (fun k => QueryCall.lastOf t k calls) ∧
    q.clauses.map Clause.kind =
      ClauseKind.inOrder.filter (fun k => (QueryCall.lastOf t k calls).isSome) ∧
    q.render = String.join (q.clauses.map fun c => c.keyword ++ " " ++ c.value ++ ";") ∧
    q.render = String.join (q.clauses.map Clause.spelling) ∧
    ∀ resolved' calls',
      (∀ k, QueryCall.lastOf t k calls' = QueryCall.lastOf t k calls) →
      let q' := (QuerySession.run t ⟨.empty, Registry.empty.after t resolved'⟩ calls').query
      q' = q ∧ q'.render = q.render := by
  intro q
  have hq : ∀ k, q.held k = QueryCall.lastOf t k calls :=
    QuerySession.held_run_empty (Registry.sound_after t resolved) calls
  have hheld : q.held = fun k => QueryCall.lastOf t k calls := funext hq
  refine ⟨hq, ?_, ?_, rfl, ?_, ?_⟩
  · rw [q.clauses_eq_filterMap_held, hheld]
  · rw [q.map_kind_clauses, hheld]
  · rw [Query.render, funext Clause.render_eq_spelling]
  · intro resolved' calls' hlast q'
    have hq' : ∀ k, q'.held k = QueryCall.lastOf t k calls' :=
      QuerySession.held_run_empty (Registry.sound_after t resolved') calls'
    have heq : q' = q := Query.ext_held fun k => by rw [hq', hq, hlast]
    exact ⟨heq, by rw [heq]⟩

end ShapeQuery
