import ShapeQuery.Query
import Mathlib.Data.List.Basic

/-!
# Slots of a query

A query has one slot for each of the seven kinds of clauses.  `Query.held` looks
into the slots by kind, and `Query.set` fills the slot of a clause, whichever it
is.  The slots are all of a query (`ext_held`), and the clauses of a query are what
the slots hold, in the order of the text (`clauses_eq_filterMap_held`).
-/

namespace ShapeQuery

inductive ClauseKind
  | search
  | fields
  | exclude
  | filter
  | offset
  | limit
  | sort
  deriving DecidableEq

/-- All kinds, in the order in which a text has their clauses. -/
def ClauseKind.inOrder : List ClauseKind :=
  [search, fields, exclude, filter, offset, limit, sort]

theorem ClauseKind.mem_inOrder
    (k : ClauseKind) :
    k ∈ inOrder := by
  cases k <;> decide

def Clause.kind : Clause → ClauseKind
  | search _ => .search
  | fields _ => .fields
  | exclude _ => .exclude
  | filter _ => .filter
  | offset _ => .offset
  | limit _ => .limit
  | sort _ => .sort

/-- The text of a clause in full, by what the clause holds. -/
def Clause.spelling : Clause → String
  | search term => "search \"" ++ term ++ "\";"
  | fields .all => "fields *;"
  | fields (.list text) => "fields " ++ text ++ ";"
  | exclude text => "exclude " ++ text ++ ";"
  | filter text => "where " ++ text ++ ";"
  | offset n => "offset " ++ n.toNat.repr ++ ";"
  | limit n => "limit " ++ n.toNat.repr ++ ";"
  | sort ⟨field, .ascending⟩ => "sort " ++ field ++ " asc;"
  | sort ⟨field, .descending⟩ => "sort " ++ field ++ " desc;"

theorem Clause.render_eq_spelling
    (c : Clause) :
    c.render = c.spelling := by
  cases c with
  | search term =>
      have hparts : (Clause.search term).render =
          Token.search ++ " " ++ "\"" ++ term ++ ("\"" ++ Token.clauseTerminator) := by
        simp only [render, keyword, value, String.append_assoc]
      rw [hparts]
      rfl
  | fields selection =>
      cases selection <;> rfl
  | exclude | filter | offset | limit =>
      rfl
  | sort order =>
      obtain ⟨field, direction⟩ := order
      have hparts : (Clause.sort ⟨field, direction⟩).render =
          Token.sort ++ " " ++ field ++ (" " ++ direction.token ++ Token.clauseTerminator) := by
        simp only [render, keyword, value, String.append_assoc]
      rw [hparts]
      cases direction <;> rfl

namespace Query

/-- The clause that a query holds of a kind. -/
def held (q : Query) : ClauseKind → Option Clause
  | .search => q.searchTerm.map .search
  | .fields => q.selection.map .fields
  | .exclude => q.excluded.map .exclude
  | .filter => q.condition.map .filter
  | .offset => q.skipped.map .offset
  | .limit => q.atMost.map .limit
  | .sort => q.order.map .sort

/-- The query with a clause in the slot of its kind. -/
def set (q : Query) : Clause → Query
  | .search term => { q with searchTerm := some term }
  | .fields selection => { q with selection := some selection }
  | .exclude text => { q with excluded := some text }
  | .filter text => { q with condition := some text }
  | .offset n => { q with skipped := some n }
  | .limit n => { q with atMost := some n }
  | .sort order => { q with order := some order }

variable {q q' : Query} {k : ClauseKind} {c : Clause}

@[simp] theorem held_empty
    (k : ClauseKind) :
    Query.empty.held k = none := by
  cases k <;> rfl

theorem held_set
    (q : Query) (c : Clause) (k : ClauseKind) :
    (q.set c).held k = if c.kind = k then some c else q.held k := by
  cases c <;> cases k <;> rfl

theorem kind_of_held
    (h : q.held k = some c) :
    c.kind = k := by
  cases k <;>
    · obtain ⟨_, _, rfl⟩ := Option.map_eq_some_iff.mp h
      rfl

theorem ext_held
    (h : ∀ k, q.held k = q'.held k) :
    q = q' := by
  obtain ⟨searchTerm, selection, excluded, condition, skipped, atMost, order⟩ := q
  have hsearch := Option.map_injective (fun _ _ => Clause.search.inj) (h .search)
  have hfields := Option.map_injective (fun _ _ => Clause.fields.inj) (h .fields)
  have hexclude := Option.map_injective (fun _ _ => Clause.exclude.inj) (h .exclude)
  have hfilter := Option.map_injective (fun _ _ => Clause.filter.inj) (h .filter)
  have hoffset := Option.map_injective (fun _ _ => Clause.offset.inj) (h .offset)
  have hlimit := Option.map_injective (fun _ _ => Clause.limit.inj) (h .limit)
  have hsort := Option.map_injective (fun _ _ => Clause.sort.inj) (h .sort)
  simp only at hsearch hfields hexclude hfilter hoffset hlimit hsort
  subst hsearch hfields hexclude hfilter hoffset hlimit hsort
  rfl

theorem clauses_eq_filterMap_held
    (q : Query) :
    q.clauses = ClauseKind.inOrder.filterMap q.held := by
  rw [List.filterMap_eq_flatMap_toList]
  rfl

theorem mem_clauses_iff :
    c ∈ q.clauses ↔ q.held c.kind = some c := by
  rw [clauses_eq_filterMap_held, List.mem_filterMap]
  constructor
  · rintro ⟨k, _, hk⟩
    rw [kind_of_held hk]
    exact hk
  · intro h
    exact ⟨c.kind, ClauseKind.mem_inOrder _, h⟩

/-- Each kind that is set has one clause, at the place of the kind in the order. -/
theorem map_kind_clauses
    (q : Query) :
    q.clauses.map Clause.kind = ClauseKind.inOrder.filter fun k => (q.held k).isSome := by
  have hkind : ∀ k, (q.held k).map Clause.kind =
      Option.guard (fun k => (q.held k).isSome) k := by
    intro k
    cases h : q.held k with
    | none =>
        simp [Option.guard, h]
    | some c =>
        simp [Option.guard, h, kind_of_held h]
  rw [clauses_eq_filterMap_held, List.map_filterMap, ← List.filterMap_eq_filter]
  exact List.filterMap_congr fun k _ => hkind k

end Query
end ShapeQuery
