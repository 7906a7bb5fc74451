import ShapeQuery.Proofs.ClauseSlots
import Mathlib

/-!
# The text of a query

The text of a query tells the query, as far as its clauses are plain: no quote in
the search term, and no terminator in the other clauses.

**One clause.**  The keyword ends at the first space, since no keyword has a space;
the quoted term ends at the second quote, and any other value at the first
terminator.  So the text of a plain clause ends by itself, and tells the kind and
the value of the clause (`render_append_cancel`).  A clause whose value has no space is
also told from the right end, whatever stands before it (`append_render_cancel`).

**All clauses.**  A text is therefore cut into its clauses in only one way, and the
clauses are told by their kinds.  What remains untold is whether everything is
selected or the list that consists of the wildcard.
-/

namespace ShapeQuery

/-- What ends at the first mark is told from what comes after. -/
theorem append_cons_cancel {α : Type} {mark : α} {l l' r r' : List α}
    (hl : mark ∉ l)
    (hl' : mark ∉ l')
    (h : l ++ mark :: r = l' ++ mark :: r') :
    l = l' ∧ r = r' := by
  induction l generalizing l' with
  | nil =>
      cases l' with
      | nil =>
          exact ⟨rfl, (List.cons.inj h).2⟩
      | cons x l' =>
          have hx : mark = x := (List.cons.inj h).1
          simp [hx] at hl'
  | cons x l ih =>
      cases l' with
      | nil =>
          have hx : x = mark := (List.cons.inj h).1
          simp [hx] at hl
      | cons x' l' =>
          obtain ⟨hx, hrest⟩ := List.cons.inj h
          rw [List.mem_cons, not_or] at hl hl'
          obtain ⟨hlists, hr⟩ := ih hl.2 hl'.2 hrest
          exact ⟨by rw [hx, hlists], hr⟩

theorem append_mark_cancel (mark : Char) {text a b s s' : String}
    (htext : text.toList = [mark])
    (ha : mark ∉ a.toList)
    (hb : mark ∉ b.toList)
    (h : a ++ text ++ s = b ++ text ++ s') :
    a = b ∧ s = s' := by
  have hchars : a.toList ++ mark :: s.toList = b.toList ++ mark :: s'.toList := by
    simpa [htext] using congrArg String.toList h
  obtain ⟨hfront, hrest⟩ := append_cons_cancel ha hb hchars
  exact ⟨String.toList_inj.mp hfront, String.toList_inj.mp hrest⟩

/-- What begins after the last mark is told from what comes before. -/
theorem append_mark_cancel_last (mark : Char) {text a b s s' : String}
    (htext : text.toList = [mark])
    (hs : mark ∉ s.toList)
    (hs' : mark ∉ s'.toList)
    (h : a ++ text ++ s = b ++ text ++ s') :
    a = b ∧ s = s' := by
  have hreverse : s.toList.reverse ++ mark :: a.toList.reverse =
      s'.toList.reverse ++ mark :: b.toList.reverse := by
    simpa [htext] using congrArg (fun whole => whole.toList.reverse) h
  obtain ⟨hback, hfront⟩ := append_cons_cancel (by simpa using hs) (by simpa using hs') hreverse
  rw [List.reverse_inj, String.toList_inj] at hback hfront
  exact ⟨hfront, hback⟩

namespace Clause

variable {c d : Clause} {s s' : String}

/-- No quote in a search term, and no terminator in any other text. -/
def Plain : Clause → Prop
  | search term => '"' ∉ term.toList
  | fields selection => ';' ∉ selection.text.toList
  | exclude text => ';' ∉ text.toList
  | filter text => ';' ∉ text.toList
  | offset _ => True
  | limit _ => True
  | sort order => ';' ∉ order.field.toList

instance : (c : Clause) → Decidable c.Plain
  | search _ => inferInstanceAs (Decidable (_ ∉ _))
  | fields _ => inferInstanceAs (Decidable (_ ∉ _))
  | exclude _ => inferInstanceAs (Decidable (_ ∉ _))
  | filter _ => inferInstanceAs (Decidable (_ ∉ _))
  | offset _ => inferInstanceAs (Decidable True)
  | limit _ => inferInstanceAs (Decidable True)
  | sort _ => inferInstanceAs (Decidable (_ ∉ _))

/-- The same clause, or everything selected in two ways. -/
inductive Alike : Clause → Clause → Prop
  | same (c : Clause) : Alike c c
  | everything : Alike (fields .all) (fields (.list Token.wildcard))
  | wildcard : Alike (fields (.list Token.wildcard)) (fields .all)

theorem space_notMem_keyword
    (c : Clause) :
    ' ' ∉ c.keyword.toList := by
  cases c <;> simp [keyword, Token.search, Token.fields, Token.exclude, Token.filter,
    Token.offset, Token.limit, Token.sort]

theorem kind_eq_of_keyword
    (h : c.keyword = d.keyword) :
    c.kind = d.kind := by
  cases c <;> cases d <;> first
    | rfl
    | simp [keyword, Token.search, Token.fields, Token.exclude, Token.filter,
        Token.offset, Token.limit, Token.sort] at h

theorem terminator_notMem_value
    (hc : c.Plain)
    (hkind : c.kind ≠ .search) :
    ';' ∉ c.value.toList := by
  cases c with
  | search term =>
      exact absurd rfl hkind
  | fields selection =>
      exact hc
  | exclude text =>
      exact hc
  | filter text =>
      exact hc
  | offset n =>
      exact Text.notMem_repr rfl _
  | limit n =>
      exact Text.notMem_repr rfl _
  | sort order =>
      obtain ⟨field, direction⟩ := order
      have hfield : ';' ∉ field.toList := hc
      cases direction <;>
        simp [value, Direction.token, Token.ascending, Token.descending, hfield]

theorem value_append_cancel
    (hc : c.Plain)
    (hd : d.Plain)
    (hkind : c.kind = d.kind)
    (h : c.value ++ Token.clauseTerminator ++ s = d.value ++ Token.clauseTerminator ++ s') :
    c.value = d.value ∧ s = s' := by
  by_cases hsearch : c.kind = .search
  · cases c with
    | search term =>
        cases d with
        | search term' =>
            have hquoted : term ++ "\"" ++ (Token.clauseTerminator ++ s) =
                term' ++ "\"" ++ (Token.clauseTerminator ++ s') := by
              simpa only [value, String.append_assoc, String.append_right_inj] using h
            obtain ⟨hterm, hrest⟩ := append_mark_cancel '"' rfl hc hd hquoted
            exact ⟨by rw [hterm], (String.append_right_inj _).mp hrest⟩
        | _ => cases hkind
    | _ => cases hsearch
  · have hvalue := terminator_notMem_value hc hsearch
    have hvalue' := terminator_notMem_value hd (hkind ▸ hsearch)
    exact append_mark_cancel ';' rfl hvalue hvalue' h

/-- The text of a clause tells its kind, whatever it holds and whatever follows. -/
theorem keyword_append_cancel
    (h : c.render ++ s = d.render ++ s') :
    c.kind = d.kind ∧
    c.value ++ Token.clauseTerminator ++ s = d.value ++ Token.clauseTerminator ++ s' := by
  have hparts : c.keyword ++ " " ++ (c.value ++ Token.clauseTerminator ++ s) =
      d.keyword ++ " " ++ (d.value ++ Token.clauseTerminator ++ s') := by
    simpa only [render, String.append_assoc] using h
  obtain ⟨hkeyword, hrest⟩ := append_mark_cancel ' ' rfl
    c.space_notMem_keyword d.space_notMem_keyword hparts
  exact ⟨kind_eq_of_keyword hkeyword, hrest⟩

/-- The text of a plain clause ends by itself. -/
theorem render_append_cancel
    (hc : c.Plain)
    (hd : d.Plain)
    (h : c.render ++ s = d.render ++ s') :
    (c.kind = d.kind ∧ c.value = d.value) ∧ s = s' := by
  obtain ⟨hkind, hrest⟩ := keyword_append_cancel h
  obtain ⟨hvalue, hs⟩ := value_append_cancel hc hd hkind hrest
  exact ⟨⟨hkind, hvalue⟩, hs⟩

/-- From the right, a clause without a space in its value ends at the space after its keyword. -/
theorem append_render_cancel
    (hkeyword : c.keyword = d.keyword)
    (hc : ' ' ∉ c.value.toList)
    (hd : ' ' ∉ d.value.toList)
    (h : s ++ c.render = s' ++ d.render) :
    s = s' ∧ c.value = d.value := by
  have hparts : s ++ c.keyword ++ " " ++ (c.value ++ Token.clauseTerminator) =
      s' ++ c.keyword ++ " " ++ (d.value ++ Token.clauseTerminator) := by
    simpa only [render, hkeyword, String.append_assoc] using h
  obtain ⟨hfront, hvalue⟩ := append_mark_cancel_last ' ' rfl
    (by simpa [Token.clauseTerminator] using hc) (by simpa [Token.clauseTerminator] using hd) hparts
  exact ⟨(String.append_left_inj _).mp hfront, (String.append_left_inj _).mp hvalue⟩

theorem render_append_ne_empty
    (c : Clause) (s : String) :
    c.render ++ s ≠ "" := by
  simp [render, Token.clauseTerminator]

theorem kinds_values_of_join {cs ds : List Clause}
    (hcs : ∀ c ∈ cs, c.Plain)
    (hds : ∀ d ∈ ds, d.Plain)
    (h : String.join (cs.map render) = String.join (ds.map render)) :
    cs.map (fun c => (c.kind, c.value)) = ds.map fun d => (d.kind, d.value) := by
  induction cs generalizing ds with
  | nil =>
      cases ds with
      | nil =>
          rfl
      | cons d ds =>
          rw [List.map_cons, String.join_cons] at h
          exact absurd h.symm (d.render_append_ne_empty _)
  | cons c cs ih =>
      cases ds with
      | nil =>
          rw [List.map_cons, String.join_cons] at h
          exact absurd h (c.render_append_ne_empty _)
      | cons d ds =>
          rw [List.forall_mem_cons] at hcs hds
          simp only [List.map_cons, String.join_cons] at h
          obtain ⟨⟨hkind, hvalue⟩, hrest⟩ := render_append_cancel hcs.1 hds.1 h
          rw [List.map_cons, List.map_cons, ih hcs.2 hds.2 hrest, hkind, hvalue]

end Clause

namespace Direction

variable {dir dir' : Direction}

theorem space_notMem_token
    (dir : Direction) :
    ' ' ∉ dir.token.toList := by
  cases dir <;> decide

theorem eq_of_token
    (h : dir.token = dir'.token) :
    dir = dir' := by
  cases dir <;> cases dir' <;> first
    | rfl
    | simp [token, Token.ascending, Token.descending] at h

end Direction

/-- The direction of a sort order is what stands after the last space, whatever the field is. -/
theorem SortOrder.eq_of_text {o o' : SortOrder}
    (h : o.field ++ " " ++ o.direction.token = o'.field ++ " " ++ o'.direction.token) :
    o = o' := by
  obtain ⟨hfield, htoken⟩ := append_mark_cancel_last ' ' rfl
    o.direction.space_notMem_token o'.direction.space_notMem_token h
  obtain ⟨field, direction⟩ := o
  obtain ⟨field', direction'⟩ := o'
  rw [SortOrder.mk.injEq]
  exact ⟨hfield, Direction.eq_of_token htoken⟩

namespace Clause

variable {c d : Clause}

theorem alike_fields_of_text {selection selection' : Selection}
    (h : selection.text = selection'.text) :
    (fields selection).Alike (fields selection') := by
  cases selection with
  | all =>
      cases selection' with
      | all =>
          exact .same _
      | list text' =>
          have htext : Token.wildcard = text' := h
          subst htext
          exact .everything
  | list text =>
      cases selection' with
      | all =>
          have htext : text = Token.wildcard := h
          subst htext
          exact .wildcard
      | list text' =>
          have htext : text = text' := h
          subst htext
          exact .same _

/-- Kind and value tell a clause, except for how everything is selected. -/
theorem alike_iff :
    c.Alike d ↔ c.kind = d.kind ∧ c.value = d.value := by
  constructor
  · intro h
    cases h with
    | same => exact ⟨rfl, rfl⟩
    | everything => exact ⟨rfl, rfl⟩
    | wildcard => exact ⟨rfl, rfl⟩
  · rintro ⟨hkind, hvalue⟩
    cases c <;> cases d <;> simp only [kind, reduceCtorEq] at hkind
    case search.search term term' =>
      have hterm : term = term' := by
        simpa [value] using hvalue
      exact hterm ▸ .same _
    case fields.fields selection selection' =>
      exact alike_fields_of_text hvalue
    case exclude.exclude text text' =>
      have htext : text = text' := hvalue
      exact htext ▸ .same _
    case filter.filter text text' =>
      have htext : text = text' := hvalue
      exact htext ▸ .same _
    case offset.offset n n' =>
      have hn : n = n' := UInt32.toNat_inj.mp (Nat.repr_inj.mp hvalue)
      exact hn ▸ .same _
    case limit.limit n n' =>
      have hn : n = n' := UInt32.toNat_inj.mp (Nat.repr_inj.mp hvalue)
      exact hn ▸ .same _
    case sort.sort order order' =>
      have horder : order = order' := SortOrder.eq_of_text hvalue
      exact horder ▸ .same _

theorem Alike.render_eq
    (h : c.Alike d) :
    c.render = d.render := by
  cases h <;> rfl

theorem Alike.eq_of_kind_ne_fields
    (h : c.Alike d)
    (hkind : c.kind ≠ .fields) :
    c = d := by
  cases h with
  | same => rfl
  | everything => exact absurd rfl hkind
  | wildcard => exact absurd rfl hkind

end Clause

namespace Query

variable {q q' : Query}

/--
Two queries agree on every clause: of each kind, both hold no clause, or they hold
the same one, or one holds the selection of everything and the other the list that
consists of the wildcard.
-/
def Agrees (q q' : Query) : Prop :=
  ∀ k, Option.Rel Clause.Alike (q.held k) (q'.held k)

theorem Agrees.render_eq
    (h : q.Agrees q') :
    q.render = q'.render := by
  have hheld : ∀ k, (q.held k).map Clause.render = (q'.held k).map Clause.render := by
    intro k
    have hk := h k
    generalize q.held k = held at hk ⊢
    generalize q'.held k = held' at hk ⊢
    cases hk with
    | some hsame => exact congrArg some hsame.render_eq
    | none => rfl
  unfold render
  rw [clauses_eq_filterMap_held, clauses_eq_filterMap_held, List.map_filterMap,
    List.map_filterMap, List.filterMap_congr fun k _ => hheld k]

theorem exists_held_of_clauses
    (h : q.clauses.map (fun c => (c.kind, c.value)) =
      q'.clauses.map fun c => (c.kind, c.value))
    {k : ClauseKind} {c : Clause} (hc : q.held k = some c) :
    ∃ d, q'.held k = some d ∧ c.Alike d := by
  have hkind : c.kind = k := kind_of_held hc
  have hmem : c ∈ q.clauses := mem_clauses_iff.mpr (hkind ▸ hc)
  have hpair : (c.kind, c.value) ∈ q'.clauses.map fun c => (c.kind, c.value) := by
    rw [← h]
    exact List.mem_map_of_mem hmem
  obtain ⟨d, hd, heq⟩ := List.mem_map.mp hpair
  obtain ⟨hdkind, hdvalue⟩ := Prod.mk.inj heq
  have hheld := mem_clauses_iff.mp hd
  rw [hdkind, hkind] at hheld
  exact ⟨d, hheld, Clause.alike_iff.mpr ⟨hdkind.symm, hdvalue.symm⟩⟩

theorem agrees_of_clauses
    (h : q.clauses.map (fun c => (c.kind, c.value)) =
      q'.clauses.map fun c => (c.kind, c.value)) :
    q.Agrees q' := by
  intro k
  cases hc : q.held k with
  | some c =>
      obtain ⟨d, hd, hsame⟩ := exists_held_of_clauses h hc
      rw [hd]
      exact .some hsame
  | none =>
      cases hd : q'.held k with
      | some d =>
          obtain ⟨c, hc', _⟩ := exists_held_of_clauses h.symm hd
          rw [hc] at hc'
          cases hc'
      | none =>
          exact .none

/-- Queries that select nothing agree only if they are the same. -/
theorem Agrees.eq_of_selection_none
    (h : q.Agrees q')
    (hnone : q.selection = none) :
    q = q' := by
  refine ext_held fun k => ?_
  have hk := h k
  have hkind : ∀ c, q.held k = some c → c.kind ≠ .fields := by
    rintro c hc hfields
    have hheld : q.held .fields = some c := by
      rw [← hfields, kind_of_held hc, hc]
    simp [held, hnone] at hheld
  generalize q.held k = own at hk hkind ⊢
  generalize q'.held k = own' at hk ⊢
  cases hk with
  | some hsame => rw [hsame.eq_of_kind_ne_fields (hkind _ rfl)]
  | none => rfl

/-- Queries of plain clauses have the same text iff they agree on every clause. -/
theorem render_eq_iff_agrees
    (hq : ∀ c ∈ q.clauses, c.Plain)
    (hq' : ∀ c ∈ q'.clauses, c.Plain) :
    q.render = q'.render ↔ q.Agrees q' := by
  constructor
  · intro h
    exact agrees_of_clauses (Clause.kinds_values_of_join hq hq' h)
  · exact Agrees.render_eq

/-- A search term with the text of a whole clause in it, and everything selected in two ways. -/
theorem render_eq_iff_agrees_everything :
    let q : Query :=
      { Query.empty with
        searchTerm := some "zelda;limit 5;"
        selection := some .all
        condition := some "name = sort name asc"
        order := some ⟨"name desc", .ascending⟩ }
    let q' : Query := { q with selection := some (.list "*") }
    (∀ c ∈ q.clauses, c.Plain) ∧ (∀ c ∈ q'.clauses, c.Plain) ∧
      q ≠ q' ∧ q.Agrees q' := by
  intro q q'
  have hq : ∀ c ∈ q.clauses, c.Plain := by decide
  have hq' : ∀ c ∈ q'.clauses, c.Plain := by decide
  have htext : q.render = q'.render := by rfl
  exact ⟨hq, hq', by decide, (render_eq_iff_agrees hq hq').mp htext⟩

end Query
end ShapeQuery
