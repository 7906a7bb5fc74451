import ShapeQuery.Proofs.ConditionText
import ShapeQuery.Proofs.GameFieldList
import ShapeQuery.Proofs.QueryText
import ShapeQuery.Sample

/-!
# The text of a request

Requests to one game catalogue never get the same text, unless they ask for the same
part of the same results.

**Three pieces.**  A text is the search clause, if there is one, the field list, and
the clauses behind it.  The field list is the same in every text.  Only the search
clause is not plain: a search term is written between quotes as it is, and may go on
with a quote, a terminator and any clause after that.

**Pieces told apart.**  Two texts without a search term begin with the same field list,
and what is behind it is plain.  Two texts with a search term are read from the right
end, where the limit and the offset stand and no space is inside a number; what is left
then ends with the same field list.  A text with a search term and one without begin
with different keywords.

**Requests told apart.**  The clauses behind the field list tell a request: the order of
the results tells the kind of the request, and the condition tells the identifiers.
-/

namespace ShapeQuery

section Texts

variable {ch : Char}

/-- An integer is written with digits and a sign. -/
theorem notMem_repr_int
    (hsign : ch ≠ '-')
    (hdigit : ch.isDigit = false)
    (n : Int) :
    ch ∉ n.repr.toList := by
  rw [Int.repr_eq_if]
  split
  next => exact Text.notMem_repr hdigit _
  next =>
    rw [String.toList_append, List.mem_append, not_or]
    exact ⟨by simpa using hsign, Text.notMem_repr hdigit _⟩

theorem repr_int_ne_empty
    (n : Int) :
    n.repr ≠ "" := by
  rw [Int.repr_eq_if]
  split
  next => exact Nat.repr_ne_empty
  next => simp

theorem notMem_intercalate
    {separator : String} {texts : List String}
    (hseparator : ch ∉ separator.toList)
    (htexts : ∀ text ∈ texts, ch ∉ text.toList) :
    ch ∉ (separator.intercalate texts).toList := by
  induction texts with
  | nil =>
      simp
  | cons text rest ih =>
      rw [List.forall_mem_cons] at htexts
      cases rest with
      | nil =>
          simpa using htexts.1
      | cons next rest =>
          rw [String.intercalate_cons_cons]
          simp only [String.toList_append, List.mem_append, not_or]
          exact ⟨⟨htexts.1, hseparator⟩, ih htexts.2⟩

end Texts

namespace FieldRef

/-- A comparison with integers can be read back. -/
theorem plain_containsAnyOf
    (f : FieldRef) (ns : List Int)
    (hf : ' ' ∉ f.name.toList) :
    Predicate.Plain ⟨f.name, .containsAnyOf, .list ((ns.map .integer).map Value.render)⟩ where
  wellPaired := rfl
  field := hf
  operand := by
    simp only [Operand.Plain, List.map_map, List.forall_mem_map, Function.comp_apply,
      Value.render]
    intro n _
    exact ⟨repr_int_ne_empty n, notMem_repr_int (by decide) rfl n,
      notMem_repr_int (by decide) rfl n⟩

theorem eq_of_render_containsAnyOf
    {f : FieldRef} {ns ns' : List Int}
    (hf : ' ' ∉ f.name.toList)
    (h : (f.containsAnyOf (ns.map .integer)).render =
      (f.containsAnyOf (ns'.map .integer)).render) :
    ns = ns' := by
  have hpredicate := Predicate.eq_of_render (plain_containsAnyOf f ns hf)
    (plain_containsAnyOf f ns' hf) h
  have htexts := Operand.list.inj (congrArg Predicate.operand hpredicate)
  rw [List.map_map, List.map_map] at htexts
  exact List.map_injective_iff.mpr (fun _ _ => Int.repr_injective) htexts

end FieldRef

namespace GameRequest

/-- The term that a request looks for. -/
def term : GameRequest → Option String
  | search text => some text
  | _ => none

/-- The condition that a request puts on games. -/
def condition (b : ReleaseBounds) : GameRequest → Option Condition
  | search _ => none
  | popular =>
      some (GameField.usersRating.isNotNull.and
        (GameField.releaseDate.isLargerThan (.integer b.popularFrom)))
  | recentlyReleased =>
      some ((GameField.releaseDate.isLargerThan (.integer b.recentFrom)).and
        (GameField.releaseDate.isSmallerThan (.integer b.recentUntil)))
  | comingSoon => some (GameField.releaseDate.isLargerThan (.integer b.comingFrom))
  | mostAnticipated =>
      some ((GameField.releaseDate.isLargerThan (.integer b.anticipatedFrom)).and
        GameField.hypeCount.isNotNull)
  | byIds ids => some (GameField.id.containsAnyOf ids)

/-- The order in which the games are asked for. -/
def order : GameRequest → Option SortOrder
  | popular => some ⟨GameField.totalRating.name, .descending⟩
  | recentlyReleased => some ⟨GameField.releaseDate.name, .descending⟩
  | comingSoon => some ⟨GameField.releaseDate.name, .ascending⟩
  | mostAnticipated => some ⟨GameField.hypeCount.name, .descending⟩
  | _ => none

theorem term_eq_some_iff
    {request : GameRequest} {text : String} :
    request.term = some text ↔ request = search text := by
  cases request <;> simp [term]

/-- If games are asked for by their identifiers, these are integers. -/
def IntegerIds : GameRequest → Prop
  | byIds ids => ∃ ns : List Int, ids = ns.map .integer
  | _ => True

variable {request request' : GameRequest} {b : ReleaseBounds}

/-- No identifier and no bound has a terminator in its text. -/
theorem terminator_notMem_condition
    {c : Condition}
    (hids : request.IntegerIds) (hc : request.condition b = some c) :
    ';' ∉ c.render.toList := by
  have hint := @notMem_repr_int ';' (by decide) rfl
  cases request with
  | search text =>
      cases hc
  | byIds ids =>
      obtain ⟨ns, rfl⟩ := hids
      cases hc
      have hlist : ';' ∉ (Token.valueSeparator.intercalate
          ((ns.map .integer).map Value.render)).toList := by
        apply notMem_intercalate (by decide)
        simp only [List.map_map, List.forall_mem_map]
        exact fun n _ => hint n
      simpa [FieldRef.containsAnyOf, FieldRef.withList, Condition.render, Predicate.render,
        Operand.render, Operator.token, Operator.delimiters, GameField.id, Token.anyOfOpen,
        Token.anyOfClose] using hlist
  | popular | recentlyReleased | comingSoon | mostAnticipated =>
      cases hc
      simp [FieldRef.isLargerThan, FieldRef.isSmallerThan, FieldRef.isNotNull,
        FieldRef.withValue, Condition.and, Condition.render, Predicate.render, Operand.render,
        Operator.token, Combinator.token, Value.render, GameField.releaseDate,
        GameField.usersRating, GameField.hypeCount, Token.nullWord, hint]

theorem terminator_notMem_order
    {o : SortOrder} (ho : request.order = some o) :
    ';' ∉ o.field.toList := by
  cases request <;> cases ho <;> decide

/-- The term, the condition and the order of a request tell the request. -/
theorem eq_of_parts
    (hids : request.IntegerIds)
    (hids' : request'.IntegerIds)
    (hterm : request.term = request'.term)
    (hcondition : (request.condition b).map Condition.render =
      (request'.condition b).map Condition.render)
    (horder : request.order = request'.order) :
    request = request' := by
  cases request <;> cases request' <;>
    simp only [term, order, GameField.totalRating, GameField.releaseDate, GameField.hypeCount,
      Option.some.injEq, SortOrder.mk.injEq, String.reduceEq, reduceCtorEq, false_and, and_false]
      at hterm horder
  case search.search text text' =>
    rw [hterm]
  case byIds.byIds ids ids' =>
    obtain ⟨ns, rfl⟩ := hids
    obtain ⟨ns', rfl⟩ := hids'
    have hrender := Option.some.inj hcondition
    rw [FieldRef.eq_of_render_containsAnyOf (by decide) hrender]
  all_goals rfl

end GameRequest

namespace GameCall

variable {call call' : GameCall} {b : ReleaseBounds} {fields : String}

theorem ext_parts
    (hrequest : call.request = call'.request)
    (hoffset : call.offset = call'.offset)
    (hlimit : call.limit = call'.limit) :
    call = call' := by
  obtain ⟨request, offset, limit⟩ := call
  rw [GameCall.mk.injEq]
  exact ⟨hrequest, hoffset, hlimit⟩

/-- The clauses behind the field list. -/
def tail (call : GameCall) (b : ReleaseBounds) : Query :=
  { Query.empty with
    condition := (call.request.condition b).map Condition.render
    skipped := some call.offset
    atMost := some call.limit
    order := call.request.order }

/-- The clauses of a call: a search clause or none, the field list, and what is behind it. -/
theorem clauses_query
    (call : GameCall) (b : ReleaseBounds) (fields : String) :
    (call.query b fields).clauses =
      call.request.term.toList.map .search ++
        Clause.fields (.list fields) :: (call.tail b).clauses := by
  obtain ⟨request, offset, limit⟩ := call
  cases request <;> rfl

theorem render_query_of_none
    (h : call.request.term = none) :
    (call.query b fields).render =
      (Clause.fields (.list fields)).render ++ (call.tail b).render := by
  simp [Query.render, clauses_query, h]

theorem render_query_of_some
    {term : String} (h : call.request.term = some term) :
    (call.query b fields).render =
      (Clause.search term).render ++ (Clause.fields (.list fields)).render ++
        (call.tail b).render := by
  simp [Query.render, clauses_query, h, String.append_assoc]

/-- Behind the field list, the clauses of a call are plain. -/
theorem plain_tail
    (hids : call.request.IntegerIds) :
    ∀ c ∈ (call.tail b).clauses, c.Plain := by
  intro c hc
  have hheld := Query.mem_clauses_iff.mp hc
  cases c with
  | search term => cases hheld
  | fields selection => cases hheld
  | exclude text => cases hheld
  | filter text =>
      obtain ⟨_, hcondition, heq⟩ := Option.map_eq_some_iff.mp hheld
      obtain ⟨condition, hrequest, rfl⟩ := Option.map_eq_some_iff.mp hcondition
      cases heq
      exact GameRequest.terminator_notMem_condition hids hrequest
  | offset n => trivial
  | limit n => trivial
  | sort order =>
      obtain ⟨_, horder, heq⟩ := Option.map_eq_some_iff.mp hheld
      cases heq
      exact GameRequest.terminator_notMem_order horder

/-- What a call with a search term asks for behind the field list. -/
theorem render_tail_of_some
    {term : String} (h : call.request.term = some term) :
    (call.tail b).render =
      (Clause.offset call.offset).render ++ (Clause.limit call.limit).render := by
  rw [GameRequest.term_eq_some_iff] at h
  simp [Query.render, Query.clauses, tail, h, GameRequest.condition, GameRequest.order,
    Query.empty]

/-- From the right end, the limit and the offset are told from any text before them. -/
theorem render_tail_cancel
    {front front' term term' : String}
    (hterm : call.request.term = some term)
    (hterm' : call'.request.term = some term')
    (h : front ++ (call.tail b).render = front' ++ (call'.tail b).render) :
    front = front' ∧ call.offset = call'.offset ∧ call.limit = call'.limit := by
  have hoffset : ∀ n : UInt32, ' ' ∉ (Clause.offset n).value.toList := fun _ =>
    Text.notMem_repr rfl _
  have hlimit : ∀ n : UInt32, ' ' ∉ (Clause.limit n).value.toList := fun _ =>
    Text.notMem_repr rfl _
  rw [render_tail_of_some hterm, render_tail_of_some hterm', ← String.append_assoc,
    ← String.append_assoc] at h
  obtain ⟨hrest, hlimits⟩ := Clause.append_render_cancel (c := .limit call.limit)
    (d := .limit call'.limit) rfl (hlimit _) (hlimit _) h
  obtain ⟨hfront, hoffsets⟩ := Clause.append_render_cancel (c := .offset call.offset)
    (d := .offset call'.offset) rfl (hoffset _) (hoffset _) hrest
  exact ⟨hfront, UInt32.toNat_inj.mp (Nat.repr_inj.mp hoffsets),
    UInt32.toNat_inj.mp (Nat.repr_inj.mp hlimits)⟩

theorem eq_of_some
    {term term' : String}
    (hterm : call.request.term = some term)
    (hterm' : call'.request.term = some term')
    (h : (call.query b fields).render = (call'.query b fields).render) :
    call = call' := by
  rw [render_query_of_some hterm, render_query_of_some hterm'] at h
  obtain ⟨hfront, hoffset, hlimit⟩ := render_tail_cancel hterm hterm' h
  have hsearch := (String.append_left_inj _).mp hfront
  have hvalue : term = term' := by
    simpa [Clause.render, Clause.keyword, Clause.value] using hsearch
  rw [GameRequest.term_eq_some_iff] at hterm hterm'
  exact ext_parts (by rw [hterm, hterm', hvalue]) hoffset hlimit

theorem eq_of_none
    (hids : call.request.IntegerIds)
    (hids' : call'.request.IntegerIds)
    (hterm : call.request.term = none)
    (hterm' : call'.request.term = none)
    (h : (call.query b fields).render = (call'.query b fields).render) :
    call = call' := by
  rw [render_query_of_none hterm, render_query_of_none hterm', String.append_right_inj] at h
  have hclauses := Clause.kinds_values_of_join (plain_tail hids) (plain_tail hids') h
  have htail := (Query.agrees_of_clauses hclauses).eq_of_selection_none rfl
  simp only [tail, Query.mk.injEq, Option.some.injEq, true_and] at htail
  obtain ⟨hcondition, hoffset, hlimit, horder⟩ := htail
  have hrequest := GameRequest.eq_of_parts hids hids' (hterm.trans hterm'.symm) hcondition horder
  exact ext_parts hrequest hoffset hlimit

/-- A text that begins with a search clause does not begin with a field list. -/
theorem render_ne_of_some_of_none
    {term : String}
    (hterm : call.request.term = some term)
    (hterm' : call'.request.term = none) :
    (call.query b fields).render ≠ (call'.query b fields).render := by
  intro h
  rw [render_query_of_some hterm, render_query_of_none hterm', String.append_assoc] at h
  cases (Clause.keyword_append_cancel h).1

/-- With one field list, the text of a call tells the call. -/
theorem eq_of_render_query
    (hids : call.request.IntegerIds)
    (hids' : call'.request.IntegerIds)
    (h : (call.query b fields).render = (call'.query b fields).render) :
    call = call' := by
  cases hterm : call.request.term with
  | none =>
      cases hterm' : call'.request.term with
      | none => exact eq_of_none hids hids' hterm hterm' h
      | some term' => exact absurd h.symm (render_ne_of_some_of_none hterm' hterm)
  | some term =>
      cases hterm' : call'.request.term with
      | none => exact absurd h (render_ne_of_some_of_none hterm hterm')
      | some term' => exact eq_of_some hterm hterm' h

end GameCall

/--
Whatever a registry was asked before, a game catalogue with fixed bounds answers every
request of a run, and two requests of the run get the same text iff they are the same:
the same kind of request with the same term or the same identifiers, the same offset and
the same limit.
-/
theorem GameCatalog.askAll_text_eq_iff
    {ι : Type} [DecidableEq ι]
    (t : GameTable ι) (earlier : List (RegistryCall ι))
    (b : ReleaseBounds) (calls : List GameCall)
    (hids : ∀ call ∈ calls, call.request.IntegerIds) :
    let texts := (ofBounds b).askAll t (Registry.empty.after t.toShapeTable earlier) calls
    texts.length = calls.length ∧
    (∀ answer ∈ texts, ∃ text, answer = .ok text) ∧
    ∀ (j k : Nat) (call call' : GameCall), calls[j]? = some call → calls[k]? = some call' →
      (texts[j]? = texts[k]? ↔ call = call') := by
  obtain ⟨fields, hfields⟩ := GameShape.exists_fieldList_eq t
  have hall := askAll_eq_map (c := ofBounds b) hfields (by simp [Keeps, ofBounds])
    (Registry.sound_after _ earlier) calls
  simp only [hall, List.length_map, List.forall_mem_map, List.getElem?_map, true_and]
  refine ⟨fun call _ => ⟨_, rfl⟩, fun j k call call' hj hk => ?_⟩
  simp only [hj, hk, Option.map_some, Option.some.injEq, Except.ok.injEq]
  constructor
  · exact GameCall.eq_of_render_query (hids _ (List.mem_of_getElem? hj))
      (hids _ (List.mem_of_getElem? hk))
  · rintro rfl
    rfl

/--
A term with the text of whole clauses in it, and identifiers that have the same digits, over
a registry that holds a shape with a game nested in it.
-/
theorem GameCatalog.askAll_text_eq_iff_imitation :
    let term := "zelda\";fields id;where id = (1, 23);offset 0;limit 5;search \"zelda"
    let calls : List GameCall :=
      [ ⟨.search term, 0, 5⟩, ⟨.byIds [.integer 1, .integer 23], 0, 5⟩,
        ⟨.byIds [.integer 12, .integer 3], 0, 5⟩, ⟨.search "zelda", 0, 5⟩, ⟨.search term, 0, 5⟩ ]
    let t := (GameTable.beside SampleShape.table).extend
      #v[⟨"Review", [⟨"text", .scalar⟩, ⟨"of", .nested (.inr (.inr .game))⟩]⟩]
    let texts := (ofBounds (.ofWindows .standard 1600000000)).askAll t
      (Registry.empty.after t.toShapeTable [.paths (.inr (.inl .brokenParent)), .resolve (.inl 0)])
      calls
    (∀ call ∈ calls, call.request.IntegerIds) ∧
      texts[0]? = texts[4]? ∧ texts[0]? ≠ texts[3]? ∧ texts[0]? ≠ texts[1]? ∧
      texts[1]? ≠ texts[2]? := by
  intro term calls t texts
  have hids : ∀ call ∈ calls, call.request.IntegerIds := by
    simp only [calls, List.forall_mem_cons]
    exact ⟨trivial, ⟨[1, 23], rfl⟩, ⟨[12, 3], rfl⟩, trivial, trivial, by simp⟩
  obtain ⟨_, _, htexts⟩ := askAll_text_eq_iff t
    [.paths (.inr (.inl .brokenParent)), .resolve (.inl 0)] (.ofWindows .standard 1600000000)
    calls hids
  refine ⟨hids, (htexts 0 4 _ _ rfl rfl).mpr rfl, ?_, ?_, ?_⟩
  · exact mt (htexts 0 3 _ _ rfl rfl).mp (by decide)
  · exact mt (htexts 0 1 _ _ rfl rfl).mp (by decide)
  · exact mt (htexts 1 2 _ _ rfl rfl).mp (by decide)

end ShapeQuery
