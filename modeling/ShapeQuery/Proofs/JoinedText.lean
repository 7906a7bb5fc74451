import ShapeQuery.Token

/-!
# Texts joined by the field separator

Texts that are joined by the separator of field lists are found again by splitting at
it, if none of them holds the separator itself.  They may begin with its space and
end with its comma: the separator is never found across the end of a text, because
its space would have to stand where its comma does.
-/

namespace ShapeQuery

open String.Slice.Pattern

section Occurrences

/-- Around a character that it lacks, a word stands on one of the two sides. -/
theorem infix_append_cons_iff
    {α : Type} {word before after : List α} {x : α}
    (hx : x ∉ word) :
    word <:+: before ++ x :: after ↔ word <:+: before ∨ word <:+: after := by
  constructor
  · intro h
    rcases List.infix_append_iff.mp h with h | h | ⟨front, back, rfl, hfront, hback⟩
    · exact .inl h
    · rcases List.infix_cons_iff.mp h with h | h
      · rcases List.prefix_cons_iff.mp h with rfl | ⟨rest, rfl, _⟩
        · exact .inl List.nil_infix
        · exact absurd List.mem_cons_self hx
      · exact .inr h
    · rcases List.prefix_cons_iff.mp hback with rfl | ⟨rest, rfl, _⟩
      · rw [List.append_nil]
        exact .inl hfront.isInfix
      · simp at hx
  · rintro (h | h)
    · exact h.trans (List.prefix_append _ _).isInfix
    · exact h.trans ((List.suffix_cons x after).isInfix.trans (List.suffix_append _ _).isInfix)

/-- The text does not hold the separator of field lists. -/
def Unseparated (text : String) : Prop :=
  ¬ Token.fieldSeparator.toList <:+: text.toList

instance (text : String) : Decidable (Unseparated text) :=
  inferInstanceAs (Decidable (¬ _))

/-- Behind a text, the field list ends or goes on with the separator. -/
def Follows (more : String) : Prop :=
  more = "" ∨ ∃ rest, more = Token.fieldSeparator ++ rest

/-- The separator does not begin in a text that does not hold it. -/
theorem not_separator_prefix
    {front back more : String}
    (htext : Unseparated (front ++ back))
    (hback : back ≠ "")
    (hmore : Follows more) :
    ¬ ∃ rest, back ++ more = Token.fieldSeparator ++ rest := by
  rintro ⟨rest, h⟩
  have hseparator : Token.fieldSeparator.toList = [',', ' '] := rfl
  have hlist := congrArg String.toList h
  rw [String.toList_append, String.toList_append, hseparator] at hlist
  rw [Unseparated, String.toList_append, hseparator] at htext
  cases hchars : back.toList with
  | nil =>
      exact hback (String.toList_eq_nil_iff.mp hchars)
  | cons c chars =>
      rw [hchars] at hlist htext
      cases chars with
      | nil =>
          rcases hmore with rfl | ⟨more, rfl⟩
          · simp at hlist
          · rw [String.toList_append, hseparator] at hlist
            simp at hlist
      | cons d chars =>
          simp only [List.cons_append, List.cons.injEq, List.nil_append] at hlist
          obtain ⟨rfl, rfl, _⟩ := hlist
          exact htext ⟨front.toList, chars, by simp⟩

end Occurrences

section Splitting

variable {s : String.Slice} {start stop : s.Pos} {before p more : String}

/-- Nothing is found inside of a text that does not hold the separator. -/
theorem not_matchesAt_of_unseparated
    (hp : Unseparated p)
    (hmore : Follows more)
    (hstart : start.Splits before (p ++ more))
    (hstop : stop.Splits (before ++ p) more) :
    ∀ pos : s.Pos, start ≤ pos → pos < stop →
      ¬ Model.MatchesAt Token.fieldSeparator pos := by
  intro pos hge hlt hmatch
  obtain ⟨left, right, hpos⟩ := Model.ForwardStringSearcher.matchesAt_iff_splits.mp hmatch
  obtain ⟨front, rfl, hfront⟩ := (hstart.le_iff_exists_eq_append hpos).mp hge
  obtain ⟨back, hback, hp', hright⟩ := (hpos.lt_iff_exists_eq_append hstop).mp hlt
  rw [String.append_assoc, String.append_right_inj] at hp'
  subst hp'
  exact not_separator_prefix hp hback hmore ⟨right, hright.symm⟩

theorem copy_subslice
    (h : start ≤ stop)
    (hstart : start.Splits before (p ++ more))
    (hstop : stop.Splits (before ++ p) more) :
    (s.subslice start stop h).copy = p := by
  obtain ⟨_, hcopy⟩ := String.Slice.copy_slice_eq_iff_splits.mpr ⟨before, more, hstart, hstop⟩
  exact hcopy

theorem fieldSeparator_ne_empty :
    Token.fieldSeparator ≠ "" := by
  decide

instance : Model.StrictPatternModel Token.fieldSeparator :=
  Model.ForwardStringSearcher.strictPatternModel fieldSeparator_ne_empty

instance : Model.LawfulToForwardSearcherModel Token.fieldSeparator :=
  Model.ForwardStringSearcher.lawfulToForwardSearcherModel fieldSeparator_ne_empty

/-- From the beginning of some of the joined texts, splitting gives these texts. -/
theorem map_copy_modelSplit
    {ps : List String}
    (hne : ps ≠ [])
    (hps : ∀ p ∈ ps, Unseparated p)
    (hstart : start.Splits before (Token.fieldSeparator.intercalate ps)) :
    (Model.split Token.fieldSeparator start start start.le_refl).map String.Slice.Subslice.copy = ps := by
  induction ps generalizing start before with
  | nil =>
      exact absurd rfl hne
  | cons p rest ih =>
      rw [List.forall_mem_cons] at hps
      cases rest with
      | nil =>
          rw [String.intercalate_singleton, ← String.append_empty (s := p)] at hstart
          have hend : s.endPos.Splits (before ++ p) "" :=
            String.Slice.splits_endPos_iff.mpr ⟨by rw [hstart.eq_append, String.append_empty], rfl⟩
          have hle : start ≤ s.endPos := String.Slice.Pos.le_endPos _
          rw [Model.split_eq_of_not_matchesAt s.endPos hle
            (not_matchesAt_of_unseparated hps.1 (.inl rfl) hstart hend), Model.split_endPos,
            List.map_singleton, copy_subslice hle hstart hend]
      | cons q rest =>
          rw [String.intercalate_cons_cons, String.append_assoc] at hstart
          have htext := hstart.eq_append
          rw [← String.append_assoc] at htext
          have hmid := String.Slice.Pos.splits_ofEqAppend htext
          rw [← String.append_assoc] at htext
          have hstop := String.Slice.Pos.splits_ofEqAppend htext
          have hle := (hstart.le_iff_exists_eq_append hmid).mpr ⟨p, rfl, rfl⟩
          rw [Model.split_eq_of_not_matchesAt _ hle
              (not_matchesAt_of_unseparated hps.1 (.inr ⟨_, rfl⟩) hstart hmid),
            Model.split_eq_of_isLongestMatchAt
              (Model.ForwardStringSearcher.isLongestMatchAt_iff_splits.mpr ⟨_, _, hmid, hstop⟩),
            List.map_cons, copy_subslice hle hstart hmid, ih (List.cons_ne_nil _ _) hps.2 hstop]

/-- Joined texts are found again by splitting, if none of them holds the separator. -/
theorem split_intercalate_fieldSeparator
    {ps : List String}
    (hne : ps ≠ [])
    (hps : ∀ p ∈ ps, Unseparated p) :
    ((Token.fieldSeparator.intercalate ps).split Token.fieldSeparator).toList.map
      String.Slice.copy = ps := by
  have hstart := String.Slice.splits_startPos (Token.fieldSeparator.intercalate ps).toSlice
  rw [String.copy_toSlice] at hstart
  rw [String.split_eq_split_toSlice, String.Slice.toList_split_eq_splitToSubslice,
    toList_splitToSubslice_eq_modelSplit, List.map_map, ← String.Slice.Subslice.copy_eq]
  exact map_copy_modelSplit hne hps hstart

end Splitting
end ShapeQuery
