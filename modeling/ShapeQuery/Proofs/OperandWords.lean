import ShapeQuery.Condition

/-!
# The words of an operand

The text of an operand is cut at its spaces into *words*: a single value is one
word, and a list has one word for each element.  The words of a list are read from
the left: the first begins with the opening delimiter, which tells the operator,
and the list goes on as long as its words end in a comma.
-/

namespace ShapeQuery

namespace Operator

variable {op op' : Operator}

/-- The characters with which the list delimiters begin. -/
def listMarks : List Char := ['[', '(', '\x7b', '!']

theorem open_mark
    (hop : op.isList) :
    ∃ c ∈ listMarks, ∃ s : String, op.delimiters.1 = String.singleton c ++ s := by
  cases op with
  | containsAllOf => exact ⟨'[', by simp [listMarks], "", rfl⟩
  | doesNotContainAllOf => exact ⟨'!', by simp [listMarks], "[", rfl⟩
  | containsAnyOf => exact ⟨'(', by simp [listMarks], "", rfl⟩
  | doesNotContainAnyOf => exact ⟨'!', by simp [listMarks], "(", rfl⟩
  | containsExclusivelyAllOf => exact ⟨'\x7b', by simp [listMarks], "", rfl⟩
  | _ => cases hop

/-- The five opening delimiters tell the list operators apart, whatever follows them. -/
theorem eq_of_open_append {s s' : String}
    (hop : op.isList)
    (hop' : op'.isList)
    (h : op.delimiters.1 ++ s = op'.delimiters.1 ++ s') :
    op = op' := by
  have hchars := congrArg String.toList h
  cases op <;> cases hop <;> cases op' <;> cases hop' <;> first
    | rfl
    | simp [delimiters, Token.allOfOpen, Token.anyOfOpen, Token.exactlyOpen,
        Token.notAllOfOpen, Token.notAnyOfOpen] at hchars

/-- The tokens tell the other operators apart. -/
theorem eq_of_token
    (hop : op.isList = false)
    (hop' : op'.isList = false)
    (h : op.token = op'.token) :
    op = op' := by
  cases op <;> cases hop <;> cases op' <;> cases hop' <;> first
    | rfl
    | simp [token] at h

theorem space_notMem_token
    (op : Operator) :
    ' ' ∉ op.token.toList := by
  cases op <;> decide

theorem separators_notMem_open
    (op : Operator) :
    ' ' ∉ op.delimiters.1.toList ∧ ',' ∉ op.delimiters.1.toList := by
  cases op <;> decide

theorem separators_notMem_close
    (op : Operator) :
    ' ' ∉ op.delimiters.2.toList ∧ ',' ∉ op.delimiters.2.toList := by
  cases op <;> decide

end Operator

namespace Combinator

theorem eq_of_token {op op' : Combinator}
    (h : op.token = op'.token) :
    op = op' := by
  cases op <;> cases op' <;> first
    | rfl
    | simp [token] at h

theorem space_notMem_token
    (op : Combinator) :
    ' ' ∉ op.token.toList := by
  cases op <;> decide

end Combinator

/-- The words of a list text, the first of which begins with `front`. -/
def listWords (front close : String) : List String → List String
  | [] => [front ++ close]
  | v :: vs => (front ++ ",") :: listWords v close vs

section ListWords

variable {front front' close : String} {vs vs' r r' : List String}

theorem listWords_ne_nil :
    listWords front close vs ≠ [] := by
  cases vs <;> simp [listWords]

theorem listWords_append_eq_cons
    (front close : String)
    (vs r : List String) :
    ∃ s rest, listWords front close vs ++ r = (front ++ s) :: rest := by
  cases vs with
  | nil =>
      exact ⟨close, r, rfl⟩
  | cons v vs =>
      exact ⟨",", listWords v close vs ++ r, rfl⟩

theorem space_notMem_listWords
    (hclose : ' ' ∉ close.toList)
    (hfront : ' ' ∉ front.toList)
    (hvs : ∀ v ∈ vs, ' ' ∉ v.toList) :
    ∀ w ∈ listWords front close vs, ' ' ∉ w.toList := by
  induction vs generalizing front with
  | nil =>
      simp [listWords, hfront, hclose]
  | cons v vs ih =>
      rw [List.forall_mem_cons] at hvs
      simpa [listWords, hfront] using ih hvs.1 hvs.2

/-- The spaces of a list text are those of its separators. -/
theorem intercalate_listWords
    (start front close : String)
    (vs : List String) :
    " ".intercalate (listWords (start ++ front) close vs) =
      start ++ Token.valueSeparator.intercalate (front :: vs) ++ close := by
  induction vs generalizing start front with
  | nil =>
      simp [listWords]
  | cons v vs ih =>
      have hrest := ih "" v
      simp only [String.empty_append] at hrest
      rw [listWords, String.intercalate_cons_of_ne_nil listWords_ne_nil, hrest,
        String.intercalate_cons_cons]
      simp [Token.valueSeparator, String.append_assoc]

theorem append_ne_append_comma
    (hclose : ',' ∉ close.toList)
    (hfront : ',' ∉ front.toList) :
    front ++ close ≠ front' ++ "," := by
  intro h
  have hmem : ',' ∈ (front ++ close).toList := by
    simp [h]
  rw [String.toList_append, List.mem_append] at hmem
  exact hmem.elim hfront hclose

/-- The words of a list end at the first word without a comma at its end. -/
theorem listWords_append_cancel
    (hclose : ',' ∉ close.toList)
    (hfront : ',' ∉ front.toList)
    (hfront' : ',' ∉ front'.toList)
    (hvs : ∀ v ∈ vs, ',' ∉ v.toList)
    (hvs' : ∀ v ∈ vs', ',' ∉ v.toList)
    (h : listWords front close vs ++ r = listWords front' close vs' ++ r') :
    front = front' ∧ vs = vs' ∧ r = r' := by
  induction vs generalizing front front' vs' with
  | nil =>
      cases vs' with
      | nil =>
          simp [listWords] at h
          exact ⟨h.1, rfl, h.2⟩
      | cons v' vs' =>
          have hword := (List.cons.inj h).1
          exact absurd hword (append_ne_append_comma hclose hfront)
  | cons v vs ih =>
      cases vs' with
      | nil =>
          have hword := (List.cons.inj h).1
          exact absurd hword.symm (append_ne_append_comma hclose hfront')
      | cons v' vs' =>
          rw [List.forall_mem_cons] at hvs hvs'
          simp only [listWords, List.cons_append, List.cons.injEq, String.append_left_inj] at h
          obtain ⟨rfl, rfl, rfl⟩ := ih hvs.1 hvs'.1 hvs.2 hvs'.2 h.2
          exact ⟨h.1, rfl, rfl⟩

end ListWords

namespace Operand

def words (op : Operator) : Operand → List String
  | value text => [text]
  | list texts =>
      listWords (op.delimiters.1 ++ texts.headD "") op.delimiters.2 texts.tail

/-- Operands whose text can be read back. -/
def Plain : Operand → Prop
  | value text =>
      ' ' ∉ text.toList ∧ ∀ c ∈ Operator.listMarks, text.toList.head? ≠ some c
  | list texts =>
      ∀ v ∈ texts, v ≠ "" ∧ ' ' ∉ v.toList ∧ ',' ∉ v.toList

/-- The marks are gone through as a list, and not as the characters that are marks. -/
instance : (o : Operand) → Decidable o.Plain
  | value _ => @instDecidableAnd _ _ _ (List.decidableBAll _ _)
  | list _ => List.decidableBAll _ _

variable {op op' : Operator} {o o' : Operand} {texts texts' r r' : List String}

theorem words_ne_nil
    (op : Operator) (o : Operand) :
    o.words op ≠ [] := by
  cases o with
  | value text =>
      simp [words]
  | list texts =>
      exact listWords_ne_nil

theorem render_eq_intercalate
    (op : Operator) (o : Operand) :
    o.render op = " ".intercalate (o.words op) := by
  cases o with
  | value text =>
      simp [words, render]
  | list texts =>
      rw [words, intercalate_listWords, render]
      cases texts with
      | nil =>
          simp
      | cons v vs =>
          rfl

theorem notMem_append_headD {ch : Char} {start : String}
    (hstart : ch ∉ start.toList)
    (htexts : ∀ v ∈ texts, ch ∉ v.toList) :
    ch ∉ (start ++ texts.headD "").toList := by
  cases texts with
  | nil =>
      simpa using hstart
  | cons v vs =>
      simpa [hstart] using htexts v (by simp)

theorem space_notMem_words
    (ho : o.Plain) :
    ∀ w ∈ o.words op, ' ' ∉ w.toList := by
  cases o with
  | value text =>
      simpa [words] using ho.1
  | list texts =>
      apply space_notMem_listWords
      · exact op.separators_notMem_close.1
      · exact notMem_append_headD op.separators_notMem_open.1 fun v hv => (ho v hv).2.1
      · intro v hv
        exact (ho v (List.mem_of_mem_tail hv)).2.1

theorem words_list_append_eq_cons
    (op : Operator)
    (texts r : List String) :
    ∃ s rest, (list texts).words op ++ r = (op.delimiters.1 ++ s) :: rest := by
  obtain ⟨s, rest, h⟩ := listWords_append_eq_cons
    (op.delimiters.1 ++ texts.headD "") op.delimiters.2 texts.tail r
  rw [String.append_assoc] at h
  exact ⟨texts.headD "" ++ s, rest, h⟩

/-- A plain value does not begin like a list. -/
theorem words_value_ne_words_list {text : String}
    (htext : (value text).Plain)
    (hop' : op'.isList) :
    (value text).words op ++ r ≠ (list texts).words op' ++ r' := by
  intro h
  obtain ⟨c, hc, s, hs⟩ := Operator.open_mark hop'
  obtain ⟨s', rest, hrest⟩ := words_list_append_eq_cons op' texts r'
  rw [hrest, hs, words, List.singleton_append] at h
  have hword := (List.cons.inj h).1
  refine htext.2 c hc ?_
  rw [hword]
  simp

/-- The words of lists tell their operators apart. -/
theorem operator_eq_of_words_list
    (hop : op.isList)
    (hop' : op'.isList)
    (h : (list texts).words op ++ r = (list texts').words op' ++ r') :
    op = op' := by
  obtain ⟨s, rest, hs⟩ := words_list_append_eq_cons op texts r
  obtain ⟨s', rest', hs'⟩ := words_list_append_eq_cons op' texts' r'
  rw [hs, hs'] at h
  exact Operator.eq_of_open_append hop hop' (List.cons.inj h).1

theorem eq_of_headD_of_tail
    (htexts : ∀ v ∈ texts, v ≠ "")
    (htexts' : ∀ v ∈ texts', v ≠ "")
    (hhead : texts.headD "" = texts'.headD "")
    (htail : texts.tail = texts'.tail) :
    texts = texts' := by
  cases texts with
  | nil =>
      cases texts' with
      | nil =>
          rfl
      | cons v' vs' =>
          exact absurd hhead.symm (htexts' v' (by simp))
  | cons v vs =>
      cases texts' with
      | nil =>
          exact absurd hhead (htexts v (by simp))
      | cons v' vs' =>
          exact List.cons_eq_cons.mpr ⟨hhead, htail⟩

/-- After a given operator, the words of a plain list end by themselves. -/
theorem words_list_append_cancel
    (ho : (list texts).Plain)
    (ho' : (list texts').Plain)
    (h : (list texts).words op ++ r = (list texts').words op ++ r') :
    texts = texts' ∧ r = r' := by
  have hcancel := listWords_append_cancel
    op.separators_notMem_close.2
    (notMem_append_headD op.separators_notMem_open.2 fun v hv => (ho v hv).2.2)
    (notMem_append_headD op.separators_notMem_open.2 fun v hv => (ho' v hv).2.2)
    (fun v hv => (ho v (List.mem_of_mem_tail hv)).2.2)
    (fun v hv => (ho' v (List.mem_of_mem_tail hv)).2.2)
    h
  obtain ⟨hfront, htail, hr⟩ := hcancel
  have hhead := (String.append_right_inj _).mp hfront
  have htexts : texts = texts' :=
    eq_of_headD_of_tail (fun v hv => (ho v hv).1) (fun v hv => (ho' v hv).1) hhead htail
  exact ⟨htexts, hr⟩

end Operand

end ShapeQuery
