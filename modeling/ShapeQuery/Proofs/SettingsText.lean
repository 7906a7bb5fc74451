import ShapeQuery.Release.Settings
import Mathlib.Data.List.Forall2
import Mathlib.Data.List.TakeDrop

/-!
# What settings texts give

A settings text is read line by line.  A line gives nothing, or it gives one of the two keys
a number of days (`Gives`).  A text is read iff each of its lines does one or the other and
no key is given twice, and then the settings have what the lines give (`ofText?_eq_some_iff`).

**Written lines.**  A key without quotes, an equality sign and a decimal number give the key
that number, whatever blanks stand around them and whatever comment stands behind them
(`gives_entry`).

**Written texts.**  The lines of a text may end in either way, and a byte order mark may stand
in front of them.  The windows that such a text gives are those of its entries, and the
standard ones where there is none (`ofText?_written`).
-/

namespace ShapeQuery
namespace Settings

/-- The keys of settings. -/
inductive Key
  | popular
  | recent
  deriving DecidableEq

def Key.name : Key → String
  | popular => "popular_days"
  | recent => "recent_days"

theorem Key.name_injective :
    Function.Injective Key.name := by
  intro key key' h
  cases key <;> cases key'
  case popular.popular => rfl
  case recent.recent => rfl
  all_goals simp [name] at h

/-- The days that settings have for a key. -/
def days (s : Settings) : Key → Option UInt32
  | .popular => s.popularDays
  | .recent => s.recentDays

/-- A line gives nothing, or it gives a key some days. -/
inductive Gives : List Char → Option (Key × UInt32) → Prop
  | nothing {line : List Char} :
      isDone line = true →
      Gives line none
  | days {line : List Char} {key : Key} {days : UInt32} :
      isDone line = false →
      readEntry (line.dropWhile isGap) = some (key.name.toList, (days.toNat : Int)) →
      Gives line (some (key, days))

/-- The days that a key is given, one after another. -/
def givenTo (key : Key) (given : List (Option (Key × UInt32))) : List UInt32 :=
  given.filterMap fun entry => entry.bind fun e => if e.1 = key then some e.2 else none

section Reading

variable {s s' : Settings} {key : Key} {n : Int} {word : List Char}

theorem ext_days
    (h : ∀ key, s.days key = s'.days key) :
    s = s' := by
  obtain ⟨popularDays, recentDays⟩ := s
  obtain ⟨popularDays', recentDays'⟩ := s'
  obtain rfl : popularDays = popularDays' := h .popular
  obtain rfl : recentDays = recentDays' := h .recent
  rfl

theorem days?_eq_some_iff
    {d : UInt32} :
    days? n = some d ↔ n = d.toNat := by
  have hsize := d.toNat_lt_size
  rw [days?]
  split
  next hn =>
    rw [Option.some.injEq, ← UInt32.toNat_inj, UInt32.toNat_ofNat_of_lt' (by omega)]
    omega
  next hn =>
    constructor
    · intro h
      cases h
    · rintro rfl
      omega

/-- An entry is taken in iff it gives a key that is not set yet some days. -/
theorem set_eq_some_iff :
    s.set word n = some s' ↔
      ∃ (key : Key) (d : UInt32),
        word = key.name.toList ∧ n = d.toNat ∧ s.days key = none ∧
        ∀ k, s'.days k = if k = key then some d else s.days k := by
  constructor
  · intro h
    unfold set at h
    split at h
    next => cases h
    next d hd =>
      have hn := days?_eq_some_iff.mp hd
      split at h
      next hkey =>
        cases h
        exact ⟨.popular, d, hkey.1, hn, hkey.2, fun k => by cases k <;> rfl⟩
      next =>
        split at h
        next hkey =>
          cases h
          exact ⟨.recent, d, hkey.1, hn, hkey.2, fun k => by cases k <;> rfl⟩
        next => cases h
  · rintro ⟨key, d, rfl, hn, hkey, hdays⟩
    rw [set, days?_eq_some_iff.mpr hn]
    cases key with
    | popular =>
        have hs : s' = { s with popularDays := some d } :=
          ext_days fun k => by rw [hdays k]; cases k <;> rfl
        simp [Key.name, hs, show s.popularDays = none from hkey]
    | recent =>
        have hs : s' = { s with recentDays := some d } :=
          ext_days fun k => by rw [hdays k]; cases k <;> rfl
        simp [Key.name, hs, show s.recentDays = none from hkey]

theorem exists_days_eq
    (days : Key → Option UInt32) :
    ∃ s : Settings, s.days = days :=
  ⟨⟨days .popular, days .recent⟩, funext fun k => by cases k <;> rfl⟩

theorem givenTo_cons_days
    (k : Key) (d : UInt32) (given : List (Option (Key × UInt32))) :
    givenTo k (some (key, d) :: given) = (if k = key then [d] else []) ++ givenTo k given := by
  by_cases hk : k = key
  · simp [givenTo, hk]
  · simp [givenTo, hk, Ne.symm hk]

/-- What is given first moves over to the days that settings have. -/
theorem toList_days_append_givenTo
    {taken : Settings} {d : UInt32}
    (hkey : s.days key = none)
    (hdays : ∀ k, taken.days k = if k = key then some d else s.days k)
    (given : List (Option (Key × UInt32))) (k : Key) :
    (taken.days k).toList ++ givenTo k given =
      (s.days k).toList ++ givenTo k (some (key, d) :: given) := by
  rw [givenTo_cons_days, hdays k, ← List.append_assoc]
  by_cases hk : k = key
  · simp [hk, hkey]
  · simp [hk]

/-- A key that is given some days has none yet. -/
theorem days_eq_none_of_givenTo
    {d : UInt32} {given : List (Option (Key × UInt32))}
    (h : (s.days key).toList ++ givenTo key (some (key, d) :: given) = (s'.days key).toList) :
    s.days key = none := by
  have hlength := congrArg List.length h
  rw [givenTo_cons_days, if_pos rfl] at hlength
  cases hs : s.days key with
  | none => rfl
  | some d' =>
      have hle := Option.length_toList_le (o := s'.days key)
      simp [hs] at hlength
      omega

theorem readLines_cons_of_isDone
    {line : List Char} {rest : List (List Char)}
    (hdone : isDone line = true) :
    s.readLines (line :: rest) = s.readLines rest := by
  rw [readLines, if_pos hdone]

theorem readLines_cons_of_not_isDone
    {line : List Char} {rest : List (List Char)}
    (hdone : isDone line = false) :
    s.readLines (line :: rest) =
      (readEntry (line.dropWhile isGap)).bind fun entry =>
        (s.set entry.1 entry.2).bind fun taken => taken.readLines rest := by
  rw [readLines, if_neg (by simp [hdone])]
  cases readEntry (line.dropWhile isGap) with
  | none => rfl
  | some entry =>
      obtain ⟨word, n⟩ := entry
      simp only [Option.bind_some]
      cases s.set word n <;> rfl

/-- One line is read iff it gives nothing, or gives a key that is not set yet some days. -/
theorem readLines_cons_eq_some_iff
    {line : List Char} {rest : List (List Char)} :
    s.readLines (line :: rest) = some s' ↔
      (Gives line none ∧ s.readLines rest = some s') ∨
        ∃ (key : Key) (d : UInt32) (taken : Settings),
          Gives line (some (key, d)) ∧ s.days key = none ∧
          (∀ k, taken.days k = if k = key then some d else s.days k) ∧
          taken.readLines rest = some s' := by
  constructor
  · intro h
    cases hdone : isDone line with
    | true =>
        rw [readLines_cons_of_isDone hdone] at h
        exact .inl ⟨.nothing hdone, h⟩
    | false =>
        rw [readLines_cons_of_not_isDone hdone, Option.bind_eq_some_iff] at h
        obtain ⟨entry, hentry, htaken⟩ := h
        obtain ⟨taken, hset, hrest⟩ := Option.bind_eq_some_iff.mp htaken
        obtain ⟨key, d, hword, hn, hkey, hdays⟩ := set_eq_some_iff.mp hset
        obtain rfl : entry = (key.name.toList, (d.toNat : Int)) := Prod.ext hword hn
        exact .inr ⟨key, d, taken, .days hdone hentry, hkey, hdays, hrest⟩
  · rintro (⟨hline, h⟩ | ⟨key, d, taken, hline, hkey, hdays, h⟩)
    · cases hline with
      | nothing hdone =>
          rw [readLines_cons_of_isDone hdone, h]
    · cases hline with
      | days hdone hentry =>
          have hset : s.set key.name.toList (d.toNat : Int) = some taken :=
            set_eq_some_iff.mpr ⟨key, d, rfl, rfl, hkey, hdays⟩
          rw [readLines_cons_of_not_isDone hdone, Option.bind_eq_some_iff]
          exact ⟨_, hentry, Option.bind_eq_some_iff.mpr ⟨taken, hset, h⟩⟩

/--
Lines are read iff each of them gives nothing or gives a key some days, and no key gets days
that has some already.
-/
theorem readLines_eq_some_iff
    {ls : List (List Char)} :
    s.readLines ls = some s' ↔
      ∃ given, List.Forall₂ Gives ls given ∧
        ∀ key, (s.days key).toList ++ givenTo key given = (s'.days key).toList := by
  induction ls generalizing s with
  | nil =>
      simp only [readLines, Option.some.injEq, List.forall₂_nil_left_iff, exists_eq_left, givenTo,
        List.filterMap_nil, List.append_nil]
      constructor
      · rintro rfl key
        rfl
      · intro h
        refine ext_days fun key => ?_
        rw [← Option.head?_toList (o := s.days key), h key, Option.head?_toList]
  | cons line rest ih =>
      rw [readLines_cons_eq_some_iff]
      constructor
      · rintro (⟨hline, h⟩ | ⟨key, d, taken, hline, hkey, hdays, h⟩)
        · obtain ⟨given, hgives, hgiven⟩ := ih.mp h
          exact ⟨none :: given, .cons hline hgives, hgiven⟩
        · obtain ⟨given, hgives, hgiven⟩ := ih.mp h
          refine ⟨some (key, d) :: given, .cons hline hgives, fun k => ?_⟩
          rw [← toList_days_append_givenTo hkey hdays, hgiven k]
      · rintro ⟨given, hgives, hgiven⟩
        cases hgives with
        | @cons _ entry _ given hline hgives =>
            cases entry with
            | none =>
                exact .inl ⟨hline, ih.mpr ⟨given, hgives, hgiven⟩⟩
            | some entry =>
                obtain ⟨key, d⟩ := entry
                have hkey : s.days key = none := days_eq_none_of_givenTo (hgiven key)
                obtain ⟨taken, htaken⟩ :=
                  exists_days_eq fun k => if k = key then some d else s.days k
                have hdays := congrFun htaken
                refine .inr ⟨key, d, taken, hline, hkey, hdays, ih.mpr ⟨given, hgives, fun k => ?_⟩⟩
                rw [toList_days_append_givenTo hkey hdays, hgiven k]

/--
A settings text is read iff each of its lines gives nothing or gives a key some days, and no
key is given any twice.  The settings then have what is given.
-/
theorem ofText?_eq_some_iff
    {text : String} :
    ofText? text = some s ↔
      ∃ given, List.Forall₂ Gives (lines (Text.withoutMark text.toList)) given ∧
        ∀ key, givenTo key given = (s.days key).toList := by
  have hempty : ∀ key, empty.days key = none := fun key => by cases key <;> rfl
  simp only [ofText?, readLines_eq_some_iff, hempty, Option.toList_none, List.nil_append]

end Reading

section Numbers

variable {cs : List Char}

theorem digit?_of_isDigit
    {c : Char}
    (h : c.isDigit = true) :
    digit? 10 c = some (c.toNat - '0'.toNat) := by
  have hrange := Char.isDigit_iff_toNat.mp h
  have hlt : c.toNat - '0'.toNat < 10 := by
    simp at hrange ⊢
    omega
  rw [digit?, Text.hexDigit?, if_pos (show '0' ≤ c ∧ c ≤ '9' from hrange)]
  exact if_pos hlt

theorem moreDigits?_eq
    (h : ∀ c ∈ cs, c.isDigit = true) (n : Nat) :
    moreDigits? 10 n cs = some (Nat.ofDigitChars 10 cs n) := by
  induction cs generalizing n with
  | nil =>
      rw [moreDigits?, Nat.ofDigitChars_nil]
  | cons c rest ih =>
      obtain ⟨hc, hrest⟩ := List.forall_mem_cons.mp h
      have hscore : c ≠ '_' := by
        rintro rfl
        cases hc
      rw [moreDigits?.eq_3 _ _ _ _ (by simp [hscore]), digit?_of_isDigit hc, Nat.ofDigitChars_cons]
      exact ih hrest _

theorem head?_toDigits_ne
    {n : Nat}
    (h : 0 < n) :
    (Nat.toDigits 10 n).head? ≠ some '0' := by
  induction n using Nat.strongRecOn with
  | ind n ih =>
      rw [Nat.toDigits_eq_if (by omega)]
      split
      next hlt =>
        have hdigit : ∀ k < 10, 0 < k → [Nat.digitChar k].head? ≠ some '0' := by decide
        exact hdigit n hlt h
      next hge =>
        rw [List.head?_append_of_ne_nil _ Nat.toDigits_ne_nil]
        exact ih (n / 10) (by omega) (by omega)

theorem digits?_repr
    (n : Nat) :
    digits? 10 n.repr.toList = some n := by
  have hdigits : ∀ c ∈ n.repr.toList, c.isDigit = true := fun c hc => Text.isDigit_of_mem_repr hc
  have hvalue : Nat.ofDigitChars 10 n.repr.toList 0 = n := by
    rw [Nat.toList_repr, Nat.ofDigitChars_ten_toDigits]
  cases hlist : n.repr.toList with
  | nil =>
      rw [Nat.toList_repr] at hlist
      exact absurd hlist Nat.toDigits_ne_nil
  | cons c rest =>
      rw [hlist] at hdigits hvalue
      obtain ⟨hc, hrest⟩ := List.forall_mem_cons.mp hdigits
      rw [Nat.ofDigitChars_cons, Nat.mul_zero, Nat.zero_add] at hvalue
      simp only [digits?, digit?_of_isDigit hc, moreDigits?_eq hrest, hvalue]

theorem decimal?_repr
    (n : Nat) :
    decimal? n.repr.toList = some n := by
  unfold decimal?
  split
  next hlist =>
    rw [Nat.toList_repr] at hlist
    have hzero : n = 0 := by
      by_contra hne
      exact head?_toDigits_ne (Nat.pos_of_ne_zero hne) (by rw [hlist, List.head?_cons])
    rw [hzero, Nat.toDigits_zero] at hlist
    cases hlist
  next =>
    exact digits?_repr n

/-- The decimal text of a number is read with the same number. -/
theorem wholeNumber?_repr
    (n : Nat) :
    wholeNumber? n.repr.toList = some (n : Int) := by
  have hdigits : ∀ c ∈ n.repr.toList, c.isDigit = true := fun c hc => Text.isDigit_of_mem_repr hc
  unfold wholeNumber?
  split
  case h_6 =>
      rw [decimal?_repr]
      rfl
  all_goals
    rename_i hlist
    rw [hlist] at hdigits
    simp at hdigits

end Numbers

section Written

variable {key : Key} {d : UInt32} {line rest before between after behind : List Char}

theorem isDone_append
    (hbefore : ∀ c ∈ before, isGap c = true) :
    isDone (before ++ rest) = isDone rest := by
  induction before with
  | nil =>
      rfl
  | cons c more ih =>
      obtain ⟨hc, hmore⟩ := List.forall_mem_cons.mp hbefore
      have hmark : c ≠ '#' := by
        rintro rfl
        cases hc
      rw [List.cons_append, isDone.eq_3 _ _ (by simp [hmark]), hc, ih hmore, Bool.true_and]

/-- What is left of a line behind its value begins with a blank or the mark of a comment. -/
theorem stops_of_isDone
    (h : isDone behind = true) :
    ∀ c ∈ behind.head?, (!(isGap c || c = '#')) = false := by
  unfold isDone at h
  split at h
  next => simp
  next => simp
  next => simp_all

theorem not_isGap_of_mem_repr
    {c : Char} {n : Nat}
    (h : c ∈ n.repr.toList) :
    isGap c = false ∧ c ≠ '#' := by
  have hdigit := Text.isDigit_of_mem_repr h
  have hne : c ≠ ' ' ∧ c ≠ '\t' ∧ c ≠ '#' := by
    refine ⟨?_, ?_, ?_⟩ <;>
      · rintro rfl
        cases hdigit
  simp [isGap, hne]

theorem readValue_repr
    (h : isDone behind = true) (n : Nat) :
    readValue (n.repr.toList ++ behind) = some (n : Int) := by
  have hdigits : ∀ c ∈ n.repr.toList, (!(isGap c || c = '#')) = true := by
    intro c hc
    simp [not_isGap_of_mem_repr hc]
  have hstops := stops_of_isDone h
  rw [readValue, List.span_eq_takeWhile_dropWhile, Text.takeWhile_append hdigits hstops,
    Text.dropWhile_append hdigits hstops]
  simp only [h, if_true, wholeNumber?_repr]

theorem readKey_name
    (hrest : ∀ c ∈ rest.head?, isBareKeyChar c = false) (key : Key) :
    readKey (key.name.toList ++ rest) = some (key.name.toList, rest) := by
  have hkey : ∀ c ∈ key.name.toList, isBareKeyChar c = true := by
    cases key <;> exact List.all_eq_true.mp rfl
  have hspan : (key.name.toList ++ rest).span isBareKeyChar = (key.name.toList, rest) := by
    rw [List.span_eq_takeWhile_dropWhile, Text.takeWhile_append hkey hrest,
      Text.dropWhile_append hkey hrest]
  rw [← hspan]
  cases key <;> rfl

theorem isBareKeyChar_of_isGap
    {c : Char}
    (h : isGap c = true) :
    isBareKeyChar c = false := by
  simp only [isGap, Bool.or_eq_true, decide_eq_true_eq] at h
  obtain rfl | rfl := h <;> rfl

/-- A key ends where the blanks or the equality sign behind it begin. -/
theorem not_isBareKeyChar_of_head?
    (hbetween : ∀ c ∈ between, isGap c = true) :
    ∀ c ∈ (between ++ '=' :: rest).head?, isBareKeyChar c = false := by
  cases between with
  | nil =>
      rintro c ⟨⟩
      rfl
  | cons c more =>
      rintro _ ⟨⟩
      exact isBareKeyChar_of_isGap (hbetween c (List.mem_cons_self ..))

/-- A key, an equality sign and a decimal number give the key so many days. -/
theorem gives_entry
    (key : Key) (d : UInt32)
    (hbefore : ∀ c ∈ before, isGap c = true)
    (hbetween : ∀ c ∈ between, isGap c = true)
    (hafter : ∀ c ∈ after, isGap c = true)
    (hbehind : isDone behind = true) :
    Gives
      (before ++
        (key.name.toList ++ (between ++ '=' :: (after ++ (d.toNat.repr.toList ++ behind)))))
      (some (key, d)) := by
  have hname : ∀ c ∈ key.name.toList.head?, isGap c = false := by
    cases key <;>
      · rintro c ⟨⟩
        rfl
  have hdigits : ∀ c ∈ (d.toNat.repr.toList ++ behind).head?, isGap c = false := by
    rw [List.head?_append_of_ne_nil _ (by simp)]
    exact fun c hc => (not_isGap_of_mem_repr (List.mem_of_head? hc)).1
  have hsign : (between ++ '=' :: (after ++ (d.toNat.repr.toList ++ behind))).dropWhile isGap =
      '=' :: (after ++ (d.toNat.repr.toList ++ behind)) :=
    Text.dropWhile_append hbetween (by rintro c ⟨⟩; rfl)
  have hvalue : readValue ((after ++ (d.toNat.repr.toList ++ behind)).dropWhile isGap) =
      some (d.toNat : Int) := by
    rw [Text.dropWhile_append hafter hdigits, readValue_repr hbehind]
  refine .days ?_ ?_
  · rw [isDone_append hbefore]
    cases key <;> rfl
  · rw [Text.dropWhile_append hbefore (by cases key <;> exact hname), readEntry,
      readKey_name (not_isBareKeyChar_of_head? hbetween)]
    simp only [hsign, hvalue, Option.map_some]

end Written

section Texts

variable {line rest first : List Char} {more : List (List Char)} {cs : List Char}
variable {given : List (Option (Key × UInt32))}

theorem lines_feed
    (rest : List Char) :
    lines ('\n' :: rest) = [] :: lines rest := by
  rw [lines]

theorem lines_returnFeed
    (rest : List Char) :
    lines ('\r' :: '\n' :: rest) = [] :: lines rest := by
  rw [lines]

/-- No line ends inside of the text. -/
def Unbroken (cs : List Char) : Prop :=
  '\n' ∉ cs ∧ '\r' ∉ cs

theorem lines_append
    (h : Unbroken line) (hrest : lines rest = first :: more) :
    lines (line ++ rest) = (line ++ first) :: more := by
  induction line with
  | nil =>
      exact hrest
  | cons c line ih =>
      obtain ⟨hfeed, hreturn⟩ := h
      rw [List.mem_cons, not_or] at hfeed hreturn
      have hnext := ih ⟨hfeed.2, hreturn.2⟩
      rw [List.cons_append, lines.eq_4, hnext]
      · rfl
      · rintro _ rfl
        exact absurd rfl hreturn.1
      · rintro rfl
        exact absurd rfl hfeed.1

/-- A text gives what its lines give, which may end in either way. -/
inductive Writes : List (Option (Key × UInt32)) → List Char → Prop
  | last {entry : Option (Key × UInt32)} {line : List Char} :
      Gives line entry → Unbroken line →
      Writes [entry] line
  | feed {entry : Option (Key × UInt32)} {line : List Char}
      {given : List (Option (Key × UInt32))} {rest : List Char} :
      Gives line entry → Unbroken line → Writes given rest →
      Writes (entry :: given) (line ++ '\n' :: rest)
  | returnFeed {entry : Option (Key × UInt32)} {line : List Char}
      {given : List (Option (Key × UInt32))} {rest : List Char} :
      Gives line entry → Unbroken line → Writes given rest →
      Writes (entry :: given) (line ++ '\r' :: '\n' :: rest)

theorem Writes.forall₂_lines
    (h : Writes given cs) :
    List.Forall₂ Gives (lines cs) given := by
  induction h with
  | @last entry line hline hunbroken =>
      have hlines : lines (line ++ []) = [line ++ []] := lines_append hunbroken rfl
      rw [List.append_nil] at hlines
      rw [hlines]
      exact .cons hline .nil
  | feed hline hunbroken _ ih =>
      rw [lines_append hunbroken (lines_feed _), List.append_nil]
      exact .cons hline ih
  | returnFeed hline hunbroken _ ih =>
      rw [lines_append hunbroken (lines_returnFeed _), List.append_nil]
      exact .cons hline ih

/-- A line gives one thing only. -/
theorem gives_rightUnique :
    Relator.RightUnique Gives := by
  intro line entry entry' h h'
  cases h with
  | nothing hdone =>
      cases h' with
      | nothing => rfl
      | days hdone' _ =>
          rw [hdone] at hdone'
          cases hdone'
  | @days key d hdone hentry =>
      cases h' with
      | nothing hdone' =>
          rw [hdone] at hdone'
          cases hdone'
      | @days key' d' _ hentry' =>
          rw [hentry, Option.some.injEq, Prod.mk.injEq, Int.ofNat_inj, UInt32.toNat_inj] at hentry'
          obtain ⟨hname, rfl⟩ := hentry'
          rw [Key.name_injective (String.toList_inj.mp hname)]

/-- What is given at most once is what is given first, if anything is. -/
theorem toList_head?_of_length_le
    {ds : List UInt32}
    (h : ds.length ≤ 1) :
    ds.head?.toList = ds := by
  cases ds with
  | nil => rfl
  | cons d rest =>
      have hrest : rest = [] := List.eq_nil_of_length_eq_zero (by simpa using h)
      rw [hrest]
      rfl

theorem headD_toList
    (o : Option UInt32) (d : UInt32) :
    o.toList.headD d = o.getD d := by
  rw [List.headD_eq_head?_getD, Option.head?_toList]

end Texts
end Settings

/--
The windows of a text are those that its lines give, and the standard ones where there is
none; no key may be given twice.  A byte order mark in front of the lines changes nothing.
-/
theorem ReleaseWindows.ofText?_written
    {given : List (Option (Settings.Key × UInt32))} {text : String} {w : ReleaseWindows}
    (h : Settings.Writes given (Text.withoutMark text.toList)) :
    ReleaseWindows.ofText? text = some w ↔
      (∀ key, (Settings.givenTo key given).length ≤ 1) ∧
      w.popularDays = (Settings.givenTo .popular given).headD standard.popularDays ∧
      w.recentDays = (Settings.givenTo .recent given).headD standard.recentDays := by
  have hgives := h.forall₂_lines
  rw [ReleaseWindows.ofText?, Option.map_eq_some_iff]
  constructor
  · rintro ⟨s, hs, rfl⟩
    obtain ⟨given', hgives', hgiven⟩ := Settings.ofText?_eq_some_iff.mp hs
    obtain rfl := Settings.gives_rightUnique.forall₂ hgives hgives'
    refine ⟨fun key => ?_, ?_, ?_⟩
    · rw [hgiven key]
      exact Option.length_toList_le
    · rw [hgiven .popular, Settings.headD_toList]
      rfl
    · rw [hgiven .recent, Settings.headD_toList]
      rfl
  · rintro ⟨honce, hpopular, hrecent⟩
    obtain ⟨s, hs⟩ := Settings.exists_days_eq fun key => (Settings.givenTo key given).head?
    have hgiven : ∀ key, Settings.givenTo key given = (s.days key).toList := fun key => by
      rw [congrFun hs key, Settings.toList_head?_of_length_le (honce key)]
    refine ⟨s, Settings.ofText?_eq_some_iff.mpr ⟨given, hgives, hgiven⟩, ?_⟩
    rw [hgiven .popular, Settings.headD_toList] at hpopular
    rw [hgiven .recent, Settings.headD_toList] at hrecent
    obtain ⟨popularDays, recentDays⟩ := w
    obtain rfl : popularDays = _ := hpopular
    obtain rfl : recentDays = _ := hrecent
    rfl

/-- The line of an entry. -/
def Settings.entryText (key : Key) (d : UInt32) : String :=
  key.name ++ " = " ++ d.toNat.repr

/-- The text of windows, with an entry for both of them. -/
def ReleaseWindows.text (w : ReleaseWindows) : String :=
  Settings.entryText .popular w.popularDays ++ "\n" ++
    Settings.entryText .recent w.recentDays ++ "\n"

namespace Settings

theorem gives_entryText
    (key : Key) (d : UInt32) :
    Gives (entryText key d).toList (some (key, d)) := by
  have hgives : Gives
      ([] ++ (key.name.toList ++ ([' '] ++ '=' :: ([' '] ++ (d.toNat.repr.toList ++ [])))))
      (some (key, d)) :=
    gives_entry key d (List.all_eq_true.mp rfl) (List.all_eq_true.mp rfl)
      (List.all_eq_true.mp rfl) rfl
  simpa [entryText, String.toList_append, List.append_assoc] using hgives

theorem unbroken_entryText
    (key : Key) (d : UInt32) :
    Unbroken (entryText key d).toList := by
  have hword : '\n' ∉ (key.name ++ " = ").toList ∧ '\r' ∉ (key.name ++ " = ").toList := by
    cases key <;> decide
  rw [Unbroken, entryText, String.toList_append, List.mem_append, List.mem_append, not_or, not_or]
  exact ⟨⟨hword.1, Text.notMem_repr rfl _⟩, ⟨hword.2, Text.notMem_repr rfl _⟩⟩

end Settings

/-- Windows are read from their text. -/
theorem ReleaseWindows.ofText?_text
    (w : ReleaseWindows) :
    ofText? w.text = some w := by
  have htext : w.text.toList =
      (Settings.entryText .popular w.popularDays).toList ++ '\n' ::
        ((Settings.entryText .recent w.recentDays).toList ++ '\n' :: []) := by
    simp [text, String.toList_append]
  have hmark : Text.withoutMark w.text.toList = w.text.toList := by
    rw [htext, Settings.entryText, String.toList_append, String.toList_append]
    rfl
  have hlines : Settings.Writes
      [some (.popular, w.popularDays), some (.recent, w.recentDays), none] w.text.toList := by
    rw [htext]
    exact .feed (Settings.gives_entryText _ _) (Settings.unbroken_entryText _ _)
      (.feed (Settings.gives_entryText _ _) (Settings.unbroken_entryText _ _)
        (.last (.nothing rfl) ⟨List.not_mem_nil, List.not_mem_nil⟩))
  rw [← hmark] at hlines
  refine (ofText?_written hlines).mpr ⟨fun key => ?_, rfl, rfl⟩
  cases key <;> exact Nat.le_refl 1

end ShapeQuery
