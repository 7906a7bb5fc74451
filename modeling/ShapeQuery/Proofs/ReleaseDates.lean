import ShapeQuery.Proofs.PrintedComparisons
import ShapeQuery.Proofs.RequestHistory
import ShapeQuery.Release.Windows
import ShapeQuery.Sample

/-!
# Release dates in requests

Which release dates a request admits, read from its text, for whatever windows and
whatever moment the catalogue of the request works with.

**Bounds.**  A window of 32 bits is never too long for a library of time spans that takes
all spans of up to 63 bits of milliseconds, so the only thing that can fail is to go back
from the moment, and that is left to `InRange` (`bounds?_eq`).

**Texts.**  A comparison with a number is read from its text with the same number, its
sign included.  All four requests that filter by release date put conjunctions of such
comparisons, so the dates are read from their texts as they are meant
(`releaseDates?_render`).
-/

namespace ShapeQuery

section Bounds

variable {δ : Type}

namespace TimeSpans

/--
A library that takes all spans of up to 63 bits of milliseconds, in both directions, and
gives back the seconds of the days that a span was made of.
-/
structure Lawful (spans : TimeSpans δ) : Prop where
  ofDays?_ne_none : ∀ days : Int64,
    |days.toInt * 86400 * 1000| ≤ Int64.maxValue.toInt → spans.ofDays? days ≠ none
  seconds_of_ofDays? : ∀ (days : Int64) (span : δ), spans.ofDays? days = some span →
    (spans.seconds span).toInt = days.toInt * 86400

/-- The seconds of every window of 32 bits are computed, and exactly. -/
theorem Lawful.exists_windowSeconds?_eq {spans : TimeSpans δ}
    (hspans : spans.Lawful) (days : UInt32) :
    ∃ seconds, spans.windowSeconds? days = some seconds ∧
      seconds.toInt = ReleaseWindows.seconds days := by
  have hlt : days.toNat < 2 ^ 32 := days.toNat_lt
  have hdays : (Int64.ofNat days.toNat).toInt = days.toNat :=
    Int64.toInt_ofNat_of_lt (by omega)
  have hfits : |(Int64.ofNat days.toNat).toInt * 86400 * 1000| ≤ Int64.maxValue.toInt := by
    rw [hdays, Int64.toInt_maxValue, abs_of_nonneg (by omega)]
    omega
  obtain ⟨span, hspan⟩ := Option.ne_none_iff_exists'.mp (hspans.ofDays?_ne_none _ hfits)
  refine ⟨spans.seconds span, by rw [windowSeconds?, hspan]; rfl, ?_⟩
  rw [hspans.seconds_of_ofDays? _ _ hspan, hdays, ReleaseWindows.seconds]

theorem lawful_wholeSeconds :
    wholeSeconds.Lawful where
  ofDays?_ne_none days hfits := by
    have hspan : wholeSeconds.ofDays? days = some (.ofInt (days.toInt * 86400)) :=
      if_pos (abs_le.mp hfits)
    simp [hspan]
  seconds_of_ofDays? days span hspan := by
    simp only [wholeSeconds, Option.ite_none_right_eq_some, Option.some.injEq] at hspan
    obtain ⟨hfits, rfl⟩ := hspan
    rw [Int64.toInt_maxValue] at hfits
    exact Int64.toInt_ofInt_of_le (by omega) (by omega)

end TimeSpans

namespace ReleaseClock

variable {c : ReleaseClock δ}

/-- Neither window goes back further than 64 bits do. -/
def InRange (c : ReleaseClock δ) : Prop :=
  Int64.minValue.toInt ≤ c.now.toInt - c.windows.popularSeconds ∧
    Int64.minValue.toInt ≤ c.now.toInt - c.windows.recentSeconds

instance (c : ReleaseClock δ) : Decidable c.InRange :=
  inferInstanceAs (Decidable (_ ∧ _))

/-- The moment a window before another is computed, as far as 64 bits go back. -/
theorem exists_before?_eq
    (hspans : c.spans.Lawful) {moment : Int64} {days : UInt32}
    (hrange : Int64.minValue.toInt ≤ moment.toInt - ReleaseWindows.seconds days) :
    ∃ earlier, (c.spans.windowSeconds? days).bind (before? moment) = some earlier ∧
      earlier.toInt = moment.toInt - ReleaseWindows.seconds days := by
  obtain ⟨seconds, hseconds, hvalue⟩ := hspans.exists_windowSeconds?_eq days
  have hmax : moment.toInt - ReleaseWindows.seconds days ≤ Int64.maxValue.toInt := by
    have hmoment := moment.toInt_le
    have hnonneg : 0 ≤ ReleaseWindows.seconds days := by
      unfold ReleaseWindows.seconds
      omega
    omega
  refine ⟨.ofInt (moment.toInt - ReleaseWindows.seconds days), ?_, ?_⟩
  · rw [hseconds, Option.bind_some, before?, hvalue]
    exact if_pos ⟨hrange, hmax⟩
  · rw [Int64.toInt_minValue] at hrange
    rw [Int64.toInt_maxValue] at hmax
    exact Int64.toInt_ofInt_of_le hrange (by omega)

/-- In range, the bounds are what the windows give, and nothing overflows. -/
theorem bounds?_eq
    (hspans : c.spans.Lawful) (hrange : c.InRange) :
    c.bounds? = some (.ofWindows c.windows c.now.toInt) := by
  obtain ⟨popularFrom, hpopular, hpopularFrom⟩ := exists_before?_eq hspans hrange.1
  obtain ⟨recentFrom, hrecent, hrecentFrom⟩ := exists_before?_eq hspans hrange.2
  have hpopular? : c.popularFrom? = some popularFrom := hpopular
  have hrecent? : c.recentFrom? = some recentFrom := hrecent
  simp [bounds?, hpopular?, hrecent?, hpopularFrom, hrecentFrom, ReleaseBounds.ofWindows,
    ReleaseWindows.popularSeconds, ReleaseWindows.recentSeconds, recentUntil, comingFrom,
    anticipatedFrom]

end ReleaseClock
end Bounds

section Texts

/-- The release dates that comparisons admit together. -/
def PrintedComparison.dates (ps : List PrintedComparison) : Set Int :=
  {date | ∀ p ∈ ps, p.field = "first_release_date" → p.Admits date}

/-- The release dates that a text admits, if its comparisons can be read. -/
def releaseDates? (text : String) : Option (Set Int) :=
  (comparisons? text).map PrintedComparison.dates

namespace Condition

/-- The release dates that the comparisons of a condition admit, as they are printed. -/
def dates (c : Condition) : Set Int :=
  PrintedComparison.dates (c.predicates.map .ofPredicate)

theorem dates_and
    (c d : Condition) :
    (c.and d).dates = c.dates ∩ d.dates := by
  simp [dates, PrintedComparison.dates, predicates, Condition.and, or_imp, forall_and,
    Set.ext_iff]

/-- A comparison with a single value admits dates by what is printed of it. -/
theorem dates_withValue
    (f : FieldRef) (op : Operator) (text : String) :
    (f.withValue op text).dates =
      {date | f.name = "first_release_date" →
        PrintedComparison.Admits ⟨f.name, op.token, text⟩ date} := by
  simp [dates, PrintedComparison.dates, predicates, FieldRef.withValue,
    PrintedComparison.ofPredicate, Operand.render]

theorem dates_isLargerThan
    (n : Int) :
    (GameField.releaseDate.isLargerThan (.integer n)).dates = Set.Ioi n := by
  ext date
  simp [FieldRef.isLargerThan, dates_withValue, PrintedComparison.Admits, Operator.token,
    Value.render, GameField.releaseDate]

theorem dates_isSmallerThan
    (n : Int) :
    (GameField.releaseDate.isSmallerThan (.integer n)).dates = Set.Iio n := by
  ext date
  simp [FieldRef.isSmallerThan, dates_withValue, PrintedComparison.Admits, Operator.token,
    Value.render, GameField.releaseDate]

theorem dates_isNotNull {f : FieldRef}
    (hf : f.name ≠ "first_release_date") :
    f.isNotNull.dates = Set.univ := by
  simp [FieldRef.isNotNull, dates_withValue, hf]

end Condition

theorem Operand.plain_repr
    (n : Int) :
    (Operand.value n.repr).Plain := by
  refine ⟨notMem_repr_int (by decide) rfl n, fun c hc hhead => ?_⟩
  have hmem : c ∈ n.repr.toList := List.mem_of_head? hhead
  simp only [Operator.listMarks, List.mem_cons, List.not_mem_nil, or_false] at hc
  rcases hc with rfl | rfl | rfl | rfl <;>
    exact notMem_repr_int (by decide) rfl n hmem

theorem FieldRef.conjunction_withValue {f : FieldRef} {op : Operator} {text : String}
    (hf : ' ' ∉ f.name.toList) (hop : op.isList = false) (htext : (Operand.value text).Plain) :
    (f.withValue op text).Conjunction :=
  .leaf ⟨hop.symm, hf, htext⟩ rfl

namespace GameRequest

variable {request : GameRequest} {b : ReleaseBounds} {dates : Set Int}

/-- The release dates that a request asks for, if it asks for any. -/
def dates? (b : ReleaseBounds) : GameRequest → Option (Set Int)
  | popular => some (Set.Ioi b.popularFrom)
  | recentlyReleased => some (Set.Ioo b.recentFrom b.recentUntil)
  | comingSoon => some (Set.Ioi b.comingFrom)
  | mostAnticipated => some (Set.Ioi b.anticipatedFrom)
  | search _ => none
  | byIds _ => none

theorem exists_condition_eq
    (h : request.dates? b = some dates) :
    ∃ c, request.condition b = some c ∧ c.Conjunction ∧ c.dates = dates := by
  have hbound : ∀ op : Operator, op.isList = false → ∀ n : Int,
      (GameField.releaseDate.withValue op n.repr).Conjunction := fun op hop n =>
    FieldRef.conjunction_withValue (by decide) hop (Operand.plain_repr n)
  have hnull : ∀ f : FieldRef, ' ' ∉ f.name.toList → f.isNotNull.Conjunction := fun f hf =>
    FieldRef.conjunction_withValue hf rfl (by decide)
  cases request with
  | popular =>
      cases h
      refine ⟨_, rfl, (hnull _ (by decide)).and (hbound _ rfl _), ?_⟩
      rw [Condition.dates_and, Condition.dates_isNotNull (by decide),
        Condition.dates_isLargerThan, Set.univ_inter]
  | recentlyReleased =>
      cases h
      refine ⟨_, rfl, (hbound _ rfl _).and (hbound _ rfl _), ?_⟩
      rw [Condition.dates_and, Condition.dates_isLargerThan, Condition.dates_isSmallerThan,
        Set.Ioi_inter_Iio]
  | comingSoon =>
      cases h
      exact ⟨_, rfl, hbound _ rfl _, Condition.dates_isLargerThan _⟩
  | mostAnticipated =>
      cases h
      refine ⟨_, rfl, (hbound _ rfl _).and (hnull _ (by decide)), ?_⟩
      rw [Condition.dates_and, Condition.dates_isNotNull (by decide),
        Condition.dates_isLargerThan, Set.inter_univ]
  | search term => cases h
  | byIds ids => cases h

theorem term_eq_none_of_dates?
    (h : request.dates? b = some dates) :
    request.term = none := by
  cases request <;> first | rfl | cases h

theorem integerIds_of_dates?
    (h : request.dates? b = some dates) :
    request.IntegerIds := by
  cases request <;> trivial

end GameRequest

namespace GameCall

variable {call : GameCall} {b : ReleaseBounds} {fields : String} {dates : Set Int}

theorem condition_query
    (call : GameCall) (b : ReleaseBounds) (fields : String) :
    (call.query b fields).condition = (call.request.condition b).map Condition.render := by
  obtain ⟨request, offset, limit⟩ := call
  cases request <;> rfl

/-- Without a term to look for, no clause of a call has a terminator inside. -/
theorem terminator_notMem_query
    (hfields : ';' ∉ fields.toList)
    (hids : call.request.IntegerIds)
    (hterm : call.request.term = none) :
    ∀ c ∈ (call.query b fields).clauses, ';' ∉ c.value.toList := by
  rw [clauses_query, hterm]
  refine List.forall_mem_cons.mpr ⟨hfields, fun c hc => ?_⟩
  have hkind : c.kind ≠ .search := by
    intro hsearch
    have hheld := Query.mem_clauses_iff.mp hc
    rw [hsearch] at hheld
    cases hheld
  exact Clause.terminator_notMem_value (plain_tail hids c hc) hkind

/-- The dates that a request asks for are those that its text admits. -/
theorem releaseDates?_render
    (hfields : ';' ∉ fields.toList)
    (h : call.request.dates? b = some dates) :
    releaseDates? (call.query b fields).render = some dates := by
  obtain ⟨c, hcondition, hconjunction, rfl⟩ := GameRequest.exists_condition_eq h
  have hclauses := @terminator_notMem_query call b fields hfields
    (GameRequest.integerIds_of_dates? h) (GameRequest.term_eq_none_of_dates? h)
  have hheld : (call.query b fields).condition = some c.render := by
    rw [condition_query, hcondition, Option.map_some]
  rw [releaseDates?, Query.comparisons?_render hclauses hheld hconjunction]
  rfl

end GameCall
end Texts

namespace ReleaseWindows

variable {w w' : ReleaseWindows}

theorem popular_subset_iff
    (now : Int) :
    Set.Ioi (now - w.popularSeconds) ⊆ Set.Ioi (now - w'.popularSeconds) ↔
      w.popularDays ≤ w'.popularDays := by
  rw [Set.Ioi_subset_Ioi_iff, popularSeconds, popularSeconds, seconds, seconds,
    UInt32.le_iff_toNat_le]
  omega

/-- Recent dates are more, the wider the window is, since a day has more than one second. -/
theorem recent_subset_iff
    (now : Int) :
    Set.Ioo (now - w.recentSeconds) now ⊆ Set.Ioo (now - w'.recentSeconds) now ↔
      w.recentDays ≤ w'.recentDays := by
  rw [recentSeconds, recentSeconds, seconds, seconds, UInt32.le_iff_toNat_le]
  constructor
  · intro hsubset
    by_contra hlt
    have hfirst := hsubset (a := now - w.recentDays.toNat * 86400 + 1) (by
      rw [Set.mem_Ioo]
      omega)
    rw [Set.mem_Ioo] at hfirst
    omega
  · intro hle
    exact Set.Ioo_subset_Ioo_left (by omega)

/-- Between the dates that are recent and those to come there is the moment itself. -/
theorem missed_iff
    (now date : Int) :
    (now - w.recentSeconds < date ∧ date ∉ Set.Ioo (now - w.recentSeconds) now ∪ Set.Ioi now) ↔
      0 < w.recentDays ∧ date = now := by
  rw [Set.mem_union, Set.mem_Ioo, Set.mem_Ioi, recentSeconds, seconds, UInt32.lt_iff_toNat_lt,
    UInt32.toNat_zero]
  omega

theorem recent_eq_empty
    (hwidth : w.recentDays = 0) (now : Int) :
    Set.Ioo (now - w.recentSeconds) now = ∅ := by
  rw [recentSeconds, seconds, hwidth, UInt32.toNat_zero]
  exact Set.Ioo_eq_empty (by omega)

end ReleaseWindows

namespace ReleaseClock

variable {δ ι : Type} [DecidableEq ι]

/--
The release dates that the text of a request admits, asked of a catalogue that works with
the windows and the moment of a clock.
-/
def askedDates? (c : ReleaseClock δ) (t : GameTable ι) (r : Registry ι) (call : GameCall) :
    Option (Set Int) := do
  match ((GameCatalog.ofBounds (← c.bounds?)).ask t r call).1 with
  | .ok text => releaseDates? text
  | .error _ => none

theorem askedDates?_eq {c : ReleaseClock δ} {t : GameTable ι}
    {r : Registry ι} {call : GameCall} {dates : Set Int}
    (hspans : c.spans.Lawful) (hrange : c.InRange) (hr : r.Sound t.toShapeTable)
    (h : call.request.dates? (.ofWindows c.windows c.now.toInt) = some dates) :
    c.askedDates? t r call = some dates := by
  have hanswer := GameCatalog.ask_fst
    (GameCatalog.keeps_ofBounds (.ofWindows c.windows c.now.toInt) _) hr call
  rw [askedDates?, bounds?_eq hspans hrange, Option.bind_eq_bind, Option.bind_some, hanswer]
  exact GameCall.releaseDates?_render GameShape.terminator_notMem_fieldText h

/--
Windows of any width are computed in 64 bits, whatever library of time spans is used, and
so are the bounds they give, as long as no window goes back further than 64 bits do.
Release dates are then asked for as follows, read from the texts of the requests: recent
games were released after the recent window begins and before the moment of the clock,
popular games after the popular window begins, and games that come soon or are anticipated
after the moment.

So no date is both recent and soon, and of the dates after the beginning of a recent window
only the moment itself is neither, if the window has any width; if it has none, no date is
recent.  Popular and recent dates are more, the wider the windows are.
-/
theorem askedDates_of_windows
    (spans : TimeSpans δ) (hspans : spans.Lawful)
    (t : GameTable ι) (earlier : List (RegistryCall ι))
    (now : Int64) (offset limit : UInt32) :
    let r := Registry.empty.after t.toShapeTable earlier
    let dates := fun (w : ReleaseWindows) request =>
      askedDates? ⟨spans, w, now⟩ t r ⟨request, offset, limit⟩
    (∀ days, ∃ seconds, spans.windowSeconds? days = some seconds ∧
      seconds.toInt = 86400 * days.toNat) ∧
    ∀ w : ReleaseWindows, InRange ⟨spans, w, now⟩ →
      ∃ popular recent coming anticipated : Set Int,
        (dates w .popular = some popular ∧ dates w .recentlyReleased = some recent ∧
          dates w .comingSoon = some coming ∧ dates w .mostAnticipated = some anticipated) ∧
        (∀ d, d ∈ recent ↔ now.toInt - 86400 * w.recentDays.toNat < d ∧ d < now.toInt) ∧
        (∀ d, d ∈ popular ↔ now.toInt - 86400 * w.popularDays.toNat < d) ∧
        (∀ d, d ∈ coming ↔ now.toInt < d) ∧
        (∀ d, d ∈ anticipated ↔ now.toInt < d) ∧
        Disjoint recent coming ∧
        (∀ d, now.toInt - 86400 * w.recentDays.toNat < d ∧ d ∉ recent ∪ coming ↔
          0 < w.recentDays ∧ d = now.toInt) ∧
        (w.recentDays = 0 → recent = ∅) ∧
        ∀ w' : ReleaseWindows, InRange ⟨spans, w', now⟩ →
          ∀ popular' recent', dates w' .popular = some popular' →
            dates w' .recentlyReleased = some recent' →
            (popular ⊆ popular' ↔ w.popularDays ≤ w'.popularDays) ∧
            (recent ⊆ recent' ↔ w.recentDays ≤ w'.recentDays) := by
  intro r dates
  have hr : r.Sound t.toShapeTable := Registry.sound_after t.toShapeTable earlier
  have hdates : ∀ w : ReleaseWindows, InRange ⟨spans, w, now⟩ → ∀ request asked,
      request.dates? (.ofWindows w now.toInt) = some asked → dates w request = some asked :=
    fun w hw request asked h => askedDates?_eq hspans hw hr h
  refine ⟨fun days => ?_, fun w hw => ?_⟩
  · obtain ⟨seconds, hseconds, hvalue⟩ := hspans.exists_windowSeconds?_eq days
    exact ⟨seconds, hseconds, by rw [hvalue, ReleaseWindows.seconds, mul_comm]⟩
  have hpopular : 86400 * (w.popularDays.toNat : Int) = w.popularSeconds := mul_comm _ _
  have hrecent : 86400 * (w.recentDays.toNat : Int) = w.recentSeconds := mul_comm _ _
  rw [hpopular, hrecent]
  refine ⟨_, _, _, _, ⟨hdates w hw .popular _ rfl, hdates w hw .recentlyReleased _ rfl,
    hdates w hw .comingSoon _ rfl, hdates w hw .mostAnticipated _ rfl⟩,
    fun _ => Iff.rfl, fun _ => Iff.rfl, fun _ => Iff.rfl, fun _ => Iff.rfl, ?_, ?_, ?_, ?_⟩
  · exact Set.disjoint_left.mpr fun d hd hd' => lt_asymm hd.2 hd'
  · exact ReleaseWindows.missed_iff now.toInt
  · exact fun hwidth => ReleaseWindows.recent_eq_empty hwidth now.toInt
  · intro w' hw' popular' recent' hpopular' hrecent'
    obtain rfl := Option.some.inj ((hdates w' hw' .popular _ rfl).symm.trans hpopular')
    obtain rfl := Option.some.inj ((hdates w' hw' .recentlyReleased _ rfl).symm.trans hrecent')
    exact ⟨ReleaseWindows.popular_subset_iff _, ReleaseWindows.recent_subset_iff _⟩

/--
The widest window for popular games and one of a day, not far from the first moment, asked
over a registry that holds a shape with a cover nested in it.
-/
theorem askedDates_of_windows_widest :
    let now : Int64 := -9223000000000000000
    let clock : ReleaseClock Int64 := ⟨.wholeSeconds, ⟨4294967295, 1⟩, now⟩
    let t := (GameTable.beside SampleShape.table).extend
      #v[⟨"Poster", [⟨"url", .scalar⟩, ⟨"of", .nested (.inr (.inr .image))⟩]⟩]
    let asked := fun request => clock.askedDates? t
      (Registry.empty.after t.toShapeTable
        [.paths (.inr (.inl .brokenParent)), .resolve (.inl 0)]) ⟨request, 20, 10⟩
    TimeSpans.wholeSeconds.Lawful ∧ clock.InRange ∧
      ∃ popular recent coming : Set Int,
        asked .popular = some popular ∧ asked .recentlyReleased = some recent ∧
        asked .comingSoon = some coming ∧
        -9223371085174288000 ∉ popular ∧ -9223371085174287999 ∈ popular ∧
        -9223000000000086400 ∉ recent ∧ -9223000000000086399 ∈ recent ∧
        -9223000000000000000 ∉ recent ∪ coming ∧ -9222999999999999999 ∈ coming := by
  intro now clock t asked
  have hrange : clock.InRange := by
    decide
  obtain ⟨_, hall⟩ := askedDates_of_windows .wholeSeconds TimeSpans.lawful_wholeSeconds
    t [.paths (.inr (.inl .brokenParent)), .resolve (.inl 0)] now 20 10
  obtain ⟨popular, recent, coming, _, ⟨hpopular, hrecent, hcoming, _⟩, hmemRecent, hmemPopular,
    hmemComing, _, _, hmissed, _⟩ := hall ⟨4294967295, 1⟩ hrange
  refine ⟨TimeSpans.lawful_wholeSeconds, hrange, popular, recent, coming, hpopular, hrecent, hcoming,
    ?_, ?_, ?_, ?_, ?_, ?_⟩
  · exact mt (hmemPopular _).mp (by decide)
  · exact (hmemPopular _).mpr (by decide)
  · exact mt (hmemRecent _).mp (by decide)
  · exact (hmemRecent _).mpr (by decide)
  · exact ((hmissed _).mpr ⟨by decide, rfl⟩).2
  · exact (hmemComing _).mpr (by decide)

end ReleaseClock
end ShapeQuery
