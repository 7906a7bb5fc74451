/-!
# Release windows

How many days back two of the game requests look, and the bounds on release dates
that follow from it.  Dates are seconds of Unix time, and a day is 86400 of them.

**Machine integers.**  A clock is read as a 64-bit integer, and the bounds are computed in
64-bit integers too.  A window becomes a span of time first, which a library of such spans
makes from a number of days and gives back in seconds.  A bound cannot be computed where its
span is too long for the library, or where its window goes back further than 64 bits do.
-/

namespace ShapeQuery

/-- Widths of the release windows, in whole days. -/
structure ReleaseWindows where
  popularDays : UInt32
  recentDays : UInt32
  deriving DecidableEq

namespace ReleaseWindows

/-- A quarter of a year and a week. -/
def standard : ReleaseWindows :=
  ⟨90, 7⟩

/-- The seconds of a number of days. -/
def seconds (days : UInt32) : Int :=
  days.toNat * 86400

/-- How far back a popular game may have been released. -/
def popularSeconds (w : ReleaseWindows) : Int :=
  seconds w.popularDays

/-- How far back a recent game may have been released. -/
def recentSeconds (w : ReleaseWindows) : Int :=
  seconds w.recentDays

end ReleaseWindows

/-- Bounds on the release dates of the games that a request asks for. -/
structure ReleaseBounds where
  popularFrom : Int
  recentFrom : Int
  recentUntil : Int
  comingFrom : Int
  anticipatedFrom : Int
  deriving DecidableEq

namespace ReleaseBounds

/-- The bounds that windows give at a moment. -/
def ofWindows (w : ReleaseWindows) (now : Int) : ReleaseBounds where
  popularFrom := now - w.popularSeconds
  recentFrom := now - w.recentSeconds
  recentUntil := now
  comingFrom := now
  anticipatedFrom := now

end ReleaseBounds

/--
A library of spans of time: made of whole days, if they are not too many, and read in
seconds.
-/
structure TimeSpans (δ : Type) where
  ofDays? : Int64 → Option δ
  seconds : δ → Int64

/-- The seconds of the window of a number of days. -/
def TimeSpans.windowSeconds? {δ : Type} (spans : TimeSpans δ) (days : UInt32) : Option Int64 :=
  (spans.ofDays? (.ofNat days.toNat)).map spans.seconds

/-- Spans as whole seconds, as long as their milliseconds have 63 bits. -/
def TimeSpans.wholeSeconds : TimeSpans Int64 where
  ofDays? days :=
    let milliseconds := days.toInt * 86400 * 1000
    if -Int64.maxValue.toInt ≤ milliseconds ∧ milliseconds ≤ Int64.maxValue.toInt then
      some (.ofInt (days.toInt * 86400))
    else none
  seconds span := span

/-- Release windows that end at what a clock shows, and the spans they are computed with. -/
structure ReleaseClock (δ : Type) where
  spans : TimeSpans δ
  windows : ReleaseWindows
  now : Int64

namespace ReleaseClock

variable {δ : Type}

/-- The moment some seconds before another, if it is a 64-bit integer. -/
def before? (moment seconds : Int64) : Option Int64 :=
  let earlier := moment.toInt - seconds.toInt
  if Int64.minValue.toInt ≤ earlier ∧ earlier ≤ Int64.maxValue.toInt then
    some (.ofInt earlier)
  else none

/-- Popular games were released after this moment. -/
def popularFrom? (c : ReleaseClock δ) : Option Int64 := do
  before? c.now (← c.spans.windowSeconds? c.windows.popularDays)

/-- Recent games were released before this moment. -/
def recentUntil (c : ReleaseClock δ) : Int64 :=
  c.now

/-- Recent games were released after this moment. -/
def recentFrom? (c : ReleaseClock δ) : Option Int64 := do
  before? c.recentUntil (← c.spans.windowSeconds? c.windows.recentDays)

/-- Games that come soon are released after this moment. -/
def comingFrom (c : ReleaseClock δ) : Int64 :=
  c.now

/-- Anticipated games are released after this moment. -/
def anticipatedFrom (c : ReleaseClock δ) : Int64 :=
  c.now

/-- All bounds at a moment, if they can be computed.  A request needs only its own of them. -/
def bounds? (c : ReleaseClock δ) : Option ReleaseBounds := do
  return {
    popularFrom := (← c.popularFrom?).toInt
    recentFrom := (← c.recentFrom?).toInt
    recentUntil := c.recentUntil.toInt
    comingFrom := c.comingFrom.toInt
    anticipatedFrom := c.anticipatedFrom.toInt }

end ReleaseClock

end ShapeQuery
