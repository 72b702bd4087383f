import Typeahead.Interval

/-!
The part of an alphabet that a list of intervals leaves free, found in one sweep over the
intervals in increasing order.
-/
namespace Typeahead.Interval

/-- Intervals in order of their starts, equal starts in order of their stops. -/
def precedes (i j : Interval) : Bool :=
  i.start < j.start || (i.start == j.start && i.stop ≤ j.stop)

/-- The gaps before `stop` from `cursor` on, given the intervals still to pass. A gap may be empty. -/
def gaps (stop cursor : Int) : List Interval → List Interval
  | [] => if cursor < stop then [⟨cursor, stop⟩] else []
  | i :: rest =>
    let gap := if i.start > cursor then [⟨cursor, min i.start stop⟩] else []
    let cursor := max cursor i.stop
    if cursor ≥ stop then gap else gap ++ gaps stop cursor rest

/-- Intervals that hold the numbers of `alphabet` outside all of `intervals`. -/
def complement (intervals : List Interval) (alphabet : Interval) : List Interval :=
  (gaps alphabet.stop alphabet.start (intervals.mergeSort precedes)).filter fun i => i.start < i.stop

end Typeahead.Interval
