/-!
# Ranges of code points

A set of characters given by the standard as ranges of code points.
-/

namespace BraceLang

/-- Closed ranges of code points, in increasing order. -/
abbrev CodeRanges := List (Nat × Nat)

/-- The ranges from `start` on, given by the number of code points in front of each and the number in it. -/
def CodeRanges.ofRuns (start : Nat) : List Nat → CodeRanges
  | gap :: size :: runs => (start + gap, start + gap + size - 1) :: ofRuns (start + gap + size) runs
  | _ => []

def CodeRanges.holds : CodeRanges → Nat → Bool
  | [], _ => false
  | (lo, hi) :: rest, n => if n < lo then false else n ≤ hi || CodeRanges.holds rest n

def CodeRanges.start? : CodeRanges → Nat → Option Nat
  | [], _ => none
  | (lo, hi) :: rest, n =>
    if n < lo then none else if n ≤ hi then some lo else CodeRanges.start? rest n

end BraceLang
