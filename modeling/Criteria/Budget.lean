/-!
# Budgets

Long computations ask now and then whether they may go on. A budget answers: always, a fixed
number of times, or until a deadline. It counts the questions that it said yes to, and this count
is all that a run changes, so two budgets with one limit and one count are the same.

A deadline reads a clock. The clock is given as the readings that it will show, one for each count,
so what holds for every clock holds whatever the time does.
-/

namespace Criteria

/-- When a computation has to stop. -/
inductive Limit where
  | unlimited
  /-- After a number of checks. -/
  | steps (most : Nat)
  /-- Once the clock shows so many milliseconds; `clock k` is its reading after `k` checks. -/
  | deadline (milliseconds : Nat) (clock : Nat → Nat)

/-- A limit that was hit. -/
inductive Overrun where
  | elapsed (milliseconds reading : Nat)
  | steps (most : Nat)
  deriving DecidableEq

/-- A time as it is printed: in seconds if it is one at least, with the decimals that are needed. -/
def timeText (milliseconds : Nat) : String :=
  if milliseconds = 0 then "0ns"
  else if milliseconds < 1000 then toString milliseconds ++ "ms"
  else
    let digits := (Nat.toDigits 10 (1000 + milliseconds % 1000)).drop 1
    let decimals := (digits.reverse.dropWhile (· = '0')).reverse
    let point := if decimals.isEmpty then "" else "."
    toString (milliseconds / 1000) ++ point ++ String.ofList decimals ++ "s"

/-- The overrun in words. -/
def Overrun.message : Overrun → String
  | elapsed milliseconds reading =>
    "Time budget of " ++ timeText milliseconds ++ " exceeded after " ++ timeText reading
  | steps most => "Step budget of " ++ toString most ++ " checks exhausted"

example : [0, 250, 5000, 1050, 12340].map timeText = ["0ns", "250ms", "5s", "1.05s", "12.34s"] := by
  decide

/-- A limit and the number of checks that were passed under it. -/
structure Budget where
  limit : Limit
  used : Nat

namespace Budget

/-- A budget of which nothing is used. -/
def fresh (limit : Limit) : Budget := ⟨limit, 0⟩

/-- What the next check would run into. -/
def overrun? (b : Budget) : Option Overrun :=
  match b.limit with
  | .unlimited => none
  | .steps most => if b.used < most then none else some (.steps most)
  | .deadline milliseconds clock =>
    if clock b.used < milliseconds then none
    else some (.elapsed milliseconds (clock b.used))

/-- Whether the next check would pass. -/
def hasTime (b : Budget) : Bool := b.overrun?.isNone

/-- Passes one check, or tells which limit was hit and leaves the budget as it is. -/
def check (b : Budget) : Except Overrun Budget :=
  match b.overrun? with
  | none => .ok { b with used := b.used + 1 }
  | some overrun => .error overrun

end Budget

end Criteria
