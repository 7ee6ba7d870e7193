import Vetting.Run.Waves

/-!
# Runs against a clock

Time passes only while all rules that were started sleep; all else takes none. At each moment the
sleeps and time limits that are due come first, so a rule that is done at the moment of a
cancellation is done. Then the run may be cancelled from outside, sleepers notice a cancellation,
and waiting rules get the permits that are free, in ascending order.
-/

namespace Vetting.Run

/-- The time of the next sleeper that is due, or of `first` if that comes before. -/
def nextDue (first : Option Nat) (asleep : List Sleeper) : Option Nat :=
  asleep.foldl (fun first s => some (min s.due (first.getD s.due))) first

/-- What happens next. `cancelAt` is the time of a cancellation from outside. -/
def next? (settings : Settings) (cancelAt : Option Nat) (r : Run) : Option Event :=
  let cancelAt := if r.cancelled then none else cancelAt
  let cancelDue := cancelAt.any fun t => decide (t ≤ r.now)
  match r.stage with
  | .ended _ => none
  | .between => some (if cancelDue then .cancel else .survey)
  | .within g =>
    match g.asleep.find? fun s => decide (s.due ≤ r.now) with
    | some s => some (.resume s.index)
    | none =>
      if cancelDue then some .cancel
      else
        match g.asleep.find? fun s => r.cancelled && !s.deaf with
        | some s => some (.interrupt s.index)
        | none =>
          match g.waiting.head?.filter fun _ => g.asleep.length < permits settings g.phase with
          | some index => some (.grant index)
          | none =>
            if r.broken then some .collapse
            else if g.asleep.isEmpty then some .close
            else (nextDue cancelAt g.asleep).map fun t => .pass (t - r.now)

/-- Lets up to `steps` events happen. -/
def play (p : Plan) (settings : Settings) (cancelAt : Option Nat) : Nat → Run → Run
  | 0, r => r
  | steps + 1, r =>
    match (r.next? settings cancelAt).bind (r.step? p settings) with
    | some r => r.play p settings cancelAt steps
    | none => r

/-- A number of events that no run of a plan exceeds: each check gets a permit at most twice, each
wave but the last gives a check its result, and each sleep passes and ends once. -/
def eventBound (p : Plan) : Nat :=
  10 * (p.size + 2) + 3 * Activity.sleepsAll (p.checks.map p.activityOf)

/-- The run of a plan to its end. -/
def complete (p : Plan) (settings : Settings) (cancelled : Bool) (cancelAt : Option Nat) : Run :=
  (start p settings cancelled).play p settings cancelAt (eventBound p)

end Vetting.Run
