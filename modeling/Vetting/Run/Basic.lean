import Vetting.Plan.Basic
import Vetting.Run.Ledger
import Vetting.Run.Settings

/-!
# Runs

A run applies the rules of a plan in waves. A wave has two groups: the rules that are safe to run
beside others go first, as many at a time as there are permits, the others follow one by one. This
file holds the state of a run and the events that change it; `Vetting.Run.Waves` says how.
-/

namespace Vetting

/-- The two groups of a wave. -/
inductive Phase where
  | concurrent
  | serial
deriving DecidableEq, Repr

/-- The start of a rule. -/
structure Call where
  index : Nat
  phase : Phase
  /-- The number of the wave; the first is number one. -/
  wave : Nat
  /-- The time of the start. -/
  millis : Nat
deriving DecidableEq, Repr

/-- A rule that was started and has not ended. -/
structure Application where
  index : Nat
  /-- When the rule was started. -/
  since : Nat
  /-- The time that it has taken so far. -/
  spent : Nat
  /-- The time that it may take in all. -/
  limit : Option Nat

/-- A rule that sleeps. The time of the sleep is not yet counted as spent. -/
structure Sleeper extends Application where
  millis : Nat
  deaf : Bool
  next : Bool → Activity

namespace Sleeper

/-- Whether the time limit comes before the end of the sleep. -/
def overruns (s : Sleeper) : Bool := s.limit.any fun limit => decide (limit < s.spent + s.millis)

/-- When the sleep ends or the time limit is reached. -/
def due (s : Sleeper) : Nat :=
  let asked := s.spent + s.millis
  s.since + min asked (s.limit.getD asked)

end Sleeper

/-- A group of a wave in progress. -/
structure Group where
  phase : Phase
  /-- The checks that have not been granted a permit, in ascending order. -/
  waiting : List Nat
  asleep : List Sleeper := []
  /-- The checks of the wave that come after this group. -/
  serial : List Nat := []

/-- Whether it can be the turn of a check. Concurrent checks that wait for permits may get them in
any order, serial ones follow each other. -/
def Group.mayCall (g : Group) (index : Nat) : Bool :=
  match g.phase with
  | .concurrent => g.waiting.contains index
  | .serial => g.waiting.head? == some index

/-- The group when a check does not wait any longer. -/
def Group.call (g : Group) (index : Nat) : Group :=
  { g with waiting := g.waiting.erase index }

/-- The sleeper of a number, and the group without it. -/
def Group.take? (g : Group) (index : Nat) : Option (Sleeper × Group) :=
  (g.asleep.find? (·.index == index)).map fun s =>
    (s, { g with asleep := g.asleep.filter (·.index != index) })

/-- How a run ended. -/
inductive Ending where
  | finished
  /-- No check can be made, though some have no result. -/
  | stalled (pending : Nat)
  /-- The run was cancelled when some checks had no result. -/
  | cancelled (completed : Nat)
  /-- A concurrent rule broke down outside its application. -/
  | taskFailed
  /-- A serial rule broke down outside its application, or there were too many permits. -/
  | crashed
deriving DecidableEq, Repr

inductive Stage where
  | between
  | within (group : Group)
  | ended (ending : Ending)

/-- A run in progress. -/
structure Run where
  now : Nat := 0
  cancelled : Bool := false
  /-- Whether a concurrent rule has broken down outside its application. -/
  broken : Bool := false
  /-- The number of waves that have begun. -/
  waves : Nat := 0
  /-- The checks that had no result when the last wave began. -/
  pending : List Nat
  ledger : Ledger := {}
  calls : List Call := []
  stage : Stage := .between

/-- What can happen in a run. -/
inductive Event where
  | pass (millis : Nat)
  | cancel
  /-- Settles what cannot be made, and begins the next wave. -/
  | survey
  /-- A waiting rule of the group gets a permit. -/
  | grant (index : Nat)
  /-- A sleep is over, or the time limit of the sleeper is reached. -/
  | resume (index : Nat)
  /-- A sleeper notices that it is cancelled. -/
  | interrupt (index : Nat)
  /-- The group is done. -/
  | close
  /-- The run gives up because a rule broke down. -/
  | collapse
deriving DecidableEq, Repr

namespace Run

/-- A run of a plan that has not begun. It breaks off there if there are more permits than there
can be. -/
def start (p : Plan) (settings : Settings) (cancelled : Bool) : Run where
  pending := List.range p.size
  cancelled
  stage := if settings.permits ≤ Settings.permitLimit then .between else .ended .crashed

/-- How the run ended, once it is over. -/
def ending? (r : Run) : Option Ending :=
  match r.stage with
  | .ended ending => some ending
  | _ => none

end Run

end Vetting
