import Vetting.Manifest.Naming
import Vetting.Rule.Finding

/-!
# What a rule does

Applied to a value, a rule starts an activity: it may sleep, ask whether it is cancelled, cancel
the run, and it ends with an answer or a crash. An activity is the tree of these steps, so its
course is fixed but for two things that it learns on the way: whether it is cancelled, and whether
a sleep was cut short. A `Logic` is a rule ready to be applied, with its time limit and whether it
may run beside others.
-/

namespace Vetting

/-- The course of a rule that is being applied. -/
inductive Activity where
  | answer (a : Answer)
  /-- Ends without an answer; there may be a message. -/
  | crash (message : Option String)
  /-- Cancels the run and goes on. -/
  | cancelRun (next : Activity)
  /-- Asks whether the rule is cancelled. -/
  | poll (next : Bool → Activity)
  /-- Sleeps. A cancellation cuts the sleep short unless the rule is deaf to it; the rule learns
  whether one did. -/
  | sleep (millis : Nat) (deaf : Bool) (next : Bool → Activity)

/-- Where an activity stands when it can do no more at present. -/
inductive Pause where
  | ended (a : Answer)
  | asleep (millis : Nat) (deaf : Bool) (next : Bool → Activity)

namespace Activity

/-- What a crash without a message is reported as. -/
def unspokenCrash : String := "non-string panic payload"

/-- Carries an activity on to its end or to its next sleep that takes time. The flag says whether
the rule is cancelled, before and after. -/
def burst : Activity → Bool → Bool × Pause
  | answer a, cancelled => (cancelled, .ended a)
  | crash message, cancelled => (cancelled, .ended (.error (.crashed (message.getD unspokenCrash))))
  | cancelRun next, _ => next.burst true
  | poll next, cancelled => (next cancelled).burst cancelled
  | sleep 0 _ next, cancelled => (next false).burst cancelled
  | sleep (millis + 1) deaf next, cancelled => (cancelled, .asleep (millis + 1) deaf next)

/-- The greatest number of sleeps on any course. -/
def sleeps : Activity → Nat
  | answer _ | crash _ => 0
  | cancelRun next => next.sleeps
  | poll next => max (next true).sleeps (next false).sleeps
  | sleep _ _ next => max (next true).sleeps (next false).sleeps + 1

/-- The greatest numbers of sleeps of several activities, added up. -/
def sleepsAll : List Activity → Nat
  | [] => 0
  | a :: as => a.sleeps + sleepsAll as

end Activity

/-- Whether a rule sees the parent of the value that it is applied to. -/
inductive Interface where
  | value
  | withParent
deriving DecidableEq, Repr

def Interface.text : Interface → String
  | value => "value"
  | withParent => "with_parent"

/-- What a rule knows of the place where it is applied. -/
structure Context where
  label : RuleLabel
  interface : Interface
  /-- Identity and value of every ancestor, the closest first. -/
  ancestors : List (Option String × Json)
  /-- The place among the elements of a collection. -/
  arrivalOrder : Option Nat

/-- How a rule is applied: to a value alone, or to a value and its parent. -/
inductive Judge where
  | value (judge : Json → Context → Activity)
  | withParent (judge : Json → Option Json → Context → Activity)

/-- How long an application of a rule may take. -/
inductive TimeLimit where
  | unlimited
  | millis (n : Nat)
  /-- Asking for the limit crashes. -/
  | faulty
deriving DecidableEq, Repr

/-- A rule that is ready to be applied. -/
structure Logic where
  judge : Judge
  limit : TimeLimit := .unlimited
  parallelSafe : Bool := false

namespace Logic

def interface (logic : Logic) : Interface :=
  match logic.judge with
  | .value _ => .value
  | .withParent _ => .withParent

def start (logic : Logic) (value : Json) (parent : Option Json) (context : Context) : Activity :=
  match logic.judge with
  | .value judge => judge value context
  | .withParent judge => judge value parent context

/-- A short description. -/
def describe (logic : Logic) : String :=
  match logic.interface with
  | .value => "RuleLogic(Value)"
  | .withParent => "RuleLogic(WithParent)"

end Logic

end Vetting
