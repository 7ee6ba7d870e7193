import Vetting.Duration

/-!
# What a rule finds

A rule that is applied to a value answers with a finding, the value passes or fails, or with an
error. The result of a rule is that answer, or the note that the rule was not applied because
something that it depends on did not pass.
-/

namespace Vetting

/-- Why a rule gave no finding. -/
inductive RuleError where
  | logic (message : String)
  | timeout (limit : Duration)
  /-- The rule crashed with a message. -/
  | crashed (message : String)
  | cancelled
  /-- The rule could not be made from its settings. -/
  | configuration (message : String)
deriving DecidableEq, Repr

namespace RuleError

def text : RuleError → String
  | logic message => message
  | timeout limit => "rule timed out after " ++ limit.text
  | crashed message => "rule panicked: " ++ message
  | cancelled => "rule cancelled"
  | configuration message => "invalid rule configuration: " ++ message

def isTimeout : RuleError → Bool
  | timeout _ => true
  | _ => false

end RuleError

/-- What a rule says of a value, with data to go with it. -/
structure Finding where
  passed : Bool
  data : Fields := []
deriving Repr

namespace Finding

def pass : Finding := { passed := true }

/-- The finding with one more entry of data. -/
def withData (f : Finding) (key : String) (value : Json) : Finding :=
  { f with data := f.data.insert key value }

end Finding

/-- What a rule answers when it is applied. -/
abbrev Answer := Except RuleError Finding

inductive Outcome where
  | passed
  | failed
  | dependencyFailed
  | errored
deriving DecidableEq, Repr

def Outcome.text : Outcome → String
  | passed => "passed"
  | failed => "failed"
  | dependencyFailed => "dependency failed"
  | errored => "errored"

/-- How a rule ended. -/
inductive Result where
  | found (finding : Finding)
  /-- The rule was not applied. -/
  | dependencyFailed
  | errored (error : RuleError)
deriving Repr

namespace Result

def ofAnswer : Answer → Result
  | .ok finding => found finding
  | .error error => errored error

def outcome : Result → Outcome
  | found finding => if finding.passed then .passed else .failed
  | dependencyFailed => .dependencyFailed
  | errored _ => .errored

def isPassed (r : Result) : Bool := r.outcome == .passed

def data : Result → Fields
  | found finding => finding.data
  | _ => []

def error? : Result → Option RuleError
  | errored error => some error
  | _ => none

end Result

end Vetting
