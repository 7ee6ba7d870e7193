import Vetting.Rule.Activity
import Vetting.Run.Report
import Vetting.Text.Quoted

/-!
# How names, settings and results are written

The JSON forms of what goes in and out of a validation. Each choice among names has one table, which
serves for writing (`Vetting.Format.Written`) and for reading (`Vetting.Format.Read`).
-/

namespace Vetting

def FailurePolicy.names : List (String × FailurePolicy) :=
  [("propagate", .propagate), ("treat_as_default", .useDefault), ("skip", .skip)]

def RejectionPolicy.names : List (String × RejectionPolicy) :=
  [("never", .never), ("on_error", .onError), ("on_any_failure", .onAnyFailure)]

def Interface.names : List (String × Interface) :=
  [Interface.value, .withParent].map fun interface => (interface.text, interface)

/-- The name of a choice in a table. -/
def nameIn [BEq α] (names : List (String × α)) (a : α) : String :=
  ((names.find? (·.2 == a)).map (·.1)).getD ""

def FailurePolicy.toJson (policy : FailurePolicy) : Json := .string (nameIn names policy)

def RejectionPolicy.toJson (policy : RejectionPolicy) : Json := .string (nameIn names policy)

def Interface.toJson (interface : Interface) : Json := .string interface.text

def Outcome.name : Outcome → String
  | passed => "passed"
  | failed => "failed"
  | dependencyFailed => "dependency_failed"
  | errored => "errored"

def Outcome.toJson (outcome : Outcome) : Json := .string outcome.name

def ItemId.toJson (id : ItemId) : Json := .ofNat id.index

def RuleId.toJson (id : RuleId) : Json := .ofNat id.index

def ValueId.toJson (id : ValueId) : Json := .ofNat id.index

/-- The fields of a rule key. -/
def RuleKey.fields (key : RuleKey) : List (String × Json) :=
  [("rule_type", .string key.ruleType), ("validated_type", .string key.validatedType),
    ("name", .ofText? key.name)]

def RuleKey.toJson (key : RuleKey) : Json := .ofFields key.fields

def RuleRef.toJson (ref : RuleRef) : Json :=
  .ofFields [("item", ref.item.toJson), ("rule", ref.key.toJson)]

/-- The identity stands beside the fields of the key. -/
def RuleLabel.toJson (label : RuleLabel) : Json :=
  .ofFields (label.key.fields ++ [("identity", .ofText? label.identity)])

def RuleError.toJson : RuleError → Json
  | logic message => detailed "logic" (.string message)
  | timeout limit => detailed "timeout" limit.toJson
  | crashed message => detailed "panicked" (.string message)
  | cancelled => .ofFields [("kind", .string "cancelled")]
  | configuration message => detailed "configuration" (.string message)
where
  /-- An error with something to say. -/
  detailed (kind : String) (detail : Json) : Json :=
    .ofFields [("kind", .string kind), ("detail", detail)]

def Finding.toJson (f : Finding) : Json :=
  .ofFields [("passed", .bool f.passed), ("data", .object f.data)]

/-- The error stands only in an errored result. -/
def Result.toJson (r : Result) : Json :=
  .ofFields ([("outcome", r.outcome.toJson), ("data", .object r.data)] ++
    r.error?.toList.map fun error => ("error", error.toJson))

def Measurement.toJson (m : Measurement) : Json :=
  .ofFields [("elapsed", m.elapsed.toJson), ("parallel", .bool m.concurrent)]

/-- The measurement stands only where there is one. -/
def Line.toJson (l : Line) : Json :=
  .ofFields ([("identifier", l.label.toJson), ("value", l.value.toJson),
    ("result", l.entry.result.toJson)] ++
    l.entry.measurement.toList.map fun m => ("instrumentation", m.toJson))

/-- The fields of settings. -/
def Settings.fields (settings : Settings) : List (String × Json) :=
  [("enable_parallelization", .bool settings.concurrent),
    ("instrument_execution", .bool settings.measure),
    ("accessor_exception_behavior", settings.onFailure.toJson),
    ("max_parallelism", .ofNat settings.maxParallelism),
    ("rejection_policy", settings.rejection.toJson)]

def Settings.toJson (settings : Settings) : Json := .ofFields settings.fields

/-! ## Functions

A function is described by its kind only. -/

def Reader.describe (_ : Reader) : String := "MemberAccessor(..)"

def IdentityReader.describe (_ : IdentityReader) : String := "IdentityAccessor(..)"

def Enumerator.describe (_ : Enumerator) : String := "CollectionEnumerator(..)"

def Recognizer.describe (r : Recognizer) : String :=
  "TypeMatcher \x7b type_name: " ++ Text.quoted r.typeName ++ ", .. \x7d"

end Vetting
