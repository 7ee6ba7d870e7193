import Vetting.Rule.Registry

/-!
# Stock rules

Kinds of rules that need no program of their own. A `StockRule` with the `Terms` on which it is
applied makes a factory for a registry; some kinds also take settings from the manifest.
-/

namespace Vetting

/-- On what terms a stock rule is applied. -/
structure Terms where
  interface : Interface := .value
  parallelSafe : Bool := false
  limit : TimeLimit := .unlimited

inductive StockRule where
  /-- Always the same answer, or the same crash. -/
  | fixed (answer : Answer)
  | crashing (message : Option String)
  /-- Passes anything but null. -/
  | notNull
  /-- Passes strings of at most `max` characters; other values have none. -/
  | maxLength
  /-- Takes `millis` to answer as `passed` says. -/
  | delay
  /-- Passes numbers up to the field `limit` of the parent. -/
  | withinParentLimit
  /-- Passes, and tells what it sees. -/
  | inspect
  /-- Passes the setting `value` only. -/
  | equals
  /-- Cancels the run, and answers so if it is to check. -/
  | cancelRun (check : Bool)
  /-- Refuses all settings. -/
  | refusing (error : RuleError)
  /-- Crashes when it is asked for its time limit. -/
  | faultyLimit

namespace StockRule

/-- A rule that is applied on the given terms. It sees a parent only if the terms say so. -/
def onTerms (terms : Terms) (assess : Json → Option Json → Context → Activity) : Logic where
  judge := match terms.interface with
    | .value => .value fun value context => assess value none context
    | .withParent => .withParent assess
  limit := terms.limit
  parallelSafe := terms.parallelSafe

/-- An answer given at once. -/
def atOnce (f : Finding) : Activity := .answer (.ok f)

/-- A setting that must be there in the right form. -/
def setting (config : Fields) (name : String) (decode : Json → Option α) : Except RuleError α :=
  match (config.lookup name).bind decode with
  | some a => .ok a
  | none => .error (.configuration ("`" ++ name ++ "` is required"))

/-- A setting that may be missing or malformed. -/
def settingOr (config : Fields) (name : String) (decode : Json → Option α) (default : α) : α :=
  ((config.lookup name).bind decode).getD default

def assessNotNull (value : Json) : Finding :=
  Finding.withData { passed := !value.isNull } "value" value

def assessMaxLength (max : Nat) (value : Json) : Finding :=
  { passed := decide ((value.text?.getD "").length ≤ max) }

/-- Sleeps, then answers, unless it is cancelled meanwhile. -/
def assessDelay (millis : Nat) (deaf passed : Bool) : Activity :=
  .sleep millis deaf fun cutShort =>
    .answer (if cutShort then .error .cancelled else .ok { passed })

def assessParentLimit (value : Json) (parent : Option Json) : Answer :=
  match (parent.bind (·.field? "limit")).bind Json.number? with
  | some limit =>
    let amount := value.number?.getD (Binary64.zero false)
    .ok (Finding.withData { passed := decide (amount ≤ limit) } "limit" (.float limit))
  | none => .error (.logic "parent has no limit")

/-- What a rule sees of the place where it is applied. -/
def view (parent : Option Json) (context : Context) (cancelled : Bool) : Fields :=
  let key := context.label.key
  .ofList
    [("parent", parent.getD .null),
      ("has_parent", .bool parent.isSome),
      ("ancestors", .array (context.ancestors.map fun (identity, value) =>
        .array [.ofText? identity, value])),
      ("order", .ofOption .ofNat context.arrivalOrder),
      ("id", .array [.string key.ruleType, .string key.validatedType, .ofText? key.name,
        .string context.label.text]),
      ("interface", .string context.interface.text),
      ("cancelled", .bool cancelled)]

def delayLogic (terms : Terms) (config : Fields) : Except RuleError Logic := do
  let millis ← setting config "millis" Json.natural?
  let deaf := settingOr config "ignore_cancel" Json.flag? false
  let passed := settingOr config "passed" Json.flag? true
  let limit := settingOr config "timeout_millis" (fun v => v.natural?.map .millis) .unlimited
  let parallelSafe := settingOr config "parallel" Json.flag? false
  .ok (onTerms { terms with limit, parallelSafe } fun _ _ _ => assessDelay millis deaf passed)

/-- The factory of a stock rule. -/
def factory (terms : Terms) : StockRule → RuleFactory
  | fixed answer, _ => .ok (onTerms terms fun _ _ _ => .answer answer)
  | crashing message, _ => .ok (onTerms terms fun _ _ _ => .crash message)
  | notNull, _ => .ok (onTerms terms fun value _ _ => atOnce (assessNotNull value))
  | maxLength, config => do
    let max ← setting config "max" Json.natural?
    .ok (onTerms terms fun value _ _ => atOnce (assessMaxLength max value))
  | delay, config => delayLogic terms config
  | withinParentLimit, _ =>
    .ok (onTerms terms fun value parent _ => .answer (assessParentLimit value parent))
  | inspect, _ =>
    .ok (onTerms terms fun _ parent context =>
      .poll fun cancelled => atOnce { passed := true, data := view parent context cancelled })
  | equals, config => do
    let expected ← setting config "value" some
    .ok (onTerms terms fun value _ _ => atOnce { passed := value.same expected })
  | cancelRun check, _ =>
    .ok (onTerms terms fun _ _ _ =>
      .cancelRun (.answer (if check then .error .cancelled else .ok .pass)))
  | refusing error, _ => .error error
  | faultyLimit, _ => .ok (onTerms { terms with limit := .faulty } fun _ _ _ => atOnce .pass)

end StockRule

end Vetting
