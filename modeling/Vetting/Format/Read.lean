import Vetting.Format.Written
import Vetting.Json.Decoding

/-!
# How names, settings and results are read

Readers of the forms that `Vetting.Format.Written` writes, and of the array forms of records. Of a
result only the finding is read; errors and outcomes arise in runs.
-/

namespace Vetting

def ItemId.ofDocument? (d : Document) : Option ItemId := d.natural?.map ItemId.mk

def RuleId.ofDocument? (d : Document) : Option RuleId := d.natural?.map RuleId.mk

def FailurePolicy.ofDocument? : Document → Option FailurePolicy := Document.choice? names

def RejectionPolicy.ofDocument? : Document → Option RejectionPolicy := Document.choice? names

def Interface.ofDocument? : Document → Option Interface := Document.choice? names

/-- A rule key from its fields, in the order in which they are declared. -/
def RuleKey.ofFields? : List (Option Document) → Option RuleKey
  | [ruleType, validatedType, name] => do
    some {
      ruleType := ← Document.required? Document.text? ruleType
      validatedType := ← Document.required? Document.text? validatedType
      name := ← Document.withDefault? (Document.optional? Document.text?) none name }
  | _ => none

def RuleKey.fieldNames : List String := ["rule_type", "validated_type", "name"]

def RuleKey.ofDocument? (d : Document) : Option RuleKey :=
  (d.fieldsOf? fieldNames).bind ofFields?

def RuleRef.ofDocument? (d : Document) : Option RuleRef := do
  match ← d.fieldsOf? ["item", "rule"] with
  | [item, rule] =>
    some {
      item := ← Document.required? ItemId.ofDocument? item
      key := ← Document.required? RuleKey.ofDocument? rule }
  | _ => none

/-- Reads an object only. All fields are kept until the key has been found among them, so unknown
ones must hold values, too. -/
def RuleLabel.ofDocument? : Document → Option RuleLabel
  | .object fields => do
    match ← Document.fieldsOfObject? ("identity" :: RuleKey.fieldNames) fields with
    | identity :: key =>
      let _ ← fields.mapM fun (_, d) => d.value? 1
      some {
        key := ← RuleKey.ofFields? key
        identity := ← Document.withDefault? (Document.optional? Document.text?) none identity }
    | [] => none
  | _ => none

def Finding.ofDocument? (d : Document) : Option Finding := do
  match ← d.fieldsOf? ["passed", "data"] with
  | [passed, data] =>
    some {
      passed := ← Document.required? Document.flag? passed
      data := ← Document.withDefault? (Document.anyFields? 1) [] data }
  | _ => none

def Settings.ofDocument? (d : Document) : Option Settings := do
  match ← d.fieldsOf? ["enable_parallelization", "instrument_execution",
      "accessor_exception_behavior", "max_parallelism", "rejection_policy"] with
  | [concurrent, measure, onFailure, maxParallelism, rejection] =>
    some {
      concurrent := ← Document.withDefault? Document.flag? true concurrent
      measure := ← Document.withDefault? Document.flag? false measure
      onFailure := ← Document.withDefault? FailurePolicy.ofDocument? .propagate onFailure
      maxParallelism := ← Document.withDefault? Document.natural? 16 maxParallelism
      rejection := ← Document.withDefault? RejectionPolicy.ofDocument? .never rejection }
  | _ => none

end Vetting
