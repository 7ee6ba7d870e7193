import Vetting.Manifest.Edit

/-!
# Manifests that are fit for use

In a manifest that is fit for use every recursive item borrows from an item above it, and every
reference names a rule that is declared. `validate` says so or names the first fault: items come
before rules, each in order of their numbers.
-/

namespace Vetting.Manifest

/-- Fails unless the reference of a rule names a declared rule. -/
def checkReference (m : Manifest) (rule : RuleKey) (target : RuleRef) : Except ManifestError Unit :=
  if (m.item? target.item).isNone then .error (.danglingReference rule target.item)
  else if (m.findRule? target).isNone then .error (.undeclaredReference rule target)
  else .ok ()

def validate (m : Manifest) : Except ManifestError Unit := do
  (List.range m.items.size).forM fun i => discard (m.definition ⟨i⟩)
  m.rules.toList.forM fun rule => rule.dependencies.forM (m.checkReference rule.key)

end Vetting.Manifest
