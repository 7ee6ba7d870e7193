import Vetting.ValueTree.Unfolding

/-!
# Numbering a value tree

The values of a tree are laid out in pre-order: a value, then each of its branches in turn. The
number of a value is its place in this order.
-/

namespace Vetting

namespace Branch

mutual

/-- The number of values in a branch. -/
def count : Branch → Nat
  | node _ children => countAll children + 1

def countAll : List Branch → Nat
  | [] => 0
  | b :: bs => b.count + countAll bs

end

/-- The numbers of neighbouring branches, the first of which is number `start`. -/
def numbers (start : Nat) : List Branch → List ValueId
  | [] => []
  | b :: bs => ⟨start⟩ :: numbers (start + b.count) bs

mutual

/-- The values of a branch below `parent`, numbered from `start`. -/
def nodes (parent : Option ValueId) (start : Nat) : Branch → List ValueNode
  | node reading children =>
    { reading with parent, children := numbers (start + 1) children } ::
      nodesAll (some ⟨start⟩) (start + 1) children

def nodesAll (parent : Option ValueId) (start : Nat) : List Branch → List ValueNode
  | [] => []
  | b :: bs => b.nodes parent start ++ nodesAll parent (start + b.count) bs

end

mutual

theorem length_nodes (parent : Option ValueId) (start : Nat) (b : Branch) :
    (b.nodes parent start).length = b.count := by
  cases b with
  | node reading children => simp [nodes, count, length_nodesAll]

theorem length_nodesAll (parent : Option ValueId) (start : Nat) (bs : List Branch) :
    (nodesAll parent start bs).length = countAll bs := by
  cases bs with
  | nil => rfl
  | cons b bs => simp [nodesAll, countAll, length_nodes, length_nodesAll]

end

end Branch

def ValueTree.ofBranch (b : Branch) : ValueTree := ⟨(b.nodes none 0).toArray⟩

@[simp] theorem ValueTree.size_ofBranch (b : Branch) : (ofBranch b).size = b.count := by
  simp [ofBranch, size, Branch.length_nodes]

/-- The numbered tree of the values that the manifest finds in a document, if it has at most `depth`
levels. -/
def Manifest.materializeTo (m : Manifest) (policy : FailurePolicy) (depth : Nat)
    (document : Json) : Except SetupError ValueTree :=
  (m.unfoldTo policy depth document).map ValueTree.ofBranch

/-- The numbered tree of the values that the manifest finds in a document. -/
def Manifest.materialize (m : Manifest) (policy : FailurePolicy) (document : Json) :
    Except SetupError ValueTree :=
  m.materializeTo policy (m.reach document) document

end Vetting
