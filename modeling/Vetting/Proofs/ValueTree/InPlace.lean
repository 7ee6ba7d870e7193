import Vetting.Proofs.Manifest.InPlace
import Vetting.Proofs.ValueTree.Growth
import Vetting.Proofs.ValueTree.Placement
import Vetting.ValueTree.InPlace

/-!
# Values found in place are numbered in pre-order

Finding values in place stores the tree that the manifest finds in the document, every value under
its number (`materializeInPlace_eq`). While a value is being expanded, the arena holds the values
stored before it, then the value with what has been found below it so far (`underway`): a branch
that has yet to grow. Every step is followed by saying how it ends (`Filling.Ends`), and a slot that
is filled adds the branches that it adds to the branch that grows.

Whether a recursive slot repeats a value is asked of the arena, where the items that apply to the
ancestors are not all known yet. The answer does not depend on them (`Descends.repeatedAt`).
-/

namespace Vetting

/-- The arena that stores the values of a list, every one numbered by its position. -/
def store (nodes : List ValueNode) : ValueArena :=
  ⟨nodes.toArray.mapIdx fun i node => ⟨⟨i⟩, node⟩⟩

@[simp] theorem tree_store (nodes : List ValueNode) : (store nodes).tree = ⟨nodes.toArray⟩ := by
  simp only [ValueArena.tree, store, ValueTree.mk.injEq]
  ext i : 1 <;> simp

theorem store_concat (nodes : List ValueNode) (node : ValueNode) :
    store (nodes ++ [node]) = ⟨(store nodes).values.push ⟨⟨nodes.length⟩, node⟩⟩ := by
  simp only [store, ← List.push_toArray, Array.mapIdx_push, List.size_toArray]

@[simp] theorem size_store (nodes : List ValueNode) : (store nodes).values.size = nodes.length := by
  simp [store]

namespace Filling

variable {β γ : Type}

/-! ## How steps end -/

/-- Steps from an arena end as a computation does and leave the arena that its answer stands for. -/
def Ends (steps : Filling Unit) (a : ValueArena) (x : Except SetupError β)
    (left : β → ValueArena) : Prop :=
  steps.run a = x.map fun b => ((), left b)

theorem Ends.pure {left : β → ValueArena} {a : ValueArena} {b : β} (h : a = left b) :
    Ends (pure ()) a (.ok b) left := by
  rw [h]
  rfl

theorem Ends.bind {steps rest : Filling Unit} {a : ValueArena} {x : Except SetupError β}
    {y : β → Except SetupError γ} {left : β → ValueArena} {left' : γ → ValueArena}
    (h : Ends steps a x left) (hrest : ∀ b, Ends rest (left b) (y b) left') :
    Ends (steps >>= fun _ => rest) a (x >>= y) left' := by
  unfold Ends at h ⊢
  rw [StateT.run_bind, h]
  cases x with
  | error e => rfl
  | ok b => exact hrest b

theorem Ends.map {steps : Filling Unit} {a : ValueArena} {x : Except SetupError β} {f : β → γ}
    {left : γ → ValueArena} (h : Ends steps a x fun b => left (f b)) :
    Ends steps a (f <$> x) left := by
  unfold Ends at h ⊢
  rw [h]
  cases x <;> rfl

/-- Steps that begin with a computation agree with one that begins in the same way. -/
theorem Ends.read {x : Except SetupError β} {rest : β → Filling Unit}
    {y : β → Except SetupError γ} {a : ValueArena} {left : γ → ValueArena}
    (h : ∀ b, x = .ok b → Ends (rest b) a (y b) left) :
    Ends (liftM x >>= rest) a (x >>= y) left := by
  cases x with
  | error e => rfl
  | ok b => exact h b rfl

/-- One run of steps after another agrees with a traversal of one list after the other. -/
theorem Ends.append {steps rest : Filling Unit} {a : ValueArena} {f : γ → Except SetupError β}
    {xs ys : List γ} {left left' : List β → ValueArena} (h : Ends steps a (xs.mapM f) left)
    (hrest : ∀ bs, Ends rest (left bs) (ys.mapM f) fun more => left' (bs ++ more)) :
    Ends (steps >>= fun _ => rest) a ((xs ++ ys).mapM f) left' := by
  rw [List.mapM_append]
  refine h.bind fun bs => ?_
  rw [← map_eq_pure_bind]
  exact .map (hrest bs)

/-- Steps that begin with one whose end is known. -/
theorem Ends.after {α : Type} {first : Filling α} {rest : α → Filling Unit} {a a' : ValueArena}
    {v : α} {x : Except SetupError β} {left : β → ValueArena} (hfirst : first.run a = .ok (v, a'))
    (h : Ends (rest v) a' x left) : Ends (first >>= rest) a x left := by
  unfold Ends at h ⊢
  rw [StateT.run_bind, hfirst]
  exact h

/-- Steps taken one after the other agree with a traversal, each of them adding its answer. -/
theorem Ends.forM {steps : γ → Filling Unit} {f : γ → Except SetupError β} {xs : List γ}
    (left : List β → ValueArena)
    (h : ∀ x ∈ xs, ∀ bs, Ends (steps x) (left bs) (f x) fun b => left (bs ++ [b])) :
    Ends (xs.forM steps) (left []) (xs.mapM f) left := by
  have hfrom : ∀ bs, Ends (xs.forM steps) (left bs) (xs.mapM f) fun more => left (bs ++ more) := by
    induction xs with
    | nil =>
        intro bs
        rw [List.mapM_nil]
        exact .pure (by rw [List.append_nil])
    | cons x xs ih =>
        intro bs
        rw [List.mapM_cons]
        refine (h x List.mem_cons_self bs).bind fun b => ?_
        rw [← map_eq_pure_bind]
        refine .map ?_
        simpa using ih (fun x hx => h x (List.mem_cons_of_mem _ hx)) (bs ++ [b])
  exact hfrom []

/-! ## What the primitives do -/

theorem run_modifyNode (nodes : List ValueNode) (id : ValueId) (f : ValueNode → ValueNode) :
    (modifyNode id f).run (store nodes) = .ok ((), store (nodes.modify id.index f)) := by
  show Except.ok ((), _) = _
  simp only [store, ← mapIdx_modify, List.modify_toArray]

/-- The arena while a value is being expanded: the items `as` have applied to it so far, and the
branches `bs` have been found below it. -/
def underway (before : List ValueNode) (parent : Option ValueId) (r : Reading) (as : List ItemId)
    (bs : List Branch) : ValueArena :=
  store (before ++ (Branch.node { r with applied := as } bs).nodes parent before.length)

/-- What is stored when a value being expanded has entered one more child, which comes next. -/
def entered (before : List ValueNode) (parent : Option ValueId) (r : Reading) (as : List ItemId)
    (bs : List Branch) : List ValueNode :=
  before ++
    { r with
      applied := as, parent
      children := Branch.numbers (before.length + 1) bs ++
        [⟨before.length + 1 + Branch.countAll bs⟩] } ::
    Branch.nodesAll (some ⟨before.length⟩) (before.length + 1) bs

section Underway

variable {before : List ValueNode} {parent : Option ValueId} {r : Reading} {as : List ItemId}
  {bs : List Branch}

theorem modify_at {α : Type} (before : List α) (x : α) (rest : List α) (f : α → α) :
    (before ++ x :: rest).modify before.length f = before ++ f x :: rest := by
  induction before with
  | nil => rfl
  | cons y before ih =>
      rw [List.cons_append, List.length_cons, List.modify_cons, if_neg (Nat.succ_ne_zero _),
        Nat.add_sub_cancel, ih, List.cons_append]

theorem length_entered :
    (entered before parent r as bs).length = before.length + 1 + Branch.countAll bs := by
  rw [entered, List.length_append, List.length_cons, Branch.length_nodesAll]
  omega

theorem run_apply (variant : ItemId) :
    (modifyNode ⟨before.length⟩ fun node => { node with applied := node.applied ++ [variant] }).run
      (underway before parent r as bs) =
        .ok ((), underway before parent r (as ++ [variant]) bs) := by
  rw [underway, run_modifyNode, Branch.nodes_node, modify_at, underway, Branch.nodes_node]

/-- A value just stored is one that has yet to be expanded. -/
theorem store_new (nodes : List ValueNode) (parent : Option ValueId) (r : Reading)
    (as : List ItemId) :
    store (nodes ++ [({ r with applied := as, parent, children := [] } : ValueNode)]) =
      underway nodes parent r as [] := by
  rw [underway, Branch.nodes_node, Branch.nodesAll, Branch.numbers]

theorem run_push_top (nodes : List ValueNode) (r : Reading) (as : List ItemId) :
    (push none { r with applied := as }).run (store nodes) =
      .ok (⟨nodes.length⟩, underway nodes none r as []) := by
  rw [← store_new, store_concat, ← size_store]
  rfl

theorem run_push_below (nodes : List ValueNode) (p : ValueId) (r : Reading) :
    (push (some p) r).run (store nodes) =
      .ok (⟨nodes.length⟩, store ((nodes ++
        [({ r with parent := some p, children := [] } : ValueNode)]).modify p.index
          fun node => { node with children := node.children ++ [⟨nodes.length⟩] })) := by
  have hmodify := run_modifyNode
    (nodes ++ [({ r with parent := some p, children := [] } : ValueNode)]) p
    fun node => { node with children := node.children ++ [⟨nodes.length⟩] }
  rw [store_concat, ← size_store nodes] at hmodify
  rw [← size_store nodes]
  simp only [push, Option.forM, StateT.run_bind, StateT.run_get, StateT.run_modify, pure_bind]
  rw [hmodify]
  rfl

theorem run_push (below : Reading) (first : List ItemId) :
    (push (some ⟨before.length⟩) { below with applied := first }).run
      (underway before parent r as bs) =
        .ok (⟨(entered before parent r as bs).length⟩,
          underway (entered before parent r as bs) (some ⟨before.length⟩) below first []) := by
  have hlength : (entered before parent r as bs).length =
      (before ++ (Branch.node { r with applied := as } bs).nodes parent before.length).length := by
    rw [length_entered, List.length_append, Branch.length_nodes, Branch.count]
    omega
  rw [← store_new, underway, run_push_below, ← hlength, length_entered, Branch.nodes_node,
    List.append_assoc, List.cons_append, modify_at, entered, List.append_assoc, List.cons_append]

theorem node?_underway : (underway before parent r as bs).tree.node? ⟨before.length⟩ =
    some { r with
      applied := as, parent, children := Branch.numbers (before.length + 1) bs } := by
  rw [underway, tree_store, Branch.nodes_node, ValueTree.node?, List.getElem?_toArray,
    List.getElem?_append_right (Nat.le_refl _), Nat.sub_self]
  rfl

/-- A branch that has grown from the value entered last is one more branch below its parent. -/
theorem store_entered (c : Branch) :
    store (entered before parent r as bs ++
      c.nodes (some ⟨before.length⟩) (entered before parent r as bs).length) =
        underway before parent r as (bs ++ [c]) := by
  rw [underway, Branch.nodes_node, Branch.nodesAll_append, Branch.numbers_append, length_entered,
    entered]
  simp [Branch.nodesAll, Branch.numbers]

end Underway

/-! ## Ancestors in the arena -/

/-- The readings of a lineage, the closest first, are stored at `parent` and its ancestors, whatever
has applied to each of them so far. -/
inductive Descends (nodes : List ValueNode) : Option ValueId → List Reading → Prop
  | top : Descends nodes none []
  | down {id : ValueId} {parent : Option ValueId} {r : Reading} {as : List ItemId}
      {children : List ValueId} {lineage : List Reading}
      (hnode : nodes[id.index]? = some { r with applied := as, parent, children })
      (hlt : ∀ p, parent = some p → p.index < id.index) (hrest : Descends nodes parent lineage) :
      Descends nodes (some id) (r :: lineage)

namespace Descends

variable {nodes : List ValueNode} {parent : Option ValueId} {lineage : List Reading}

theorem append (h : Descends nodes parent lineage) (more : List ValueNode) :
    Descends (nodes ++ more) parent lineage := by
  induction h with
  | top => exact .top
  | down hnode hlt _ ih =>
      have hin := (List.getElem?_eq_some_iff.mp hnode).1
      exact .down ((List.getElem?_append_left hin).trans hnode) hlt ih

theorem lt {p : ValueId} (h : Descends nodes (some p) lineage) : p.index < nodes.length := by
  cases h with
  | down hnode _ _ => exact (List.getElem?_eq_some_iff.mp hnode).1

/-- A value stored below a lineage belongs to the lineage of what comes below it. -/
theorem step (h : Descends nodes parent lineage) (r : Reading) (as : List ItemId)
    (children : List ValueId) (rest : List ValueNode) :
    Descends (nodes ++ { r with applied := as, parent, children } :: rest) (some ⟨nodes.length⟩)
      (r :: lineage) := by
  refine .down (by rw [List.getElem?_append_right (Nat.le_refl _), Nat.sub_self]; rfl)
    (fun p hp => ?_) (h.append _)
  subst hp
  exact h.lt

/-- Whether a value is found among its ancestors does not depend on what applies to them. -/
theorem repeatedAt (h : Descends nodes parent lineage) (below : Reading) :
    (parent.any fun p => (ValueTree.mk nodes.toArray).repeatedAt p below) =
      lineage.any below.repeats := by
  induction h with
  | top => rfl
  | @down id parent r as children lineage hnode hlt _ ih =>
      have hnode' : (ValueTree.mk nodes.toArray).node? id =
          some { r with applied := as, parent, children } := by
        rw [ValueTree.node?, List.getElem?_toArray, hnode]
      have hparent : (ValueTree.mk nodes.toArray).parent? id = parent := by
        rw [ValueTree.parent?, hnode', Option.bind_some]
      rw [List.any_cons, ← ih, Option.any_some, ValueTree.repeatedAt, List.any_cons, hnode',
        Option.any_some]
      congr 1
      cases parent with
      | none => rw [ValueTree.ancestors_of_none hparent]; rfl
      | some p => rw [ValueTree.ancestors_of_parent hparent (hlt p rfl)]; rfl

end Descends

/-! ## Values, slots and items that apply -/

theorem liftM_outset_bind {m : Manifest} {item : ItemId} {order : Option Nat} {value : Json}
    {rest : Reading → Filling β} :
    liftM (SetupError.ofManifest (m.outset item order value)) >>= rest =
      liftM (SetupError.ofManifest (m.reading item order value)) >>= fun r =>
        rest { r with applied := [r.definition] } := by
  unfold Manifest.outset Manifest.reading
  cases m.definition item with
  | error e => rfl
  | ok definition =>
      show liftM (SetupError.ofManifest (m.get definition >>= _)) >>= rest =
        liftM (SetupError.ofManifest (m.get definition >>= _)) >>= _
      cases m.get definition <;> rfl

/-- `expand` finishes whatever value has just been stored below a lineage: it leaves there what
`grow` makes of the reading. -/
def Finishes (m : Manifest) (expand : ValueId → Filling Unit)
    (grow : Reading → Except SetupError Branch) (lineage : List Reading) : Prop :=
  ∀ {before : List ValueNode} {parent : Option ValueId} {r : Reading},
    Descends before parent lineage → m.IsReading r →
      Ends (expand ⟨before.length⟩) (underway before parent r [r.definition] []) (grow r) fun b =>
        store (before ++ b.nodes parent before.length)

section Steps

variable {m : Manifest} {policy : FailurePolicy} {expand : ValueId → Filling Unit}
  {grow : Reading → Except SetupError Branch} {lineage : List Reading} {before : List ValueNode}
  {parent : Option ValueId} {r : Reading}

/-- What a recursive slot drops is found in the arena, above the value being expanded. -/
theorem repeatedAt_underway (hbefore : Descends before parent lineage) (slot : ItemId)
    (below : Reading) (as : List ItemId) (bs : List Branch) :
    (m.isRecursive slot && (underway before parent r as bs).tree.repeatedAt ⟨before.length⟩
      { below with applied := [below.definition] }) = !m.keeps (r :: lineage) slot below := by
  have hrepeated := (hbefore.step r as (Branch.numbers (before.length + 1) bs)
    (Branch.nodesAll (some ⟨before.length⟩) (before.length + 1) bs)).repeatedAt
    { below with applied := [below.definition] }
  rw [← Branch.nodes_node, Option.any_some] at hrepeated
  rw [underway, tree_store, hrepeated, Manifest.keeps, Bool.not_not]
  rfl

/-- A value that a slot offers adds its branch below the value being expanded, if the slot keeps
it. -/
theorem ends_place (hexpand : Finishes m expand grow (r :: lineage))
    (hbefore : Descends before parent lineage) (slot : ItemId) (offer : Option Nat × Json)
    (as : List ItemId) (bs : List Branch) :
    Ends (place m expand ⟨before.length⟩ slot offer) (underway before parent r as bs)
      (m.sprout grow (r :: lineage) slot offer) fun c =>
        underway before parent r as (bs ++ c.toList) := by
  unfold place Manifest.sprout
  rw [liftM_outset_bind]
  refine .read fun below hbelow => ?_
  have hreading := (Manifest.reading_eq_ok.mp (SetupError.ofManifest_eq_ok.mp hbelow)).1
  refine .after rfl ?_
  rw [repeatedAt_underway hbefore]
  cases m.keeps (r :: lineage) slot below with
  | false => exact .pure (by simp)
  | true =>
      refine .after (run_push below _) ?_
      refine .map ?_
      have hentered : Descends (entered before parent r as bs) (some ⟨before.length⟩)
          (r :: lineage) := hbefore.step r as _ _
      simpa only [Option.toList_some, ← store_entered] using hexpand hentered hreading

theorem ends_fill (hexpand : Finishes m expand grow (r :: lineage))
    (hbefore : Descends before parent lineage) (value : Json) (slot : ItemId) (as : List ItemId)
    (bs : List Branch) :
    Ends (fill m policy expand ⟨before.length⟩ value slot) (underway before parent r as bs)
      (m.fill policy grow (r :: lineage) value slot) fun group =>
        underway before parent r as (bs ++ group) := by
  unfold fill Manifest.fill
  refine .read fun offered _ => ?_
  -- What an offer has put is none or one of the branches found so far.
  have hone : ∀ (sprouted : List (Option Branch)) (c : Option Branch),
      (sprouted ++ [c]).filterMap id = sprouted.filterMap id ++ c.toList := by
    intro sprouted c
    rw [List.filterMap_append]
    cases c <;> rfl
  have hoffers : ∀ offer ∈ offered, ∀ sprouted : List (Option Branch),
      Ends (place m expand ⟨before.length⟩ slot offer)
        (underway before parent r as (bs ++ sprouted.filterMap id))
        (m.sprout grow (r :: lineage) slot offer) fun c =>
          underway before parent r as (bs ++ (sprouted ++ [c]).filterMap id) := by
    intro offer _ sprouted
    simp only [hone, ← List.append_assoc]
    exact ends_place hexpand hbefore slot offer as _
  have hall := Ends.forM
    (fun sprouted => underway before parent r as (bs ++ sprouted.filterMap id)) hoffers
  rw [List.filterMap_nil, List.append_nil] at hall
  exact Ends.map (f := List.filterMap id) hall

theorem ends_slots (hexpand : Finishes m expand grow (r :: lineage))
    (hbefore : Descends before parent lineage) (value : Json) (slots : List ItemId)
    (as : List ItemId) (bs : List Branch) :
    Ends (slots.forM (fill m policy expand ⟨before.length⟩ value)) (underway before parent r as bs)
      (slots.mapM (m.fill policy grow (r :: lineage) value)) fun groups =>
        underway before parent r as (bs ++ groups.flatten) := by
  have hslots : ∀ slot ∈ slots, ∀ groups : List (List Branch),
      Ends (fill m policy expand ⟨before.length⟩ value slot)
        (underway before parent r as (bs ++ groups.flatten))
        (m.fill policy grow (r :: lineage) value slot) fun group =>
          underway before parent r as (bs ++ (groups ++ [group]).flatten) := by
    intro slot _ groups
    simp only [List.flatten_append, List.flatten_singleton, ← List.append_assoc]
    exact ends_fill hexpand hbefore value slot as _
  have hall := Ends.forM
    (fun groups => underway before parent r as (bs ++ groups.flatten)) hslots
  rwa [List.flatten_nil, List.append_nil] at hall

/-- Items `g v` that each `v` adds to those that apply fill their slots one after the other. -/
theorem ends_each {steps : ItemId → Filling Unit} {g : ItemId → List ItemId}
    {f : ItemId → Except SetupError (List Branch)} {vs : List ItemId}
    (h : ∀ v ∈ vs, ∀ as bs, Ends (steps v) (underway before parent r as bs)
      (((g v).flatMap m.slots).mapM f) fun groups =>
        underway before parent r (as ++ g v) (bs ++ groups.flatten))
    (as : List ItemId) (bs : List Branch) :
    Ends (vs.forM steps) (underway before parent r as bs) (((vs.flatMap g).flatMap m.slots).mapM f)
      fun groups => underway before parent r (as ++ vs.flatMap g) (bs ++ groups.flatten) := by
  induction vs generalizing as bs with
  | nil => exact .pure (by simp)
  | cons v vs ih =>
      rw [List.flatMap_cons, List.flatMap_append]
      refine .append (h v List.mem_cons_self as bs) fun groups => ?_
      simpa [List.append_assoc] using
        ih (fun v hv => h v (List.mem_cons_of_mem _ hv)) (as ++ g v) (bs ++ groups.flatten)

variable (policy) in
/-- What an item that applies brings about, together with the variants below it that apply. -/
theorem ends_expandDefinition (hm : m.Sound) (hexpand : Finishes m expand grow (r :: lineage))
    (hbefore : Descends before parent lineage) (value : Json) {d : ItemId}
    (hd : ∃ item, m.item? d = some item) (as : List ItemId) (bs : List Branch) :
    Ends (expandDefinition m policy expand ⟨before.length⟩ value d)
      (underway before parent r (as ++ [d]) bs)
      (((m.applied value d).flatMap m.slots).mapM (m.fill policy grow (r :: lineage) value))
      fun groups => underway before parent r (as ++ m.applied value d) (bs ++ groups.flatten) := by
  induction d using Manifest.variants_induction hm generalizing as bs with
  | step d ih =>
      obtain ⟨item, hi⟩ := hd
      have hslots : m.slots d = item.slots := by rw [Manifest.slots, hi]; rfl
      have hvariants : m.variants d = item.variants := by rw [Manifest.variants, hi]; rfl
      rw [expandDefinition, Manifest.get_eq_ok.mpr hi, Manifest.applied_eq hm, List.flatMap_cons,
        hslots, hvariants]
      refine .after rfl ?_
      refine .append (ends_slots hexpand hbefore value item.slots _ bs) fun groups => ?_
      rw [List.append_cons as d (item.variants.flatMap _)]
      simp only [List.flatten_append, ← List.append_assoc]
      refine ends_each (fun v hv as bs => ?_) _ _
      rw [← hvariants] at hv
      obtain ⟨-, sub, hsub, hp, -⟩ := (Manifest.mem_variants_iff hm).mp hv
      rw [if_pos ⟨(hm.parent_some hsub hp).1, Manifest.item?_lt hsub⟩]
      split
      · exact .after (run_apply v) (ih v hv ⟨sub, hsub⟩ as bs)
      · exact .pure (by simp)

/-- Expanding a value just stored leaves the branch that grows from its reading. -/
theorem expandTo_finishes (hm : m.Sound) (depth : Nat) (lineage : List Reading) :
    Finishes m (expandTo m policy depth) (m.grow policy depth lineage) lineage := by
  induction depth generalizing lineage with
  | zero =>
      intro before parent r _ _
      rw [expandTo, Manifest.grow]
      refine .after rfl ?_
      rw [node?_underway]
      rfl
  | succ depth ih =>
      intro before parent r hbefore hr
      rw [expandTo, Manifest.grow]
      refine .after rfl ?_
      rw [node?_underway, Option.forM]
      dsimp only
      have happlied := hr.applied
      split
      · rw [if_pos ‹_›] at happlied
        refine .pure ?_
        rw [underway, ← happlied]
      · rw [if_neg ‹_›] at happlied
        obtain ⟨defining, hdefining, -⟩ := hr.identity
        have hexpand := ends_expandDefinition policy hm (ih (r :: lineage)) hbefore r.value
          ⟨defining, hdefining⟩ [] []
        rw [← happlied] at hexpand
        exact hexpand.map (f := fun groups : List (List Branch) => Branch.node r groups.flatten)

end Steps

end Filling

/-- **Values found in place are the value tree**, every value stored under its number. -/
theorem materializeInPlace_eq {m : Manifest} (hm : m.Sound) (policy : FailurePolicy) (depth : Nat)
    (document : Json) :
    m.materializeInPlace policy depth document =
      (m.materializeTo policy depth document).map fun t => store t.nodes.toList := by
  have hfind : Filling.Ends (Filling.findValues m policy depth document) (store [])
      (m.unfoldTo policy depth document) fun b => store (b.nodes none 0) := by
    unfold Filling.findValues Manifest.unfoldTo
    rw [Filling.liftM_outset_bind]
    refine .read fun r hr => ?_
    have hreading := (Manifest.reading_eq_ok.mp (SetupError.ofManifest_eq_ok.mp hr)).1
    exact .after (Filling.run_push_top [] r _) (Filling.expandTo_finishes hm depth [] .top hreading)
  show (Filling.findValues m policy depth document).run (store []) >>= _ = _
  rw [hfind, Manifest.materializeTo]
  cases m.unfoldTo policy depth document <;> rfl

end Vetting
