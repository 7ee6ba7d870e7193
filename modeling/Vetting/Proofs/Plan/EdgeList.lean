import Mathlib.Algebra.Ring.Nat
import Vetting.Plan.EdgeList
import Vetting.Proofs.Plan.Accumulation
import Vetting.Proofs.Plan.Projection

/-!
# Dependencies are safe to index

Manifests, trees and checks that have nothing to do with each other can be brought together in a
resolution, and one resolution can follow another. Where it succeeds, the dependencies of a check
are still numbers of checks of the list, in ascending order (`Check.SafelyIndexed`): whatever a
reference finds is the number of a check by the rule that it names (`Check.Leads`), no matter which
values the way up and the way down have led to.

So the graph of the checks can be built edge by edge, with no edge out of range and none twice, and
it is the graph in which cycles are looked for (`EdgeList.Draws`). The headline is
`dependencies_safe_to_index`.
-/

namespace Vetting

/-! ## Edges -/

namespace EdgeList

/-- Edges between nodes that are there are added in turn. -/
theorem foldlM_addEdge? {g : EdgeList} {edges : List (Nat × Nat)}
    (h : ∀ edge ∈ edges, edge.1 < g.nodes.length ∧ edge.2 < g.nodes.length) :
    edges.foldlM addEdge? g = some { g with edges := g.edges ++ edges } := by
  induction edges generalizing g with
  | nil => simp
  | cons edge edges ih =>
      obtain ⟨hedge, hedges⟩ := List.forall_mem_cons.mp h
      have hrest := ih (g := { g with edges := g.edges ++ [edge] }) hedges
      rw [List.append_assoc, List.singleton_append] at hrest
      rw [List.foldlM_cons, addEdge?, if_pos hedge]
      exact hrest

theorem foldl_addNode {α : Type} (f : α → Nat) (as : List α) (g : EdgeList) :
    as.foldl (fun g a => g.addNode (f a)) g = { g with nodes := g.nodes ++ as.map f } := by
  induction as generalizing g with
  | nil => simp
  | cons a as ih => rw [List.foldl_cons, ih, addNode, List.append_assoc, List.map_cons,
      List.singleton_append]

/-- The graph of a list of checks, built edge by edge: all edges are in range, none is there twice,
there is one for every dependency, and a search takes them in the same order. -/
structure Draws (g : EdgeList) (cs : List Check) : Prop where
  nodes : g.nodes = List.range cs.length
  inRange {edge : Nat × Nat} (h : edge ∈ g.edges) : edge.1 < cs.length ∧ edge.2 < cs.length
  edges_nodup : g.edges.Nodup
  length_edges : g.edges.length = (cs.map (·.dependencies.length)).sum
  toDigraph : g.toDigraph = Check.graph cs

end EdgeList

namespace Check

/-- The edges of stored checks, as they come. -/
def edges (stored : List (Numbered Nat Check)) : List (Nat × Nat) :=
  stored.flatMap fun entry => entry.content.dependencies.map (·, entry.id)

theorem stored_eq_map (cs : List Check) :
    stored cs = cs.zipIdx.map fun (check, i) => ⟨i, check⟩ :=
  List.mapIdx_eq_zipIdx_map

theorem mem_edges_stored {cs : List Check} {edge : Nat × Nat} :
    edge ∈ edges (stored cs) ↔ DependsOn cs edge.2 edge.1 := by
  obtain ⟨j, i⟩ := edge
  simp only [edges, List.mem_flatMap, mem_stored, List.mem_map, Prod.mk.injEq]
  constructor
  · rintro ⟨entry, hentry, _, hj, rfl, rfl⟩
    exact ⟨entry.content, hentry, hj⟩
  · rintro ⟨check, hcheck, hj⟩
    exact ⟨⟨i, check⟩, hcheck, j, hj, rfl, rfl⟩

theorem edgeList?_eq_some {entries : List (Numbered Nat Check)}
    (h : ∀ edge ∈ edges entries, edge.1 < entries.length ∧ edge.2 < entries.length) :
    edgeList? entries = some ⟨entries.map (·.id), edges entries⟩ := by
  have hfold : ∀ (later : List (Numbered Nat Check)) (g : EdgeList),
      later.foldlM (fun g entry =>
        entry.content.dependencies.foldlM (fun g j => g.addEdge? (j, entry.id)) g) g =
          (edges later).foldlM EdgeList.addEdge? g := by
    intro later
    induction later with
    | nil => exact fun _ => rfl
    | cons entry later ih =>
        intro g
        rw [edges, List.flatMap_cons, List.foldlM_append, List.foldlM_map, List.foldlM_cons]
        exact congrArg _ (funext ih)
  have hnodes := EdgeList.foldl_addNode (fun entry : Numbered Nat Check => entry.id) entries {}
  rw [edgeList?, hfold, hnodes, EdgeList.foldlM_addEdge?]
  · rfl
  · simpa using h

theorem edges_nodup {cs : List Check} (h : ∀ c ∈ cs, c.dependencies.Nodup) :
    (edges (stored cs)).Nodup := by
  refine List.nodup_flatMap.mpr ⟨fun entry hentry => ?_, ?_⟩
  · exact (h _ (List.mem_of_getElem? (mem_stored.mp hentry))).map fun _ _ => congrArg Prod.fst
  · -- Edges of different checks have different ends.
    have hids : ((stored cs).map (·.id)).Nodup := ids_stored cs ▸ List.nodup_range
    refine (List.pairwise_map.mp hids).imp fun {entry entry'} hne => ?_
    rintro edge hedge hedge'
    obtain ⟨_, -, rfl⟩ := List.mem_map.mp hedge
    obtain ⟨_, -, heq⟩ := List.mem_map.mp hedge'
    exact hne (congrArg Prod.snd heq).symm

/-- In either graph the neighbours of a check are those that depend on it, the last first. -/
theorem next_edges {cs : List Check} (h : ∀ c ∈ cs, c.dependencies.Nodup) (v : Nat) :
    (((edges (stored cs)).filter (·.1 == v)).map (·.2)).reverse = dependents cs v := by
  have hone : ∀ entry ∈ stored cs,
      ((entry.content.dependencies.map (·, entry.id)).filter (·.1 == v)).map (·.2) =
        (if entry.content.dependencies.contains v then some entry.id else none).toList := by
    intro entry hentry
    have hnodup := h _ (List.mem_of_getElem? (mem_stored.mp hentry))
    rw [List.filter_map, List.map_map]
    show List.map _ (List.filter (· == v) _) = _
    rw [List.filter_beq, hnodup.count]
    by_cases hv : v ∈ entry.content.dependencies <;> simp [hv]
  rw [dependents, edges, List.filter_flatMap, List.map_flatMap, List.flatMap_congr hone,
    ← List.filterMap_eq_flatMap_toList, stored_eq_map, List.filterMap_map]
  rfl

theorem draws_edges {cs : List Check} (hnodup : ∀ c ∈ cs, c.dependencies.Nodup)
    (hlt : ∀ c ∈ cs, ∀ j ∈ c.dependencies, j < cs.length) :
    ∃ g, edgeList? (stored cs) = some g ∧ g.Draws cs := by
  have hrange : ∀ edge ∈ edges (stored cs), edge.1 < cs.length ∧ edge.2 < cs.length := by
    intro edge hedge
    obtain ⟨check, hcheck, hj⟩ := mem_edges_stored.mp hedge
    exact ⟨hlt check (List.mem_of_getElem? hcheck) _ hj, (List.getElem?_eq_some_iff.mp hcheck).1⟩
  refine ⟨_, edgeList?_eq_some ?_, ?_⟩
  · simpa only [length_stored] using hrange
  · exact
      { nodes := ids_stored cs
        inRange := hrange _
        edges_nodup := edges_nodup hnodup
        length_edges := by
          rw [edges, List.length_flatMap]
          simp only [List.length_map]
          conv_rhs => rw [← contents_stored cs, List.map_map]
          rfl
        toDigraph := by
          rw [EdgeList.toDigraph, List.length_map, length_stored]
          exact congrArg (Digraph.mk cs.length) (funext (next_edges hnodup)) }

/-! ## Resolutions -/

/-- The dependencies of checks are strictly ascending numbers of checks of the list, each by a rule
to which the rule of the dependent refers in one of the manifests `ms`. -/
structure SafelyIndexed (ms : List Manifest) (cs : List Check) : Prop where
  ascending {c : Check} (hc : c ∈ cs) : c.dependencies.Pairwise (· < ·)
  leads {c : Check} (hc : c ∈ cs) {j : Nat} (hj : j ∈ c.dependencies) :
    ∃ hlt : j < cs.length, ∃ m ∈ ms, m.RefersTo c.rule cs[j].rule

/-- Stored checks that were made and have since been resolved with the manifests `ms`, in this
order: all at once or in place, and with any trees. -/
inductive ResolvedWith : List Manifest → List (Numbered Nat Check) → Prop
  | made {m : Manifest} {registry : RuleRegistry} {t : ValueTree} {cs : List Check}
      (hcs : m.checks registry t = .ok cs) : ResolvedWith [] (stored cs)
  | atOnce {ms : List Manifest} {m : Manifest} {t : ValueTree} {cs cs' : List Check}
      (h : ResolvedWith ms (stored cs)) (hr : m.resolve t cs = .ok cs') :
      ResolvedWith (ms ++ [m]) (stored cs')
  | inPlace {ms : List Manifest} {m : Manifest} {t : ValueTree}
      {entries entries' : List (Numbered Nat Check)} (h : ResolvedWith ms entries)
      (hr : m.resolveInPlace t entries = .ok () entries') : ResolvedWith (ms ++ [m]) entries'

/-- What looks checks up by rule and value finds checks of the list, by the rule that was asked
for. -/
def Leads (bound? : RuleId → ValueId → Option Nat) (cs : List Check) : Prop :=
  ∀ r v j, bound? r v = some j → ∃ hlt : j < cs.length, cs[j].rule = r

theorem leads_find? (cs : List Check) : Leads (find? cs) cs := by
  intro r v j h
  obtain ⟨hlt, htest, -⟩ := List.findIdx?_eq_some_iff_getElem.mp h
  rw [Bool.and_eq_true] at htest
  exact ⟨hlt, beq_iff_eq.mp htest.1⟩

theorem leads_bound? (cs : List Check) : Leads (bound? (stored cs)) cs := by
  intro r v j h
  obtain ⟨entry, hfind, rfl⟩ := Option.map_eq_some_iff.mp h
  obtain ⟨hlt, hentry⟩ := List.getElem?_eq_some_iff.mp
    (mem_stored.mp (List.mem_reverse.mp (List.mem_of_find?_eq_some hfind)))
  have htest := List.find?_some hfind
  rw [← hentry, Bool.and_eq_true] at htest
  exact ⟨hlt, beq_iff_eq.mp htest.1⟩

end Check

namespace Manifest

variable {m : Manifest} {t : ValueTree} {bound? : RuleId → ValueId → Option Nat}

/-- What the references of a check find are checks by rules that they name, wherever the ways up
and down have led. -/
theorem refersTo_of_findings {cs : List Check} (hbound : Check.Leads bound? cs) {c : Check}
    {found : List (List Nat)} (h : m.findings t bound? c = .ok found) {j : Nat}
    (hj : j ∈ found.flatten) : ∃ hlt : j < cs.length, m.RefersTo c.rule cs[j].rule := by
  obtain ⟨rule, hrule, hall⟩ := Fallible.bind_eq_ok.mp h
  obtain ⟨nums, hnums, hj⟩ := List.mem_flatten.mp hj
  obtain ⟨ref, href, hsought⟩ := exists_left_of_forall₂ (Fallible.mapM_eq_ok.mp hall) hnums
  obtain ⟨name, hname, hsought⟩ := Fallible.bind_eq_ok.mp hsought
  obtain ⟨values, -, hnums⟩ := Fallible.bind_eq_ok.mp hsought
  obtain rfl := Except.ok.inj hnums
  obtain ⟨v, -, hv⟩ := List.mem_filterMap.mp hj
  obtain ⟨hlt, rfl⟩ := hbound name v j hv
  exact ⟨hlt, rule, ref, getRule_eq_ok.mp (SetupError.ofManifest_eq_ok.mp hrule), href,
    target_eq_ok.mp (SetupError.ofManifest_eq_ok.mp hname)⟩

/-- A list of checks after a resolution in which `bound?` looks up checks. -/
def Resolution (m : Manifest) (t : ValueTree) (bound? : RuleId → ValueId → Option Nat)
    (cs cs' : List Check) : Prop :=
  List.Forall₂ (fun c c' => ∃ found, m.findings t bound? c = .ok found ∧ c' = c.extend found) cs cs'

theorem resolution_of_resolve {cs cs' : List Check} (h : m.resolve t cs = .ok cs') :
    m.Resolution t (Check.find? cs) cs cs' := by
  rw [resolve_eq] at h
  refine (Fallible.mapM_eq_ok.mp h).imp fun c c' hc => ?_
  obtain ⟨found, hfound, hc'⟩ := Fallible.bind_eq_ok.mp hc
  exact ⟨found, hfound, (Except.ok.inj hc').symm⟩

theorem resolution_of_resolveInPlace {cs : List Check} {entries : List (Numbered Nat Check)}
    (h : m.resolveInPlace t (Check.stored cs) = .ok () entries) :
    ∃ cs', entries = Check.stored cs' ∧ m.Resolution t (Check.bound? (Check.stored cs)) cs cs' := by
  refine ⟨entries.map (·.content), Check.eq_stored_of_bareAll (bareAll_of_resolveInPlace h), ?_⟩
  rw [Resolution, ← Check.contents_stored cs, List.forall₂_map_left_iff,
    List.forall₂_map_right_iff, Check.contents_stored]
  refine (forall₂_of_resolveInPlace h).imp ?_
  rintro entry _ ⟨found, hfound, rfl⟩
  exact ⟨found, hfound, rfl⟩

end Manifest

namespace Check

theorem SafelyIndexed.extend {ms : List Manifest} {m : Manifest} {t : ValueTree}
    {bound? : RuleId → ValueId → Option Nat} {cs cs' : List Check} (h : SafelyIndexed ms cs)
    (hbound : Leads bound? cs) (hall : m.Resolution t bound? cs cs') :
    SafelyIndexed (ms ++ [m]) cs' := by
  have hrule : ∀ {j} (hlt : j < cs.length), ∃ hlt' : j < cs'.length, cs'[j].rule = cs[j].rule := by
    intro j hlt
    have hlt' : j < cs'.length := hall.length_eq ▸ hlt
    obtain ⟨found, -, heq⟩ : ∃ found, _ ∧ cs'[j] = cs[j].extend found := hall.get hlt hlt'
    exact ⟨hlt', heq ▸ rfl⟩
  refine ⟨fun {c'} hc' => ?_, fun {c'} hc' {j} hj => ?_⟩
  · obtain ⟨c, -, found, -, rfl⟩ := exists_left_of_forall₂ hall hc'
    exact pairwise_ascending _
  · obtain ⟨c, hc, found, hfound, rfl⟩ := exists_left_of_forall₂ hall hc'
    rcases mem_dependencies_extend.mp hj with hj | hj
    · obtain ⟨hlt, m', hm', hrefers⟩ := h.leads hc hj
      obtain ⟨hlt', hsame⟩ := hrule hlt
      exact ⟨hlt', m', List.mem_append_left _ hm', hsame ▸ hrefers⟩
    · obtain ⟨hlt, hrefers⟩ := Manifest.refersTo_of_findings hbound hfound hj
      obtain ⟨hlt', hsame⟩ := hrule hlt
      exact ⟨hlt', m, List.mem_append_right _ (List.mem_singleton_self m), hsame ▸ hrefers⟩

/-- Whatever a list of checks has been resolved with, it is stored in order and safe to index. -/
theorem ResolvedWith.exists_safelyIndexed {ms : List Manifest} {entries : List (Numbered Nat Check)}
    (h : ResolvedWith ms entries) : ∃ cs, entries = stored cs ∧ SafelyIndexed ms cs := by
  induction h with
  | @made m registry t cs hcs =>
      have hnone : ∀ c ∈ cs, c.dependencies = [] := fun c hc =>
        ((Manifest.checks_pairs hcs).2 c hc).dependencies
      refine ⟨cs, rfl, fun {c} hc => ?_, fun {c} hc {j} hj => ?_⟩
      · rw [hnone c hc]
        exact .nil
      · rw [hnone c hc] at hj
        cases hj
  | @atOnce ms m t cs cs' _ hr ih =>
      obtain ⟨cs₀, hstored, hsafe⟩ := ih
      obtain rfl : cs = cs₀ := by rw [← contents_stored cs, hstored, contents_stored]
      exact ⟨cs', rfl, hsafe.extend (leads_find? cs) (Manifest.resolution_of_resolve hr)⟩
  | inPlace _ hr ih =>
      obtain ⟨cs, rfl, hsafe⟩ := ih
      obtain ⟨cs', rfl, hall⟩ := Manifest.resolution_of_resolveInPlace hr
      exact ⟨cs', rfl, hsafe.extend (leads_bound? cs) hall⟩

end Check

/-- **Dependencies are safe to index.** Make checks, and resolve them as often as you like, with any
manifests and any trees, at once or in place: if all of that succeeds, the dependencies of every
check are strictly ascending numbers of checks of the list, each by a rule to which some manifest
of the resolutions makes the rule of the check refer. So the graph of the checks can be built edge
by edge without going out of range, it has an edge for every dependency and none twice, and it is
the graph that is searched for cycles. Where one is found, all of its checks can be named. -/
theorem dependencies_safe_to_index {ms : List Manifest} {entries : List (Numbered Nat Check)}
    (h : Check.ResolvedWith ms entries) :
    ∃ cs g, entries = Check.stored cs ∧ Check.SafelyIndexed ms cs ∧
      Check.edgeList? entries = some g ∧ g.Draws cs ∧
      ∀ e, Check.acyclic cs = .error e → ∃ ring labels, g.toDigraph.firstCycle? = some ring ∧
        (∀ i ∈ ring, i < cs.length) ∧ Check.Labelled cs ring labels ∧ e = .circular labels := by
  obtain ⟨cs, rfl, hsafe⟩ := h.exists_safelyIndexed
  have hnodup : ∀ c ∈ cs, c.dependencies.Nodup := fun c hc =>
    (hsafe.ascending hc).imp Nat.ne_of_lt
  have hlt : ∀ c ∈ cs, ∀ j ∈ c.dependencies, j < cs.length := fun c hc j hj =>
    (hsafe.leads hc hj).1
  obtain ⟨g, hg, hdraws⟩ := Check.draws_edges hnodup hlt
  refine ⟨cs, g, rfl, hsafe, hg, hdraws, fun e he => ?_⟩
  obtain ⟨ring, labels, hring, hisring, hlabels, rfl⟩ := Check.acyclic_eq_error he
  refine ⟨ring, labels, hdraws.toDigraph ▸ hring, fun i hi => ?_, hlabels, rfl⟩
  obtain ⟨check, hcheck⟩ := hisring.exists_check hi
  exact (List.getElem?_eq_some_iff.mp hcheck).1

/-- Resolved with two manifests in turn, the check of the key waits for those of the lock and of the
folder, and the folder waits for the key. -/
theorem dependencies_safe_to_index_opened :
    ∃ t cs rs both g e,
      (Manifest.build "Folder" lockedEdits).materializeTo .skip 6 folder = .ok t ∧
      (Manifest.build "Folder" lockedEdits).checks lockedRules t = .ok cs ∧
      (Manifest.build "Folder" lockedEdits).resolve t cs = .ok rs ∧
      (Manifest.build "Folder" openedEdits).resolve t rs = .ok both ∧
      both.map (·.dependencies) = [[], [3], [], [1, 2], []] ∧
      Check.SafelyIndexed [Manifest.build "Folder" lockedEdits, Manifest.build "Folder" openedEdits]
        both ∧
      Check.edgeList? (Check.stored both) = some g ∧ g.edges.length = 3 ∧
      Check.acyclic both = .error e := by
  have hsome : (((Manifest.build "Folder" lockedEdits).materializeTo .skip 6 folder).toOption.bind
      fun t => ((Manifest.build "Folder" lockedEdits).checks lockedRules t).toOption.bind fun cs =>
        ((Manifest.build "Folder" lockedEdits).resolve t cs).toOption.bind fun rs =>
          ((Manifest.build "Folder" openedEdits).resolve t rs).toOption.map fun both =>
            (both.map (·.dependencies), (Check.acyclic both).toOption.isNone)) =
      some ([[], [3], [], [1, 2], []], true) := by decide +kernel
  obtain ⟨t, ht, hsome⟩ := Option.bind_eq_some_iff.mp hsome
  obtain ⟨cs, hcs, hsome⟩ := Option.bind_eq_some_iff.mp hsome
  obtain ⟨rs, hrs, hsome⟩ := Option.bind_eq_some_iff.mp hsome
  obtain ⟨both, hboth, heq⟩ := Option.map_eq_some_iff.mp hsome
  obtain ⟨hdeps, hfails⟩ := Prod.mk.inj heq
  have hchecks := Fallible.eq_ok_of_toOption hcs
  have hfirst := Fallible.eq_ok_of_toOption hrs
  have hsecond := Fallible.eq_ok_of_toOption hboth
  obtain ⟨both', g, hstored, hsafe, hg, hdraws, -⟩ :=
    dependencies_safe_to_index (.atOnce (.atOnce (.made hchecks) hfirst) hsecond)
  obtain rfl : both = both' := by
    rw [← Check.contents_stored both, hstored, Check.contents_stored]
  obtain ⟨e, he⟩ : ∃ e, Check.acyclic both = .error e := by
    cases h : Check.acyclic both with
    | error e => exact ⟨e, rfl⟩
    | ok _ =>
        rw [h] at hfails
        cases hfails
  have hlength : (both.map (·.dependencies.length)).sum = 3 := by
    rw [← Function.comp_def, ← List.map_map, hdeps]
    rfl
  exact ⟨t, cs, rs, both, g, e, Fallible.eq_ok_of_toOption ht, hchecks, hfirst, hsecond, hdeps,
    hsafe, hg, hdraws.length_edges.trans hlength, he⟩

end Vetting
