import Vetting.Proofs.Plan.Cycles

/-!
# The cycle that is reported

Checks that wait for each other form a ring: a largest set of checks each of which depends on every
one, itself included, directly or through others (`Check.IsRing`). `acyclic_exact` says that a list
of checks is refused exactly if some check waits for itself, and that the checks then named are one
ring.

Of several rings it is one that no other depends on. That is owed to the order in which a
depth-first search is done with its nodes (`Digraph.Tidy`): when it is done with a node, whatever
it has met but is not done with lies on the way to that node. So the last of a component to be done
with comes after everything that can be reached from the component.
-/

namespace Vetting

open Relation

namespace Digraph

variable {g : Digraph}

/-! ## The order of a search -/

/-- What holds of a search between explorations. No node is done with twice, and of the nodes that
were done with up to some node `v`, edges lead only to one another and to nodes on the way to
`v`. -/
structure Tidy (g : Digraph) (s : Search) : Prop where
  met {x : Nat} (h : x ∈ s.done) : x ∈ s.met
  nodup : s.done.Nodup
  closed {x y : Nat} (h : x ∈ s.done) (hy : g.Edge x y) : y ∈ s.met
  ordered {earlier later : List Nat} {v x y : Nat} (h : s.done = earlier ++ v :: later)
    (hx : x ∈ earlier ++ [v]) (hy : g.Edge x y) :
    y ∈ earlier ++ [v] ∨ ReflTransGen g.Edge y v

/-- All nodes that a search has met but is not done with lie on the way to `v`. -/
def OpenTo (g : Digraph) (s : Search) (v : Nat) : Prop :=
  ∀ x ∈ s.met, x ∉ s.done → ReflTransGen g.Edge x v

theorem tidy_empty : g.Tidy {} := by
  refine ⟨?_, List.nodup_nil, ?_, ?_⟩
  · intro x hx
    cases hx
  · intro x y hx
    cases hx
  · intro earlier later v x y h
    simp at h

/-- An exploration leaves the same nodes open as before. -/
theorem Grows.open_iff {P : Nat → Prop} {s s' : Search} (h : g.Grows P s s') (x : Nat) :
    x ∈ s'.met ∧ x ∉ s'.done ↔ x ∈ s.met ∧ x ∉ s.done := by
  rw [h.done]
  have hsubset : x ∈ s.met → x ∈ s'.met := h.subset
  tauto

theorem Grows.openTo {P : Nat → Prop} {s s' : Search} {v : Nat} (h : g.Grows P s s')
    (hopen : g.OpenTo s v) : g.OpenTo s' v := by
  intro x hmet hdone
  obtain ⟨hmet, hdone⟩ := (h.open_iff x).mp ⟨hmet, hdone⟩
  exact hopen x hmet hdone

theorem Tidy.meet {s : Search} (h : g.Tidy s) (v : Nat) :
    g.Tidy { s with met := v :: s.met } := by
  refine ⟨?_, h.nodup, ?_, h.ordered⟩
  · intro x hx
    exact List.mem_cons_of_mem v (h.met hx)
  · intro x y hx hy
    exact List.mem_cons_of_mem v (h.closed hx hy)

theorem OpenTo.meet {s : Search} {v : Nat} (h : g.OpenTo s v) :
    g.OpenTo { s with met := v :: s.met } v := by
  intro x hx hdone
  rcases List.mem_cons.mp hx with rfl | hx
  · exact .refl
  · exact h x hx hdone

/-- A node that all other open nodes lead to is done with when its neighbours have been met. -/
theorem Tidy.snoc {s : Search} {v : Nat} (h : g.Tidy s) (hmet : v ∈ s.met) (hnew : v ∉ s.done)
    (hnext : ∀ y, g.Edge v y → y ∈ s.met) (hopen : g.OpenTo s v) :
    g.Tidy { s with done := s.done ++ [v] } := by
  have hclosed : ∀ x ∈ s.done ++ [v], ∀ y, g.Edge x y → y ∈ s.met := by
    intro x hx y hy
    rcases List.mem_append.mp hx with hx | hx
    · exact h.closed hx hy
    · rw [List.mem_singleton.mp hx] at hy
      exact hnext y hy
  refine ⟨?_, ?_, ?_, ?_⟩
  · intro x hx
    rcases List.mem_append.mp hx with hx | hx
    · exact h.met hx
    · rw [List.mem_singleton.mp hx]
      exact hmet
  · refine List.nodup_append.mpr ⟨h.nodup, List.nodup_singleton v, ?_⟩
    rintro x hx y hy rfl
    rw [List.mem_singleton.mp hy] at hx
    exact hnew hx
  · intro x y hx hy
    exact hclosed x hx y hy
  · intro earlier later u x y hsplit hx hy
    rcases List.eq_nil_or_concat later with rfl | ⟨later, last, rfl⟩
    · -- The node that is done with last.
      obtain ⟨rfl, hu⟩ := List.append_inj' hsplit rfl
      obtain rfl : v = u := by simpa using hu
      have hymet := hclosed x hx y hy
      by_cases hydone : y ∈ s.done
      · exact .inl (List.mem_append_left _ hydone)
      · exact .inr (hopen y hymet hydone)
    · have hsplit' : s.done ++ [v] = (earlier ++ u :: later) ++ [last] := by simpa using hsplit
      obtain ⟨hs, -⟩ := List.append_inj' hsplit' rfl
      exact h.ordered hs hx hy

/-- Exploring several nodes in turn, if exploring each of them goes as it should. -/
theorem foldl_tidy {P : Nat → Prop} {f : Search → Nat → Search} {n : Nat} {vs : List Nat}
    (hf : ∀ v ∈ vs, ∀ s, (g.unmet s).card < n → g.Grows P s (f s v) ∧
      (g.Tidy s → g.OpenTo s v → g.Tidy (f s v)))
    {s : Search} (hs : (g.unmet s).card < n) (htidy : g.Tidy s) (hopen : ∀ v ∈ vs, g.OpenTo s v) :
    g.Tidy (vs.foldl f s) := by
  induction vs generalizing s with
  | nil => exact htidy
  | cons v vs ih =>
      obtain ⟨hgrows, hfirst⟩ := hf v List.mem_cons_self s hs
      refine ih (fun w hw => hf w (List.mem_cons_of_mem v hw))
        (Nat.lt_of_le_of_lt hgrows.unmet_le hs)
        (hfirst htidy (hopen v List.mem_cons_self)) ?_
      intro w hw
      exact hgrows.openTo (hopen w (List.mem_cons_of_mem v hw))

theorem explore_tidy (hg : g.Bounded) {fuel : Nat} {s : Search} {v : Nat} (hv : v < g.size)
    (hfuel : (g.unmet s).card < fuel) (htidy : g.Tidy s) (hopen : g.OpenTo s v) :
    g.Tidy (g.explore fuel s v) := by
  induction fuel generalizing s v with
  | zero => omega
  | succ fuel ih =>
      rw [explore]
      split
      · exact htidy
      · rename_i hnew
        have hnewdone : v ∉ s.done := fun hdone => hnew (htidy.met hdone)
        have hless : (g.unmet { s with met := v :: s.met }).card < fuel :=
          Nat.lt_of_lt_of_le (unmet_cons hv hnew) (by omega)
        have hgrows : ∀ w ∈ g.next v, ∀ s, (g.unmet s).card < fuel →
            g.Grows (fun _ => True) s (g.explore fuel s w) ∧ w ∈ (g.explore fuel s w).met := by
          intro w hw s hs
          obtain ⟨hgrows, hmet⟩ := explore_grows hg (hg v w hw) hs
          exact ⟨hgrows.imp fun _ _ => trivial, hmet⟩
        obtain ⟨hbelow, hall⟩ := foldl_grows hgrows hless
        have htidy' : g.Tidy ((g.next v).foldl (g.explore fuel) { s with met := v :: s.met }) := by
          refine foldl_tidy (fun w hw s hs => ⟨(hgrows w hw s hs).1, ?_⟩) hless (htidy.meet v) ?_
          · intro htidy hopen
            exact ih (hg v w hw) hs htidy hopen
          · -- Below `v` the node itself is open too, and it leads to each of its neighbours.
            intro w hw x hx hdone
            exact (hopen.meet x hx hdone).tail hw
        obtain ⟨hmet, hdone⟩ := (hbelow.open_iff v).mpr ⟨List.mem_cons_self, hnewdone⟩
        exact htidy'.snoc hmet hdone hall (hbelow.openTo hopen.meet)

theorem exploreAll_tidy (hg : g.Bounded) {starts : List Nat} (hstarts : ∀ v ∈ starts, v < g.size) :
    g.Tidy (g.exploreAll starts) := by
  have hempty : (g.unmet {}).card < g.size + 1 := by
    simp [unmet]
  have hstart : ∀ v ∈ starts, ∀ s, (g.unmet s).card < g.size + 1 →
      g.Grows (fun _ => True) s (g.explore (g.size + 1) s v) ∧
        (g.Tidy s → g.OpenTo s v → g.Tidy (g.explore (g.size + 1) s v)) := by
    intro v hv s hs
    refine ⟨(explore_grows hg (hstarts v hv) hs).1.imp fun _ _ => trivial, ?_⟩
    intro htidy hopen
    exact explore_tidy hg (hstarts v hv) hs htidy hopen
  refine foldl_tidy hstart hempty tidy_empty ?_
  intro v hv x hx
  cases hx

/-- The last of a component to be done with comes after all that can be reached from it. -/
theorem reached_earlier (hg : g.Bounded) {earlier later : List Nat} {v x : Nat}
    (hsplit : g.postOrder = earlier ++ v :: later) (hlast : ∀ w ∈ later, g.linked v w = false)
    (hx : ReflTransGen g.Edge v x) : x ∈ earlier ++ [v] := by
  have htidy : g.Tidy (g.exploreAll (List.range g.size)) :=
    exploreAll_tidy hg fun w hw => List.mem_range.mp hw
  induction hx with
  | refl => exact List.mem_append_right _ List.mem_cons_self
  | @tail x y hvx hxy ih =>
      rcases htidy.ordered hsplit ih hxy with hy | hyv
      · exact hy
      · have hmem : y ∈ g.postOrder := mem_postOrder hg (hg x y hxy)
        rw [hsplit, List.mem_append, List.mem_cons] at hmem
        rcases hmem with hy | rfl | hy
        · exact List.mem_append_left _ hy
        · exact List.mem_append_right _ List.mem_cons_self
        · -- A node that is on the way back to `v` is linked with it.
          rcases reflTransGen_iff_eq_or_transGen.mp hyv with rfl | hyv
          · exact List.mem_append_right _ List.mem_cons_self
          · have hvy : TransGen g.Edge v y := TransGen.tail' hvx hxy
            have := hlast y hy
            rw [(linked_iff hg).mpr ⟨hvy, hyv⟩] at this
            cases this

/-! ## The component that is found -/

theorem isCyclic_iff (hg : g.Bounded) {v : Nat} : g.isCyclic v = true ↔ TransGen g.Edge v v := by
  simp [isCyclic, mem_reach hg]

theorem lt_size_of_reached (hg : g.Bounded) {v w : Nat} (h : TransGen g.Edge v w) : w < g.size := by
  obtain ⟨u, -, hu⟩ := TransGen.tail'_iff.mp h
  exact hg u w hu

theorem mem_component (hg : g.Bounded) {v w : Nat} :
    w ∈ g.component v ↔ TransGen g.Edge v w ∧ TransGen g.Edge w v := by
  rw [component, List.mem_filter, List.mem_range, linked_iff hg]
  exact and_iff_right_of_imp fun h => lt_size_of_reached hg h.1

/-- The node whose component is found lies on a cycle and is the last of its component; those
before it that lie on cycles have theirs among the rest. -/
theorem firstClosed?_eq_some (hg : g.Bounded) {vs cycle : List Nat}
    (h : g.firstClosed? vs = some cycle) :
    ∃ earlier v later, vs = earlier ++ v :: later ∧ cycle = g.component v ∧
      TransGen g.Edge v v ∧ (∀ w ∈ later, g.linked v w = false) ∧
      ∀ u ∈ earlier, TransGen g.Edge u u → ∃ w ∈ v :: later, g.linked u w = true := by
  induction vs with
  | nil => cases h
  | cons u vs ih =>
      rw [firstClosed?] at h
      split at h
      · rename_i htest
        cases h
        simp only [Bool.and_eq_true, Bool.not_eq_true', List.any_eq_false,
          Bool.not_eq_true] at htest
        refine ⟨[], u, vs, rfl, rfl, (isCyclic_iff hg).mp htest.1, htest.2, ?_⟩
        intro w hw
        cases hw
      · rename_i htest
        obtain ⟨earlier, v, later, rfl, hcycle, hv, hlast, hearlier⟩ := ih h
        refine ⟨u :: earlier, v, later, rfl, hcycle, hv, hlast, ?_⟩
        refine List.forall_mem_cons.mpr ⟨fun hu => ?_, hearlier⟩
        simp only [(isCyclic_iff hg).mpr hu, Bool.true_and, Bool.not_eq_true', Bool.not_eq_false,
          List.any_eq_true] at htest
        obtain ⟨w, hw, huw⟩ := htest
        rcases List.mem_append.mp hw with hw | hw
        · -- A later node of the component, whose own is among the rest.
          obtain ⟨huw, hwu⟩ := (linked_iff hg).mp huw
          obtain ⟨x, hx, hwx⟩ := hearlier w hw (hwu.trans huw)
          obtain ⟨hwx, hxw⟩ := (linked_iff hg).mp hwx
          exact ⟨x, hx, (linked_iff hg).mpr ⟨huw.trans hwx, hxw.trans hwu⟩⟩
        · exact ⟨w, hw, huw⟩

/-- A cycle is found exactly if there is one. -/
theorem firstCycle?_isSome_iff (hg : g.Bounded) :
    g.firstCycle?.isSome = true ↔ ∃ v, TransGen g.Edge v v := by
  constructor
  · intro h
    obtain ⟨cycle, hcycle⟩ := Option.isSome_iff_exists.mp h
    obtain ⟨earlier, v, later, -, -, hv, -, -⟩ := firstClosed?_eq_some hg hcycle
    exact ⟨v, hv⟩
  · rintro ⟨v, hv⟩
    by_contra hnone
    exact not_reaches_self hg (Option.not_isSome_iff_eq_none.mp hnone)
      (lt_size_of_reached hg hv) hv

theorem hasCycle_iff (hg : g.Bounded) : g.hasCycle = true ↔ ∃ v, TransGen g.Edge v v := by
  simp only [hasCycle, List.any_eq_true, List.mem_range, isCyclic_iff hg]
  exact exists_congr fun v => and_iff_right_of_imp (lt_size_of_reached hg)

/-- From the component that is found no other cycle can be reached. -/
theorem mem_of_reached (hg : g.Bounded) {cycle : List Nat} (h : g.firstCycle? = some cycle)
    {v x : Nat} (hv : v ∈ cycle) (hvx : TransGen g.Edge v x) (hx : TransGen g.Edge x x) :
    x ∈ cycle := by
  obtain ⟨earlier, top, later, hsplit, rfl, -, hlast, hearlier⟩ := firstClosed?_eq_some hg h
  have hdone : ∀ y, TransGen g.Edge top y → y ∈ earlier ++ [top] := fun y hy =>
    reached_earlier hg hsplit hlast hy.to_reflTransGen
  have hnodup : (earlier ++ top :: later).Nodup := by
    rw [← hsplit]
    exact (exploreAll_tidy hg fun w hw => List.mem_range.mp hw).nodup
  obtain ⟨htop, -⟩ := (mem_component hg).mp hv
  have htopx := htop.trans hvx
  rcases List.mem_append.mp (hdone x htopx) with hxe | hxt
  · -- The component of `x` ends with `top`, as nothing reached from `top` comes later.
    obtain ⟨w, hw, hxw⟩ := hearlier x hxe hx
    obtain ⟨hxw, hwx⟩ := (linked_iff hg).mp hxw
    rcases List.mem_cons.mp hw with rfl | hw
    · exact (mem_component hg).mpr ⟨hwx, hxw⟩
    · have hwdone := hdone w (htopx.trans hxw)
      rw [List.append_cons] at hnodup
      exact absurd rfl ((List.nodup_append.mp hnodup).2.2 w hwdone w hw)
  · rw [List.mem_singleton.mp hxt]
    rw [List.mem_singleton.mp hxt] at hx
    exact (mem_component hg).mpr ⟨hx, hx⟩

end Digraph

namespace Check

/-! ## Checks that wait for each other -/

/-- Check `j` is among the dependencies of check `i`. -/
def DependsOn (checks : List Check) (i j : Nat) : Prop :=
  ∃ check, checks[i]? = some check ∧ j ∈ check.dependencies

theorem mem_dependents {checks : List Check} {i j : Nat} :
    i ∈ dependents checks j ↔ DependsOn checks i j := by
  simp only [dependents, List.mem_reverse, List.mem_filterMap, Prod.exists,
    List.mem_zipIdx_iff_getElem?, Option.ite_none_right_eq_some, Option.some.injEq]
  constructor
  · rintro ⟨check, i', hc, hj, rfl⟩
    exact ⟨check, hc, by simpa using hj⟩
  · rintro ⟨check, hc, hj⟩
    exact ⟨check, i, hc, by simpa using hj, rfl⟩

theorem graph_bounded (checks : List Check) : (graph checks).Bounded := by
  intro j i hi
  obtain ⟨check, hc, -⟩ := mem_dependents.mp hi
  exact (List.getElem?_eq_some_iff.mp hc).1

/-- Paths in the graph of checks lead from a check to those that depend on it. -/
theorem transGen_edge_iff {checks : List Check} {i j : Nat} :
    TransGen (graph checks).Edge j i ↔ TransGen (DependsOn checks) i j := by
  have hedge : (graph checks).Edge = Function.swap (DependsOn checks) := by
    funext j i
    exact propext mem_dependents
  rw [hedge, transGen_swap]

/-- The checks of a ring wait for each other: they are those that depend on any one of them and
that it depends on, directly or through others. -/
structure IsRing (checks : List Check) (ring : List Nat) : Prop where
  ne_nil : ring ≠ []
  ascending : ring.Pairwise (· < ·)
  mem_iff {i : Nat} (hi : i ∈ ring) (j : Nat) :
    j ∈ ring ↔ TransGen (DependsOn checks) i j ∧ TransGen (DependsOn checks) j i

namespace IsRing

variable {checks : List Check} {ring : List Nat}

theorem waits (h : IsRing checks ring) {i : Nat} (hi : i ∈ ring) :
    TransGen (DependsOn checks) i i :=
  ((h.mem_iff hi i).mp hi).1

theorem exists_check (h : IsRing checks ring) {i : Nat} (hi : i ∈ ring) :
    ∃ check, checks[i]? = some check := by
  obtain ⟨j, ⟨check, hcheck, -⟩, -⟩ := TransGen.head'_iff.mp (h.waits hi)
  exact ⟨check, hcheck⟩

end IsRing

theorem isRing_of_firstCycle? {checks : List Check} {ring : List Nat}
    (h : (graph checks).firstCycle? = some ring) : IsRing checks ring := by
  have hg := graph_bounded checks
  obtain ⟨earlier, v, later, -, rfl, hv, -, -⟩ := Digraph.firstClosed?_eq_some hg h
  refine ⟨?_, ?_, ?_⟩
  · exact List.ne_nil_of_mem ((Digraph.mem_component hg).mpr ⟨hv, hv⟩)
  · exact List.pairwise_lt_range.filter _
  · intro i hi j
    obtain ⟨hvi, hiv⟩ := (Digraph.mem_component hg).mp hi
    rw [Digraph.mem_component hg, ← transGen_edge_iff, ← transGen_edge_iff]
    constructor
    · rintro ⟨hvj, hjv⟩
      exact ⟨hjv.trans hvi, hiv.trans hvj⟩
    · rintro ⟨hji, hij⟩
      exact ⟨hvi.trans hij, hji.trans hiv⟩

/-- The label of every check of a list of numbers. -/
def Labelled (checks : List Check) (ring : List Nat) (labels : List RuleLabel) : Prop :=
  List.Forall₂ (fun i label => ∃ check, checks[i]? = some check ∧ check.label = label) ring labels

theorem labelled_filterMap {checks : List Check} {ring : List Nat}
    (h : ∀ i ∈ ring, ∃ check, checks[i]? = some check) :
    Labelled checks ring (ring.filterMap fun i => checks[i]?.map (·.label)) := by
  induction ring with
  | nil => exact .nil
  | cons i ring ih =>
      obtain ⟨check, hcheck⟩ := h i List.mem_cons_self
      rw [List.filterMap_cons, hcheck]
      exact .cons ⟨check, hcheck, rfl⟩ (ih fun j hj => h j (List.mem_cons_of_mem i hj))

theorem acyclic_eq_ok {checks : List Check} :
    acyclic checks = .ok () ↔ (graph checks).firstCycle? = none := by
  unfold acyclic
  cases (graph checks).firstCycle? <;> simp

/-- The error that refuses a list of checks names the checks of the ring that was found. -/
theorem acyclic_eq_error {checks : List Check} {e : SetupError}
    (h : acyclic checks = .error e) :
    ∃ ring labels, (graph checks).firstCycle? = some ring ∧ IsRing checks ring ∧
      Labelled checks ring labels ∧ e = .circular labels := by
  unfold acyclic at h
  split at h
  · cases h
  · rename_i ring hring
    have hisring := isRing_of_firstCycle? hring
    cases h
    exact ⟨ring, _, hring, hisring, labelled_filterMap fun i hi => hisring.exists_check hi, rfl⟩

end Check

/-- **Cycles are found exactly.** A list of checks is accepted exactly if no check depends on
itself, directly or through others; the test for cycles and the search for one agree; and where a
list is refused, the checks named are, in ascending order, those of one ring, and no check of
another ring depends on them. -/
theorem acyclic_exact (checks : List Check) :
    (Check.acyclic checks = .ok () ↔ ∀ i, ¬ TransGen (Check.DependsOn checks) i i) ∧
      (Check.graph checks).hasCycle = (Check.graph checks).firstCycle?.isSome ∧
      ∀ e, Check.acyclic checks = .error e → ∃ ring labels,
        (Check.graph checks).firstCycle? = some ring ∧ e = .circular labels ∧
        Check.IsRing checks ring ∧ Check.Labelled checks ring labels ∧
        ∀ i ∈ ring, ∀ j, TransGen (Check.DependsOn checks) j i →
          TransGen (Check.DependsOn checks) j j → j ∈ ring := by
  have hg := Check.graph_bounded checks
  refine ⟨?_, ?_, ?_⟩
  · rw [Check.acyclic_eq_ok, ← Option.not_isSome_iff_eq_none, Digraph.firstCycle?_isSome_iff hg]
    simp only [Check.transGen_edge_iff, not_exists]
  · rw [Bool.eq_iff_iff, Digraph.hasCycle_iff hg, Digraph.firstCycle?_isSome_iff hg]
  · intro e he
    obtain ⟨ring, labels, hfirst, hring, hlabels, rfl⟩ := Check.acyclic_eq_error he
    refine ⟨ring, labels, hfirst, rfl, hring, hlabels, ?_⟩
    intro i hi j hji hj
    exact Digraph.mem_of_reached hg hfirst hi (Check.transGen_edge_iff.mpr hji)
      (Check.transGen_edge_iff.mpr hj)

/-- A check that waits for others. -/
def waiting (name : String) (dependencies : List Nat) : Check where
  label := ⟨⟨"settled", "Order", some name⟩, none⟩
  rule := ⟨0⟩
  value := ⟨0⟩
  logic := { judge := .value fun _ _ => .answer (.ok .pass) }
  dependencies

/-- A check that waits for itself, two that wait for each other, and one that only waits for
them. -/
def waitingInRings : List Check :=
  [waiting "self" [0], waiting "first" [2], waiting "second" [1, 1], waiting "after" [0, 2]]

theorem acyclic_exact_waitingInRings :
    ∃ e ring labels, Check.acyclic waitingInRings = .error e ∧
      (Check.graph waitingInRings).firstCycle? = some ring ∧ e = .circular labels ∧
      Check.IsRing waitingInRings ring ∧ Check.Labelled waitingInRings ring labels := by
  have hfails : (Check.acyclic waitingInRings).toOption.isNone = true := by decide +kernel
  cases h : Check.acyclic waitingInRings with
  | ok _ =>
      rw [h] at hfails
      cases hfails
  | error e =>
      obtain ⟨ring, labels, hring, he, hisring, hlabels, -⟩ :=
        (acyclic_exact waitingInRings).2.2 e h
      exact ⟨e, ring, labels, rfl, hring, he, hisring, hlabels⟩

end Vetting
