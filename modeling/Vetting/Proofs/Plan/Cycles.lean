import Mathlib.Data.Finset.Range
import Mathlib.Data.Fintype.EquivFin
import Mathlib.Logic.Relation
import Mathlib.Order.WellFounded
import Vetting.Plan.Cycles

/-!
# The search for cycles

A search from a node meets exactly what can be reached from it (`mem_exploreAll`): whatever it
meets anew it follows further (`Grows`), and its fuel lasts because a path of new nodes is no
longer than there are nodes left to meet. So `reach` is reachability by one edge or more
(`mem_reach`), and where no closed component is found no node reaches itself
(`not_reaches_self`).
-/

namespace Vetting

namespace Digraph

variable {g : Digraph}

def Edge (g : Digraph) (v w : Nat) : Prop := w ∈ g.next v

/-- All edges lead to nodes of the graph. -/
def Bounded (g : Digraph) : Prop := ∀ v, ∀ w ∈ g.next v, w < g.size

/-! ## One search -/

/-- The nodes that a search has not met. -/
def unmet (g : Digraph) (s : Search) : Finset Nat := (Finset.range g.size).filter (· ∉ s.met)

/-- A search has gone on from `s` to `s'`. What it met anew satisfies `P`, is done with and has been
followed to all its neighbours. -/
structure Grows (g : Digraph) (P : Nat → Prop) (s s' : Search) : Prop where
  subset {x : Nat} (h : x ∈ s.met) : x ∈ s'.met
  closed {x y : Nat} (h : x ∈ s'.met) (hnew : x ∉ s.met) (hy : g.Edge x y) : y ∈ s'.met
  holds {x : Nat} (h : x ∈ s'.met) (hnew : x ∉ s.met) : P x
  done (x : Nat) : x ∈ s'.done ↔ x ∈ s.done ∨ x ∈ s'.met ∧ x ∉ s.met

namespace Grows

variable {P Q : Nat → Prop} {s s' s'' : Search}

theorem refl (s : Search) : g.Grows P s s :=
  ⟨id, fun h hnew => absurd h hnew, fun h hnew => absurd h hnew, fun x => by simp⟩

theorem imp (h : g.Grows P s s') (hpq : ∀ x, P x → Q x) : g.Grows Q s s' :=
  ⟨h.subset, h.closed, fun hx hnew => hpq _ (h.holds hx hnew), h.done⟩

theorem trans (h : g.Grows P s s') (h' : g.Grows P s' s'') : g.Grows P s s'' := by
  refine ⟨fun hx => h'.subset (h.subset hx), fun {x y} hx hnew hy => ?_, fun {x} hx hnew => ?_,
    fun x => ?_⟩
  · by_cases hmid : x ∈ s'.met
    · exact h'.subset (h.closed hmid hnew hy)
    · exact h'.closed hx hmid hy
  · by_cases hmid : x ∈ s'.met
    · exact h.holds hmid hnew
    · exact h'.holds hx hmid
  · rw [h'.done, h.done]
    by_cases hmid : x ∈ s'.met
    · have := h'.subset hmid
      tauto
    · have : x ∉ s.met := fun hx => hmid (h.subset hx)
      tauto

theorem unmet_le (h : g.Grows P s s') : (g.unmet s').card ≤ (g.unmet s).card :=
  Finset.card_le_card fun x hx => by
    obtain ⟨hlt, hx⟩ := Finset.mem_filter.mp hx
    exact Finset.mem_filter.mpr ⟨hlt, fun hmet => hx (h.subset hmet)⟩

end Grows

theorem unmet_cons {s : Search} {v : Nat} (hv : v < g.size) (hnew : v ∉ s.met) :
    (g.unmet { s with met := v :: s.met }).card < (g.unmet s).card := by
  refine Finset.card_lt_card ⟨fun x hx => ?_, fun hsub => ?_⟩
  · obtain ⟨hlt, hx⟩ := Finset.mem_filter.mp hx
    exact Finset.mem_filter.mpr ⟨hlt, fun hmet => hx (List.mem_cons_of_mem v hmet)⟩
  · have hmem := hsub (Finset.mem_filter.mpr ⟨Finset.mem_range.mpr hv, hnew⟩)
    exact (Finset.mem_filter.mp hmem).2 List.mem_cons_self

/-- Searching from several nodes in turn, if searching from each of them goes as it should. -/
theorem foldl_grows {P : Nat → Prop} {f : Search → Nat → Search} {n : Nat} {vs : List Nat}
    (hf : ∀ v ∈ vs, ∀ s, (g.unmet s).card < n → g.Grows P s (f s v) ∧ v ∈ (f s v).met)
    {s : Search} (hs : (g.unmet s).card < n) :
    g.Grows P s (vs.foldl f s) ∧ ∀ v ∈ vs, v ∈ (vs.foldl f s).met := by
  induction vs generalizing s with
  | nil => exact ⟨.refl s, nofun⟩
  | cons v vs ih =>
      obtain ⟨hfirst, hv⟩ := hf v List.mem_cons_self s hs
      obtain ⟨hrest, hvs⟩ := ih (fun w hw => hf w (List.mem_cons_of_mem v hw))
        (Nat.lt_of_le_of_lt hfirst.unmet_le hs)
      exact ⟨hfirst.trans hrest, List.forall_mem_cons.mpr ⟨hrest.subset hv, hvs⟩⟩

theorem explore_grows (hg : g.Bounded) {fuel : Nat} {s : Search} {v : Nat} (hv : v < g.size)
    (hfuel : (g.unmet s).card < fuel) :
    g.Grows (Relation.ReflTransGen g.Edge v) s (g.explore fuel s v) ∧
      v ∈ (g.explore fuel s v).met := by
  induction fuel generalizing s v with
  | zero => omega
  | succ fuel ih =>
      rw [explore]
      split
      · exact ⟨.refl s, ‹_›⟩
      · -- The node is met before its neighbours are followed, so fewer are left to meet below it.
        rename_i hnew
        have hless := unmet_cons hv hnew
        have hnext : ∀ w ∈ g.next v, ∀ s, (g.unmet s).card < fuel →
            g.Grows (Relation.ReflTransGen g.Edge v) s (g.explore fuel s w) ∧
              w ∈ (g.explore fuel s w).met := by
          intro w hw s hs
          obtain ⟨hgrows, hmet⟩ := ih (hg v w hw) hs
          exact ⟨hgrows.imp fun x hx => .head hw hx, hmet⟩
        obtain ⟨hbelow, hall⟩ := foldl_grows hnext (Nat.lt_of_lt_of_le hless (by omega))
        have hmet := hbelow.subset (x := v) List.mem_cons_self
        refine ⟨⟨fun hx => hbelow.subset (List.mem_cons_of_mem v hx), fun {x y} hx hold hy => ?_,
          fun {x} hx hold => ?_, fun x => ?_⟩, hmet⟩
        · by_cases hxv : x = v
          · exact hall y (hxv ▸ hy)
          · exact hbelow.closed hx (by simp [hxv, hold]) hy
        · by_cases hxv : x = v
          · exact hxv ▸ .refl
          · exact hbelow.holds hx (by simp [hxv, hold])
        · have hdone := hbelow.done x
          simp only [List.mem_append, hdone, List.mem_cons]
          by_cases hxv : x = v
          · subst hxv
            simp [hmet, hnew]
          · simp [hxv]

/-- A search from several nodes is done with what can be reached from them. -/
theorem mem_exploreAll (hg : g.Bounded) {starts : List Nat} (hstarts : ∀ v ∈ starts, v < g.size)
    {x : Nat} :
    x ∈ (g.exploreAll starts).done ↔ ∃ v ∈ starts, Relation.ReflTransGen g.Edge v x := by
  have hempty : (g.unmet {}).card < g.size + 1 := by
    simp [unmet]
  have hstart : ∀ v ∈ starts, ∀ s, (g.unmet s).card < g.size + 1 →
      g.Grows (fun x => ∃ v ∈ starts, Relation.ReflTransGen g.Edge v x) s
        (g.explore (g.size + 1) s v) ∧ v ∈ (g.explore (g.size + 1) s v).met := by
    intro v hv s hs
    obtain ⟨hgrows, hmet⟩ := explore_grows hg (hstarts v hv) hs
    exact ⟨hgrows.imp fun x hx => ⟨v, hv, hx⟩, hmet⟩
  obtain ⟨hgrows, hall⟩ := foldl_grows hstart hempty
  rw [exploreAll, hgrows.done]
  simp only [List.not_mem_nil, not_false_eq_true, and_true, false_or]
  constructor
  · exact fun hx => hgrows.holds hx (by simp)
  · rintro ⟨v, hv, hpath⟩
    induction hpath with
    | refl => exact hall v hv
    | tail _ hedge ih => exact hgrows.closed ih (by simp) hedge

theorem mem_reach (hg : g.Bounded) {v w : Nat} :
    w ∈ g.reach v ↔ Relation.TransGen g.Edge v w := by
  rw [reach, mem_exploreAll hg (hg v), Relation.TransGen.head'_iff]
  rfl

theorem mem_postOrder (hg : g.Bounded) {v : Nat} (hv : v < g.size) : v ∈ g.postOrder :=
  (mem_exploreAll hg fun _ hw => List.mem_range.mp hw).mpr ⟨v, List.mem_range.mpr hv, .refl⟩

/-! ## Cycles -/

theorem linked_iff (hg : g.Bounded) {v w : Nat} :
    g.linked v w = true ↔ Relation.TransGen g.Edge v w ∧ Relation.TransGen g.Edge w v := by
  simp [linked, mem_reach hg]

/-- If no component is found among nodes, none of them reaches itself: the last that does would be
the last of its component. -/
theorem not_reaches_self_of_firstClosed? (hg : g.Bounded) {vs : List Nat}
    (h : g.firstClosed? vs = none) : ∀ v ∈ vs, ¬ Relation.TransGen g.Edge v v := by
  induction vs with
  | nil => exact nofun
  | cons v vs ih =>
      rw [firstClosed?] at h
      split at h
      · cases h
      · rename_i htest
        have hrest := ih h
        refine List.forall_mem_cons.mpr ⟨fun hcycle => htest ?_, hrest⟩
        have hcyclic : g.isCyclic v = true := by simp [isCyclic, mem_reach hg, hcycle]
        have hlast : vs.any (g.linked v) = false := by
          refine List.any_eq_false.mpr fun w hw hlinked => ?_
          obtain ⟨hvw, hwv⟩ := (linked_iff hg).mp hlinked
          exact hrest w hw (hwv.trans hvw)
        simp [hcyclic, hlast]

theorem not_reaches_self (hg : g.Bounded) (h : g.firstCycle? = none) {v : Nat} (hv : v < g.size) :
    ¬ Relation.TransGen g.Edge v v :=
  not_reaches_self_of_firstClosed? hg h v (mem_postOrder hg hv)

/-- Edges that lead into no cycle can be followed back only finitely far. -/
theorem wellFounded_edge (hg : g.Bounded) (h : ∀ v < g.size, ¬ Relation.TransGen g.Edge v v) :
    WellFounded g.Edge := by
  have hout : ∀ w, g.size ≤ w → Acc g.Edge w := fun w hw =>
    ⟨w, fun v hv => absurd (hg v w hv) (by omega)⟩
  let before (a b : Fin g.size) : Prop := Relation.TransGen g.Edge a b
  have : IsTrans (Fin g.size) before := ⟨fun _ _ _ => .trans⟩
  have : Std.Irrefl before := ⟨fun a => h a a.isLt⟩
  have hwf : WellFounded before := Finite.wellFounded_of_trans_of_irrefl before
  refine ⟨fun w => ?_⟩
  by_cases hw : w < g.size
  · induction hb : (⟨w, hw⟩ : Fin g.size) using hwf.induction generalizing w with
    | _ b ih =>
        subst hb
        refine ⟨w, fun v hv => ?_⟩
        by_cases hlt : v < g.size
        · exact ih ⟨v, hlt⟩ (.single hv) v hlt rfl
        · exact hout v (by omega)
  · exact hout w (by omega)

end Digraph

end Vetting
