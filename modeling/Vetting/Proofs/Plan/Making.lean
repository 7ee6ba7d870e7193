import Vetting.Plan.InPlace
import Vetting.Proofs.Plan.Setup

/-!
# Every check once, every rule once

Making the checks of a tree pairs every value with the rules of the items that apply to it. The
pairs come in a fixed order (`Enumerates`), and there is one check for each (`checks_once`). In
place the checks are made by three nested loops that keep the logic of each rule. Unnested, the
loops become one loop over the pairs, and its induction carries what the bench holds (`Furnishes`):
checks in order, numbered, each with the logic that was kept for its rule. So the makers of rules
are called as if each rule that is needed were made once, in the order in which the rules are first
needed, whatever the makers remember and whether or not one of them fails.
-/

namespace Vetting

/-! ## Programs with a memory, side by side -/

/-- Two programs come to the same end: with answers that are related by `R`, or with one error. They
leave the same memory. -/
inductive EndsAlike {ε σ α β : Type} (R : α → β → Prop) :
    EStateM.Result ε σ α → EStateM.Result ε σ β → Prop
  | ok {a : α} {b : β} {s : σ} (h : R a b) : EndsAlike R (.ok a s) (.ok b s)
  | error {e : ε} {s : σ} : EndsAlike R (.error e s) (.error e s)

/-- From every memory the programs come to the same end. -/
def RunAlike {ε σ α β : Type} (R : α → β → Prop) (x : EStateM ε σ α) (y : EStateM ε σ β) : Prop :=
  ∀ s, EndsAlike R (x.run s) (y.run s)

namespace RunAlike

variable {ε σ α β γ δ : Type} {R : α → β → Prop} {S : γ → δ → Prop}

theorem refl (x : EStateM ε σ α) : RunAlike Eq x x := by
  intro s
  cases x.run s with
  | ok a s' => exact .ok rfl
  | error e s' => exact .error

theorem pure {a : α} {b : β} (h : R a b) :
    RunAlike R (pure a : EStateM ε σ α) (pure b : EStateM ε σ β) := fun _ => .ok h

theorem bind {x : EStateM ε σ α} {y : EStateM ε σ β} {f : α → EStateM ε σ γ}
    {g : β → EStateM ε σ δ} (h : RunAlike R x y) (hfg : ∀ a b, R a b → RunAlike S (f a) (g b)) :
    RunAlike S (x >>= f) (y >>= g) := by
  intro s
  have hs := h s
  rw [EStateM.run_bind, EStateM.run_bind]
  generalize x.run s = u, y.run s = v at hs ⊢
  cases hs with
  | ok hab => exact hfg _ _ hab _
  | error => exact .error

theorem map_left {x : EStateM ε σ α} {y : EStateM ε σ β} (h : RunAlike R x y) {f : α → γ}
    {S : γ → β → Prop} (hf : ∀ a b, R a b → S (f a) b) :
    RunAlike S (x >>= fun a => Pure.pure (f a)) y := by
  rw [← bind_pure y]
  exact h.bind fun a b hab => .pure (hf a b hab)

theorem map_right {x : EStateM ε σ α} {y : EStateM ε σ β} (h : RunAlike R x y) {g : β → δ}
    {S : α → δ → Prop} (hg : ∀ a b, R a b → S a (g b)) :
    RunAlike S x (y >>= fun b => Pure.pure (g b)) := by
  rw [← bind_pure x]
  exact h.bind fun a b hab => .pure (hg a b hab)

end RunAlike

theorem ofExcept_bind_pure {ε σ α β : Type} (x : Except ε α) (f : α → β) :
    (MonadExcept.ofExcept (x >>= fun a => pure (f a)) : EStateM ε σ β) =
      MonadExcept.ofExcept x >>= fun a => pure (f a) := by
  cases x <;> rfl

/-! ## Loops over loops -/

theorem forM_flatMap {m : Type → Type} [Monad m] [LawfulMonad m] {α β : Type} (f : α → List β)
    (step : β → m PUnit) (as : List α) :
    (as.flatMap f).forM step = as.forM fun a => (f a).forM step := by
  induction as with
  | nil => rfl
  | cons a as ih =>
      rw [List.flatMap_cons, List.forM_eq_forM, List.forM_append]
      exact congrArg ((f a).forM step >>= fun _ => ·) ih

theorem mapM_flatMap {m : Type → Type} [Monad m] [LawfulMonad m] {α β γ : Type} (f : α → List β)
    (step : β → m γ) (as : List α) :
    (as.flatMap f).mapM step = List.flatten <$> as.mapM fun a => (f a).mapM step := by
  induction as with
  | nil => simp
  | cons a as ih => simp [List.mapM_append, ih]

theorem forM_congr {m : Type → Type} [Monad m] {α : Type} {f g : α → m PUnit} {as : List α}
    (h : ∀ a ∈ as, f a = g a) : as.forM f = as.forM g := by
  induction as with
  | nil => rfl
  | cons a as ih =>
      show (f a >>= fun _ => as.forM f) = g a >>= fun _ => as.forM g
      rw [h a List.mem_cons_self, ih fun b hb => h b (List.mem_cons_of_mem _ hb)]

theorem mapM_congr {m : Type → Type} [Monad m] [LawfulMonad m] {α β : Type} {f g : α → m β}
    {as : List α} (h : ∀ a ∈ as, f a = g a) : as.mapM f = as.mapM g := by
  induction as with
  | nil => rfl
  | cons a as ih =>
      rw [List.mapM_cons, List.mapM_cons, h a List.mem_cons_self,
        ih fun b hb => h b (List.mem_cons_of_mem _ hb)]

/-! ## Look-ups -/

theorem mem_of_lookup {α β : Type} [BEq α] [LawfulBEq α] {entries : List (α × β)} {a : α} {b : β}
    (h : entries.lookup a = some b) : (a, b) ∈ entries := by
  obtain ⟨before, after, rfl, -⟩ := List.lookup_eq_some_iff.mp h
  simp

theorem not_mem_of_lookup {α β : Type} [BEq α] [LawfulBEq α] {entries : List (α × β)} {a : α}
    (h : entries.lookup a = none) : a ∉ entries.map (·.1) := by
  intro ha
  obtain ⟨entry, hentry, rfl⟩ := List.mem_map.mp ha
  simpa using List.lookup_eq_none_iff.mp h entry hentry

/-- The check of a rule and a value when the logic has been made: without dependencies. -/
def Check.ofPair (rule : RuleDecl) (node : ValueNode) (p : RuleId × ValueId) (logic : Logic) :
    Check :=
  { label := ⟨rule.key, node.identity⟩, rule := p.1, value := p.2, logic }

/-- Checks with the numbers by which they are known. -/
def Check.stored (cs : List Check) : List (Numbered Nat Check) := cs.mapIdx fun i c => ⟨i, c⟩

theorem Check.stored_nil : stored [] = [] := rfl

theorem Check.stored_append_singleton (cs : List Check) (c : Check) :
    stored (cs ++ [c]) = stored cs ++ [⟨cs.length, c⟩] := by
  simp [stored]

theorem Check.length_stored (cs : List Check) : (stored cs).length = cs.length := by
  simp [stored]

namespace Manifest

variable {m m' : Manifest}

/-! ## The order of pairs -/

/-- Every item lists its rules in the order in which they were declared. -/
def RulesAscend (m : Manifest) : Prop :=
  ∀ ⦃id item⦄, m.item? id = some item → item.rules.Pairwise (·.index < ·.index)

theorem ofType_rulesAscend (rootType : String) : (ofType rootType).RulesAscend := by
  intro id item hi
  have hlt : id.index < 1 := item?_lt hi
  obtain rfl : id = root := ItemId.eq_iff.mpr (by simp only [root]; omega)
  obtain rfl := Option.some.inj hi
  exact .nil

/-- A rule that is declared gets a greater number than all before, and is listed last. -/
theorem Declares.rulesAscend {owner : ItemId} {ownerItem : Item} {newRule : RuleDecl}
    (h : m.Declares m' owner ownerItem newRule) (hm : m.Sound) (hasc : m.RulesAscend) :
    m'.RulesAscend := by
  intro id item' hi'
  obtain ⟨item, hi, rfl⟩ := h.cases_item? hi'
  show (if id = owner then item.rules ++ [⟨m.rules.size⟩] else item.rules).Pairwise _
  split
  · refine List.pairwise_append.mpr ⟨hasc hi, List.pairwise_singleton _ _, fun r hr s hs => ?_⟩
    obtain ⟨rule, hrule, -⟩ := ((hm.linked hi).mem_rules r).mp hr
    rw [List.mem_singleton.mp hs]
    exact rule?_lt hrule
  · exact hasc hi

theorem Step.rulesAscend {e : Edit} (h : m.Step m' e) (hm : m.Sound) (hasc : m.RulesAscend) :
    m'.RulesAscend := by
  cases h with
  | adds hnew hattach _ h =>
      intro id item' hi'
      rcases h.cases_item? hi' with ⟨-, rfl⟩ | ⟨item, hi, rfl⟩
      · exact .nil
      · split
        · rw [hattach.rules]
          exact hasc hi
        · exact hasc hi
  | @changes _ target f hchange h =>
      subst h
      intro id item' hi'
      have hsame : Option.Rel SamePlace (m.item? id) ((m.modifyItem target f).item? id) :=
        modifyItem_samePlace (change?_samePlace hchange) id
      rw [hi'] at hsame
      obtain ⟨item, hi, hs⟩ := exists_of_rel_some hsame
      exact hs.rules ▸ hasc hi
  | declares h => exact h.rulesAscend hm hasc
  | depends h => exact fun id item' hi' => hasc ((h.item? id).symm.trans hi')

theorem build_rulesAscend (rootType : String) (edits : List Edit) :
    (build rootType edits).RulesAscend := by
  induction edits using List.reverseRecOn with
  | nil => exact ofType_rulesAscend rootType
  | append_singleton edits e ih =>
      rw [build, List.foldl_append, List.foldl_cons, List.foldl_nil, ← build, edit]
      split
      · rename_i happly
        exact (apply_step happly).rulesAscend (build_sound rootType edits) ih
      · exact ih

/-- A rule is for a value: its item applies to the value. -/
def Binds (m : Manifest) (t : ValueTree) (r : RuleId) (v : ValueId) : Prop :=
  ∃ node rule, t.node? v = some node ∧ m.rule? r = some rule ∧ rule.item ∈ node.applied

/-- The order of pairs: by value, then by the place of the item among those that apply to the value,
then in the order in which the rules were declared. -/
def Earlier (m : Manifest) (t : ValueTree) (p q : RuleId × ValueId) : Prop :=
  p.2.index < q.2.index ∨ p.2 = q.2 ∧ ∃ node rule rule', t.node? p.2 = some node ∧
    m.rule? p.1 = some rule ∧ m.rule? q.1 = some rule' ∧
    (node.applied.idxOf rule.item < node.applied.idxOf rule'.item ∨
      rule.item = rule'.item ∧ p.1.index < q.1.index)

/-- The pairs `ps` are those of the rules and values that belong together, each once, in order. -/
structure Enumerates (m : Manifest) (t : ValueTree) (ps : List (RuleId × ValueId)) : Prop where
  nodup : ps.Nodup
  mem_iff (r : RuleId) (v : ValueId) : (r, v) ∈ ps ↔ m.Binds t r v
  ordered : ps.Pairwise (m.Earlier t)

theorem mem_pairs_iff (hm : m.Sound) {t : ValueTree} {r : RuleId} {v : ValueId} :
    (r, v) ∈ m.pairs t ↔ m.Binds t r v := by
  rw [mem_pairs]
  constructor
  · rintro ⟨node, a, hv, ha, hr⟩
    obtain ⟨rule, hrule, rfl⟩ := (mem_rulesOf_iff hm).mp hr
    exact ⟨node, rule, hv, hrule, ha⟩
  · rintro ⟨node, rule, hv, hrule, ha⟩
    exact ⟨node, rule.item, hv, ha, (mem_rulesOf_iff hm).mpr ⟨rule, hrule, rfl⟩⟩

/-- The rules for a value come by item, and within an item as declared. -/
theorem pairsOf_ordered (hm : m.Sound) (hasc : m.RulesAscend) {t : ValueTree} {v : ValueId}
    {node : ValueNode} (hv : t.node? v = some node) (hnodup : node.applied.Nodup) :
    (m.pairsOf t v).Pairwise (m.Earlier t) := by
  have happlied : node.applied.Pairwise fun a b => node.applied.idxOf a < node.applied.idxOf b := by
    rw [List.pairwise_iff_getElem]
    intro i j hi hj hij
    rwa [hnodup.idxOf_getElem, hnodup.idxOf_getElem]
  have hearlier : ∀ {a b r s}, r ∈ m.rulesOf a → s ∈ m.rulesOf b →
      (node.applied.idxOf a < node.applied.idxOf b ∨ a = b ∧ r.index < s.index) →
        m.Earlier t (r, v) (s, v) := by
    intro a b r s hr hs horder
    obtain ⟨rule, hrule, rfl⟩ := (mem_rulesOf_iff hm).mp hr
    obtain ⟨rule', hrule', rfl⟩ := (mem_rulesOf_iff hm).mp hs
    exact .inr ⟨rfl, node, rule, rule', hv, hrule, hrule', horder⟩
  rw [pairsOf, hv, Option.map_some, Option.getD_some, List.pairwise_flatMap]
  constructor
  · intro a _
    rw [List.pairwise_map]
    have hrules : (m.rulesOf a).Pairwise (·.index < ·.index) := by
      unfold rulesOf
      cases ha : m.item? a with
      | none => exact .nil
      | some item => exact hasc ha
    exact hrules.imp_of_mem fun hr hs hlt => hearlier hr hs (.inr ⟨rfl, hlt⟩)
  · refine happlied.imp fun {a b} hlt => ?_
    simp only [List.mem_map]
    rintro _ ⟨r, hr, rfl⟩ _ ⟨s, hs, rfl⟩
    exact hearlier hr hs (.inl hlt)

theorem pairs_enumerates {policy : FailurePolicy} {document : Json} {t : ValueTree} {top : Branch}
    (hm : m.Sound) (hasc : m.RulesAscend) (h : Materialized m policy document t top) :
    m.Enumerates t (m.pairs t) := by
  refine ⟨pairs_nodup hm h, fun r v => mem_pairs_iff hm, List.pairwise_flatMap.mpr ⟨?_, ?_⟩⟩
  · intro v _
    cases hv : t.node? v with
    | none => simp [pairsOf, hv]
    | some node => exact pairsOf_ordered hm hasc hv (h.unfoldedAt hm hv).applied_nodup
  · refine List.pairwise_map.mpr (List.pairwise_lt_range.imp fun {i j} hlt p hp q hq => .inl ?_)
    rw [snd_of_mem_pairsOf hp, snd_of_mem_pairsOf hq]
    exact hlt

/-! ## One loop over the pairs -/

/-- Whatever applies to a value is an item of the manifest. -/
def Covers (m : Manifest) (t : ValueTree) : Prop :=
  ∀ ⦃v node⦄, t.node? v = some node → ∀ a ∈ node.applied, ∃ item, m.item? a = some item

/-- The check for a pair. -/
def checkOfPair (m : Manifest) (registry : RuleRegistry) (t : ValueTree) (p : RuleId × ValueId) :
    Except SetupError Check :=
  m.check registry p.2 ((t.node? p.2).bind (·.identity)) p.1

theorem checks_eq_mapM {t : ValueTree} (hcovers : m.Covers t) (registry : RuleRegistry) :
    m.checks registry t = (m.pairs t).mapM (m.checkOfPair registry t) := by
  rw [pairs, mapM_flatMap, checks]
  congr 2
  funext v
  unfold checksOfValue pairsOf
  cases hv : t.node? v with
  | none => rfl
  | some node =>
      rw [Option.map_some, Option.getD_some, mapM_flatMap]
      refine congrArg (List.flatten <$> ·) (mapM_congr fun a ha => ?_)
      obtain ⟨item, hi⟩ := hcovers hv a ha
      have hcheck : (fun r => m.checkOfPair registry t (r, v)) =
          m.check registry v node.identity := by
        funext r
        simp only [checkOfPair, hv, Option.bind_some]
      rw [checksOfItem, get_eq_ok.mpr hi, rulesOf, hi, Option.map_some, Option.getD_some,
        List.mapM_map, ← hcheck]
      rfl

variable {σ : Type}

/-- Adds the check for a pair. -/
def addPair (m : Manifest) (make : RuleMaker σ) (t : ValueTree) (p : RuleId × ValueId) :
    Making σ Unit :=
  Making.addCheck m make p.2 ((t.node? p.2).bind (·.identity)) p.1

theorem addChecks_eq_forM {t : ValueTree} (hcovers : m.Covers t) (make : RuleMaker σ) :
    Making.addChecks m make t = (m.pairs t).forM (m.addPair make t) := by
  rw [pairs, forM_flatMap, Making.addChecks]
  refine forM_congr fun v _ => ?_
  unfold pairsOf
  cases hv : t.node? v with
  | none => rfl
  | some node =>
      rw [Option.map_some, Option.getD_some, forM_flatMap]
      refine forM_congr fun a ha => ?_
      obtain ⟨item, hi⟩ := hcovers hv a ha
      have hadd : (fun r => m.addPair make t (r, v)) =
          Making.addCheck m make v node.identity := by
        funext r
        simp only [addPair, hv, Option.bind_some]
      rw [get_eq_ok.mpr hi, rulesOf, hi, Option.map_some, Option.getD_some, ← hadd]
      exact (List.forM_map (m := Making σ)).symm

/-! ## What the bench holds -/

/-- The logic of a rule, made by `make`, with the rule. -/
def makeRule (m : Manifest) (make : RuleMaker σ) (r : RuleId) :
    EStateM SetupError σ (RuleId × Logic) := do
  let rule ← MonadExcept.ofExcept (SetupError.ofManifest (m.getRule r))
  let logic ← make rule
  return (r, logic)

/-- A check is the one of a pair, with the logic that was made for the rule, and without
dependencies. -/
def Serves (m : Manifest) (t : ValueTree) (made : List (RuleId × Logic)) (p : RuleId × ValueId)
    (c : Check) : Prop :=
  ∃ rule node logic, m.rule? p.1 = some rule ∧ t.node? p.2 = some node ∧ (p.1, logic) ∈ made ∧
    c = .ofPair rule node p logic

/-- The stored checks are those of the pairs `ps`, in order and numbered. Each has the logic that
was made for its rule; for no rule there is more than one. -/
structure Furnishes (m : Manifest) (t : ValueTree) (ps : List (RuleId × ValueId))
    (made : List (RuleId × Logic)) (stored : List (Numbered Nat Check)) : Prop where
  numbered : stored.map (·.id) = List.range stored.length
  serves : List.Forall₂ (m.Serves t made) ps (stored.map (·.content))
  made_once : (made.map (·.1)).Nodup

theorem Furnishes.add {t : ValueTree} {ps : List (RuleId × ValueId)} {b : Bench}
    (h : m.Furnishes t ps b.made b.checks) {p : RuleId × ValueId} {c : Check}
    (hc : m.Serves t b.made p c) :
    m.Furnishes t (ps ++ [p]) (b.add c).made (b.add c).checks := by
  refine ⟨?_, ?_, h.made_once⟩
  · simp [Bench.add, List.range_succ, h.numbered]
  · simpa [Bench.add] using List.rel_append h.serves (.cons hc .nil)

theorem Furnishes.keep {t : ValueTree} {ps : List (RuleId × ValueId)} {b : Bench}
    (h : m.Furnishes t ps b.made b.checks) {r : RuleId} (hr : r ∉ b.made.map (·.1))
    (logic : Logic) : m.Furnishes t ps (b.keep r logic).made (b.keep r logic).checks := by
  refine ⟨h.numbered, h.serves.imp ?_, ?_⟩
  · rintro p c ⟨rule, node, logic', hrule, hnode, hmade, hc⟩
    exact ⟨rule, node, logic', hrule, hnode, List.mem_append_left _ hmade, hc⟩
  · rw [Bench.keep, List.map_append, List.nodup_append]
    refine ⟨h.made_once, List.nodup_singleton _, fun s hs s' hs' heq => hr ?_⟩
    have hr' : s' = r := List.mem_singleton.mp hs'
    rwa [← hr', ← heq]

section Steps

variable {t : ValueTree} {p : RuleId × ValueId} {rule : RuleDecl} {node : ValueNode} {b : Bench}

theorem run_ask_getRule (hrule : m.rule? p.1 = some rule) :
    (Making.ask (m.getRule p.1) : Making σ RuleDecl) = pure rule := by
  rw [getRule_eq_ok.mpr hrule]
  rfl

/-- A rule that was made before is not made again. -/
theorem run_addPair_made (make : RuleMaker σ) (hrule : m.rule? p.1 = some rule)
    (hnode : t.node? p.2 = some node) {logic : Logic} (h : b.made.lookup p.1 = some logic) :
    (m.addPair make t p).run b =
      pure ((), b.add (.ofPair rule node p logic)) := by
  rw [addPair, Making.addCheck, run_ask_getRule hrule, pure_bind, Making.logicOf]
  simp [h, hnode, Check.ofPair]

/-- A rule that is needed for the first time is made. -/
theorem run_addPair_new (make : RuleMaker σ) (hrule : m.rule? p.1 = some rule)
    (hnode : t.node? p.2 = some node) (h : b.made.lookup p.1 = none) :
    (m.addPair make t p).run b = make rule >>= fun logic =>
      pure ((), (b.keep p.1 logic).add (.ofPair rule node p logic)) := by
  rw [addPair, Making.addCheck, run_ask_getRule hrule, pure_bind, Making.logicOf]
  simp [h, hnode, Check.ofPair]

end Steps

/-- The rules of pairs that have not been made yet, in the order in which they are needed. -/
def lacking (made : List RuleId) (ps : List (RuleId × ValueId)) : List RuleId :=
  ((ps.map (·.1)).filter (· ∉ made)).eraseDups

theorem lacking_cons_made {made : List RuleId} {p : RuleId × ValueId} (h : p.1 ∈ made)
    (ps : List (RuleId × ValueId)) : lacking made (p :: ps) = lacking made ps := by
  rw [lacking, List.map_cons, List.filter_cons_of_neg (by simp [h]), lacking]

theorem lacking_cons_new {made : List RuleId} {p : RuleId × ValueId} (h : p.1 ∉ made)
    (ps : List (RuleId × ValueId)) :
    lacking made (p :: ps) = p.1 :: lacking (made ++ [p.1]) ps := by
  rw [lacking, List.map_cons, List.filter_cons_of_pos (by simp [h]), List.eraseDups_cons,
    List.filter_filter, lacking]
  congr 3
  funext r
  cases hr : r == p.1 <;> simp_all

theorem run_makeRule {r : RuleId} {rule : RuleDecl} (hrule : m.rule? r = some rule)
    (make : RuleMaker σ) : m.makeRule make r = make rule >>= fun logic => pure (r, logic) := by
  rw [makeRule, getRule_eq_ok.mpr hrule]
  rfl

/-- The rules and the values of pairs are known. -/
def PairsKnown (m : Manifest) (t : ValueTree) (ps : List (RuleId × ValueId)) : Prop :=
  ∀ p ∈ ps, ∃ rule node, m.rule? p.1 = some rule ∧ t.node? p.2 = some node

/-- The loop over the pairs makes the rules that are lacking, each once, and furnishes the checks.
The induction is over the pairs to come; `done` are those of the checks on the bench. -/
theorem forM_addPair_furnishes {t : ValueTree} (make : RuleMaker σ)
    {ps : List (RuleId × ValueId)} (hknown : m.PairsKnown t ps) :
    ∀ {done : List (RuleId × ValueId)} {b : Bench}, m.Furnishes t done b.made b.checks →
      RunAlike (fun new ended => ended.2.made = b.made ++ new ∧
          m.Furnishes t (done ++ ps) ended.2.made ended.2.checks)
        ((lacking (b.made.map (·.1)) ps).mapM (m.makeRule make))
        ((ps.forM (m.addPair make t)).run b) := by
  induction ps with
  | nil =>
      intro done b hb
      exact .pure ⟨(List.append_nil _).symm, (List.append_nil done).symm ▸ hb⟩
  | cons p ps ih =>
      intro done b hb
      obtain ⟨rule, node, hrule, hnode⟩ := hknown p List.mem_cons_self
      have hrest : m.PairsKnown t ps := fun q hq => hknown q (List.mem_cons_of_mem p hq)
      rw [show (p :: ps).forM (m.addPair make t) =
        m.addPair make t p >>= fun _ => ps.forM (m.addPair make t) from rfl, StateT.run_bind]
      cases hlookup : b.made.lookup p.1 with
      | some logic =>
          have hmade := mem_of_lookup hlookup
          have hserves : m.Serves t b.made p (.ofPair rule node p logic) :=
            ⟨rule, node, logic, hrule, hnode, hmade, rfl⟩
          have hfurnished := ih hrest (hb.add hserves)
          rw [List.append_assoc] at hfurnished
          rw [run_addPair_made make hrule hnode hlookup, pure_bind,
            lacking_cons_made (List.mem_map.mpr ⟨_, hmade, rfl⟩)]
          exact hfurnished
      | none =>
          have hnew := not_mem_of_lookup hlookup
          rw [run_addPair_new make hrule hnode hlookup, bind_assoc, lacking_cons_new hnew,
            List.mapM_cons, run_makeRule hrule, bind_assoc]
          refine (RunAlike.refl (make rule)).bind fun logic _ hlogic => ?_
          subst hlogic
          have hserves : m.Serves t (b.keep p.1 logic).made p (.ofPair rule node p logic) :=
            ⟨rule, node, logic, hrule, hnode, by simp [Bench.keep], rfl⟩
          have hfurnished := ih hrest ((hb.keep hnew logic).add hserves)
          rw [List.append_assoc, Bench.add, Bench.keep, List.map_append] at hfurnished
          rw [pure_bind, pure_bind]
          refine hfurnished.map_left fun new ended hended => ⟨?_, hended.2⟩
          rw [hended.1, List.append_assoc]
          rfl

/-! ## Making without a memory -/

/-- The logics on a bench are those that the registry makes. -/
def MadeBy (m : Manifest) (registry : RuleRegistry) (made : List (RuleId × Logic)) : Prop :=
  ∀ r logic, (r, logic) ∈ made →
    ∃ rule, m.rule? r = some rule ∧ registry.create rule = .ok logic

theorem checkOfPair_eq {t : ValueTree} {p : RuleId × ValueId} {rule : RuleDecl} {node : ValueNode}
    (hrule : m.rule? p.1 = some rule) (hnode : t.node? p.2 = some node) (registry : RuleRegistry) :
    m.checkOfPair registry t p = registry.create rule >>= fun logic =>
      .ok (.ofPair rule node p logic) := by
  rw [checkOfPair, check, getRule_eq_ok.mpr hrule, hnode]
  rfl

theorem MadeBy.keep {registry : RuleRegistry} {b : Bench} (h : m.MadeBy registry b.made)
    {r : RuleId} {rule : RuleDecl} {logic : Logic} (hrule : m.rule? r = some rule)
    (hlogic : registry.create rule = .ok logic) : m.MadeBy registry (b.keep r logic).made := by
  intro s logic' hmem
  rcases List.mem_append.mp hmem with hmem | hmem
  · exact h s logic' hmem
  · obtain ⟨rfl, rfl⟩ := Prod.mk.inj (List.mem_singleton.mp hmem)
    exact ⟨rule, hrule, hlogic⟩

/-- With the makers of a registry, the loop over the pairs does what a traversal does. -/
theorem forM_addPair_checks {t : ValueTree} (registry : RuleRegistry)
    {ps : List (RuleId × ValueId)} (hknown : m.PairsKnown t ps) :
    ∀ {cs : List Check} {b : Bench}, b.checks = Check.stored cs → m.MadeBy registry b.made →
      RunAlike (fun more ended => ended.2.checks = Check.stored (cs ++ more))
        (MonadExcept.ofExcept (ps.mapM (m.checkOfPair registry t)) : EStateM SetupError σ _)
        ((ps.forM (m.addPair registry.maker t)).run b) := by
  induction ps with
  | nil =>
      intro cs b hb _
      rw [List.mapM_nil]
      exact .pure (by rw [hb, List.append_nil])
  | cons p ps ih =>
      intro cs b hb hmade
      obtain ⟨rule, node, hrule, hnode⟩ := hknown p List.mem_cons_self
      have hrest : m.PairsKnown t ps := fun q hq => hknown q (List.mem_cons_of_mem p hq)
      rw [show (p :: ps).forM (m.addPair registry.maker t) =
        m.addPair registry.maker t p >>= fun _ => ps.forM (m.addPair registry.maker t) from rfl,
        StateT.run_bind, List.mapM_cons, checkOfPair_eq hrule hnode]
      have hgoOn : ∀ {logic : Logic} {b' : Bench},
          b'.checks = Check.stored (cs ++ [.ofPair rule node p logic]) →
          m.MadeBy registry b'.made →
            RunAlike (fun more ended => ended.2.checks = Check.stored (cs ++ more))
              (MonadExcept.ofExcept (ps.mapM (m.checkOfPair registry t) >>= fun rest =>
                pure (.ofPair rule node p logic :: rest)) :
                  EStateM SetupError σ _)
              ((ps.forM (m.addPair registry.maker t)).run b') := by
        intro logic b' hb' hmade'
        rw [ofExcept_bind_pure]
        refine (ih hrest hb' hmade').map_left fun more ended hended => ?_
        rw [hended, List.append_assoc]
        rfl
      cases hlookup : b.made.lookup p.1 with
      | some logic =>
          obtain ⟨rule', hrule', hlogic⟩ := hmade _ _ (mem_of_lookup hlookup)
          obtain rfl := Option.some.inj (hrule.symm.trans hrule')
          rw [run_addPair_made registry.maker hrule hnode hlookup, pure_bind, hlogic]
          refine hgoOn ?_ hmade
          rw [Bench.add, hb, Check.length_stored, Check.stored_append_singleton]
      | none =>
          rw [run_addPair_new registry.maker hrule hnode hlookup, bind_assoc, RuleRegistry.maker]
          cases hlogic : registry.create rule with
          | error e => exact fun _ => .error
          | ok logic =>
              refine hgoOn ?_ (hmade.keep hrule hlogic)
              rw [Bench.add, Bench.keep, hb, Check.length_stored, Check.stored_append_singleton]

end Manifest

/-! ## Which rules cannot be made -/

/-- A registry cannot make a rule, because nobody has registered its type or because the factory of
the type rejects the settings. -/
inductive RuleRegistry.Refuses (registry : RuleRegistry) (rule : RuleDecl) : SetupError → Prop
  | unregistered (h : registry.factory? rule.key.ruleType = none) :
      Refuses registry rule (.unknownRuleType rule.key.ruleType)
  | rejected {factory : RuleFactory} {error : RuleError}
      (h : registry.factory? rule.key.ruleType = some factory)
      (he : factory rule.config = .error error) :
      Refuses registry rule (.rejectedConfig rule.key error)

theorem RuleRegistry.create_eq_error {registry : RuleRegistry} {rule : RuleDecl}
    {e : SetupError} : registry.create rule = .error e ↔ registry.Refuses rule e := by
  unfold create
  constructor
  · intro h
    cases hf : registry.factory? rule.key.ruleType with
    | none =>
        rw [hf] at h
        cases h
        exact .unregistered hf
    | some factory =>
        cases hc : factory rule.config with
        | ok logic => simp [hf, hc, Except.mapError] at h
        | error error =>
            simp only [hf, hc, Except.mapError] at h
            cases h
            exact .rejected hf hc
  · rintro (hf | ⟨hf, he⟩)
    · rw [hf]
    · rw [hf]
      simp only [he, Except.mapError]

theorem RuleRegistry.create_eq_ok {registry : RuleRegistry} {rule : RuleDecl} {logic : Logic} :
    registry.create rule = .ok logic ↔ ∃ factory,
      registry.factory? rule.key.ruleType = some factory ∧ factory rule.config = .ok logic := by
  unfold create
  cases registry.factory? rule.key.ruleType with
  | none => simp
  | some factory => cases hc : factory rule.config <;> simp [hc, Except.mapError]

namespace Manifest

variable {m : Manifest}

/-- A check is that of a pair: the registered factory made its logic, the label names the rule and
the value, and nothing is known of dependencies. -/
def Executes (m : Manifest) (registry : RuleRegistry) (t : ValueTree) (p : RuleId × ValueId)
    (c : Check) : Prop :=
  ∃ rule node factory logic, m.rule? p.1 = some rule ∧ t.node? p.2 = some node ∧
    registry.factory? rule.key.ruleType = some factory ∧ factory rule.config = .ok logic ∧
    c = .ofPair rule node p logic

/-- Some rule of a pair cannot be made. -/
def RefusesPair (m : Manifest) (registry : RuleRegistry) (p : RuleId × ValueId) (e : SetupError) :
    Prop :=
  ∃ rule, m.rule? p.1 = some rule ∧ registry.Refuses rule e

theorem checkOfPair_eq_ok {t : ValueTree} {ps : List (RuleId × ValueId)}
    (hknown : m.PairsKnown t ps) {p : RuleId × ValueId} (hp : p ∈ ps) {registry : RuleRegistry}
    {c : Check} : m.checkOfPair registry t p = .ok c ↔ m.Executes registry t p c := by
  obtain ⟨rule, node, hrule, hnode⟩ := hknown p hp
  rw [checkOfPair_eq hrule hnode, Fallible.bind_eq_ok]
  constructor
  · rintro ⟨logic, hlogic, hc⟩
    obtain ⟨factory, hf, hmake⟩ := RuleRegistry.create_eq_ok.mp hlogic
    exact ⟨rule, node, factory, logic, hrule, hnode, hf, hmake, (Except.ok.inj hc).symm⟩
  · rintro ⟨rule', node', factory, logic, hrule', hnode', hf, hmake, rfl⟩
    obtain rfl := Option.some.inj (hrule.symm.trans hrule')
    obtain rfl := Option.some.inj (hnode.symm.trans hnode')
    exact ⟨logic, RuleRegistry.create_eq_ok.mpr ⟨factory, hf, hmake⟩, rfl⟩

theorem checkOfPair_eq_error {t : ValueTree} {ps : List (RuleId × ValueId)}
    (hknown : m.PairsKnown t ps) {p : RuleId × ValueId} (hp : p ∈ ps) {registry : RuleRegistry}
    {e : SetupError} : m.checkOfPair registry t p = .error e ↔ m.RefusesPair registry p e := by
  obtain ⟨rule, node, hrule, hnode⟩ := hknown p hp
  rw [checkOfPair_eq hrule hnode, Fallible.bind_eq_error]
  constructor
  · rintro (he | ⟨_, -, he⟩)
    · exact ⟨rule, hrule, RuleRegistry.create_eq_error.mp he⟩
    · cases he
  · rintro ⟨rule', hrule', he⟩
    obtain rfl := Option.some.inj (hrule.symm.trans hrule')
    exact .inl (RuleRegistry.create_eq_error.mpr he)

/-- What making the checks of the pairs `ps` comes to. -/
structure MakesOnce (m : Manifest) (t : ValueTree) (ps : List (RuleId × ValueId)) : Prop where
  /-- In place the rules that are needed are made one after the other, each once, whatever the
  makers remember of it. -/
  inPlace {σ : Type} (make : RuleMaker σ) : RunAlike (m.Furnishes t ps)
    ((ps.map (·.1)).eraseDups.mapM (m.makeRule make)) (m.checksInPlace make t)
  /-- With the makers of a registry, the same checks are made in place and all at once. -/
  stored {σ : Type} (registry : RuleRegistry) : RunAlike (fun cs stored => stored = Check.stored cs)
    (MonadExcept.ofExcept (m.checks registry t) : EStateM SetupError σ _)
    (m.checksInPlace registry.maker t)
  checks_eq_ok (registry : RuleRegistry) (cs : List Check) :
    m.checks registry t = .ok cs ↔ List.Forall₂ (m.Executes registry t) ps cs
  /-- The error is that of the first pair whose rule cannot be made. -/
  checks_eq_error (registry : RuleRegistry) (e : SetupError) :
    m.checks registry t = .error e ↔ ∃ before p after, ps = before ++ p :: after ∧
      (∀ q ∈ before, ∀ e', ¬ m.RefusesPair registry q e') ∧ m.RefusesPair registry p e
  exists_error_iff (registry : RuleRegistry) :
    (∃ e, m.checks registry t = .error e) ↔ ∃ r v e, m.Binds t r v ∧ m.RefusesPair registry (r, v) e

theorem pairs_known (hm : m.Sound) {t : ValueTree} : m.PairsKnown t (m.pairs t) := by
  rintro ⟨r, v⟩ hp
  obtain ⟨node, rule, hnode, hrule, -⟩ := (mem_pairs_iff hm).mp hp
  exact ⟨rule, node, hrule, hnode⟩

theorem checksInPlace_eq {t : ValueTree} (hcovers : m.Covers t) {σ : Type} (make : RuleMaker σ) :
    m.checksInPlace make t = ((m.pairs t).forM (m.addPair make t)).run {} >>= fun ended =>
      pure ended.2.checks := by
  rw [checksInPlace, addChecks_eq_forM hcovers]

/-- The error of making checks is that of the first pair whose rule cannot be made. -/
theorem mapM_checkOfPair_eq_error {t : ValueTree} {ps : List (RuleId × ValueId)}
    (hknown : m.PairsKnown t ps) {registry : RuleRegistry} {e : SetupError} :
    ps.mapM (m.checkOfPair registry t) = .error e ↔ ∃ before p after, ps = before ++ p :: after ∧
      (∀ q ∈ before, ∀ e', ¬ m.RefusesPair registry q e') ∧ m.RefusesPair registry p e := by
  have hok : ∀ {q}, q ∈ ps → ((∃ c, m.checkOfPair registry t q = .ok c) ↔
      ∀ e', ¬ m.RefusesPair registry q e') := by
    intro q hq
    simp only [← checkOfPair_eq_error hknown hq]
    cases m.checkOfPair registry t q <;> simp
  rw [Fallible.mapM_eq_error_iff]
  constructor
  · rintro ⟨before, p, after, rfl, hbefore, hp⟩
    exact ⟨before, p, after, rfl,
      fun q hq => (hok (List.mem_append_left _ hq)).mp (hbefore q hq),
      (checkOfPair_eq_error hknown (by simp)).mp hp⟩
  · rintro ⟨before, p, after, rfl, hbefore, hp⟩
    exact ⟨before, p, after, rfl,
      fun q hq => (hok (List.mem_append_left _ hq)).mpr (hbefore q hq),
      (checkOfPair_eq_error hknown (by simp)).mpr hp⟩

theorem makesOnce (hm : m.Sound) {t : ValueTree} (hcovers : m.Covers t) :
    m.MakesOnce t (m.pairs t) := by
  have hknown := pairs_known hm (t := t)
  have herror (registry : RuleRegistry) (e : SetupError) :
      m.checks registry t = .error e ↔ ∃ before p after, m.pairs t = before ++ p :: after ∧
        (∀ q ∈ before, ∀ e', ¬ m.RefusesPair registry q e') ∧ m.RefusesPair registry p e := by
    rw [checks_eq_mapM hcovers, mapM_checkOfPair_eq_error hknown]
  refine ⟨fun make => ?_, fun registry => ?_, fun registry cs => ?_, herror, fun registry => ?_⟩
  · have hruns := forM_addPair_furnishes make hknown (b := {}) ⟨rfl, .nil, .nil⟩
    have hlacking : lacking [] (m.pairs t) = ((m.pairs t).map (·.1)).eraseDups := by
      simp [lacking]
    rw [checksInPlace_eq hcovers, ← hlacking]
    refine hruns.map_right fun new ended ⟨hmade, hfurnished⟩ => ?_
    rwa [show ended.2.made = new from hmade] at hfurnished
  · rw [checksInPlace_eq hcovers, checks_eq_mapM hcovers]
    exact (forM_addPair_checks registry hknown (b := {}) (Check.stored_nil.symm) nofun).map_right
      fun cs ended hended => hended
  · rw [checks_eq_mapM hcovers, Fallible.mapM_eq_ok]
    exact forall₂_congr_left fun p hp c => checkOfPair_eq_ok hknown hp
  · constructor
    · rintro ⟨e, he⟩
      obtain ⟨before, ⟨r, v⟩, after, hps, -, hp⟩ := (herror registry e).mp he
      exact ⟨r, v, e, (mem_pairs_iff hm).mp (by simp [hps]), hp⟩
    · rintro ⟨r, v, e, hbinds, hp⟩
      have hmem := (mem_pairs_iff hm).mpr hbinds
      cases hcs : m.checks registry t with
      | error e' => exact ⟨e', rfl⟩
      | ok cs =>
          rw [checks_eq_mapM hcovers, Fallible.mapM_eq_ok] at hcs
          obtain ⟨c, -, hc⟩ := exists_right_of_forall₂ hcs hmem
          rw [(checkOfPair_eq_error hknown hmem).mpr hp] at hc
          cases hc

end Manifest

/-- **Every value is paired with every rule for it, once.** Whatever edits built the manifest,
whatever the document and the policy, the pairs of the values of a tree with the rules of the items
that apply to them stand in one order, and making the checks makes one for each pair in that order,
numbered from zero, and every rule that is needed once. It fails exactly if some rule that is needed
cannot be made, with the error of the first. -/
theorem checks_once (rootType : String) (edits : List Edit) {policy : FailurePolicy} {depth : Nat}
    {document : Json} {t : ValueTree}
    (ht : (Manifest.build rootType edits).materializeTo policy depth document = .ok t) :
    ∃ ps, (Manifest.build rootType edits).Enumerates t ps ∧
      (Manifest.build rootType edits).MakesOnce t ps := by
  have hm := Manifest.build_sound rootType edits
  obtain ⟨top, hmat⟩ := exists_materialized ht
  exact ⟨_, Manifest.pairs_enumerates hm (Manifest.build_rulesAscend rootType edits) hmat,
    Manifest.makesOnce hm fun v node hv a ha => hmat.known_of_applied hm hv ha⟩

/-- The entries of the folder are folders themselves: the rule of folders is made once and applied
three times, the rules of locked entries and of their keys once each. -/
theorem checks_once_locked :
    ∃ t ps cs, (Manifest.build "Folder" lockedEdits).materializeTo .skip 6 folder = .ok t ∧
      (Manifest.build "Folder" lockedEdits).Enumerates t ps ∧
      (Manifest.build "Folder" lockedEdits).MakesOnce t ps ∧
      (Manifest.build "Folder" lockedEdits).checks lockedRules t = .ok cs ∧ cs.length = 5 ∧
      List.Forall₂ ((Manifest.build "Folder" lockedEdits).Executes lockedRules t) ps cs := by
  have hsome : (((Manifest.build "Folder" lockedEdits).materializeTo .skip 6 folder).toOption.bind
      fun t => ((Manifest.build "Folder" lockedEdits).checks lockedRules t).toOption).map
        (·.length) = some 5 := by decide +kernel
  obtain ⟨cs, hsome, hlength⟩ := Option.map_eq_some_iff.mp hsome
  obtain ⟨t, ht, hcs⟩ := Option.bind_eq_some_iff.mp hsome
  have htree := Fallible.eq_ok_of_toOption ht
  have hchecks := Fallible.eq_ok_of_toOption hcs
  obtain ⟨ps, henum, honce⟩ := checks_once "Folder" lockedEdits htree
  exact ⟨t, ps, cs, htree, henum, honce, hchecks, hlength,
    (honce.checks_eq_ok lockedRules cs).mp hchecks⟩

end Vetting
