import Mathlib.Data.List.Perm.Basic
import Mathlib.Algebra.Ring.Nat

/-!
# List schedules

Permits that take tasks in the order of a list, each task as soon as a permit is free. All that
matters of the permits are the times from which on they are free, in whatever order these are
listed (`latest_assign_perm`). One permit takes the tasks one after the other (`finishing_one`), and
as many permits as there are tasks take them all at once (`finishing_of_length_le`).
-/

namespace Vetting.Schedule

/-- The earliest of several times. -/
def earliest (times : List Nat) : Nat := times.min?.getD 0

/-- The latest of several times, where no time at all is time zero. -/
def latest (times : List Nat) : Nat := times.foldr max 0

/-- The times from which on permits are free that were free from the times `free` on, after they
have taken tasks of the given durations. A task is taken by the permit that is free first. -/
def assign : List Nat → List Nat → List Nat
  | free, [] => free
  | free, d :: ds => assign ((earliest free + d) :: free.erase (earliest free)) ds

/-- When the last of some tasks is done, counted from the moment at which all permits are free. -/
def finishing (permits : Nat) (durations : List Nat) : Nat :=
  latest (assign (List.replicate permits 0) durations)

variable {free free' durations : List Nat} {t d n permits : Nat}

/-! ## Earliest and latest times -/

theorem earliest_eq (ht : t ∈ free) (hle : ∀ u ∈ free, t ≤ u) : earliest free = t := by
  rw [earliest, List.min?_eq_some_iff.mpr ⟨ht, hle⟩, Option.getD_some]

theorem latest_le_iff {times : List Nat} : latest times ≤ n ↔ ∀ t ∈ times, t ≤ n := by
  induction times with
  | nil => simp [latest]
  | cons t times ih => rw [List.forall_mem_cons, ← ih, latest, List.foldr_cons, Nat.max_le, latest]

theorem latest_perm {times times' : List Nat} (h : times.Perm times') :
    latest times = latest times' := by
  refine Nat.le_antisymm (latest_le_iff.mpr fun t ht => ?_) (latest_le_iff.mpr fun t ht => ?_)
  · exact latest_le_iff.mp (Nat.le_refl _) t (h.mem_iff.mp ht)
  · exact latest_le_iff.mp (Nat.le_refl _) t (h.mem_iff.mpr ht)

theorem latest_cons (t : Nat) (times : List Nat) : latest (t :: times) = max t (latest times) := rfl

theorem latest_append (times times' : List Nat) :
    latest (times ++ times') = max (latest times) (latest times') := by
  induction times with
  | nil => simp [latest]
  | cons t times ih => rw [List.cons_append, latest_cons, latest_cons, ih, Nat.max_assoc]

theorem latest_replicate (hpermits : 0 < permits) (t : Nat) :
    latest (List.replicate permits t) = t := by
  refine Nat.le_antisymm (latest_le_iff.mpr fun u hu => ?_) ?_
  · exact Nat.le_of_eq (List.eq_of_mem_replicate hu)
  · exact latest_le_iff.mp (Nat.le_refl _) t (List.mem_replicate.mpr ⟨Nat.ne_of_gt hpermits, rfl⟩)

/-! ## Tasks and permits -/

theorem exists_earliest (hne : free ≠ []) :
    ∃ t free', free.Perm (t :: free') ∧ ∀ u ∈ free', t ≤ u := by
  obtain ⟨t, ht⟩ := Option.isSome_iff_exists.mp (List.isSome_min?_of_ne_nil hne)
  obtain ⟨hmem, hle⟩ := List.min?_eq_some_iff.mp ht
  exact ⟨t, free.erase t, List.perm_cons_erase hmem, fun u hu => hle u (List.mem_of_mem_erase hu)⟩

theorem earliest_eq_of_perm (h : free.Perm (t :: free')) (hle : ∀ u ∈ free', t ≤ u) :
    earliest free = t := by
  refine earliest_eq (h.mem_iff.mpr List.mem_cons_self) fun u hu => ?_
  rcases List.mem_cons.mp (h.mem_iff.mp hu) with rfl | hu
  · exact Nat.le_refl _
  · exact hle u hu

theorem assign_perm (h : free.Perm free') :
    (assign free durations).Perm (assign free' durations) := by
  induction durations generalizing free free' with
  | nil => exact h
  | cons d durations ih =>
      by_cases hne : free = []
      · subst hne
        rw [h.nil_eq]
      · obtain ⟨t, rest, hrest, hle⟩ := exists_earliest hne
        rw [assign, assign, earliest_eq_of_perm hrest hle,
          earliest_eq_of_perm (h.symm.trans hrest) hle]
        exact ih ((h.erase t).cons _)

theorem latest_assign_perm (h : free.Perm free') (durations : List Nat) :
    latest (assign free durations) = latest (assign free' durations) :=
  latest_perm (assign_perm h)

/-- The first task is taken by a permit that is free no later than all others. -/
theorem latest_assign_cons (h : free.Perm (t :: free')) (hle : ∀ u ∈ free', t ≤ u) (d : Nat)
    (durations : List Nat) :
    latest (assign free (d :: durations)) = latest (assign ((t + d) :: free') durations) := by
  have hrest : (free.erase t).Perm free' := by simpa using h.erase t
  rw [assign, earliest_eq_of_perm h hle]
  exact latest_assign_perm (hrest.cons _) durations

/-! ## Special schedules -/

/-- Permits that are all free from a time on finish by so much later. -/
theorem latest_assign_add (hne : free ≠ []) (n : Nat) (durations : List Nat) :
    latest (assign (free.map (n + ·)) durations) = n + latest (assign free durations) := by
  induction durations generalizing free with
  | nil =>
      rw [assign, assign]
      induction free with
      | nil => exact absurd rfl hne
      | cons t free ih =>
          rw [List.map_cons, latest_cons, latest_cons]
          cases free with
          | nil => simp [latest]
          | cons u free => rw [ih (List.cons_ne_nil _ _), Nat.add_max_add_left]
  | cons d durations ih =>
      obtain ⟨t, rest, hrest, hle⟩ := exists_earliest hne
      have hmap : ∀ u ∈ rest.map (n + ·), n + t ≤ u := fun u hu => by
        obtain ⟨w, hw, rfl⟩ := List.mem_map.mp hu
        exact Nat.add_le_add_left (hle w hw) n
      rw [latest_assign_cons (hrest.map (n + ·)) hmap, latest_assign_cons hrest hle,
        ← ih (List.cons_ne_nil _ _), List.map_cons, Nat.add_assoc]

theorem latest_assign_replicate (hpermits : 0 < permits) (t : Nat) (durations : List Nat) :
    latest (assign (List.replicate permits t) durations) = t + finishing permits durations := by
  have hmap : List.replicate permits t = (List.replicate permits 0).map (t + ·) := by simp
  rw [hmap, latest_assign_add (by simpa using Nat.ne_of_gt hpermits), finishing]

/-- One permit takes the tasks one after the other. -/
theorem finishing_one (durations : List Nat) : finishing 1 durations = durations.sum := by
  have hassign : ∀ t, assign [t] durations = [t + durations.sum] := by
    induction durations with
    | nil => exact fun _ => rfl
    | cons d durations ih =>
        intro t
        rw [assign, show earliest [t] = t from rfl, List.erase_cons_head, ih, List.sum_cons,
          Nat.add_assoc]
  rw [finishing, List.replicate_one, hassign, Nat.zero_add]
  exact Nat.max_zero _

/-- As long as there are permits that are free from the start, each task is done after its own
duration. -/
theorem latest_assign_append (h : durations.length ≤ permits) (taken : List Nat) :
    latest (assign (List.replicate permits 0 ++ taken) durations) =
      max (latest taken) (latest durations) := by
  induction durations generalizing permits taken with
  | nil =>
      have hzero : latest (List.replicate permits 0) = 0 :=
        Nat.le_zero.mp (latest_le_iff.mpr fun t ht => Nat.le_of_eq (List.eq_of_mem_replicate ht))
      rw [assign, latest_append, hzero, Nat.max_comm]
      rfl
  | cons d durations ih =>
      obtain ⟨rest, rfl⟩ := Nat.exists_eq_add_of_lt h
      rw [List.replicate_succ, List.cons_append,
        latest_assign_cons (List.Perm.refl _) (fun _ _ => Nat.zero_le _), Nat.zero_add,
        latest_assign_perm List.perm_middle.symm, ih (by omega), latest_cons, latest_cons]
      omega

/-- Enough permits take all tasks at once. -/
theorem finishing_of_length_le (h : durations.length ≤ permits) :
    finishing permits durations = latest durations := by
  have hall := latest_assign_append h []
  rw [List.append_nil, show latest [] = 0 from rfl, Nat.zero_max] at hall
  exact hall

end Vetting.Schedule
