import Mathlib.Order.BooleanAlgebra.Set
import MapReduce.Proofs.Indifference
import MapReduce.Proofs.TaskSequence

/-!
# Tasks in any order

The tasks of a phase write separate files, and none of them reads what another writes. So whatever
order they are carried out in, each does what it would have done alone.
-/

namespace MapReduce

open FileTree (Variant)

/-- None of the tasks writes what another reads or writes. -/
structure FileTree.Unrelated (t : FileTree) (tasks : List Task) : Prop where
  outputs : tasks.Pairwise fun a b => t.Separate a.output b.output
  inputs : ∀ a ∈ tasks, ∀ b ∈ tasks, t.Separate a.input b.output

namespace FileTree

variable {t t' : FileTree} {task : Task} {tasks tasks' : List Task} {A : Set Location} {p q : Path}

theorem Separate.placesOf_subset (h : t.Separate p q) : t.placesOf [p] ⊆ (t.placesOf [q])ᶜ := by
  rintro place ⟨p', hp', hp⟩ ⟨q', hq', hq⟩
  obtain rfl := List.mem_singleton.mp hp'
  obtain rfl := List.mem_singleton.mp hq'
  exact h place place hp hq rfl

namespace Unrelated

theorem tail (h : t.Unrelated (task :: tasks)) : t.Unrelated tasks where
  outputs := (List.pairwise_cons.mp h.outputs).2
  inputs a ha b hb := h.inputs a (List.mem_cons_of_mem _ ha) b (List.mem_cons_of_mem _ hb)

theorem variant (h : t.Unrelated tasks) (hvariant : Variant A t t') : t'.Unrelated tasks where
  outputs := h.outputs.imp fun hseparate => hseparate.rewritten hvariant.rewritten
  inputs a ha b hb := (h.inputs a ha b hb).rewritten hvariant.rewritten

theorem perm (h : t.Unrelated tasks) (hperm : tasks'.Perm tasks) : t.Unrelated tasks' where
  outputs := (hperm.pairwise_iff fun hseparate => Separate.symm hseparate).mpr h.outputs
  inputs a ha b hb := h.inputs a (hperm.mem_iff.mp ha) b (hperm.mem_iff.mp hb)

end Unrelated

theorem Apart.unrelated {inputs outputs : List Path} (h : t.Apart inputs outputs)
    (kind : TaskKind) (hlength : inputs.length = outputs.length) :
    t.Unrelated (tasksOf kind inputs outputs) where
  outputs := by
    have hpairwise := h.separate_outputs
    rwa [← map_output_tasksOf kind hlength, List.pairwise_map] at hpairwise
  inputs a ha b hb := by
    refine h.separate a.input ?_ b.output ?_
    · exact map_input_tasksOf kind hlength ▸ List.mem_map_of_mem ha
    · exact map_output_tasksOf kind hlength ▸ List.mem_map_of_mem hb

end FileTree

namespace TaskRunner

variable {runner : TaskRunner} {task : Task} {tasks tasks' : List Task} {t t' : FileTree}
  {A : Set Location} {q : Location}

def Succeeds (runner : TaskRunner) (task : Task) (t : FileTree) : Prop :=
  ∃ n, (runner.run task t).1 = .ok n

theorem Succeeds.variant (h : Variant A t t') (hinput : t.placesOf [task.input] ⊆ A)
    (hsucceeds : runner.Succeeds task t) :
    runner.Succeeds task t'
      ∧ Variant (A ∪ t.placesOf [task.output]) (runner.run task t).2 (runner.run task t').2 := by
  obtain ⟨n, hn⟩ := hsucceeds
  obtain ⟨t₁', hrun', h₁⟩ := run_variant h hinput (Prod.ext hn rfl)
  rw [Succeeds, hrun']
  exact ⟨⟨n, rfl⟩, h₁⟩

theorem succeeds_iff (h : Variant A t t') (hinput : t.placesOf [task.input] ⊆ A) :
    runner.Succeeds task t' ↔ runner.Succeeds task t := by
  refine ⟨fun hsucceeds => (hsucceeds.variant h.symm ?_).1, fun hsucceeds =>
    (hsucceeds.variant h hinput).1⟩
  rwa [h.placesOf_eq]

/-! ### Each as it would be alone -/

/-- What is not among the outputs stays as it was. -/
theorem variant_of_runEach (runner : TaskRunner) (t : FileTree) (tasks : List Task) :
    Variant (t.placesOf (tasks.map Task.output))ᶜ t (runner.runEach t tasks).2 := by
  induction tasks generalizing t with
  | nil => exact .refl _ _
  | cons task tasks ih =>
      have hone := runner.variant_of_run task t
      have hrest := ih (runner.run task t).2
      rw [hone.placesOf_eq] at hrest
      rw [List.map_cons, t.placesOf_cons, Set.compl_union]
      exact hone.trans hrest

/-- After another task, a task finds its files as they were before it. -/
theorem variant_of_unrelated {other : Task} (h : t.Unrelated (other :: tasks))
    (htask : task ∈ tasks) :
    t.placesOf [task.input] ⊆ (t.placesOf [other.output])ᶜ
      ∧ t.placesOf [task.output] ⊆ (t.placesOf [other.output])ᶜ :=
  ⟨(h.inputs task (List.mem_cons_of_mem _ htask) other List.mem_cons_self).placesOf_subset,
    ((List.pairwise_cons.mp h.outputs).1 task htask).symm.placesOf_subset⟩

/-- All tasks of a phase succeed, in this order, if each of them would alone. -/
theorem allOk_runEach_iff (h : t.Unrelated tasks) :
    AllOk (runner.runEach t tasks).1 ↔ ∀ task ∈ tasks, runner.Succeeds task t := by
  induction tasks generalizing t with
  | nil => simp [runEach, AllOk]
  | cons task tasks ih =>
      have hone := runner.variant_of_run task t
      rw [runEach_cons, allOk_cons_iff, ih (h.tail.variant hone), List.forall_mem_cons]
      refine and_congr_right fun _ => forall₂_congr fun other hother => ?_
      exact succeeds_iff hone (variant_of_unrelated h hother).1

/-- When all tasks succeed, each output holds what its task would have written alone. -/
theorem get?_runEach (h : t.Unrelated tasks) (hok : ∀ task ∈ tasks, runner.Succeeds task t)
    (htask : task ∈ tasks) (hq : q ∈ t.placesOf [task.output]) :
    (runner.runEach t tasks).2.get? q = (runner.run task t).2.get? q := by
  induction tasks generalizing t with
  | nil => simp at htask
  | cons first tasks ih =>
      have hone := runner.variant_of_run first t
      rw [runEach_cons]
      rcases List.mem_cons.mp htask with rfl | htask
      · have hrest := runner.variant_of_runEach (runner.run task t).2 tasks
        refine hrest.get?_of_mem q ?_
        rw [hone.placesOf_eq]
        rintro ⟨path, hpath, hresolve⟩
        obtain ⟨other, hother, rfl⟩ := List.mem_map.mp hpath
        have hseparate := (List.pairwise_cons.mp h.outputs).1 other hother
        exact hseparate.placesOf_subset hq (FileTree.mem_placesOf (by simp) hresolve)
      · obtain ⟨hinput, houtput⟩ := variant_of_unrelated h htask
        have hok' : ∀ other ∈ tasks, runner.Succeeds other (runner.run first t).2 := by
          intro other hother
          exact (succeeds_iff hone (variant_of_unrelated h hother).1).mpr
            (hok other (List.mem_cons_of_mem _ hother))
        have hq' : q ∈ (runner.run first t).2.placesOf [task.output] := by
          rwa [hone.placesOf_eq]
        calc (runner.runEach (runner.run first t).2 tasks).2.get? q
            = (runner.run task (runner.run first t).2).2.get? q :=
              ih (h.tail.variant hone) hok' htask hq'
          _ = (runner.run task t).2.get? q :=
              (((hok task (List.mem_cons_of_mem _ htask)).variant hone hinput).2.get?_of_mem q
                (Or.inr hq))

/-- **Any order.** Tasks that are unrelated, carried out on two trees that agree on their inputs and
in two orders, succeed on both or fail on both. If they succeed, the trees agree on the outputs. -/
theorem runEach_anyOrder (h : Variant A t t') (hunrelated : t.Unrelated tasks)
    (hperm : tasks'.Perm tasks) (hinputs : t.placesOf (tasks.map Task.input) ⊆ A) :
    (AllOk (runner.runEach t' tasks').1 ↔ AllOk (runner.runEach t tasks).1)
      ∧ (AllOk (runner.runEach t tasks).1 →
        Variant (A ∪ t.placesOf (tasks.map Task.output)) (runner.runEach t tasks).2
          (runner.runEach t' tasks').2) := by
  have hunrelated' := (hunrelated.perm hperm).variant h
  have hinput : ∀ task ∈ tasks, t.placesOf [task.input] ⊆ A := by
    intro task htask
    exact (FileTree.placesOf_mono (by simpa using ⟨task, htask, rfl⟩)).trans hinputs
  rw [allOk_runEach_iff hunrelated, allOk_runEach_iff hunrelated']
  have hiff : (∀ task ∈ tasks', runner.Succeeds task t')
      ↔ ∀ task ∈ tasks, runner.Succeeds task t := by
    refine forall_congr' fun task => ?_
    rw [hperm.mem_iff]
    exact forall_congr' fun htask => succeeds_iff h (hinput task htask)
  refine ⟨hiff, fun hok => ?_⟩
  have hleft := runner.variant_of_runEach t tasks
  have hright := runner.variant_of_runEach t' tasks'
  have hplaces : t'.placesOf (tasks'.map Task.output) = t.placesOf (tasks.map Task.output) := by
    rw [h.placesOf_eq]
    exact Set.Subset.antisymm (FileTree.placesOf_mono (hperm.map _).subset)
      (FileTree.placesOf_mono (hperm.map _).symm.subset)
  rw [hplaces] at hright
  refine ((hleft.symm.trans h).trans hright).agree ?_
  intro q hq
  by_cases houtput : q ∈ t.placesOf (tasks.map Task.output)
  · obtain ⟨path, hpath, hresolve⟩ := houtput
    obtain ⟨task, htask, rfl⟩ := List.mem_map.mp hpath
    have hq : q ∈ t.placesOf [task.output] := FileTree.mem_placesOf (by simp) hresolve
    rw [get?_runEach hunrelated hok htask hq,
      get?_runEach hunrelated' (hiff.mpr hok) (hperm.mem_iff.mpr htask) (by rwa [h.placesOf_eq])]
    exact ((hok task htask).variant h (hinput task htask)).2.get?_of_mem q (Or.inr hq)
  · have hmem : q ∈ A := hq.resolve_right houtput
    calc (runner.runEach t' tasks').2.get? q
        = t'.get? q := hright.get?_of_mem q houtput
      _ = t.get? q := h.get?_of_mem q hmem
      _ = (runner.runEach t tasks).2.get? q := (hleft.get?_of_mem q houtput).symm

end TaskRunner

end MapReduce
