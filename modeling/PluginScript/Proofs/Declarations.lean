import PluginScript.Global.Declaration
import Mathlib.Data.List.Nodup

/-! # Declared globals

A declaration may name a method more than once; the global that it makes has each of its methods
once, at the place of the first declaration (`declare_eq`). Nothing else of the steps of a
declaration is left in the global (`Declaration.global_eq`).
-/

namespace PluginScript

theorem nodup_eraseDups (methods : List Text) : methods.eraseDups.Nodup := by
  induction size : methods.length using Nat.strongRecOn generalizing methods with
  | ind size ih =>
    cases methods with
    | nil => exact List.nodup_nil
    | cons method methods =>
      subst size
      rw [List.eraseDups_cons]
      refine List.nodup_cons.mpr ⟨?_, ih _ ?_ _ rfl⟩
      · rw [List.mem_eraseDups, List.mem_filter]
        simp
      · exact Nat.lt_succ_of_le (List.length_filter_le _ _)

theorem eraseDups_of_nodup {methods : List Text} (distinct : methods.Nodup) :
    methods.eraseDups = methods := by
  induction methods with
  | nil => rfl
  | cons method methods ih =>
    obtain ⟨new, distinct⟩ := List.nodup_cons.mp distinct
    rw [List.eraseDups_cons, List.filter_eq_self.mpr, ih distinct]
    intro other member
    simpa using fun same : other = method => new (same ▸ member)

namespace Global

private theorem addIndexers_eraseDups (name : Text) (owner : PluginId) (known methods : List Text) :
    addIndexers ⟨name, owner, known.eraseDups⟩ methods =
      ⟨name, owner, (known ++ methods).eraseDups⟩ := by
  induction methods generalizing known with
  | nil => rw [List.append_nil]; rfl
  | cons method methods ih =>
    have added : addIndexer ⟨name, owner, known.eraseDups⟩ method =
        ⟨name, owner, (known ++ [method]).eraseDups⟩ := by
      rw [addIndexer, hasIndexer, List.contains_eq_mem, List.eraseDups_append]
      simp only [List.mem_eraseDups, decide_eq_true_eq]
      split_ifs with old
      · simp [List.removeAll, old]
      · simp [List.removeAll, old, List.eraseDups_cons]
    change addIndexers (addIndexer _ method) methods = _
    rw [added, ih, List.append_assoc, List.singleton_append]

/-- A declared global has the methods it was declared with, each at its first place. -/
theorem declare_eq (name : Text) (owner : PluginId) (methods : List Text) :
    declare name owner methods = ⟨name, owner, methods.eraseDups⟩ :=
  addIndexers_eraseDups name owner [] methods

private theorem addIndexers_append (global : Global) (first second : List Text) :
    global.addIndexers (first ++ second) = (global.addIndexers first).addIndexers second :=
  List.foldl_append

end Global

namespace Declaration

private theorem Step.apply_eq (step : Step) (global : Global) :
    step.apply global = global.addIndexers step.methods := by
  cases step <;> rfl

/-- Steps add their methods one after the other. -/
private theorem foldl_apply (steps : List Step) (global : Global) :
    steps.foldl Step.apply global = global.addIndexers (steps.flatMap Step.methods) := by
  induction steps generalizing global with
  | nil => rfl
  | cons step steps ih =>
    rw [List.foldl_cons, ih, step.apply_eq, List.flatMap_cons, Global.addIndexers_append]

/-- The global of a declaration has the methods that are declared, each at its first place. -/
theorem global_eq (declaration : Declaration) :
    declaration.global = ⟨declaration.name, declaration.owner, declaration.methods.eraseDups⟩ := by
  rw [global, foldl_apply]
  exact Global.declare_eq declaration.name declaration.owner declaration.methods

end Declaration

end PluginScript
