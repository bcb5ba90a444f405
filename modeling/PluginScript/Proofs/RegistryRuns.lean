import PluginScript.Registry
import PluginScript.Proofs.CallSearch
import Mathlib.Data.List.Nodup

/-! # Runs of registrations

A registry comes about by attempts to register globals, one after the other; a rejected global
leaves the registry as it was. `attempt_cases` says all that an attempt can do. What every attempt
keeps therefore holds of every registry that any sequence of attempts can reach, such as that all
its call rules are named (`named_callRules_afterAttempts`).
-/

namespace PluginScript.Registry

/-- A global is accepted exactly if its names are words and neither its name nor its owner is
registered. -/
theorem rejection?_eq_none_iff {registry : Registry} {global : Global} :
    registry.rejection? global = none ↔
      global.name.isWord = true ∧ (∀ method ∈ global.indexers, method.isWord = true) ∧
        registry.get? global.name = none ∧ registry.getByOwner? global.owner = none := by
  have words : (global.indexers.find? fun method => !method.isWord) = none ↔
      ∀ method ∈ global.indexers, method.isWord = true := by
    simp only [List.find?_eq_none, Bool.not_eq_true', Bool.not_eq_false]
  rw [rejection?, ← words]
  cases nameWord : global.name.isWord with
  | false => simp
  | true =>
    cases invalid : global.indexers.find? fun method => !method.isWord with
    | some method => simp
    | none =>
      cases named : registry.get? global.name <;>
        cases owned : registry.getByOwner? global.owner <;> simp

/-- The registry after an attempt to register a global. -/
def attempt (registry : Registry) (global : Global) : Registry :=
  match registry.register global with
  | .ok next => next
  | .error _ => registry

/-- The registry after attempts to register globals, one after the other. -/
def afterAttempts (globals : List Global) : Registry :=
  globals.foldl attempt empty

/-- An attempt appends an acceptable global, and changes nothing otherwise. -/
theorem attempt_cases (registry : Registry) (global : Global) :
    (registry.rejection? global = none ∧ registry.attempt global = ⟨registry.globals ++ [global]⟩) ∨
      ∃ cause, registry.rejection? global = some cause ∧ registry.attempt global = registry := by
  unfold attempt register
  cases registry.rejection? global with
  | none => exact .inl ⟨rfl, rfl⟩
  | some cause => exact .inr ⟨cause, rfl, rfl⟩

/-- The call rules of an acceptable global are named. -/
private theorem named_of_rejection?_eq_none {registry : Registry} {global : Global}
    (accepted : registry.rejection? global = none) : ∀ rule ∈ global.callRules, rule.Named := by
  obtain ⟨nameWord, methodWords, -, -⟩ := rejection?_eq_none_iff.mp accepted
  intro rule member
  obtain ⟨method, declared, rfl⟩ := List.mem_map.mp member
  exact ⟨nameWord, methodWords method declared⟩

private theorem named_callRules_attempt {registry : Registry}
    (named : ∀ rule ∈ registry.callRules, rule.Named) (global : Global) :
    ∀ rule ∈ (registry.attempt global).callRules, rule.Named := by
  rcases registry.attempt_cases global with ⟨accepted, appended⟩ | ⟨cause, -, same⟩
  · intro rule member
    rw [appended, callRules, List.flatMap_append, List.flatMap_singleton, List.mem_append] at member
    exact member.elim (named rule) (named_of_rejection?_eq_none accepted rule)
  · rwa [same]

/-- What every attempt keeps holds of every registry that attempts can reach. -/
theorem afterAttempts_induction {motive : Registry → Prop} (start : motive empty)
    (step : ∀ registry global, motive registry → motive (registry.attempt global))
    (globals : List Global) : motive (afterAttempts globals) := by
  unfold afterAttempts
  generalize empty = registry at start ⊢
  induction globals generalizing registry with
  | nil => exact start
  | cons global globals ih => exact ih _ (step registry global start)

/-- All call rules of a registry are named, however it has come about. -/
theorem named_callRules_afterAttempts (globals : List Global) :
    ∀ rule ∈ (afterAttempts globals).callRules, rule.Named :=
  afterAttempts_induction (motive := fun registry => ∀ rule ∈ registry.callRules, rule.Named)
    (fun _ member => (List.not_mem_nil member).elim)
    (fun _ global named => named_callRules_attempt named global) globals

/-! ## The registered globals -/

theorem get?_eq_none_iff {registry : Registry} {name : Text} :
    registry.get? name = none ↔ name ∉ registry.globals.map Global.name := by
  simp only [get?, List.find?_eq_none, beq_iff_eq, List.mem_map, not_exists, not_and]

theorem getByOwner?_eq_none_iff {registry : Registry} {owner : PluginId} :
    registry.getByOwner? owner = none ↔ owner ∉ registry.globals.map Global.owner := by
  simp only [getByOwner?, List.find?_eq_none, beq_iff_eq, List.mem_map, not_exists, not_and]

/-- The names of the registered globals are words, and no two of them share a name or an owner. -/
structure Valid (registry : Registry) : Prop where
  word : ∀ global ∈ registry.globals, global.name.isWord = true
  names : (registry.globals.map Global.name).Nodup
  owners : (registry.globals.map Global.owner).Nodup

theorem valid_empty : empty.Valid :=
  ⟨fun _ member => (List.not_mem_nil member).elim, List.nodup_nil, List.nodup_nil⟩

theorem valid_attempt {registry : Registry} (valid : registry.Valid) (global : Global) :
    (registry.attempt global).Valid := by
  rcases registry.attempt_cases global with ⟨accepted, appended⟩ | ⟨cause, -, same⟩
  · obtain ⟨nameWord, -, nameFree, ownerFree⟩ := rejection?_eq_none_iff.mp accepted
    rw [get?_eq_none_iff] at nameFree
    rw [getByOwner?_eq_none_iff] at ownerFree
    rw [appended]
    constructor
    case word =>
      intro other member
      rcases List.mem_append.mp member with old | new
      · exact valid.word other old
      · rwa [List.mem_singleton.mp new]
    case names =>
      rw [List.map_append, List.map_singleton, ← List.concat_eq_append]
      exact List.Nodup.concat nameFree valid.names
    case owners =>
      rw [List.map_append, List.map_singleton, ← List.concat_eq_append]
      exact List.Nodup.concat ownerFree valid.owners
  · rwa [same]

theorem valid_afterAttempts (globals : List Global) : (afterAttempts globals).Valid :=
  afterAttempts_induction valid_empty (fun _ global valid => valid_attempt valid global) globals

/-- A registered global is given by its owner. -/
theorem Valid.eq_of_owner_eq {registry : Registry} (valid : registry.Valid) {first second : Global}
    (firstMember : first ∈ registry.globals) (secondMember : second ∈ registry.globals)
    (same : first.owner = second.owner) : first = second :=
  List.inj_on_of_nodup_map valid.owners firstMember secondMember same

end PluginScript.Registry
