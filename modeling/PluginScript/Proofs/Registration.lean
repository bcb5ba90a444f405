import PluginScript.Proofs.RegistryRuns

/-! # What a registry guarantees

However a registry has come about, by attempts that were accepted and attempts that were rejected,
a lookup finds each registered global and nothing else, and the dependencies of a script are the
owners of the globals that the script mentions, each of them once. Both rest on the same invariant:
no two registered globals share a name or an owner (`Registry.Valid`).
-/

namespace PluginScript.Registry

/-- Where the keys are distinct, a value is found by its key. -/
private theorem find?_of_nodup_map {α β : Type} [BEq β] [LawfulBEq β] {key : α → β}
    {values : List α}
    (distinct : (values.map key).Nodup) {value : α} (member : value ∈ values) :
    values.find? (fun other => key other == key value) = some value := by
  cases found : values.find? (fun other => key other == key value) with
  | none =>
    rw [List.find?_eq_none] at found
    exact absurd BEq.rfl (found value member)
  | some other =>
    have satisfied := List.find?_some found
    have same : key other = key value := eq_of_beq satisfied
    rw [List.inj_on_of_nodup_map distinct (List.mem_of_find?_eq_some found) member same]

namespace Valid

variable {registry : Registry} (valid : registry.Valid)
include valid

theorem get?_of_mem {global : Global} (member : global ∈ registry.globals) :
    registry.get? global.name = some global :=
  find?_of_nodup_map valid.names member

theorem getByOwner?_of_mem {global : Global} (member : global ∈ registry.globals) :
    registry.getByOwner? global.owner = some global :=
  find?_of_nodup_map valid.owners member

theorem nodup_dependencies (script : Text) : (registry.dependencies script).Nodup :=
  valid.owners.sublist (List.filter_sublist.map Global.owner)

end Valid

/-- The dependencies of a script are in the order of registration. -/
theorem dependencies_sublist (registry : Registry) (script : Text) :
    (registry.dependencies script).Sublist (registry.globals.map Global.owner) :=
  List.filter_sublist.map Global.owner

theorem mem_dependencies_iff {registry : Registry} {script : Text} {owner : PluginId} :
    owner ∈ registry.dependencies script ↔
      ∃ global ∈ registry.globals, global.owner = owner ∧ global.name <:+: script := by
  simp only [dependencies, mentioned, List.mem_map, List.mem_filter, Text.occursIn_iff]
  exact exists_congr fun global => ⟨fun ⟨⟨stored, inside⟩, owned⟩ => ⟨stored, owned, inside⟩,
    fun ⟨stored, owned, inside⟩ => ⟨⟨stored, inside⟩, owned⟩⟩

/-- The indexers of a registered global are words, since they are in its call rules. -/
private theorem isWord_of_mem_indexers {globals : List Global} {global : Global} {method : Text}
    (stored : global ∈ (afterAttempts globals).globals) (declared : method ∈ global.indexers) :
    method.isWord = true := by
  have member : CallRule.mk global.name method ∈ (afterAttempts globals).callRules :=
    List.mem_flatMap.mpr ⟨global, stored, List.mem_map.mpr ⟨method, declared, rfl⟩⟩
  exact (named_callRules_afterAttempts globals _ member).2

/-- One more attempt either appends its global or is rejected and changes nothing. -/
theorem afterAttempts_append_singleton (globals : List Global) (global : Global) :
    ((afterAttempts globals).register global = .ok (afterAttempts (globals ++ [global])) ∧
        (afterAttempts (globals ++ [global])).globals =
          (afterAttempts globals).globals ++ [global]) ∨
      ∃ cause, (afterAttempts globals).register global = .error cause ∧
        afterAttempts (globals ++ [global]) = afterAttempts globals := by
  have next : afterAttempts (globals ++ [global]) = (afterAttempts globals).attempt global :=
    List.foldl_concat attempt empty global globals
  rw [next, register]
  rcases (afterAttempts globals).attempt_cases global with
    ⟨accepted, appended⟩ | ⟨cause, rejected, same⟩
  · rw [accepted, appended]
    exact .inl ⟨rfl, rfl⟩
  · rw [rejected, same]
    exact .inr ⟨cause, rfl, rfl⟩

/-- What holds of a registry after any attempts to register globals: words and distinct keys, what
the next attempt can do to it, what its lookups find, and what a script depends on. -/
theorem registered_afterAttempts (globals : List Global) :
    ((∀ global ∈ (afterAttempts globals).globals, global.name.isWord = true ∧
          ∀ method ∈ global.indexers, method.isWord = true) ∧
        ((afterAttempts globals).globals.map Global.name).Nodup ∧
        ((afterAttempts globals).globals.map Global.owner).Nodup) ∧
      (∀ global,
        ((afterAttempts globals).register global = .ok (afterAttempts (globals ++ [global])) ∧
            (afterAttempts (globals ++ [global])).globals =
              (afterAttempts globals).globals ++ [global]) ∨
          ∃ cause, (afterAttempts globals).register global = .error cause ∧
            afterAttempts (globals ++ [global]) = afterAttempts globals) ∧
      ((∀ global ∈ (afterAttempts globals).globals,
          (afterAttempts globals).get? global.name = some global ∧
            (afterAttempts globals).getByOwner? global.owner = some global) ∧
        (∀ name ∉ (afterAttempts globals).globals.map Global.name,
          (afterAttempts globals).get? name = none) ∧
        ∀ owner ∉ (afterAttempts globals).globals.map Global.owner,
          (afterAttempts globals).getByOwner? owner = none) ∧
      ∀ script, ((afterAttempts globals).dependencies script).Nodup ∧
        ((afterAttempts globals).dependencies script).Sublist
          ((afterAttempts globals).globals.map Global.owner) ∧
        ∀ owner, owner ∈ (afterAttempts globals).dependencies script ↔
          ∃ global ∈ (afterAttempts globals).globals,
            global.owner = owner ∧ global.name <:+: script := by
  have valid := valid_afterAttempts globals
  refine ⟨⟨?words, valid.names, valid.owners⟩, afterAttempts_append_singleton globals,
    ⟨?found, ?_, ?_⟩, ?scan⟩
  case words =>
    exact fun global stored => ⟨valid.word global stored, fun _ => isWord_of_mem_indexers stored⟩
  case found =>
    exact fun global stored => ⟨valid.get?_of_mem stored, valid.getByOwner?_of_mem stored⟩
  · exact fun _ => get?_eq_none_iff.mpr
  · exact fun _ => getByOwner?_eq_none_iff.mpr
  case scan =>
    exact fun script => ⟨valid.nodup_dependencies script, dependencies_sublist _ script,
      fun _ => mem_dependencies_iff⟩

/-- A taken name, a taken owner and a name that is no word between two accepted globals. -/
example : (afterAttempts [⟨"head".toList, ⟨"a".toList⟩, []⟩, ⟨"head".toList, ⟨"b".toList⟩, []⟩,
    ⟨"hand".toList, ⟨"a".toList⟩, []⟩, ⟨"".toList, ⟨"c".toList⟩, []⟩,
    ⟨"hand".toList, ⟨"b".toList⟩, ["wave".toList]⟩]).globals.map Global.name =
      ["head".toList, "hand".toList] := by decide

end PluginScript.Registry
