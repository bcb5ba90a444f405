import PluginScript.Proofs.Declarations
import PluginScript.Proofs.Registration

/-! # The patterns of a registry's rules

A script is searched for the patterns of the rules, so a pattern has to tell which method of which
global is meant. The rules of a registry of declared globals see to that: no two of them have the
same pattern, and the pattern of one is the pattern of no other rule at all, registered or not
(`callRules_ofDeclarations`). This takes all three of what keeps repetitions out: a global has each
indexer once (`nodup_indexers`), no two registered globals share a name (`Valid.names`), and names
hold no colon (`CallRule.Named.eq_of_pattern_eq`).
-/

namespace PluginScript.Registry

/-- The registry after attempts to register declared globals, one after the other. -/
def ofDeclarations (declarations : List Declaration) : Registry :=
  afterAttempts (declarations.map Declaration.global)

/-- The registered globals are some of those that attempts were made for, in the same order. -/
theorem globals_afterAttempts_sublist (globals : List Global) :
    (afterAttempts globals).globals.Sublist globals := by
  induction globals using List.reverseRecOn with
  | nil => exact .slnil
  | append_singleton globals global ih =>
    rcases afterAttempts_append_singleton globals global with ⟨-, appended⟩ | ⟨cause, -, same⟩
    · rw [appended]
      exact ih.append (.refl [global])
    · rw [same]
      exact ih.trans (List.sublist_append_left globals [global])

/-- The registered globals are those of some of the declarations, in the same order. -/
private theorem exists_accepted (declarations : List Declaration) :
    ∃ accepted : List Declaration, accepted.Sublist declarations ∧
      (ofDeclarations declarations).globals = accepted.map Declaration.global :=
  List.sublist_map_iff.mp (globals_afterAttempts_sublist (declarations.map Declaration.global))

/-! ## Rules of distinct globals -/

theorem mem_callRules_iff {registry : Registry} {rule : CallRule} :
    rule ∈ registry.callRules ↔
      ∃ global ∈ registry.globals, global.name = rule.global ∧ rule.method ∈ global.indexers := by
  simp only [callRules, Global.callRules, List.mem_flatMap, List.mem_map]
  constructor
  · rintro ⟨global, stored, method, declared, rfl⟩
    exact ⟨global, stored, rfl, declared⟩
  · rintro ⟨global, stored, named, declared⟩
    exact ⟨global, stored, rule.method, declared, by rw [named]⟩

/-- Where names and indexers are distinct, so are the rules. -/
theorem Valid.nodup_callRules {registry : Registry} (valid : registry.Valid)
    (indexers : ∀ global ∈ registry.globals, global.indexers.Nodup) :
    registry.callRules.Nodup := by
  refine List.nodup_flatMap.mpr ⟨fun global stored => ?_, ?_⟩
  · refine (indexers global stored).map fun first second same => ?_
    exact congrArg CallRule.method same
  · refine (List.pairwise_map.mp valid.names).imp fun differ rule first second => ?_
    obtain ⟨method, -, rfl⟩ := List.mem_map.mp first
    obtain ⟨other, -, same⟩ := List.mem_map.mp second
    exact differ (congrArg CallRule.global same).symm

/-- A lookup finds the registered global of the name. -/
theorem Valid.get?_eq_some_iff {registry : Registry} (valid : registry.Valid) {name : Text}
    {global : Global} :
    registry.get? name = some global ↔ global ∈ registry.globals ∧ global.name = name := by
  constructor
  · intro found
    have satisfied := List.find?_some found
    exact ⟨List.mem_of_find?_eq_some found, eq_of_beq satisfied⟩
  · rintro ⟨stored, rfl⟩
    exact valid.get?_of_mem stored

/-! ## Rules of declared globals -/

private theorem nodup_indexers {declarations : List Declaration} :
    ∀ global ∈ (ofDeclarations declarations).globals, global.indexers.Nodup := by
  obtain ⟨accepted, -, registered⟩ := exists_accepted declarations
  rw [registered, List.forall_mem_map]
  intro declaration _
  rw [declaration.global_eq]
  exact nodup_eraseDups declaration.methods

private theorem callRules_eq_flatMap {registry : Registry} {accepted : List Declaration}
    (registered : registry.globals = accepted.map Declaration.global) :
    registry.callRules = accepted.flatMap fun declaration =>
      declaration.methods.eraseDups.map (CallRule.mk declaration.name) := by
  rw [callRules, registered, List.flatMap_map]
  refine List.flatMap_congr fun declaration _ => ?_
  rw [declaration.global_eq, Global.callRules]

/-- The pattern of a rule is the pattern of no other rule. -/
private theorem eq_of_pattern_eq_of_mem {globals : List Global} {rule other : CallRule}
    (member : rule ∈ (afterAttempts globals).callRules) (same : other.pattern = rule.pattern) :
    other = rule :=
  (named_callRules_afterAttempts globals rule member).eq_of_pattern_eq same

/-- The rules of a registry of declared globals. Their patterns are distinct; there is a rule with a
pattern `global:method` exactly if a global of that name is registered and has that indexer; the
rules are in the order of the accepted declarations and, within one, in the order in which its
methods were first declared; and a pattern of a rule tells its global and its method. -/
theorem callRules_ofDeclarations (declarations : List Declaration) :
    ((ofDeclarations declarations).callRules.map CallRule.pattern).Nodup ∧
      (∀ rule : CallRule,
        rule.pattern ∈ (ofDeclarations declarations).callRules.map CallRule.pattern ↔
          ∃ global, (ofDeclarations declarations).get? rule.global = some global ∧
            global.hasIndexer rule.method = true) ∧
      (∃ accepted : List Declaration, accepted.Sublist declarations ∧
        (ofDeclarations declarations).globals = accepted.map Declaration.global ∧
        (ofDeclarations declarations).callRules = accepted.flatMap fun declaration =>
          declaration.methods.eraseDups.map (CallRule.mk declaration.name)) ∧
      ∀ rule ∈ (ofDeclarations declarations).callRules, ∀ other : CallRule,
        other.pattern = rule.pattern → other = rule := by
  have valid : (ofDeclarations declarations).Valid := valid_afterAttempts _
  have unique : ∀ rule ∈ (ofDeclarations declarations).callRules, ∀ other : CallRule,
      other.pattern = rule.pattern → other = rule :=
    fun rule member other => eq_of_pattern_eq_of_mem member
  refine ⟨?distinct, ?present, ?order, unique⟩
  case distinct =>
    exact (valid.nodup_callRules nodup_indexers).map_on fun rule _ other member same =>
      unique other member rule same
  case present =>
    intro rule
    simp only [valid.get?_eq_some_iff, Global.hasIndexer, List.contains_iff_mem, and_assoc]
    rw [← mem_callRules_iff, List.mem_map]
    constructor
    · rintro ⟨found, member, same⟩
      rwa [unique found member rule same.symm]
    · exact fun member => ⟨rule, member, rfl⟩
  case order =>
    obtain ⟨accepted, sublist, registered⟩ := exists_accepted declarations
    exact ⟨accepted, sublist, registered, callRules_eq_flatMap registered⟩

/-- Repeated methods, and a declaration that is rejected for its name. -/
example :
    (ofDeclarations [⟨"pad".toList, ⟨"A".toList⟩, [.indexer "up".toList,
        .indexers ["down".toList, "up".toList], .indexer "down".toList]⟩,
      ⟨"pad".toList, ⟨"B".toList⟩, [.indexer "left".toList]⟩,
      ⟨"p".toList, ⟨"C".toList⟩, [.indexer "up".toList]⟩]).callRules =
    [⟨"pad".toList, "up".toList⟩, ⟨"pad".toList, "down".toList⟩, ⟨"p".toList, "up".toList⟩] := by
  decide

end PluginScript.Registry
