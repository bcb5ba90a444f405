import PluginScript.Proofs.FailingSteps
import PluginScript.Proofs.RegistryRuns
import PluginScript.Registry.Acceptance

/-! # Registering a list of globals

A registry is made of a list of globals if and only if the list is acceptable, and then holds just
that list (`registerAll_eq_ok_iff`). Otherwise the first global with a fault is rejected, for that
fault (`registerAll_eq_error_iff`). The invariant of both inductions is that the globals registered
so far are acceptable; one more global keeps it exactly if it has no fault
(`acceptable_concat_iff`).
-/

namespace PluginScript.Registry

/-! ## Acceptable lists -/

/-- Any of the globals can be left out. -/
theorem Acceptable.sublist {part globals : List Global} (acceptable : Acceptable globals)
    (sublist : part.Sublist globals) : Acceptable part where
  wellNamed global member := acceptable.wellNamed global (sublist.subset member)
  names := acceptable.names.sublist (sublist.map Global.name)
  owners := acceptable.owners.sublist (sublist.map Global.owner)

/-- The order of the globals does not matter. -/
theorem Acceptable.perm {first second : List Global} (acceptable : Acceptable first)
    (perm : first.Perm second) : Acceptable second where
  wellNamed global member := acceptable.wellNamed global (perm.mem_iff.mpr member)
  names := (perm.map Global.name).nodup_iff.mp acceptable.names
  owners := (perm.map Global.owner).nodup_iff.mp acceptable.owners

private theorem acceptable_nil : Acceptable [] :=
  ⟨fun _ member => (List.not_mem_nil member).elim, List.nodup_nil, List.nodup_nil⟩

/-- A registry accepts one more global exactly if it is acceptable with the ones that are there. -/
private theorem acceptable_concat_iff {registry : Registry} {global : Global} :
    Acceptable (registry.globals ++ [global]) ↔
      Acceptable registry.globals ∧ registry.rejection? global = none := by
  rw [rejection?_eq_none_iff, get?_eq_none_iff, getByOwner?_eq_none_iff]
  constructor
  · intro acceptable
    have names := acceptable.names
    have owners := acceptable.owners
    rw [List.map_append, List.map_singleton, List.nodup_append_comm, List.singleton_append,
      List.nodup_cons] at names owners
    have wellNamed := acceptable.wellNamed global List.mem_concat_self
    exact ⟨acceptable.sublist (List.sublist_append_left _ _), wellNamed.name, wellNamed.indexers,
      names.1, owners.1⟩
  · rintro ⟨acceptable, name, indexers, nameFree, ownerFree⟩
    constructor
    case wellNamed =>
      rw [List.forall_mem_append, List.forall_mem_singleton]
      exact ⟨acceptable.wellNamed, name, indexers⟩
    case names =>
      rw [List.map_append, List.map_singleton, ← List.concat_eq_append]
      exact acceptable.names.concat nameFree
    case owners =>
      rw [List.map_append, List.map_singleton, ← List.concat_eq_append]
      exact acceptable.owners.concat ownerFree

/-! ## Faults -/

/-- The first indexer that is no word. -/
private theorem find?_noWord_eq_some_iff {methods : List Text} {method : Text} :
    (methods.find? fun other => !other.isWord) = some method ↔
      ∃ front back, methods = front ++ method :: back ∧
        (∀ other ∈ front, other.isWord = true) ∧ method.isWord = false := by
  simp only [List.find?_eq_some_iff_append, Bool.not_eq_true', Bool.not_not]
  constructor
  · rintro ⟨noWord, front, back, split, words⟩
    exact ⟨front, back, split, words, noWord⟩
  · rintro ⟨front, back, split, words, noWord⟩
    exact ⟨noWord, front, back, split, words⟩

theorem isSome_get?_iff {registry : Registry} {name : Text} :
    (registry.get? name).isSome = true ↔ name ∈ registry.globals.map Global.name := by
  rw [Option.isSome_iff_ne_none, Ne, get?_eq_none_iff, not_not]

theorem isSome_getByOwner?_iff {registry : Registry} {owner : PluginId} :
    (registry.getByOwner? owner).isSome = true ↔ owner ∈ registry.globals.map Global.owner := by
  rw [Option.isSome_iff_ne_none, Ne, getByOwner?_eq_none_iff, not_not]

/-- Where the names of a global are words, only clashes are left to be found. -/
private theorem rejection?_of_wellNamed {registry : Registry} {global : Global}
    (wellNamed : global.WellNamed) : registry.rejection? global =
      if (registry.get? global.name).isSome then some (.nameTaken global.name)
      else if (registry.getByOwner? global.owner).isSome then some (.ownerTaken global.owner)
      else none := by
  have words : (global.indexers.find? fun method => !method.isWord) = none := by
    rw [List.find?_eq_none]
    intro method declared
    rw [wellNamed.indexers method declared]
    decide
  simp only [rejection?, wellNamed.name, words, Bool.not_true, Bool.false_eq_true, if_false]

/-- A registry rejects a global for its fault behind the registered ones. -/
theorem rejection?_eq_some_iff {registry : Registry} {global : Global} {cause : Rejection} :
    registry.rejection? global = some cause ↔ Fault registry.globals global cause := by
  constructor
  · intro rejected
    by_cases word : global.name.isWord = true
    case neg =>
      rw [Bool.not_eq_true] at word
      rw [rejection?, word] at rejected
      cases rejected
      exact .invalidName word
    cases found : global.indexers.find? fun method => !method.isWord with
    | some method =>
      simp only [rejection?, word, found, Bool.not_true, Bool.false_eq_true, if_false] at rejected
      cases rejected
      obtain ⟨front, back, split, words, noWord⟩ := find?_noWord_eq_some_iff.mp found
      exact .invalidIndexer front method back word split words noWord
    | none =>
      have wellNamed : global.WellNamed := ⟨word, by simpa using found⟩
      rw [rejection?_of_wellNamed wellNamed] at rejected
      split_ifs at rejected with nameTaken ownerTaken
      · cases rejected
        exact .nameTaken wellNamed (isSome_get?_iff.mp nameTaken)
      · cases rejected
        exact .ownerTaken wellNamed (nameTaken ∘ isSome_get?_iff.mpr)
          (isSome_getByOwner?_iff.mp ownerTaken)
  · intro fault
    cases fault with
    | invalidName noWord =>
      rw [rejection?, noWord]
      rfl
    | invalidIndexer front method back word split words noWord =>
      have found := find?_noWord_eq_some_iff.mpr ⟨front, back, split, words, noWord⟩
      simp only [rejection?, word, found, Bool.not_true, Bool.false_eq_true, if_false]
    | nameTaken wellNamed taken =>
      rw [rejection?_of_wellNamed wellNamed, if_pos (isSome_get?_iff.mpr taken)]
    | ownerTaken wellNamed free taken =>
      rw [rejection?_of_wellNamed wellNamed, if_neg (free ∘ isSome_get?_iff.mp),
        if_pos (isSome_getByOwner?_iff.mpr taken)]

/-! ## Registering one by one -/

private theorem registerAll_cons (registry : Registry) (global : Global) (globals : List Global) :
    registry.registerAll (global :: globals) =
      match registry.rejection? global with
      | some cause => .error cause
      | none => registerAll ⟨registry.globals ++ [global]⟩ globals := by
  rw [registerAll, List.foldlM_cons, register]
  cases registry.rejection? global <;> rfl

/-- More globals are registered exactly if they are acceptable with the ones that are there. -/
theorem registerAll_eq_ok_iff {registry next : Registry} {globals : List Global}
    (start : Acceptable registry.globals) :
    registry.registerAll globals = .ok next ↔
      next.globals = registry.globals ++ globals ∧ Acceptable (registry.globals ++ globals) := by
  induction globals generalizing registry with
  | nil =>
    obtain ⟨there⟩ := registry
    obtain ⟨result⟩ := next
    change Except.ok (Registry.mk there) = .ok ⟨result⟩ ↔ _
    rw [List.append_nil, and_iff_left start, Except.ok.injEq, Registry.mk.injEq, eq_comm]
  | cons global globals ih =>
    have concat : registry.globals ++ global :: globals =
        registry.globals ++ [global] ++ globals := List.append_cons _ _ _
    rw [registerAll_cons, concat]
    cases rejected : registry.rejection? global with
    | none => exact ih (acceptable_concat_iff.mpr ⟨start, rejected⟩)
    | some cause =>
      apply iff_of_false nofun
      rintro ⟨-, acceptable⟩
      have accepted := acceptable_concat_iff.mp
        (acceptable.sublist (List.sublist_append_left _ globals))
      cases rejected.symm.trans accepted.2

/-- Registering fails for the first global with a fault. -/
theorem registerAll_eq_error_iff {registry : Registry} {globals : List Global} {cause : Rejection}
    (start : Acceptable registry.globals) :
    registry.registerAll globals = .error cause ↔
      ∃ front global back, globals = front ++ global :: back ∧
        Acceptable (registry.globals ++ front) ∧
        Fault (registry.globals ++ front) global cause := by
  induction globals generalizing registry with
  | nil => exact ⟨nofun, fun found => (exists_split_nil_iff.mp found).elim⟩
  | cons first globals ih =>
    rw [registerAll_cons, exists_split_cons_iff, List.append_nil, and_iff_right start,
      ← rejection?_eq_some_iff]
    cases rejected : registry.rejection? first with
    | none =>
      have behind := ih (acceptable_concat_iff.mpr ⟨start, rejected⟩)
      simp only [List.append_assoc, List.singleton_append] at behind
      rw [or_iff_right (nomatch ·), behind]
    | some reason =>
      rw [Except.error.injEq, Option.some.injEq, or_iff_left]
      rintro ⟨front, global, back, -, acceptable, -⟩
      rw [List.append_cons] at acceptable
      have accepted := acceptable_concat_iff.mp
        (acceptable.sublist (List.sublist_append_left _ front))
      cases rejected.symm.trans accepted.2

theorem ofGlobals_eq_ok_iff {globals : List Global} {registry : Registry} :
    ofGlobals globals = .ok registry ↔ registry.globals = globals ∧ Acceptable globals :=
  registerAll_eq_ok_iff acceptable_nil

/-- The rules of a registry that is made of a list are named. -/
theorem named_callRules_ofGlobals {globals : List Global} {registry : Registry}
    (made : ofGlobals globals = .ok registry) : ∀ rule ∈ registry.callRules, rule.Named := by
  obtain ⟨rfl, acceptable⟩ := ofGlobals_eq_ok_iff.mp made
  intro rule member
  obtain ⟨global, stored, declared⟩ := List.mem_flatMap.mp member
  obtain ⟨method, isIndexer, rfl⟩ := List.mem_map.mp declared
  have wellNamed := acceptable.wellNamed global stored
  exact ⟨wellNamed.name, wellNamed.indexers method isIndexer⟩

theorem exists_ofGlobals_eq_ok_iff {globals : List Global} :
    (∃ registry, ofGlobals globals = .ok registry) ↔ Acceptable globals := by
  simp only [ofGlobals_eq_ok_iff]
  exact ⟨fun ⟨_, _, acceptable⟩ => acceptable, fun acceptable => ⟨⟨globals⟩, rfl, acceptable⟩⟩

/-- What comes of a list of globals. They make a registry exactly if they are acceptable, and it
holds the list itself; so neither another order nor leaving some out makes a registry impossible.
Otherwise the first global that is invalid or clashes with an earlier one tells the cause. -/
theorem ofGlobals_outcome (globals : List Global) :
    (∀ registry, ofGlobals globals = .ok registry ↔
        registry.globals = globals ∧ Acceptable globals) ∧
      (∀ other, other.Perm globals →
        ((∃ registry, ofGlobals other = .ok registry) ↔
          ∃ registry, ofGlobals globals = .ok registry)) ∧
      (∀ part, part.Sublist globals → (∃ registry, ofGlobals globals = .ok registry) →
        ofGlobals part = .ok ⟨part⟩) ∧
      ∀ cause, ofGlobals globals = .error cause ↔
        ∃ front global back, globals = front ++ global :: back ∧ Acceptable front ∧
          Fault front global cause := by
  refine ⟨fun _ => ofGlobals_eq_ok_iff, ?order, ?part,
    fun _ => registerAll_eq_error_iff acceptable_nil⟩
  case order =>
    intro other perm
    rw [exists_ofGlobals_eq_ok_iff, exists_ofGlobals_eq_ok_iff]
    exact ⟨fun acceptable => acceptable.perm perm, fun acceptable => acceptable.perm perm.symm⟩
  case part =>
    intro part sublist made
    have acceptable := exists_ofGlobals_eq_ok_iff.mp made
    exact ofGlobals_eq_ok_iff.mpr ⟨rfl, acceptable.sublist sublist⟩

/-- Two globals in the other order; and a second global with a taken owner, in front of one that is
worse but comes later. -/
theorem ofGlobals_outcome_swapped :
    (∃ registry, ofGlobals [⟨"hand".toList, ⟨"b".toList⟩, []⟩,
        ⟨"head".toList, ⟨"a".toList⟩, ["turn".toList]⟩] = .ok registry) ∧
      ofGlobals [⟨"head".toList, ⟨"a".toList⟩, ["turn".toList]⟩,
          ⟨"hand".toList, ⟨"a".toList⟩, []⟩, ⟨"".toList, ⟨"a".toList⟩, ["".toList]⟩] =
        .error (.ownerTaken ⟨"a".toList⟩) := by
  constructor
  · have made : ∃ registry, ofGlobals [⟨"head".toList, ⟨"a".toList⟩, ["turn".toList]⟩,
        ⟨"hand".toList, ⟨"b".toList⟩, []⟩] = .ok registry := ⟨⟨_⟩, rfl⟩
    exact ((ofGlobals_outcome _).2.1 _ (.swap _ _ [])).mpr made
  · have front : Acceptable [⟨"head".toList, ⟨"a".toList⟩, ["turn".toList]⟩] :=
      exists_ofGlobals_eq_ok_iff.mp ⟨⟨_⟩, rfl⟩
    exact ((ofGlobals_outcome _).2.2.2 _).mpr ⟨_, _, _, rfl, front,
      .ownerTaken ⟨rfl, fun _ member => (List.not_mem_nil member).elim⟩ (by decide) (by decide)⟩

end PluginScript.Registry
