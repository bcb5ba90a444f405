import Mathlib.Data.List.Forall2

/-! # Steps that may fail

A sequence of steps succeeds if every step does, and otherwise fails as its first failing step. The
first element with something to be said about it and those in front of it is the head of a list or
the first one behind it (`exists_split_cons_iff`).
-/

namespace PluginScript

variable {α β ε : Type}

theorem bind_eq_error {first : Except ε α} {next : α → Except ε β} {failure : ε}
    (failed : first >>= next = .error failure) :
    first = .error failure ∨ ∃ value, first = .ok value ∧ next value = .error failure := by
  cases first with
  | error other =>
    cases failed
    exact .inl rfl
  | ok value => exact .inr ⟨value, rfl, failed⟩

theorem bind_eq_ok {first : Except ε α} {next : α → Except ε β} {result : β}
    (succeeded : first >>= next = .ok result) :
    ∃ value, first = .ok value ∧ next value = .ok result := by
  cases first with
  | error other => cases succeeded
  | ok value => exact ⟨value, rfl, succeeded⟩

theorem toOption_eq_some_iff {outcome : Except ε α} {value : α} :
    outcome.toOption = some value ↔ outcome = .ok value := by
  cases outcome with
  | error failure => exact ⟨nofun, nofun⟩
  | ok other => exact ⟨fun same => congrArg Except.ok (Option.some.inj same), fun | rfl => rfl⟩

/-! ## The first of its kind -/

theorem exists_split_nil_iff {holds : List α → α → Prop} :
    (∃ front value back, [] = front ++ value :: back ∧ holds front value) ↔ False := by
  refine iff_false_intro ?_
  rintro ⟨front, value, back, split, -⟩
  cases (List.nil_eq_append_iff.mp split).2

/-- An element behind a front part of a list is its head, or stands behind the head. -/
theorem exists_split_cons_iff {holds : List α → α → Prop} {first : α} {rest : List α} :
    (∃ front value back, first :: rest = front ++ value :: back ∧ holds front value) ↔
      holds [] first ∨
        ∃ front value back, rest = front ++ value :: back ∧ holds (first :: front) value := by
  constructor
  · rintro ⟨_ | ⟨other, front⟩, value, back, split, here⟩
    · cases split
      exact .inl here
    · cases split
      exact .inr ⟨front, value, back, rfl, here⟩
  · rintro (here | ⟨front, value, back, rfl, here⟩)
    · exact ⟨[], first, rest, rfl, here⟩
    · exact ⟨first :: front, value, back, rfl, here⟩

/-! ## Sequences of steps -/

theorem mapM_eq_ok_iff {step : α → Except ε β} {values : List α} {results : List β} :
    values.mapM step = .ok results ↔
      List.Forall₂ (fun value result => step value = .ok result) values results := by
  induction values generalizing results with
  | nil =>
    rw [List.mapM_nil, List.forall₂_nil_left_iff]
    exact ⟨fun same => (Except.ok.inj same).symm, fun same => congrArg Except.ok same.symm⟩
  | cons value values ih =>
    rw [List.mapM_cons, List.forall₂_cons_left_iff]
    constructor
    · intro succeeded
      obtain ⟨result, here, succeeded⟩ := bind_eq_ok succeeded
      obtain ⟨others, later, same⟩ := bind_eq_ok succeeded
      cases same
      exact ⟨result, others, here, ih.mp later, rfl⟩
    · rintro ⟨result, others, here, later, rfl⟩
      rw [here, ih.mpr later]
      rfl

/-- A sequence of steps fails at the first one that does. -/
theorem mapM_eq_error_iff {step : α → Except ε β} {values : List α} {failure : ε} :
    values.mapM step = .error failure ↔
      ∃ front value back, values = front ++ value :: back ∧
        (∀ other ∈ front, ∃ result, step other = .ok result) ∧ step value = .error failure := by
  induction values with
  | nil => exact ⟨nofun, fun found => (exists_split_nil_iff.mp found).elim⟩
  | cons first values ih =>
    rw [List.mapM_cons, exists_split_cons_iff]
    simp only [List.forall_mem_cons, and_assoc]
    cases outcome : step first with
    | error other =>
      constructor
      · rintro ⟨⟩
        exact .inl ⟨nofun, rfl⟩
      · rintro (⟨-, failed⟩ | ⟨_, _, _, -, ⟨_, ⟨⟩⟩, -⟩)
        cases failed
        rfl
    | ok result =>
      change (values.mapM step >>= fun results => .ok (result :: results)) = _ ↔ _
      constructor
      · intro failed
        obtain failed | ⟨_, -, ⟨⟩⟩ := bind_eq_error failed
        obtain ⟨front, value, back, split, before, failed⟩ := ih.mp failed
        exact .inr ⟨front, value, back, split, ⟨result, rfl⟩, before, failed⟩
      · rintro (⟨-, ⟨⟩⟩ | ⟨front, value, back, split, -, before, failed⟩)
        rw [ih.mpr ⟨front, value, back, split, before, failed⟩]
        rfl

theorem exists_mapM_eq_ok_iff {step : α → Except ε β} {values : List α} :
    (∃ results, values.mapM step = .ok results) ↔
      ∀ value ∈ values, ∃ result, step value = .ok result := by
  constructor
  · rintro ⟨results, succeeded⟩
    rw [mapM_eq_ok_iff] at succeeded
    induction succeeded with
    | nil => exact fun _ member => (List.not_mem_nil member).elim
    | cons here _ ih => exact List.forall_mem_cons.mpr ⟨⟨_, here⟩, ih⟩
  · intro each
    cases outcome : values.mapM step with
    | ok results => exact ⟨results, rfl⟩
    | error failure =>
      obtain ⟨front, value, back, rfl, -, failed⟩ := mapM_eq_error_iff.mp outcome
      obtain ⟨result, succeeded⟩ := each value (List.mem_append_right _ List.mem_cons_self)
      cases failed.symm.trans succeeded

end PluginScript
