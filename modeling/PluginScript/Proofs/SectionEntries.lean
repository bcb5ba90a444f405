import PluginScript.Proofs.Declarations
import PluginScript.Proofs.FailingSteps
import PluginScript.Table.Printer

/-! # The entries of sections

What the sections of a table come to: the table has one entry for each of them, in their order
(`ofSections_eq_ok_iff`). The entry of a section holds what its lines say, each indexer once, so a
section that can be written down declares an entry that can.
-/

namespace PluginScript

namespace Table

/-! ## Tables of sections -/

theorem ofSections_eq (declared : List Section) :
    ofSections declared = (declared.mapM Section.entry).map Table.mk := by
  rw [ofSections]
  cases declared.mapM Section.entry <;> rfl

/-- The table of sections has their entries, in their order. -/
theorem ofSections_eq_ok_iff {declared : List Section} {table : Table} :
    ofSections declared = .ok table ↔
      List.Forall₂ (fun one entry => one.entry = .ok entry) declared table.entries := by
  obtain ⟨others⟩ := table
  rw [← mapM_eq_ok_iff, ofSections_eq]
  cases declared.mapM Section.entry with
  | error failure => exact ⟨nofun, nofun⟩
  | ok entries => rw [Except.map, Except.ok.injEq, Except.ok.injEq, Table.mk.injEq]

/-! ## What can be written down -/

/-- A draft whose strings have neither quotes nor line breaks. -/
structure Draft.Writable (draft : Draft) : Prop where
  name : ∀ name ∈ draft.name, name.all Token.isContent = true
  methods : ∀ method ∈ draft.methods, method.all Token.isContent = true

private theorem writable_initial : Draft.initial.Writable :=
  ⟨by rintro _ ⟨⟩, by rintro _ ⟨⟩⟩

private theorem writable_of_add {owner : PluginId} {draft next : Draft} {line : Line}
    (writable : draft.Writable) (strings : ∀ content ∈ line.strings, content.all Token.isContent)
    (added : draft.add owner line = .ok next) : next.Writable := by
  cases line with
  | global name =>
    rw [Draft.add] at added
    split at added
    · cases added
    · cases added
      refine ⟨?_, writable.methods⟩
      rintro _ ⟨⟩
      exact strings name List.mem_cons_self
  | indexers methods =>
    cases added
    refine ⟨writable.name, fun method member => ?_⟩
    exact (List.mem_append.mp member).elim (writable.methods method) (strings method)
  | enabled value =>
    cases added
    exact ⟨writable.name, writable.methods⟩

private theorem writable_of_foldlM_add {owner : PluginId} {draft next : Draft} {lines : List Line}
    (writable : draft.Writable)
    (strings : ∀ line ∈ lines, ∀ content ∈ line.strings, content.all Token.isContent)
    (read : lines.foldlM (Draft.add owner) draft = .ok next) : next.Writable := by
  induction lines generalizing draft with
  | nil =>
    cases read
    exact writable
  | cons line lines ih =>
    rw [List.forall_mem_cons] at strings
    rw [List.foldlM_cons] at read
    obtain ⟨between, added, read⟩ := bind_eq_ok read
    exact ih (writable_of_add writable strings.1 added) strings.2 read

/-- A section that can be written down declares an entry that can. -/
theorem Section.Writable.entry {declared : Section} {entry : Entry}
    (writable : declared.Writable) (made : declared.entry = .ok entry) : entry.Writable := by
  obtain ⟨draft, read, made⟩ := bind_eq_ok made
  have drafted := writable_of_foldlM_add writable_initial writable.strings read
  rw [Draft.finish] at made
  split at made
  · cases made
  · rename_i name named
    cases made
    rw [Global.declare_eq]
    exact {
      owner := writable.owner
      name := drafted.name name named
      indexers := fun method member => drafted.methods method (List.mem_eraseDups.mp member)
      distinct := nodup_eraseDups draft.methods }

theorem writable_of_ofSections {declared : List Section} {table : Table}
    (writable : ∀ one ∈ declared, one.Writable) (made : ofSections declared = .ok table) :
    ∀ entry ∈ table.entries, entry.Writable := by
  rw [ofSections_eq_ok_iff] at made
  generalize table.entries = entries at made
  induction made with
  | nil => exact fun _ member => (List.not_mem_nil member).elim
  | cons here _ ih =>
    rw [List.forall_mem_cons] at writable ⊢
    exact ⟨writable.1.entry here, ih writable.2⟩

/-- An entry with each indexer once is what its section declares. -/
theorem entry_toSection {entry : Entry} (distinct : entry.global.indexers.Nodup) :
    entry.toSection.entry = .ok entry := by
  obtain ⟨⟨name, owner, indexers⟩, enabled⟩ := entry
  change Except.ok (Entry.mk (.declare name owner ([] ++ indexers)) enabled) = _
  rw [Global.declare_eq, List.nil_append, eraseDups_of_nodup distinct]

end Table

end PluginScript
