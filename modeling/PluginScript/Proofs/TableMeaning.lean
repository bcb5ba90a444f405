import PluginScript.Proofs.TableRoundTrip
import PluginScript.Table.Meaning

/-! # The meaning of a table

Parsing a table comes to what its sections say. The lines of a section are taken one after the
other, and the draft that comes of them tells of each kind of line for itself (`foldlM_add`). So a
section with one global declares its entry and any other has a flaw (`Section.entry_eq_ok_iff`,
`Section.entry_eq_error_iff`), and a table fails for its first section with a flaw.
-/

namespace PluginScript.Table

/-! ## The lines of a section -/

/-- The draft that lines come to, or the complaint about a second global. -/
private theorem foldlM_add (owner : PluginId) (draft : Draft) (lines : List Line) :
    lines.foldlM (Draft.add owner) draft =
      if 1 < (draft.name.toList ++ lines.filterMap Line.global?).length then
        .error (.repeatedGlobal owner)
      else
        .ok {
          name := (draft.name.toList ++ lines.filterMap Line.global?).head?
          methods := draft.methods ++ (lines.filterMap Line.methods?).flatten
          enabled := (lines.filterMap Line.enabled?).getLast?.getD draft.enabled } := by
  induction lines generalizing draft with
  | nil =>
    obtain ⟨name, methods, enabled⟩ := draft
    cases name <;> simp [pure, Except.pure]
  | cons line lines ih =>
    rw [List.foldlM_cons]
    cases line with
    | global name =>
      cases known : draft.name with
      | none =>
        have added : draft.add owner (.global name) = .ok { draft with name := some name } := by
          rw [Draft.add, known]
        rw [added]
        exact ih { draft with name := some name }
      | some first =>
        have added : draft.add owner (.global name) = .error (.repeatedGlobal owner) := by
          rw [Draft.add, known]
        have several : 1 < (first :: name :: lines.filterMap Line.global?).length := by simp
        rw [added]
        exact (if_pos several).symm
    | indexers methods =>
      have behind := ih { draft with methods := draft.methods ++ methods }
      rw [List.append_assoc] at behind
      exact behind
    | enabled value =>
      have last : ((Line.enabled value :: lines).filterMap Line.enabled?).getLast? =
          some ((lines.filterMap Line.enabled?).getLast?.getD value) := List.getLast?_cons
      rw [last]
      exact ih { draft with enabled := value }

namespace Section

/-- What a section comes to, by the number of its global lines. -/
theorem entry_eq (declared : Section) :
    declared.entry =
      match declared.names with
      | [] => .error (.missingGlobal declared.owner)
      | [name] => .ok ⟨⟨name, declared.owner, declared.methodLists.flatten.eraseDups⟩,
          declared.switches.getLast?.getD true⟩
      | _ :: _ :: _ => .error (.repeatedGlobal declared.owner) := by
  have drafted : declared.lines.foldlM (Draft.add declared.owner) .initial =
      if 1 < declared.names.length then .error (.repeatedGlobal declared.owner)
      else .ok ⟨declared.names.head?, declared.methodLists.flatten,
        declared.switches.getLast?.getD true⟩ :=
    foldlM_add declared.owner .initial declared.lines
  rw [entry, drafted]
  rcases declared.names with _ | ⟨name, _ | ⟨second, names⟩⟩
  · rfl
  · exact congrArg (fun global => Except.ok (Entry.mk global _)) (Global.declare_eq _ _ _)
  · rw [if_pos (by simp)]
    rfl

/-- A section declares an entry exactly if that is what it comes to. -/
theorem entry_eq_ok_iff {declared : Section} {entry : Entry} :
    declared.entry = .ok entry ↔ declared.Declares entry := by
  obtain ⟨⟨name, owner, methods⟩, enabled⟩ := entry
  rw [entry_eq]
  constructor
  · intro made
    split at made
    case h_2 first names =>
      cases made
      exact ⟨rfl, names, rfl, rfl⟩
    all_goals cases made
  · rintro ⟨rfl, names, rfl, rfl⟩
    rw [names]

/-- A section has a flaw exactly if it fails for it. -/
theorem entry_eq_error_iff {declared : Section} {failure : Failure} :
    declared.entry = .error failure ↔ declared.Flaw failure := by
  rw [entry_eq]
  constructor
  · intro failed
    split at failed
    case h_1 names =>
      cases failed
      exact .missing names
    case h_2 => cases failed
    case h_3 first second others names =>
      cases failed
      exact .repeated (by rw [names]; simp)
  · rintro (names | several)
    · rw [names]
    · rcases names : declared.names with _ | ⟨first, _ | ⟨second, others⟩⟩
      · rw [names] at several
        cases several
      · rw [names] at several
        exact absurd several (lt_irrefl 1)
      · rfl

/-- A section declares an entry exactly if it has one global line. -/
theorem exists_declares_iff {declared : Section} :
    (∃ entry, declared.Declares entry) ↔ declared.names.length = 1 := by
  rw [List.length_eq_one_iff]
  constructor
  · rintro ⟨entry, -, names, -, -⟩
    exact ⟨entry.global.name, names⟩
  · rintro ⟨name, names⟩
    exact ⟨⟨⟨name, declared.owner, declared.methodLists.flatten.eraseDups⟩,
      declared.switches.getLast?.getD true⟩, rfl, names, rfl, rfl⟩

/-- How the flaw of a section is reported. -/
theorem Flaw.report {declared : Section} {failure : Failure} (flaw : declared.Flaw failure) :
    failure.category = .registration ∧
      failure.message = "plugin registration error: ".toList ++
        ((if declared.names = [] then "missing 'global' key for ".toList
          else "duplicate 'global' key for ".toList) ++ declared.owner.name) := by
  cases flaw with
  | missing none =>
    rw [if_pos none]
    exact ⟨rfl, rfl⟩
  | repeated several =>
    rw [if_neg (List.ne_nil_of_length_pos (Nat.zero_lt_of_lt several))]
    exact ⟨rfl, rfl⟩

end Section

/-! ## The order of the lines -/

/-- Values in another order are the same ones if there is nothing to be reordered. -/
private theorem eq_of_perm {α : Type} {first second : List α} (perm : first.Perm second)
    (several : 1 < second.length → first = second) : first = second := by
  rcases second with _ | ⟨value, _ | ⟨other, values⟩⟩
  · exact perm.eq_nil
  · exact perm.eq_singleton
  · exact several (by simp)

namespace Section.Rearranged

variable {declared other : Section}

theorem declares {entry : Entry} (rearranged : declared.Rearranged other)
    (declares : declared.Declares entry) : other.Declares entry where
  owner := declares.owner.trans rearranged.owner.symm
  name := by
    have names : other.names.Perm declared.names := rearranged.lines.filterMap Line.global?
    rw [declares.name] at names
    exact names.eq_singleton
  indexers := by
    have lists : other.methodLists = declared.methodLists :=
      eq_of_perm (rearranged.lines.filterMap Line.methods?) rearranged.methodLists
    rw [declares.indexers, lists]
  enabled := by
    have values : other.switches = declared.switches :=
      eq_of_perm (rearranged.lines.filterMap Line.enabled?) rearranged.switches
    rw [declares.enabled, values]

theorem flaw {failure : Failure} (rearranged : declared.Rearranged other)
    (flaw : declared.Flaw failure) : other.Flaw failure := by
  have names : other.names.Perm declared.names := rearranged.lines.filterMap Line.global?
  cases flaw with
  | missing none =>
    rw [none] at names
    rw [← rearranged.owner]
    exact .missing names.eq_nil
  | repeated several =>
    rw [← names.length_eq] at several
    rw [← rearranged.owner]
    exact .repeated several

/-- Another order of the lines comes to the same. -/
theorem entry_eq (rearranged : declared.Rearranged other) : other.entry = declared.entry := by
  cases outcome : declared.entry with
  | ok entry => exact entry_eq_ok_iff.mpr (rearranged.declares (entry_eq_ok_iff.mp outcome))
  | error failure =>
    exact entry_eq_error_iff.mpr (rearranged.flaw (entry_eq_error_iff.mp outcome))

theorem writable (rearranged : declared.Rearranged other) (writable : declared.Writable) :
    other.Writable where
  owner := rearranged.owner ▸ writable.owner
  strings line member := writable.strings line (rearranged.lines.mem_iff.mp member)

end Section.Rearranged

/-! ## Tables -/

/-- The first section with a flaw is reported. -/
theorem ofSections_eq_error_iff {declared : List Section} {failure : Failure} :
    ofSections declared = .error failure ↔
      ∃ front one back, declared = front ++ one :: back ∧
        (∀ other ∈ front, other.names.length = 1) ∧ one.Flaw failure := by
  simp only [← Section.exists_declares_iff, ← Section.entry_eq_ok_iff, ← Section.entry_eq_error_iff]
  rw [← mapM_eq_error_iff, ofSections_eq]
  cases declared.mapM Section.entry with
  | error other => rw [Except.map, Except.error.injEq, Except.error.injEq]
  | ok entries => exact ⟨nofun, nofun⟩

/-- Sections that make no table fail at registration. -/
theorem category_of_ofSections {declared : List Section} {failure : Failure}
    (failed : ofSections declared = .error failure) : failure.category = .registration := by
  obtain ⟨_, one, _, -, -, flaw⟩ := ofSections_eq_error_iff.mp failed
  exact flaw.report.1

/-- Sections make a table exactly if each of them has one global line. -/
theorem exists_ofSections_eq_ok_iff {declared : List Section} :
    (∃ table, ofSections declared = .ok table) ↔ ∀ one ∈ declared, one.names.length = 1 := by
  simp only [← Section.exists_declares_iff, ← Section.entry_eq_ok_iff]
  rw [← exists_mapM_eq_ok_iff, ofSections_eq]
  cases declared.mapM Section.entry with
  | error other => exact ⟨nofun, nofun⟩
  | ok entries => exact ⟨fun _ => ⟨entries, rfl⟩, fun _ => ⟨⟨entries⟩, rfl⟩⟩

/-- Sections with their lines in another order make the same table. -/
theorem ofSections_eq_of_rearranged {declared others : List Section}
    (rearranged : List.Forall₂ Section.Rearranged declared others) :
    ofSections others = ofSections declared := by
  rw [ofSections_eq, ofSections_eq]
  congr 1
  induction rearranged with
  | nil => rfl
  | cons here _ ih => rw [List.mapM_cons, List.mapM_cons, here.entry_eq, ih]

private theorem writable_of_rearranged {declared others : List Section}
    (rearranged : List.Forall₂ Section.Rearranged declared others)
    (writable : ∀ one ∈ declared, one.Writable) : ∀ one ∈ others, one.Writable := by
  induction rearranged with
  | nil => exact writable
  | cons here _ ih =>
    rw [List.forall_mem_cons] at writable ⊢
    exact ⟨here.writable writable.1, ih writable.2⟩

/-! ## Texts -/

theorem LaysOut.accepted {text : Text} {declared : List Section} (laysOut : LaysOut text declared) :
    ∃ nodes, Peg.parse Grammar.table text = .ok nodes := by
  have split := sections_eq_ok_iff.mpr laysOut
  rw [sections] at split
  split at split
  case h_1 nodes accepted => exact ⟨nodes, accepted⟩
  case h_2 => cases split

theorem LaysOut.parse_eq {text : Text} {declared : List Section} (laysOut : LaysOut text declared) :
    parse text = ofSections declared := by
  rw [parse, sections_eq_ok_iff.mpr laysOut]
  rfl

/-- What an accepted text says as a plugin table. It lays out just one list of sections. Each of
them has to have one global line; the first one that has not is reported, and otherwise the entries
are those that the sections declare. So it does not matter in which order the lines stand. -/
theorem parse_outcome {text : Text} {nodes : List (Peg.Node Rule)}
    (accepted : Peg.parse Grammar.table text = .ok nodes) :
    ∃ declared, (∀ other, LaysOut text other ↔ other = declared) ∧
      ((∃ table, parse text = .ok table) ↔ ∀ one ∈ declared, one.names.length = 1) ∧
      (∀ table, parse text = .ok table ↔
        List.Forall₂ Section.Declares declared table.entries) ∧
      (∀ failure, parse text = .error failure ↔
        ∃ front one back, declared = front ++ one :: back ∧
          (∀ other ∈ front, other.names.length = 1) ∧ one.Flaw failure) ∧
      (∀ one ∈ declared, ∀ failure, one.Flaw failure →
        failure.category = .registration ∧
          failure.message = "plugin registration error: ".toList ++
            ((if one.names = [] then "missing 'global' key for ".toList
              else "duplicate 'global' key for ".toList) ++ one.owner.name)) ∧
      ∀ others, List.Forall₂ Section.Rearranged declared others →
        LaysOut (printSections others) others ∧
          ∀ text', LaysOut text' others → parse text' = parse text := by
  have split : sections text = .ok (Section.ofNodes nodes) := by rw [sections, accepted]
  have laysOut : LaysOut text (Section.ofNodes nodes) := sections_eq_ok_iff.mp split
  refine ⟨Section.ofNodes nodes, ?unique, ?succeeds, ?entries, ?fails, ?report, ?order⟩
  case unique =>
    intro other
    rw [LaysOut, ← sections_eq_ok_iff, split, Except.ok.injEq, eq_comm]
  case succeeds => rw [laysOut.parse_eq, exists_ofSections_eq_ok_iff]
  case entries =>
    intro table
    simp only [laysOut.parse_eq, ofSections_eq_ok_iff, Section.entry_eq_ok_iff]
  case fails =>
    intro failure
    rw [laysOut.parse_eq, ofSections_eq_error_iff]
  case report => exact fun one _ failure flaw => flaw.report
  case order =>
    intro others rearranged
    constructor
    · have writable := writable_of_rearranged rearranged (writable_of_sections split)
      exact sections_eq_ok_iff.mp (sections_printSections writable)
    · intro text' laysOut'
      rw [laysOut'.parse_eq, laysOut.parse_eq, ofSections_eq_of_rearranged rearranged]

/-- A section with two indexers lines and two enabled lines around its global. -/
theorem parse_outcome_mixed :
    (∃ nodes, Peg.parse Grammar.table ("[plugins.a]\nenabled = true\nindexers = [\"u\", \"v\"]\n" ++
        "global = \"x\"\nenabled = false\nindexers = [\"v\"]").toList = .ok nodes) ∧
      parse ("[plugins.a]\nenabled = true\nindexers = [\"u\", \"v\"]\n" ++
          "global = \"x\"\nenabled = false\nindexers = [\"v\"]").toList =
        .ok ⟨[⟨⟨"x".toList, ⟨"a".toList⟩, ["u".toList, "v".toList]⟩, false⟩]⟩ := by
  have laysOut : LaysOut ("[plugins.a]\nenabled = true\nindexers = [\"u\", \"v\"]\n" ++
        "global = \"x\"\nenabled = false\nindexers = [\"v\"]").toList
      [⟨⟨"a".toList⟩, [.enabled true, .indexers ["u".toList, "v".toList], .global "x".toList,
        .enabled false, .indexers ["v".toList]]⟩] :=
    sections_eq_ok_iff.mp (toOption_eq_some_iff.mp (by decide +kernel))
  obtain ⟨nodes, accepted⟩ := laysOut.accepted
  obtain ⟨declared, unique, -, entries, -⟩ := parse_outcome accepted
  obtain rfl := (unique _).mp laysOut
  exact ⟨⟨nodes, accepted⟩, (entries _).mpr (.cons ⟨rfl, rfl, by decide, rfl⟩ .nil)⟩

end PluginScript.Table
