import PluginScript.Table.Section
import PluginScript.Table.Token
import Mathlib.Computability.Language
import Mathlib.Order.CompletePartialOrder

/-! # The token language of plugin tables

Which lists of tokens are plugin tables. The language is given in two ways: as a regular expression
(`Layout.table`), and as all the ways to lay out a given list of sections (`Layout.tableOf`). The
layouts of all lists of sections make up the regular language (`table_eq_iSup`), so that a list of
tokens belongs to it if and only if it says something.
-/

namespace PluginScript.Table.Layout

open scoped Computability
open Token

/-- Line breaks, or none. -/
def breaks : Language Token := {[newline]}∗

/-- A string. -/
def string : Language Token := ⨆ content, {[quoted content]}

/-- A line that names a global. -/
def globalLine : Language Token := {[word "global".toList, mark '=']} * string

/-- A line that declares indexers, with a list of strings that may be empty and may end in one more
comma. -/
def indexersLine : Language Token :=
  {[word "indexers".toList, mark '=', mark '[']} *
    (1 + string * ({[mark ',']} * string)∗ * (1 + {[mark ',']})) * {[mark ']']}

/-- A line that switches a plugin on or off. -/
def enabledLine : Language Token :=
  {[word "enabled".toList, mark '=']} * ({[word "true".toList]} + {[word "false".toList]})

/-- A line of a section. -/
def entry : Language Token := globalLine + indexersLine + enabledLine

/-- The header of a section. -/
def header : Language Token :=
  ⨆ owner, {[mark '[', word "plugins".toList, mark '.', word owner, mark ']']}

/-- A table. -/
def table : Language Token :=
  breaks * (header * ({[newline]} * breaks * entry)∗ * breaks)∗

/-- The ways to write a list of strings between the brackets of a line. -/
def methodsOf : List Text → Language Token
  | [] => 1
  | first :: rest =>
    {[quoted first]} * (rest.map fun method => {[mark ',', quoted method]}).prod *
      (1 + {[mark ',']})

/-- The ways to write a line. -/
def lineOf : Line → Language Token
  | .global name => {[word "global".toList, mark '=', quoted name]}
  | .indexers methods =>
    {[word "indexers".toList, mark '=', mark '[']} * methodsOf methods * {[mark ']']}
  | .enabled true => {[word "enabled".toList, mark '=', word "true".toList]}
  | .enabled false => {[word "enabled".toList, mark '=', word "false".toList]}

/-- The ways to write the lines of a section, each behind line breaks. -/
def linesOf (lines : List Line) : Language Token :=
  (lines.map fun line => {[newline]} * breaks * lineOf line).prod

/-- The ways to write the header of a section. -/
def headerOf (owner : PluginId) : Language Token :=
  {[mark '[', word "plugins".toList, mark '.', word owner.name, mark ']']}

/-- The ways to write a section. -/
def blockOf (declared : Section) : Language Token :=
  headerOf declared.owner * linesOf declared.lines

/-- The ways to write a table with given sections. -/
def tableOf (declared : List Section) : Language Token :=
  breaks * (declared.map fun one => blockOf one * breaks).prod

/-- Texts that each belong to one of many languages, one after the other. -/
theorem iSup_prod_map {α β : Type} (languages : α → Language β) :
    ⨆ values : List α, (values.map languages).prod = (⨆ value, languages value)∗ := by
  ext tokens
  rw [Language.mem_iSup, Language.mem_kstar]
  constructor
  · rintro ⟨values, member⟩
    induction values generalizing tokens with
    | nil => exact ⟨[], member, by simp⟩
    | cons value values ih =>
      rw [List.map_cons, List.prod_cons, Language.mem_mul] at member
      obtain ⟨front, here, back, later, rfl⟩ := member
      obtain ⟨parts, rfl, all⟩ := ih back later
      refine ⟨front :: parts, rfl, List.forall_mem_cons.mpr ⟨?_, all⟩⟩
      exact Language.mem_iSup.mpr ⟨value, here⟩
  · rintro ⟨parts, rfl, all⟩
    induction parts with
    | nil => exact ⟨[], rfl⟩
    | cons part parts ih =>
      rw [List.forall_mem_cons] at all
      obtain ⟨value, here⟩ := Language.mem_iSup.mp all.1
      obtain ⟨values, later⟩ := ih all.2
      exact ⟨value :: values, Language.append_mem_mul here later⟩

theorem singleton_mul_singleton (first second : List Token) :
    ({first} * {second} : Language Token) = {first ++ second} :=
  Set.image2_singleton

private theorem methods_eq_iSup :
    1 + string * ({[mark ',']} * string)∗ * (1 + {[mark ',']}) =
      ⨆ methods, methodsOf methods := by
  have behind :
      {[mark ',']} * string = ⨆ method, ({[mark ',', quoted method]} : Language Token) := by
    simp only [string, Language.mul_iSup, singleton_mul_singleton, List.cons_append,
      List.nil_append]
  rw [behind, ← iSup_prod_map, string]
  simp only [Language.mul_iSup, Language.iSup_mul]
  ext tokens
  simp only [Language.mem_add, Language.mem_iSup]
  constructor
  · rintro (none | ⟨rest, first, member⟩)
    · exact ⟨[], none⟩
    · exact ⟨first :: rest, member⟩
  · rintro ⟨methods, member⟩
    cases methods with
    | nil => exact .inl member
    | cons first rest => exact .inr ⟨rest, first, member⟩

/-- Each line says something, and whatever there is to say has a line. -/
private theorem entry_eq_iSup : entry = ⨆ line, lineOf line := by
  rw [entry, globalLine, indexersLine, enabledLine, methods_eq_iSup, string]
  simp only [Language.mul_iSup, Language.iSup_mul, mul_add, singleton_mul_singleton,
    List.cons_append, List.nil_append]
  ext tokens
  simp only [Language.mem_add, Language.mem_iSup]
  constructor
  · rintro ((⟨name, member⟩ | ⟨methods, member⟩) | member | member)
    · exact ⟨.global name, member⟩
    · exact ⟨.indexers methods, member⟩
    · exact ⟨.enabled true, member⟩
    · exact ⟨.enabled false, member⟩
  · rintro ⟨line, member⟩
    match line with
    | .global name => exact .inl (.inl ⟨name, member⟩)
    | .indexers methods => exact .inl (.inr ⟨methods, member⟩)
    | .enabled true => exact .inr (.inl member)
    | .enabled false => exact .inr (.inr member)

private theorem header_eq_iSup : header = ⨆ owner, headerOf owner := by
  ext tokens
  rw [header, Language.mem_iSup, Language.mem_iSup]
  exact ⟨fun ⟨owner, member⟩ => ⟨⟨owner⟩, member⟩, fun ⟨owner, member⟩ => ⟨owner.name, member⟩⟩

private theorem block_eq_iSup :
    header * ({[newline]} * breaks * entry)∗ * breaks = ⨆ one, blockOf one * breaks := by
  rw [header_eq_iSup, entry_eq_iSup, Language.mul_iSup, ← iSup_prod_map]
  simp only [Language.iSup_mul, Language.mul_iSup]
  ext tokens
  simp only [Language.mem_iSup]
  exact ⟨fun ⟨lines, owner, member⟩ => ⟨⟨owner, lines⟩, member⟩,
    fun ⟨⟨owner, lines⟩, member⟩ => ⟨lines, owner, member⟩⟩

/-- A list of tokens is a table if and only if it is a layout of some sections. -/
theorem table_eq_iSup : table = ⨆ declared, tableOf declared := by
  rw [table, block_eq_iSup, ← iSup_prod_map, Language.mul_iSup]
  rfl

end PluginScript.Table.Layout
