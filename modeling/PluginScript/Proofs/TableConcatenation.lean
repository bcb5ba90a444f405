import PluginScript.Proofs.Relayout

/-! # Tables written one behind the other

Behind a table and a line feed another table may stand: the sections of both texts are the sections
of the joined text (`sections_append`), and so its entries are those of both (`parse_append`). The
last section of the first table takes nothing of what follows. That is seen on the tokens: at the
line feed the joined text may be cut, and in the layout of a table a line break may stand behind the
last section as well as in front of the first one.
-/

namespace PluginScript.Table

open Token Layout
open scoped Computability

/-- A layout of sections, a line break and a layout of more sections lay out all of them. -/
private theorem append_newline_mem_tableOf {declared declared' : List Section}
    {before behind : List Token}
    (member : before ∈ tableOf declared) (member' : behind ∈ tableOf declared') :
    before ++ newline :: behind ∈ tableOf (declared ++ declared') := by
  obtain ⟨breaksBefore, front, parts, there, rfl⟩ := Language.mem_mul.mp member'
  have split : tableOf (declared ++ declared') =
      tableOf declared * breaks * (declared'.map fun one => blockOf one * breaks).prod := by
    rw [tableOf_mul_breaks, tableOf, tableOf, List.map_append, List.prod_append, mul_assoc]
  rw [split, ← List.cons_append, ← List.append_assoc]
  have broken := newline_cons_mem_breaks front
  exact Language.append_mem_mul (Language.append_mem_mul member broken) there

/-- The sections of two texts are those of the texts with a line feed in between. -/
theorem sections_append {first second : Text} {declared declared' : List Section}
    (here : sections first = .ok declared) (there : sections second = .ok declared') :
    sections (first ++ '\n' :: second) = .ok (declared ++ declared') := by
  obtain ⟨before, member, read⟩ := sections_eq_ok_iff.mp here
  obtain ⟨behind, member', read'⟩ := sections_eq_ok_iff.mp there
  have lineEnd : AtLineEnd ('\n' :: second) := by
    rintro _ ⟨⟩
    exact .inl rfl
  obtain ⟨tokens, readAll, alike⟩ := lex?_append lineEnd read (lex?_feed read')
  have joined := append_newline_mem_tableOf member member'
  exact sections_eq_ok_iff.mpr ⟨tokens, mem_tableOf_of_spacing (alike true) joined, readAll⟩

/-- The entries of sections are joined as the sections are. -/
theorem ofSections_append {declared declared' : List Section} {table other : Table}
    (here : ofSections declared = .ok table) (there : ofSections declared' = .ok other) :
    ofSections (declared ++ declared') = .ok ⟨table.entries ++ other.entries⟩ := by
  rw [ofSections_eq_ok_iff] at here there ⊢
  exact List.rel_append here there

/-- Two tables with a line feed in between are a table with the entries of both, in their order. -/
theorem parse_append {first second : Text} {table other : Table}
    (here : parse first = .ok table) (there : parse second = .ok other) :
    parse (first ++ '\n' :: second) = .ok ⟨table.entries ++ other.entries⟩ := by
  obtain ⟨declared, split, made⟩ := bind_eq_ok here
  obtain ⟨declared', split', made'⟩ := bind_eq_ok there
  rw [parse, sections_append split split']
  exact ofSections_append made made'

/-- A table that ends in a comment, a table that ends in a carriage return and one that is empty. -/
theorem parse_append_three :
    parse "[plugins.a]\nglobal = \"x\" # one\n\n# two".toList =
        .ok ⟨[⟨⟨"x".toList, ⟨"a".toList⟩, []⟩, true⟩]⟩ ∧
      parse " # b\n[plugins.b]\renabled = false\rglobal = \"y\"\r".toList =
        .ok ⟨[⟨⟨"y".toList, ⟨"b".toList⟩, []⟩, false⟩]⟩ ∧
      parse [] = .ok ⟨[]⟩ ∧
      parse ("[plugins.a]\nglobal = \"x\" # one\n\n# two".toList ++ '\n' ::
          (" # b\n[plugins.b]\renabled = false\rglobal = \"y\"\r".toList ++ ['\n'])) =
        .ok ⟨[⟨⟨"x".toList, ⟨"a".toList⟩, []⟩, true⟩,
          ⟨⟨"y".toList, ⟨"b".toList⟩, []⟩, false⟩]⟩ := by
  have first : parse "[plugins.a]\nglobal = \"x\" # one\n\n# two".toList =
      .ok ⟨[⟨⟨"x".toList, ⟨"a".toList⟩, []⟩, true⟩]⟩ :=
    toOption_eq_some_iff.mp (by decide +kernel)
  have second : parse " # b\n[plugins.b]\renabled = false\rglobal = \"y\"\r".toList =
      .ok ⟨[⟨⟨"y".toList, ⟨"b".toList⟩, []⟩, false⟩]⟩ :=
    toOption_eq_some_iff.mp (by decide +kernel)
  have empty : parse [] = .ok ⟨[]⟩ := toOption_eq_some_iff.mp (by decide +kernel)
  exact ⟨first, second, empty, parse_append first (parse_append second empty)⟩

end PluginScript.Table
