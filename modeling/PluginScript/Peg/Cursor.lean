import PluginScript.Text

/-! # Cursors

A cursor is a position in a text that is being read. It knows its byte offset and the text behind
it, and keeps count of the bytes that are left, so that two cursors of one text are compared
without reading on. Reading moves a cursor over one character (`next?`) or over a given text
(`skip?`).
-/

namespace PluginScript.Peg

/-- A position in a text: its byte offset, the text behind it, and how many bytes that are. -/
structure Cursor where
  offset : Nat
  rest : Text
  left : Nat
  left_eq : left = rest.byteLength

namespace Cursor

/-- The cursor at an offset with a given text behind it. -/
def before (offset : Nat) (rest : Text) : Cursor := ⟨offset, rest, rest.byteLength, rfl⟩

/-- A cursor is given by its offset and the text behind it. -/
theorem eq_before (cursor : Cursor) : cursor = .before cursor.offset cursor.rest := by
  obtain ⟨offset, rest, left, rfl⟩ := cursor
  rfl

/-- The cursor behind a part of the text. -/
def advance (cursor : Cursor) (read rest : Text) (split : cursor.rest = read ++ rest) :
    Cursor where
  offset := cursor.offset + read.byteLength
  rest := rest
  left := cursor.left - read.byteLength
  left_eq := by rw [cursor.left_eq, split, Text.byteLength_append, Nat.add_sub_cancel_left]

theorem advance_eq_before (cursor : Cursor) (read rest : Text)
    (split : cursor.rest = read ++ rest) :
    cursor.advance read rest split = .before (cursor.offset + read.byteLength) rest :=
  eq_before _

/-- The character behind the cursor, and the cursor behind it. -/
def next? (cursor : Cursor) : Option (Char × Cursor) :=
  match split : cursor.rest with
  | [] => none
  | c :: rest => some (c, cursor.advance [c] rest split)

theorem next?_nil (offset : Nat) : (Cursor.before offset []).next? = none := rfl

theorem next?_cons (offset : Nat) (c : Char) (rest : Text) :
    (Cursor.before offset (c :: rest)).next? = some (c, .before (offset + c.utf8Size) rest) :=
  congrArg (fun later => some (c, later)) (advance_eq_before _ [c] rest rfl)

/-- The cursor behind a given text, if that comes next. -/
def skip? (cursor : Cursor) (text : Text) : Option Cursor :=
  match found : text.isPrefixOf? cursor.rest with
  | none => none
  | some rest => some (cursor.advance text rest (Text.eq_append_of_isPrefixOf? found))

theorem skip?_append (offset : Nat) (text rest : Text) :
    (Cursor.before offset (text ++ rest)).skip? text =
      some (.before (offset + text.byteLength) rest) := by
  have follows := Text.isPrefixOf?_append text rest
  rw [skip?]
  split
  · rename_i missed
    cases missed.symm.trans follows
  · rename_i later found
    obtain rfl := Option.some.inj (found.symm.trans follows)
    rw [advance_eq_before]
    rfl

/-- What lies between a cursor and a later one. -/
def readUntil (cursor later : Cursor) : Text :=
  match cursor.rest.splitAtByte? (cursor.left - later.left) with
  | some (read, _) => read
  | none => []

end Cursor

end PluginScript.Peg
