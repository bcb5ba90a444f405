/-! # Texts

A script, a name or a message is the list of its characters. Positions in a text are byte offsets
into its UTF-8 encoding, so this module ties the two views together: the encoding of a text, its
length in bytes, and the cut at a byte offset, which exists exactly on character boundaries
(`splitAtByte?_eq_some_iff`). It also holds the two questions that names raise: whether one text
occurs in another, and whether a text is a word.
-/

namespace PluginScript

/-- A text is the list of its characters. -/
abbrev Text := List Char

namespace Text

/-- The UTF-8 encoding of a text. -/
def encode (text : Text) : List UInt8 :=
  text.flatMap String.utf8EncodeChar

/-- The text that a sequence of bytes encodes, if it is well-formed UTF-8. -/
def decode? (bytes : List UInt8) : Option Text :=
  (String.fromUTF8? bytes.toByteArray).map String.toList

/-- The texts that sequences of bytes encode, if all of them are well-formed UTF-8. -/
def decodeAll? (sequences : List (List UInt8)) : Option (List Text) :=
  sequences.mapM decode?

/-- The length of a text in bytes. -/
def byteLength : Text → Nat
  | [] => 0
  | c :: rest => c.utf8Size + byteLength rest

@[simp] theorem byteLength_nil : byteLength [] = 0 := rfl

@[simp] theorem byteLength_cons (c : Char) (rest : Text) :
    byteLength (c :: rest) = c.utf8Size + byteLength rest := rfl

theorem byteLength_pos {text : Text} (some : text ≠ []) : 0 < text.byteLength := by
  obtain ⟨c, rest, rfl⟩ := List.exists_cons_of_ne_nil some
  exact Nat.lt_of_lt_of_le c.utf8Size_pos (Nat.le_add_right _ _)

@[simp] theorem byteLength_append (first second : Text) :
    byteLength (first ++ second) = byteLength first + byteLength second := by
  induction first with
  | nil => simp
  | cons c rest ih => simp only [List.cons_append, byteLength_cons, ih, Nat.add_assoc]

theorem encode_cons (c : Char) (rest : Text) :
    encode (c :: rest) = String.utf8EncodeChar c ++ encode rest :=
  List.flatMap_cons

theorem encode_append (first second : Text) :
    encode (first ++ second) = encode first ++ encode second :=
  List.flatMap_append

/-- The byte length counts the bytes of the encoding. -/
theorem length_encode (text : Text) : text.encode.length = text.byteLength := by
  induction text with
  | nil => rfl
  | cons c rest ih =>
    rw [encode_cons, List.length_append, String.length_utf8EncodeChar, ih, byteLength_cons]

/-- Whether a byte goes on with a character that an earlier byte has begun. -/
def isContinuation (byte : UInt8) : Bool :=
  0x80 ≤ byte && byte < 0xC0

/-- Whether a byte offset is a character boundary: no byte that goes on with a character stands
there, and it is not behind the end. -/
def isBoundary (text : Text) (offset : Nat) : Bool :=
  match text.encode[offset]? with
  | some byte => !isContinuation byte
  | none => offset == text.byteLength

/-- Cuts a text at a byte offset, which has to be a character boundary of it. -/
def splitAtByte? : Text → Nat → Option (Text × Text)
  | text, 0 => some ([], text)
  | [], _ + 1 => none
  | c :: rest, offset + 1 =>
    if c.utf8Size ≤ offset + 1 then
      (splitAtByte? rest (offset + 1 - c.utf8Size)).map fun parts => (c :: parts.1, parts.2)
    else none

/-- The cut exists exactly when some beginning of the text has as many bytes as the offset says. -/
theorem splitAtByte?_eq_some_iff {text before after : Text} {offset : Nat} :
    text.splitAtByte? offset = some (before, after) ↔
      text = before ++ after ∧ before.byteLength = offset := by
  induction text, offset using splitAtByte?.induct generalizing before with
  | case1 text =>
    rw [splitAtByte?]
    cases before with
    | nil => simp [eq_comm]
    | cons c rest =>
      have positive := c.utf8Size_pos
      simp only [Option.some.injEq, Prod.mk.injEq, List.nil_eq, reduceCtorEq, false_and,
        byteLength_cons, false_iff, not_and]
      omega
  | case2 offset =>
    rw [splitAtByte?]
    cases before <;> simp
  | case3 c rest offset fits ih =>
    rw [splitAtByte?, if_pos fits]
    cases before with
    | nil => simp
    | cons d before =>
      simp only [Option.map_eq_some_iff, Prod.exists, Prod.mk.injEq, List.cons.injEq,
        List.cons_append, byteLength_cons]
      constructor
      · rintro ⟨front, back, cut, ⟨rfl, rfl⟩, rfl⟩
        obtain ⟨rfl, size⟩ := ih.mp cut
        exact ⟨⟨rfl, rfl⟩, by omega⟩
      · rintro ⟨⟨rfl, rfl⟩, size⟩
        exact ⟨before, after, ih.mpr ⟨rfl, by omega⟩, ⟨rfl, rfl⟩, rfl⟩
  | case4 c rest offset short =>
    rw [splitAtByte?, if_neg short]
    cases before with
    | nil => simp
    | cons d before =>
      simp only [reduceCtorEq, List.cons_append, List.cons.injEq, byteLength_cons, false_iff,
        not_and, and_imp]
      rintro rfl -
      omega

/-- The part of a text between two byte offsets, both on character boundaries and in order. -/
def slice? (text : Text) (start stop : Nat) : Option Text :=
  if start ≤ stop then
    (text.splitAtByte? start).bind fun outer =>
      (outer.2.splitAtByte? (stop - start)).map Prod.fst
  else none

/-- Whether `needle` occurs somewhere in a text. -/
def occursIn (needle : Text) : Text → Bool
  | [] => needle.isEmpty
  | c :: rest => needle.isPrefixOf (c :: rest) || occursIn needle rest

theorem occursIn_iff {needle text : Text} : occursIn needle text = true ↔ needle <:+: text := by
  induction text with
  | nil => simp [occursIn]
  | cons c rest ih =>
    rw [occursIn, Bool.or_eq_true, List.isPrefixOf_iff_prefix, ih, List.infix_cons_iff]

theorem isPrefixOf?_append (front rest : Text) : front.isPrefixOf? (front ++ rest) = some rest := by
  induction front with
  | nil => rfl
  | cons c front ih =>
    change (if c == c then front.isPrefixOf? (front ++ rest) else none) = some rest
    rw [if_pos (beq_self_eq_true c), ih]

/-- What follows `front` in a text that begins with it. -/
theorem eq_append_of_isPrefixOf? {front text rest : Text}
    (found : front.isPrefixOf? text = some rest) : text = front ++ rest := by
  induction front generalizing text with
  | nil => exact Option.some.inj found
  | cons c front ih =>
    cases text with
    | nil => cases found
    | cons d text =>
      change (if c == d then front.isPrefixOf? text else none) = some rest at found
      split at found
      · rename_i same
        rw [ih found, eq_of_beq same, List.cons_append]
      · contradiction

/-- A number in decimal digits. -/
def ofNat (n : Nat) : Text :=
  Nat.toDigits 10 n

/-- The characters of names: ASCII letters, ASCII digits and the underscore. -/
def isWordChar (c : Char) : Bool :=
  c.isAlphanum || c == '_'

/-- A word is a text of word characters with at least one of them. -/
def isWord (text : Text) : Bool :=
  !text.isEmpty && text.all isWordChar

end Text

end PluginScript
