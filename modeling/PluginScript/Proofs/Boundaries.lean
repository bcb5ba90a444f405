import PluginScript.Text
import Mathlib.Data.Set.List
import Mathlib.Tactic.Common

/-! # Character boundaries

Whether a byte offset is a character boundary can be seen from the byte that stands there: the bytes
of a character are one that begins it and others that go on with it. So the test on bytes
(`isBoundary`) accepts an offset if and only if the text can be cut there (`isBoundary_eq_isSome`,
`isBoundary_iff`). The bytes of a text are decoded to that text, and nothing else is
(`decode?_eq_some_iff`).
-/

namespace PluginScript.Text

private theorem isContinuation_ofNat_iff {n : Nat} (fits : n < 0x100) :
    isContinuation (.ofNat n) = true ↔ 0x80 ≤ n ∧ n < 0xC0 := by
  rw [isContinuation, Bool.and_eq_true, decide_eq_true_eq, decide_eq_true_eq,
    UInt8.le_iff_toNat_le, UInt8.lt_iff_toNat_lt, UInt8.toNat_ofNat', Nat.mod_eq_of_lt fits]
  exact Iff.rfl

/-- The first byte of a character begins it, and the others go on with it. -/
private theorem isContinuation_utf8EncodeChar (c : Char) :
    ∃ first others, String.utf8EncodeChar c = first :: others ∧ isContinuation first = false ∧
      ∀ byte ∈ others, isContinuation byte = true := by
  have goes {n : Nat} : isContinuation (.ofNat (n % 0x40 + 0x80)) = true :=
    (isContinuation_ofNat_iff (by omega)).mpr (by omega)
  have begins {n : Nat} (fits : n < 0x100) (high : n < 0x80 ∨ 0xC0 ≤ n) :
      isContinuation (.ofNat n) = false := by
    rw [← Bool.not_eq_true, isContinuation_ofNat_iff fits]
    omega
  rw [String.utf8EncodeChar]
  generalize c.val.toNat = code
  split_ifs
  all_goals refine ⟨_, _, rfl, begins (by omega) (by omega), ?_⟩
  all_goals simp only [List.forall_mem_cons, goes, true_and, List.not_mem_nil, false_imp_iff,
    implies_true]

/-- The test on bytes accepts an offset if and only if the text can be cut there. -/
theorem isBoundary_eq_isSome (text : Text) (offset : Nat) :
    text.isBoundary offset = (text.splitAtByte? offset).isSome := by
  induction text, offset using splitAtByte?.induct with
  | case1 text =>
    rw [splitAtByte?]
    cases text with
    | nil => rfl
    | cons c rest =>
      obtain ⟨first, others, bytes, begins, -⟩ := isContinuation_utf8EncodeChar c
      have front : encode (c :: rest) = first :: (others ++ encode rest) := by
        rw [encode_cons, bytes, List.cons_append]
      rw [isBoundary, front, List.getElem?_cons_zero]
      exact congrArg not begins
  | case2 offset => rfl
  | case3 c rest offset fits ih =>
    rw [splitAtByte?, if_pos fits, Option.isSome_map, ← ih, isBoundary, isBoundary, encode_cons,
      List.getElem?_append_right (by rwa [String.length_utf8EncodeChar]),
      String.length_utf8EncodeChar]
    cases (encode rest)[offset + 1 - c.utf8Size]? with
    | some byte => rfl
    | none =>
      dsimp only
      rw [byteLength_cons, Bool.eq_iff_iff, beq_iff_eq, beq_iff_eq]
      omega
  | case4 c rest offset short =>
    obtain ⟨first, others, bytes, -, continues⟩ := isContinuation_utf8EncodeChar c
    have size := String.length_utf8EncodeChar c
    rw [bytes, List.length_cons] at size
    have front : encode (c :: rest) = first :: (others ++ encode rest) := by
      rw [encode_cons, bytes, List.cons_append]
    rw [splitAtByte?, if_neg short, isBoundary, front, List.getElem?_cons_succ,
      List.getElem?_append_left (by omega), List.getElem?_eq_getElem (by omega)]
    exact congrArg not (continues _ (List.getElem_mem _))

theorem isBoundary_iff {text : Text} {offset : Nat} :
    text.isBoundary offset = true ↔
      ∃ before after, text = before ++ after ∧ before.byteLength = offset := by
  rw [isBoundary_eq_isSome, Option.isSome_iff_exists, Prod.exists]
  simp only [splitAtByte?_eq_some_iff]

/-- No boundary lies behind the end of a text. -/
theorem le_byteLength_of_isBoundary {text : Text} {offset : Nat}
    (boundary : text.isBoundary offset = true) : offset ≤ text.byteLength := by
  obtain ⟨before, after, rfl, rfl⟩ := isBoundary_iff.mp boundary
  rw [byteLength_append]
  exact Nat.le_add_right _ _

/-- The boundaries of the rest of a text are boundaries of the text. -/
private theorem isBoundary_append_add (before after : Text) (offset : Nat) :
    isBoundary (before ++ after) (before.byteLength + offset) = after.isBoundary offset := by
  rw [isBoundary, isBoundary, encode_append,
    List.getElem?_append_right (by rw [length_encode]; exact Nat.le_add_right _ _), length_encode,
    Nat.add_sub_cancel_left]
  cases (encode after)[offset]? with
  | some byte => rfl
  | none =>
    rw [Bool.eq_iff_iff, beq_iff_eq, beq_iff_eq, byteLength_append]
    omega

/-- A byte offset lies inside a character of a text. -/
def InsideChar (text : Text) (offset : Nat) : Prop :=
  ∃ (before : Text) (c : Char) (after : Text), text = before ++ c :: after ∧
    before.byteLength < offset ∧ offset < before.byteLength + c.utf8Size

/-- What is no boundary lies behind the end of the text or inside a character. -/
theorem isBoundary_eq_false_iff {text : Text} {offset : Nat} :
    text.isBoundary offset = false ↔ text.byteLength < offset ∨ text.InsideChar offset := by
  constructor
  · rw [isBoundary_eq_isSome]
    intro missing
    induction text, offset using splitAtByte?.induct with
    | case1 text => simp [splitAtByte?] at missing
    | case2 offset => exact .inl (Nat.succ_pos offset)
    | case3 c rest offset fits ih =>
      rw [splitAtByte?, if_pos fits, Option.isSome_map] at missing
      rcases ih missing with behind | ⟨before, d, after, rfl, low, high⟩
      · left
        rw [byteLength_cons]
        omega
      · refine .inr ⟨c :: before, d, after, rfl, ?_, ?_⟩ <;> rw [byteLength_cons] <;> omega
    | case4 c rest offset short =>
      refine .inr ⟨[], c, rest, rfl, ?_, ?_⟩ <;> rw [byteLength_nil] <;> omega
  · rintro (behind | ⟨before, c, after, rfl, low, high⟩)
    · rw [← Bool.not_eq_true]
      intro boundary
      have := le_byteLength_of_isBoundary boundary
      omega
    · obtain ⟨inner, rfl⟩ := Nat.exists_eq_add_of_lt low
      rw [Nat.add_assoc, isBoundary_append_add, isBoundary_eq_isSome, splitAtByte?,
        if_neg (by omega)]
      rfl

/-! ## Cuts and slices -/

theorem splitAtByte?_append (before after : Text) :
    splitAtByte? (before ++ after) before.byteLength = some (before, after) :=
  splitAtByte?_eq_some_iff.mpr ⟨rfl, rfl⟩

/-- The slice between the lengths of two parts of a text. -/
theorem slice?_append (before middle after : Text) :
    slice? (before ++ (middle ++ after)) before.byteLength
      (before.byteLength + middle.byteLength) = some middle := by
  rw [slice?, if_pos (Nat.le_add_right _ _), splitAtByte?_append, Option.bind_some,
    Nat.add_sub_cancel_left, splitAtByte?_append, Option.map_some]

theorem slice?_eq_some_iff {text middle : Text} {start stop : Nat} :
    text.slice? start stop = some middle ↔
      ∃ before after, text = before ++ middle ++ after ∧ before.byteLength = start ∧
        start + middle.byteLength = stop := by
  constructor
  · intro sliced
    rw [slice?] at sliced
    split_ifs at sliced with ordered
    obtain ⟨⟨before, behind⟩, front, sliced⟩ := Option.bind_eq_some_iff.mp sliced
    obtain ⟨⟨middle, after⟩, back, rfl⟩ := Option.map_eq_some_iff.mp sliced
    obtain ⟨rfl, rfl⟩ := splitAtByte?_eq_some_iff.mp front
    obtain ⟨rfl, size⟩ := splitAtByte?_eq_some_iff.mp back
    dsimp only at size ⊢
    exact ⟨before, after, (List.append_assoc _ _ _).symm, rfl, by omega⟩
  · rintro ⟨before, after, rfl, rfl, rfl⟩
    rw [List.append_assoc]
    exact slice?_append before middle after

/-- Two boundaries in order have a slice between them. -/
theorem exists_slice?_of_isBoundary {text : Text} {start stop : Nat} (ordered : start ≤ stop)
    (first : text.isBoundary start = true) (last : text.isBoundary stop = true) :
    ∃ middle, text.slice? start stop = some middle := by
  obtain ⟨before, behind, rfl, rfl⟩ := isBoundary_iff.mp first
  obtain ⟨size, rfl⟩ := Nat.exists_eq_add_of_le ordered
  rw [isBoundary_append_add] at last
  obtain ⟨middle, after, rfl, rfl⟩ := isBoundary_iff.mp last
  exact ⟨middle, slice?_append before middle after⟩

/-! ## Decoding -/

/-- The bytes of a text are decoded to it, and no others are. -/
theorem decode?_eq_some_iff {bytes : List UInt8} {text : Text} :
    decode? bytes = some text ↔ bytes = text.encode := by
  constructor
  · intro decoded
    obtain ⟨string, found, rfl⟩ := Option.map_eq_some_iff.mp decoded
    rw [String.fromUTF8?] at found
    split at found
    · cases found
      rename_i valid
      have same : (encode (String.fromUTF8 bytes.toByteArray valid).toList).toByteArray =
          bytes.toByteArray := String.utf8Encode_toList
      exact (List.toByteArray_inj.mp same).symm
    · cases found
  · rintro rfl
    have valid : text.encode.toByteArray.IsValidUTF8 := .intro text rfl
    have same : String.fromUTF8 text.encode.toByteArray valid = String.ofList text :=
      String.toByteArray_inj.mp rfl
    rw [decode?, String.fromUTF8?, dif_pos valid, Option.map_some, same, String.toList_ofList]

theorem decodeAll?_eq_some_iff {sequences : List (List UInt8)} {texts : List Text} :
    decodeAll? sequences = some texts ↔ sequences = texts.map encode := by
  induction sequences generalizing texts with
  | nil => cases texts <;> simp [decodeAll?]
  | cons bytes sequences ih =>
    rw [decodeAll?] at ih ⊢
    rw [List.mapM_cons]
    constructor
    · intro decoded
      obtain ⟨text, here, decoded⟩ := Option.bind_eq_some_iff.mp decoded
      obtain ⟨others, there, same⟩ := Option.bind_eq_some_iff.mp decoded
      cases same
      rw [List.map_cons, ← ih.mp there, ← decode?_eq_some_iff.mp here]
    · intro encoded
      obtain ⟨text, others, rfl, rfl, rfl⟩ := List.map_eq_cons_iff.mp encoded.symm
      rw [decode?_eq_some_iff.mpr rfl, ih.mpr rfl]
      rfl

end PluginScript.Text
