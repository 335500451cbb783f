/-
This file embeds how invite codes are written, read and formatted while they
are typed, and shows that the three agree.

All of them look at one character at a time: `normalizeChar` gives what it
counts as, in the alphabet of the codes, or nothing. What it gives it gives
again for itself, and for the separators it gives nothing, so reading a text
and normalizing it see the same characters.
-/

import Throcc.Proto
import Mathlib.Data.List.GetD

namespace Throcc

/-! ### Reading and writing -/

/-- `char::is_ascii_whitespace`. -/
def isAsciiWhitespace (c : Char) : Bool :=
  c = ' ' ∨ c = '\t' ∨ c = '\n' ∨ c = '\x0C' ∨ c = '\r'

/-- `InviteCode::from_str`. -/
def InviteCode.fromStr (input : String) : Option InviteCode := do
  let chars ← (input.toList.filter fun c => c ≠ '-' && !isAsciiWhitespace c).mapM normalizeChar
  -- the source counts bytes; a normalized character is one
  if chars.length ≠ idChars + secretChars then none
  else some { id := String.ofList (chars.take idChars), secret := String.ofList (chars.drop idChars) }

/-- `Display`. -/
def InviteCode.display (code : InviteCode) : String := code.id ++ "-" ++ code.secret

/-- Formats partial input for a code field: normalized characters with the dash inserted. -/
def formatPartial (input : String) : String :=
  let chars := (normalize input).toList.take (idChars + secretChars)
  if idChars < chars.length then
    String.ofList (chars.take idChars ++ '-' :: chars.drop idChars)
  else
    String.ofList chars

/-! ### Characters -/

def alphabet : List Char := "0123456789ABCDEFGHJKMNPQRSTVWXYZ".toList

theorem normalizeChar_mem {c normalized : Char} (found : normalizeChar c = some normalized) :
    normalized ∈ alphabet := by
  unfold normalizeChar at found
  dsimp only at found
  split at found
  · cases found
    decide
  · cases found
    decide
  · cases found
    decide
  · split at found
    · cases found
      exact List.contains_iff_mem.mp ‹_›
    · cases found

/-- A property of a few characters, tried on each of them. -/
theorem forall_mem_of_all {chars : List Char} {holds : Char → Prop} [DecidablePred holds]
    (all : (chars.all fun c => decide (holds c)) = true) : ∀ c ∈ chars, holds c :=
  fun c member => of_decide_eq_true (List.all_eq_true.mp all c member)

theorem normalizeChar_alphabet :
    ∀ c ∈ alphabet, normalizeChar c = some c ∧ (c ≠ '-' && !isAsciiWhitespace c) = true :=
  forall_mem_of_all (by decide)

/-- Counts and indices of bytes are counts and indices of characters in what is normalized. -/
theorem utf8Size_normalizeChar {c normalized : Char} (found : normalizeChar c = some normalized) :
    normalized.utf8Size = 1 := by
  have single : ∀ c ∈ alphabet, c.utf8Size = 1 := forall_mem_of_all (by decide)
  exact single normalized (normalizeChar_mem found)

theorem normalizeChar_separator {c : Char} (separator : ¬ (c ≠ '-' && !isAsciiWhitespace c) = true) :
    normalizeChar c = none := by
  have among : c ∈ ['-', ' ', '\t', '\n', '\x0C', '\r'] := by
    simpa [isAsciiWhitespace, or_iff_not_imp_left] using separator
  have dropped : ∀ c ∈ ['-', ' ', '\t', '\n', '\x0C', '\r'], normalizeChar c = none :=
    forall_mem_of_all (by decide)
  exact dropped c among

/-! ### Texts -/

/-- What `mapM` gives, `filterMap` gives as well. -/
theorem filterMap_of_mapM {α β : Type} {f : α → Option β} {items : List α} {images : List β}
    (mapped : items.mapM f = some images) : items.filterMap f = images := by
  induction items generalizing images with
  | nil => exact Option.some.inj mapped
  | cons item rest inductionHypothesis =>
    rw [List.mapM_cons] at mapped
    obtain ⟨image, found, mapped⟩ := Option.bind_eq_some_iff.mp mapped
    obtain ⟨images, others, collected⟩ := Option.bind_eq_some_iff.mp mapped
    rw [List.filterMap_cons_some found, inductionHypothesis others]
    exact Option.some.inj collected

theorem mapM_eq_self {α : Type} {f : α → Option α} {items : List α}
    (fixed : ∀ item ∈ items, f item = some item) : items.mapM f = some items := by
  induction items with
  | nil => rfl
  | cons item rest inductionHypothesis =>
    rw [List.mapM_cons, fixed item List.mem_cons_self,
      inductionHypothesis fun item member => fixed item (List.mem_cons_of_mem _ member)]
    rfl

/-- Dropping the separators leaves what a text is normalized to as it is. -/
theorem filterMap_keep (chars : List Char) :
    (chars.filter fun c => c ≠ '-' && !isAsciiWhitespace c).filterMap normalizeChar =
      chars.filterMap normalizeChar := by
  rw [List.filterMap_filter]
  refine List.filterMap_congr fun c _ => ?_
  split
  · rfl
  · exact (normalizeChar_separator ‹_›).symm

/-- The characters of a text, normalized. -/
def letters (input : String) : List Char := input.toList.filterMap normalizeChar

theorem toList_normalize (input : String) : (normalize input).toList = letters input :=
  String.toList_ofList

theorem letters_alphabet {input : String} {c : Char} (member : c ∈ letters input) :
    c ∈ alphabet := by
  obtain ⟨_, _, found⟩ := List.mem_filterMap.mp member
  exact normalizeChar_mem found

theorem filterMap_alphabet {chars : List Char} (spelled : ∀ c ∈ chars, c ∈ alphabet) :
    chars.filterMap normalizeChar = chars :=
  filterMap_of_mapM (mapM_eq_self fun c member => (normalizeChar_alphabet c (spelled c member)).1)

/-! ### Spelled codes -/

/-- A code of three and five characters of the alphabet. -/
structure InviteCode.Spelled (code : InviteCode) : Prop where
  id : code.id.toList.length = idChars
  secret : code.secret.toList.length = secretChars
  alphabet : ∀ c ∈ code.id.toList ++ code.secret.toList, c ∈ Throcc.alphabet

/-- The code whose characters are the given ones, the id ahead of the secret. -/
def InviteCode.ofChars (chars : List Char) : InviteCode where
  id := String.ofList (chars.take idChars)
  secret := String.ofList (chars.drop idChars)

namespace InviteCode

theorem ofChars_chars (chars : List Char) :
    (ofChars chars).id.toList ++ (ofChars chars).secret.toList = chars := by
  rw [ofChars, String.toList_ofList, String.toList_ofList, List.take_append_drop]

theorem ofChars_spelled {chars : List Char} (length : chars.length = idChars + secretChars)
    (spelled : ∀ c ∈ chars, c ∈ alphabet) : (ofChars chars).Spelled where
  id := by
    rw [ofChars, String.toList_ofList, List.length_take, length]
    rfl
  secret := by
    rw [ofChars, String.toList_ofList, List.length_drop, length]
    rfl
  alphabet := by
    rw [ofChars_chars]
    exact spelled

theorem fromRandom_spelled (bytes : Fin (idChars + secretChars) → UInt8) :
    (fromRandom bytes).Spelled := by
  refine ofChars_spelled (by rw [List.length_map, List.length_ofFn]) fun c member => ?_
  obtain ⟨byte, _, rfl⟩ := List.mem_map.mp member
  have within : byte.toNat % 32 < alphabet.length := Nat.mod_lt _ (by decide)
  show alphabet.getD (byte.toNat % 32) '0' ∈ alphabet
  rw [List.getD_eq_getElem _ _ within]
  exact List.getElem_mem within

/-- A text parses to the code of its normalized characters, which are eight. -/
theorem fromStr_letters {input : String} {code : InviteCode} (parsed : fromStr input = some code) :
    code = ofChars (letters input) ∧ (letters input).length = idChars + secretChars := by
  obtain ⟨chars, mapped, parsed⟩ := Option.bind_eq_some_iff.mp parsed
  have same : letters input = chars := by
    rw [letters, ← filterMap_keep]
    exact filterMap_of_mapM mapped
  rw [same]
  split at parsed
  · cases parsed
  · exact ⟨(Option.some.inj parsed).symm, not_not.mp ‹_›⟩

theorem fromStr_spelled {input : String} {code : InviteCode} (parsed : fromStr input = some code) :
    code.Spelled := by
  obtain ⟨rfl, length⟩ := fromStr_letters parsed
  exact ofChars_spelled length fun c => letters_alphabet

/-- A text of characters of the alphabet and dashes parses when the characters are eight. -/
theorem fromStr_of_filter {input : String} {chars : List Char}
    (kept : (input.toList.filter fun c => c ≠ '-' && !isAsciiWhitespace c) = chars)
    (spelled : ∀ c ∈ chars, c ∈ alphabet) :
    fromStr input = if chars.length = idChars + secretChars then some (ofChars chars) else none := by
  rw [fromStr, kept, mapM_eq_self fun c member => (normalizeChar_alphabet c (spelled c member)).1]
  exact ite_not ..

theorem filter_dashed {chars others : List Char} (spelled : ∀ c ∈ chars ++ others, c ∈ alphabet) :
    ((chars ++ '-' :: others).filter fun c => c ≠ '-' && !isAsciiWhitespace c) =
      chars ++ others := by
  have keeps : ∀ c ∈ chars ++ others, (c ≠ '-' && !isAsciiWhitespace c) = true :=
    fun c member => (normalizeChar_alphabet c (spelled c member)).2
  rw [List.filter_append, List.filter_cons_of_neg (by decide), ← List.filter_append]
  exact List.filter_eq_self.mpr keeps

theorem toList_display (code : InviteCode) :
    code.display.toList = code.id.toList ++ '-' :: code.secret.toList := by
  rw [display, String.toList_append, String.toList_append, List.append_assoc]
  rfl

theorem fromStr_display {code : InviteCode} (spelled : code.Spelled) :
    fromStr code.display = some code := by
  have kept := toList_display code ▸ filter_dashed spelled.alphabet
  have length : (code.id.toList ++ code.secret.toList).length = idChars + secretChars := by
    rw [List.length_append, spelled.id, spelled.secret]
  rw [fromStr_of_filter kept spelled.alphabet, if_pos length, ofChars,
    List.take_left' spelled.id, List.drop_left' spelled.id, String.ofList_toList,
    String.ofList_toList]

end InviteCode

/-! ### Typed texts -/

/-- The normalized characters a code field keeps: those of one code. -/
def kept (input : String) : List Char := (letters input).take (idChars + secretChars)

theorem kept_alphabet {input : String} {c : Char} (member : c ∈ kept input) : c ∈ alphabet :=
  letters_alphabet (List.mem_of_mem_take member)

theorem toList_formatPartial (input : String) :
    (formatPartial input).toList =
      if idChars < (kept input).length then
        (kept input).take idChars ++ '-' :: (kept input).drop idChars
      else kept input := by
  unfold formatPartial kept
  rw [toList_normalize]
  dsimp only
  split <;> exact String.toList_ofList

/-- The dash is the only character of a formatted text that reading it skips. -/
theorem filter_formatPartial (input : String) :
    ((formatPartial input).toList.filter fun c => c ≠ '-' && !isAsciiWhitespace c) =
      kept input := by
  rw [toList_formatPartial]
  have joined := List.take_append_drop idChars (kept input)
  split
  · rw [InviteCode.filter_dashed fun c member => kept_alphabet (joined ▸ member), joined]
  · exact List.filter_eq_self.mpr fun c member => (normalizeChar_alphabet c (kept_alphabet member)).2

theorem letters_formatPartial (input : String) : letters (formatPartial input) = kept input := by
  rw [letters, ← filterMap_keep, filter_formatPartial]
  exact filterMap_alphabet fun c => kept_alphabet

theorem normalize_normalize (input : String) : normalize (normalize input) = normalize input := by
  have same : letters (normalize input) = letters input := by
    rw [letters, toList_normalize]
    exact filterMap_alphabet fun c => letters_alphabet
  exact congrArg String.ofList same

theorem normalize_formatPartial (input : String) :
    normalize (formatPartial input) =
      String.ofList ((normalize input).toList.take (idChars + secretChars)) := by
  rw [toList_normalize]
  exact congrArg String.ofList (letters_formatPartial input)

theorem formatPartial_formatPartial (input : String) :
    formatPartial (formatPartial input) = formatPartial input := by
  have same : kept (formatPartial input) = kept input := by
    rw [kept, letters_formatPartial, kept, List.take_take, Nat.min_self]
  refine String.toList_inj.mp ?_
  rw [toList_formatPartial, toList_formatPartial, same]

theorem formatPartial_parses (input : String) :
    (InviteCode.fromStr (formatPartial input)).isSome ↔
      idChars + secretChars ≤ (normalize input).toList.length := by
  rw [InviteCode.fromStr_of_filter (filter_formatPartial input) fun c => kept_alphabet,
    toList_normalize]
  have length : (kept input).length = min (idChars + secretChars) (letters input).length :=
    List.length_take
  split
  · exact iff_of_true rfl (by omega)
  · exact iff_of_false nofun (by omega)

/-- A text that parses is normalized to its code's characters. -/
theorem normalize_of_parsed {input : String} {code : InviteCode}
    (parsed : InviteCode.fromStr input = some code) : normalize input = code.id ++ code.secret := by
  obtain ⟨rfl, _⟩ := InviteCode.fromStr_letters parsed
  refine String.toList_inj.mp ?_
  rw [toList_normalize, String.toList_append, InviteCode.ofChars_chars]

/-- A text that parses is formatted as its code is written. -/
theorem formatPartial_of_parsed {input : String} {code : InviteCode}
    (parsed : InviteCode.fromStr input = some code) : formatPartial input = code.display := by
  obtain ⟨rfl, length⟩ := InviteCode.fromStr_letters parsed
  have whole : kept input = letters input := by
    rw [kept, ← length, List.take_length]
  refine String.toList_inj.mp ?_
  rw [toList_formatPartial, whole, if_pos (by rw [length]; decide), InviteCode.toList_display,
    InviteCode.ofChars, String.toList_ofList, String.toList_ofList]

/-- Codes are read back from how they are written, a text that parses is normalized and
formatted as its code, and on every text normalizing and formatting agree with parsing. -/
theorem inviteTexts_agree :
    (∀ bytes, InviteCode.fromStr (InviteCode.fromRandom bytes).display =
      some (InviteCode.fromRandom bytes)) ∧
    (∀ input code, InviteCode.fromStr input = some code →
      InviteCode.fromStr code.display = some code ∧ normalize input = code.id ++ code.secret ∧
        formatPartial input = code.display) ∧
    ∀ input, normalize (normalize input) = normalize input ∧
      formatPartial (formatPartial input) = formatPartial input ∧
      normalize (formatPartial input) =
        String.ofList ((normalize input).toList.take (idChars + secretChars)) ∧
      ((InviteCode.fromStr (formatPartial input)).isSome ↔
        idChars + secretChars ≤ (normalize input).toList.length) :=
  ⟨fun bytes => InviteCode.fromStr_display (InviteCode.fromRandom_spelled bytes),
    fun _ _ parsed => ⟨InviteCode.fromStr_display (InviteCode.fromStr_spelled parsed),
      normalize_of_parsed parsed, formatPartial_of_parsed parsed⟩,
    fun input => ⟨normalize_normalize input, formatPartial_formatPartial input,
      normalize_formatPartial input, formatPartial_parses input⟩⟩

theorem inviteTexts_agree_lookalikes : normalize "oil-L0OIi" = "011" ++ "10011" :=
  (inviteTexts_agree.2.1 "oil-L0OIi" ⟨"011", "10011"⟩ rfl).2.1

end Throcc
