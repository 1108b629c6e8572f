import Mqom.Model.Kat
import Mathlib.Data.List.DropRight

/-!
# Texts that are written and read back

The numbers and bytes that a response contains are read back as they were written, and so are the
lines `name = value` that hold them. Names and values contain no whitespace, which is what keeps
trimming, the separator and the line endings apart from them.
-/

namespace Mqom.Kat

open Rust

/-- A text that trimming, the separator and the line endings leave alone. -/
def Word (text : Text) : Prop :=
  text ≠ [] ∧ ∀ c ∈ text, isWhitespace c = false

instance (text : Text) : Decidable (Word text) :=
  decidable_of_iff (text ≠ [] ∧ text.all (fun c => !isWhitespace c) = true) (by simp [Word])

/-! ## Decimal numbers -/

/-- A digit is no space. -/
theorem is_whitespace_of_digit {c : Char} (h : c.isDigit = true) : isWhitespace c = false := by
  obtain ⟨hlow, hhigh⟩ : 48 ≤ c.toNat ∧ c.toNat ≤ 57 := by
    simpa [Char.isDigit, UInt32.le_iff_toNat_le] using h
  simp only [isWhitespace, Bool.or_eq_false_iff, Bool.and_eq_false_iff, decide_eq_false_iff_not,
    beq_eq_false_iff_ne]
  omega

/-- A written number is a word. -/
theorem decimal_word (n : Nat) : Word (decimal n) :=
  ⟨Nat.toDigits_ne_nil, fun _ hc =>
    is_whitespace_of_digit (Nat.isDigit_of_mem_toDigits (by omega) (by omega) hc)⟩

/-- The value of a digit is its distance from '0'. -/
theorem digit_value_of_digit {c : Char} (h : c.isDigit = true) :
    digitValue c = some (c.toNat - 48) := by
  have hrange : '0' ≤ c ∧ c ≤ '9' := by
    simpa [Char.isDigit, Char.le_def, UInt32.le_iff_toNat_le] using h
  rw [digitValue, if_pos hrange]

/-- The digits of a number that fits are read from the left, and no prefix overflows. -/
theorem parse_digits_eq {digits : Text} (hdigits : ∀ c ∈ digits, c.isDigit = true) {value : Nat}
    (h : Nat.ofDigitChars 10 digits value < 2 ^ 64) :
    parseDigits value digits = .ok (Nat.ofDigitChars 10 digits value) := by
  induction digits generalizing value with
  | nil => rw [parseDigits, Nat.ofDigitChars_nil]
  | cons c rest ih =>
      rw [Nat.ofDigitChars_cons, Nat.mul_comm] at h ⊢
      have hstarts : value * 10 + (c.toNat - 48) ≤
          Nat.ofDigitChars 10 rest (value * 10 + (c.toNat - 48)) := by
        rw [Nat.ofDigitChars_eq_ofDigitChars_zero]
        exact Nat.le_add_right_of_le (Nat.le_mul_of_pos_left _ (by positivity))
      rw [parseDigits, digit_value_of_digit (hdigits c List.mem_cons_self)]
      dsimp only
      rw [if_pos (lt_of_le_of_lt hstarts h)]
      exact ih (fun other hother => hdigits other (List.mem_cons_of_mem c hother)) h

/-- A number that fits is read back as it was written. -/
theorem parse_decimal_text {n : Nat} (h : n < 2 ^ 64) : parseUsize (decimal n) = .ok n := by
  have hdigits : ∀ c ∈ decimal n, c.isDigit = true := fun c hc =>
    Nat.isDigit_of_mem_toDigits (by omega) (by omega) hc
  have hvalue : Nat.ofDigitChars 10 (decimal n) 0 = n := Nat.ofDigitChars_ten_toDigits
  have hparsed : parseDigits 0 (decimal n) = .ok n := by
    rw [parse_digits_eq hdigits (by rw [hvalue]; exact h), hvalue]
  -- no digit is a sign, so only the last branch is left
  unfold parseUsize
  split
  · rename_i hnil
    exact absurd hnil Nat.toDigits_ne_nil
  · rename_i hsign
    exact absurd (hdigits '+' (by rw [hsign]; exact List.mem_singleton_self _)) (by decide)
  · rename_i hsign
    exact absurd (hdigits '-' (by rw [hsign]; exact List.mem_singleton_self _)) (by decide)
  · rename_i rest hsign
    exact absurd (hdigits '+' (by rw [hsign]; exact List.mem_cons_self)) (by decide)
  · exact hparsed

/-- A number that is parsed has 64 bits. -/
theorem parse_digits_lt {digits : Text} {value n : Nat} (hvalue : value < 2 ^ 64)
    (h : parseDigits value digits = .ok n) : n < 2 ^ 64 := by
  induction digits generalizing value with
  | nil =>
      rw [parseDigits] at h
      obtain rfl := Except.ok.inj h
      exact hvalue
  | cons c rest ih =>
      rw [parseDigits] at h
      cases hdigit : digitValue c with
      | none =>
          rw [hdigit] at h
          exact nomatch h
      | some digit =>
          rw [hdigit] at h
          dsimp only at h
          by_cases hfits : value * 10 + digit < 2 ^ 64
          · rw [if_pos hfits] at h
            exact ih hfits h
          · rw [if_neg hfits] at h
            exact nomatch h

/-- A number that has been read fits. -/
theorem parse_usize_lt {text : Text} {n : Nat} (h : parseUsize text = .ok n) : n < 2 ^ 64 := by
  unfold parseUsize at h
  split at h
  · exact nomatch h
  · exact nomatch h
  · exact nomatch h
  · exact parse_digits_lt (by omega) h
  · exact parse_digits_lt (by omega) h

/-! ## Hexadecimal values -/

/-- A sequence returns a value when both of its calls do. -/
theorem except_bind_ok {ε α β : Type} {first : Except ε α} {next : α → Except ε β} {value : β} :
    first >>= next = .ok value ↔ ∃ middle, first = .ok middle ∧ next middle = .ok value := by
  cases first with
  | ok middle =>
      constructor
      · intro h
        exact ⟨middle, rfl, h⟩
      · rintro ⟨other, hother, h⟩
        obtain rfl := Except.ok.inj hother
        exact h
  | error error => exact ⟨fun h => (nomatch h), fun ⟨_, hother, _⟩ => (nomatch hother)⟩

/-- The character of a digit is one byte, and stands for the digit. -/
theorem hex_digit_spec : ∀ nibble : Fin 16,
    let c := hexDigit (UInt8.ofNat nibble)
    String.utf8EncodeChar c = [UInt8.ofNat c.toNat] ∧
      decodeNibble (UInt8.ofNat c.toNat) = .ok (UInt8.ofNat nibble) ∧ isWhitespace c = false := by
  decide

/-- A hexadecimal digit is one byte that is decoded to its nibble. -/
theorem hex_digit_of_lt {nibble : UInt8} (h : nibble.toNat < 16) :
    ∃ byte, String.utf8EncodeChar (hexDigit nibble) = [byte] ∧ decodeNibble byte = .ok nibble ∧
      isWhitespace (hexDigit nibble) = false := by
  obtain ⟨hbytes, hvalue, hblank⟩ := hex_digit_spec ⟨nibble.toNat, h⟩
  rw [UInt8.ofNat_toNat] at hbytes hvalue hblank
  exact ⟨_, hbytes, hvalue, hblank⟩

/-- The high half of a byte is a nibble. -/
theorem high_nibble_lt (byte : UInt8) : (byte >>> 4).toNat < 16 := by
  have hbyte := byte.toNat_lt
  have hshift : (byte >>> 4).toNat = byte.toNat / 16 := by
    rw [UInt8.toNat_shiftRight]
    exact Nat.shiftRight_eq_div_pow _ _
  omega

/-- So is the low half. -/
theorem low_nibble_lt (byte : UInt8) : (byte &&& 0x0f).toNat < 16 := by
  rw [UInt8.toNat_and]
  exact Nat.and_lt_two_pow _ (n := 4) (by decide)

/-- Both halves make up the byte. -/
theorem join_nibbles : ∀ i : Fin 256,
    let byte := UInt8.ofFin i
    byte >>> 4 <<< 4 ||| byte &&& 0x0f = byte := by
  decide +kernel

/-- A byte is written as its two halves. -/
theorem hex_text_cons (byte : UInt8) (rest : List UInt8) :
    hexText (byte :: rest) = hexDigit (byte >>> 4) :: hexDigit (byte &&& 0x0f) :: hexText rest :=
  rfl

/-- Bytes are written one after the other. -/
theorem hex_text_append (first second : List UInt8) :
    hexText (first ++ second) = hexText first ++ hexText second :=
  List.flatMap_append

/-- The digits of some bytes are decoded to them. -/
theorem decode_pairs_hex_text (bytes : List UInt8) :
    decodePairs (utf8Bytes (hexText bytes)) = .ok bytes ∧
      (utf8Bytes (hexText bytes)).length = 2 * bytes.length := by
  induction bytes with
  | nil => exact ⟨rfl, rfl⟩
  | cons byte rest ih =>
      obtain ⟨first, hfirst, hhigh, _⟩ := hex_digit_of_lt (high_nibble_lt byte)
      obtain ⟨second, hsecond, hlow, _⟩ := hex_digit_of_lt (low_nibble_lt byte)
      obtain ⟨hrest, hlength⟩ := ih
      have hjoin : byte >>> 4 <<< 4 ||| byte &&& 0x0f = byte := join_nibbles byte.toFin
      have hbytes : utf8Bytes (hexText (byte :: rest)) =
          first :: second :: utf8Bytes (hexText rest) := by
        rw [hex_text_cons, utf8Bytes, List.flatMap_cons, List.flatMap_cons, hfirst, hsecond]
        rfl
      rw [hbytes]
      constructor
      · rw [decodePairs, hhigh, hlow, hrest]
        exact congrArg (fun value => (Except.ok (value :: rest) : Except Text _)) hjoin
      · rw [List.length_cons, List.length_cons, hlength, List.length_cons]
        omega

/-- Bytes are read back as they were written. -/
theorem decode_hex_text (bytes : List UInt8) : decodeHex (hexText bytes) = .ok bytes := by
  obtain ⟨hpairs, hlength⟩ := decode_pairs_hex_text bytes
  unfold decodeHex
  dsimp only
  rw [if_neg (by rw [hlength]; omega), hpairs]

/-- Written bytes are a word. -/
theorem hex_text_word {bytes : List UInt8} (h : bytes ≠ []) : Word (hexText bytes) := by
  constructor
  · obtain ⟨byte, rest, rfl⟩ := List.exists_cons_of_ne_nil h
    rw [hex_text_cons]
    exact List.cons_ne_nil _ _
  · intro c hc
    obtain ⟨byte, _, hdigit⟩ := List.mem_flatMap.mp hc
    rcases List.mem_cons.mp hdigit with rfl | hdigit
    · obtain ⟨_, _, _, hblank⟩ := hex_digit_of_lt (high_nibble_lt byte)
      exact hblank
    · obtain rfl := List.mem_singleton.mp hdigit
      obtain ⟨_, _, _, hblank⟩ := hex_digit_of_lt (low_nibble_lt byte)
      exact hblank

/-- Two digits stand for one byte. -/
theorem decode_pairs_length {digits bytes : List UInt8} (h : decodePairs digits = .ok bytes) :
    bytes.length = digits.length / 2 := by
  induction digits using decodePairs.induct generalizing bytes with
  | case1 first second rest ih =>
      rw [decodePairs] at h
      obtain ⟨high, _, h⟩ := except_bind_ok.mp h
      obtain ⟨low, _, h⟩ := except_bind_ok.mp h
      obtain ⟨others, hothers, h⟩ := except_bind_ok.mp h
      obtain rfl := Except.ok.inj h
      rw [List.length_cons, ih hothers, List.length_cons, List.length_cons]
      omega
  | case2 digits hshort =>
      rw [decodePairs.eq_2 _ hshort] at h
      obtain rfl := Except.ok.inj h
      match digits, hshort with
      | [], _ => rfl
      | [_], _ => simp
      | first :: second :: rest, hshort => exact absurd rfl (hshort first second rest)

/-- Only the empty text stands for no bytes. -/
theorem decode_hex_ne_nil {text : Text} {bytes : List UInt8} (htext : text ≠ [])
    (h : decodeHex text = .ok bytes) : bytes ≠ [] := by
  rintro rfl
  unfold decodeHex at h
  dsimp only at h
  by_cases hodd : (utf8Bytes text).length % 2 ≠ 0
  · rw [if_pos hodd] at h
    exact nomatch h
  · rw [if_neg hodd] at h
    have hlength := decode_pairs_length h
    rw [List.length_nil] at hlength
    have hnone : utf8Bytes text = [] := List.length_eq_zero_iff.mp (by omega)
    obtain ⟨c, rest, rfl⟩ := List.exists_cons_of_ne_nil htext
    rw [utf8Bytes, List.flatMap_cons] at hnone
    exact String.utf8EncodeChar_ne_nil (List.append_eq_nil_iff.mp hnone).1

/-! ## Lines -/

/-- Trimming leaves a text alone that has no whitespace at its ends. -/
theorem trim_eq_self {text : Text} (hfirst : ∀ c ∈ text.head?, isWhitespace c = false)
    (hlast : ∀ c ∈ text.getLast?, isWhitespace c = false) : trim text = text := by
  have hstart : text.dropWhile isWhitespace = text := by
    cases text with
    | nil => rfl
    | cons c rest =>
        exact List.dropWhile_cons_of_neg (by rw [hfirst c rfl]; exact Bool.false_ne_true)
  have hend : text.rdropWhile isWhitespace = text := by
    rw [List.rdropWhile_eq_self_iff]
    intro hne
    rw [hlast _ (List.getLast?_eq_some_getLast hne)]
    exact Bool.false_ne_true
  calc trim text = (text.dropWhile isWhitespace).rdropWhile isWhitespace := rfl
    _ = text := by rw [hstart, hend]

/-- A trimmed text does not end in whitespace. -/
theorem trim_last {text : Text} {c : Char} (h : (trim text).getLast? = some c) :
    isWhitespace c = false := by
  have hne : (text.dropWhile isWhitespace).rdropWhile isWhitespace ≠ [] := by
    intro hnil
    rw [show trim text = [] from hnil] at h
    exact nomatch h
  have hlast := List.rdropWhile_last_not _ _ hne
  rw [show trim text = (text.dropWhile isWhitespace).rdropWhile isWhitespace from rfl,
    List.getLast?_eq_some_getLast hne] at h
  obtain rfl := Option.some.inj h
  exact Bool.eq_false_of_not_eq_true hlast

/-- The parts of a split text make up the text. -/
theorem split_once_eq {separator text before later : Text}
    (h : splitOnce separator text = some (before, later)) :
    text = before ++ separator ++ later := by
  induction text generalizing before later with
  | nil =>
      unfold splitOnce at h
      by_cases hempty : separator = []
      · rw [if_pos hempty] at h
        cases h
        rw [hempty]
        rfl
      · rw [if_neg hempty] at h
        exact nomatch h
  | cons c rest ih =>
      unfold splitOnce at h
      by_cases hstarts : separator.isPrefixOf (c :: rest) = true
      · rw [if_pos hstarts] at h
        cases h
        exact (List.prefix_iff_eq_append.mp (List.isPrefixOf_iff_prefix.mp hstarts)).symm
      · rw [if_neg hstarts] at h
        obtain ⟨⟨first, second⟩, hsplit, heq⟩ := Option.map_eq_some_iff.mp h
        cases heq
        rw [ih hsplit]
        rfl

/-- A text is split at the first separator. -/
theorem split_once_word {before : Text} (h : ∀ c ∈ before, isWhitespace c = false) (later : Text) :
    splitOnce " = ".toList (before ++ " = ".toList ++ later) = some (before, later) := by
  induction before with
  | nil =>
      cases later with
      | nil => rfl
      | cons c rest => rfl
  | cons c rest ih =>
      -- the separator starts with a blank
      have hblank : ' ' ≠ c := by
        rintro rfl
        exact absurd (h ' ' List.mem_cons_self) (by decide)
      have hstarts : ¬ " = ".toList.isPrefixOf (c :: (rest ++ " = ".toList ++ later)) = true := by
        intro hfound
        obtain ⟨hfirst, _⟩ := List.cons_prefix_cons.mp (List.isPrefixOf_iff_prefix.mp hfound)
        exact hblank hfirst
      rw [List.cons_append, List.cons_append, splitOnce, if_neg hstarts,
        ih fun other hother => h other (List.mem_cons_of_mem c hother)]
      rfl

/-- A text that `lines` leaves in one piece. -/
def OneLine (text : Text) : Prop :=
  ∀ c ∈ text, c ≠ '\n' ∧ c ≠ '\r'

instance (text : Text) : Decidable (OneLine text) :=
  decidable_of_iff (text.all (fun c => c != '\n' && c != '\r') = true) (by simp [OneLine])

/-- The first line of a text that starts with a line and its ending. -/
theorem lines_line {line : Text} (h : OneLine line) (rest : Text) :
    lines (line ++ '\n' :: rest) = line :: lines rest := by
  induction line with
  | nil => rfl
  | cons c others ih =>
      obtain ⟨hfeed, hreturn⟩ := h c List.mem_cons_self
      have hothers := ih fun other hother => h other (List.mem_cons_of_mem c hother)
      rw [List.cons_append, lines]
      · rw [hothers]
      · exact fun heq => hfeed heq
      · exact fun _ heq => absurd heq hreturn

end Mqom.Kat
