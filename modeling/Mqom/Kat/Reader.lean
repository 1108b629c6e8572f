import Mqom.Kat.Case

/-!
# Reading the lines of a response

The fields of a case are the values of the last lines for them, so a list of lines stands for the
case that the reader has made of it. One more line that can be read is one more line in the list.
-/

namespace Mqom.Kat

open Rust

/-! ## Lines and fields -/

/-- Whether a line is blank after trimming. -/
def isBlank (line : Text) : Bool :=
  decide (trim line = [])

/-- The name and the value of a line that is not a comment. -/
def lineEntry (line : Text) : Option (Text × Text) :=
  if (trim line).head? = some '#' then none else splitOnce " = ".toList (trim line)

/-- The value of a line for a name. -/
def valueFrom (name line : Text) : Option Text :=
  (lineEntry line).bind fun entry => if entry.1 = name then some entry.2 else none

/-- The value of the last line for a name. -/
def lastValue (name : Text) (stanza : List Text) : Option Text :=
  (stanza.filterMap (valueFrom name)).getLast?

/-- Whether some line is for a name. -/
def setsField (name : Text) (stanza : List Text) : Bool :=
  (lastValue name stanza).isSome

/-- A decimal number. -/
def numberOf (value : Text) : Option Nat :=
  (parseUsize value).toOption

/-- The case that some lines make, each field being set by the last line for it. -/
def caseOf (stanza : List Text) : KatCase where
  count := (lastValue "count".toList stanza).bind numberOf
  seed := lastValue "seed".toList stanza
  messageLen := (lastValue "mlen".toList stanza).bind numberOf
  message := lastValue "msg".toList stanza
  publicKey := lastValue "pk".toList stanza
  secretKey := lastValue "sk".toList stanza
  signedMessageLen := (lastValue "smlen".toList stanza).bind numberOf
  signedMessage := lastValue "sm".toList stanza

/-- The names whose values are numbers. -/
def numberNames : List Text :=
  ["count".toList, "mlen".toList, "smlen".toList]

/-- A line that the reader accepts: a comment, or an entry whose number can be parsed. -/
def Readable (line : Text) : Prop :=
  (trim line).head? = some '#' ∨
    ∃ entry, lineEntry line = some entry ∧
      (entry.1 ∈ numberNames → (numberOf entry.2).isSome)

/-- A line that sets a field sets no other field. -/
theorem value_from_eq {line name value : Text} (h : lineEntry line = some (name, value))
    (other : Text) : valueFrom other line = if name = other then some value else none := by
  rw [valueFrom, h]
  rfl

/-- A comment sets no field. -/
theorem value_from_of_comment {line : Text} (h : (trim line).head? = some '#') (name : Text) :
    valueFrom name line = none := by
  rw [valueFrom, lineEntry, if_pos h]
  rfl

/-- Later lines take precedence. -/
theorem last_value_of_append (name : Text) (earlier later : List Text) :
    lastValue name (earlier ++ later) = (lastValue name later).or (lastValue name earlier) := by
  rw [lastValue, List.filterMap_append, List.getLast?_append]
  rfl

/-- The last value of one line is its value. -/
theorem last_value_singleton (name line : Text) :
    lastValue name [line] = valueFrom name line := by
  rw [lastValue, List.filterMap_cons]
  cases valueFrom name line <;> rfl

/-- The last value comes from a line for the name. -/
theorem last_value_line {name value : Text} {stanza : List Text}
    (h : lastValue name stanza = some value) :
    ∃ line ∈ stanza, lineEntry line = some (name, value) := by
  obtain ⟨line, hline, hvalue⟩ := List.mem_filterMap.mp (List.mem_of_getLast? h)
  refine ⟨line, hline, ?_⟩
  rw [valueFrom, Option.bind_eq_some_iff] at hvalue
  obtain ⟨⟨other, found⟩, hentry, heq⟩ := hvalue
  by_cases hname : other = name
  · rw [if_pos hname] at heq
    cases hname
    cases heq
    exact hentry
  · rw [if_neg hname] at heq
    exact nomatch heq

/-- The last value of readable lines for a number can be parsed. -/
theorem last_number {name value : Text} {stanza : List Text} (hname : name ∈ numberNames)
    (hreadable : ∀ line ∈ stanza, Readable line) (h : lastValue name stanza = some value) :
    (numberOf value).isSome := by
  obtain ⟨line, hline, hentry⟩ := last_value_line h
  rcases hreadable line hline with hcomment | ⟨entry, hfound, hnumber⟩
  · rw [lineEntry, if_pos hcomment] at hentry
    exact nomatch hentry
  · rw [hentry] at hfound
    obtain rfl := Option.some.inj hfound
    exact hnumber hname

/-- A field of the case is set when some line sets it. -/
theorem case_of_has_field {name : Text} {stanza : List Text}
    (hname : name ∈ "count".toList :: fieldNames) (hreadable : ∀ line ∈ stanza, Readable line) :
    hasField (caseOf stanza) name = setsField name stanza := by
  have hnumber : name ∈ numberNames →
      ((lastValue name stanza).bind numberOf).isSome = setsField name stanza := fun hnumber => by
    unfold setsField
    cases hlast : lastValue name stanza with
    | none => rfl
    | some value => exact last_number hnumber hreadable hlast
  simp only [fieldNames, List.mem_cons, List.not_mem_nil, or_false] at hname
  rcases hname with rfl | rfl | rfl | rfl | rfl | rfl | rfl | rfl
  · exact hnumber (by decide)
  · rfl
  · exact hnumber (by decide)
  · rfl
  · rfl
  · rfl
  · exact hnumber (by decide)
  · rfl

/-! ## Reading lines -/

/-- A number is parsed quietly. -/
theorem parse_decimal_eq {value : Text} {number : Nat} (h : numberOf value = some number)
    (name : Text) : parseDecimal name value = Run.ret number [] := by
  unfold numberOf at h
  unfold parseDecimal
  cases hparsed : parseUsize value with
  | ok other =>
      rw [hparsed] at h
      cases h
      rfl
  | error error =>
      rw [hparsed] at h
      exact nomatch h

/-- Another text is an error that passes no case on. -/
theorem parse_decimal_of_none {value : Text} (h : numberOf value = none) (name : Text) :
    ∃ message, parseDecimal name value = Run.halt (.none message) := by
  unfold numberOf at h
  unfold parseDecimal
  cases hparsed : parseUsize value with
  | ok other =>
      rw [hparsed] at h
      exact nomatch h
  | error error => exact ⟨_, rfl⟩

section Lines

variable {pending : List Text} {line name value : Text}

/-- `setField` adds the value of one more line. -/
theorem set_field_eq (h : lineEntry line = some (name, value))
    (hnumber : name ∈ numberNames → (numberOf value).isSome) :
    setField (caseOf pending) name value = Run.ret (caseOf (pending ++ [line])) [] := by
  have hlast : ∀ other, lastValue other (pending ++ [line]) =
      (if name = other then some value else none).or (lastValue other pending) := fun other => by
    rw [last_value_of_append, last_value_singleton, value_from_eq h]
  unfold setField
  simp only [caseOf, hlast]
  clear hlast h
  -- The fields for the other names stay as they are.
  by_cases hnumeric : name ∈ numberNames
  · obtain ⟨number, hparsed⟩ := Option.isSome_iff_exists.mp (hnumber hnumeric)
    clear hnumber
    simp only [numberNames, List.mem_cons, List.not_mem_nil, or_false] at hnumeric
    rcases hnumeric with rfl | rfl | rfl <;>
      simp +decide only [parse_decimal_eq hparsed, hparsed, if_true, if_false, Run.ret_bind,
        Run.after_nil, Run.pure_eq_ret, Option.some_or, Option.none_or, Option.bind_some]
  by_cases htext : name ∈ fieldNames
  · simp only [fieldNames, List.mem_cons, List.not_mem_nil, or_false] at htext
    rcases htext with rfl | rfl | rfl | rfl | rfl | rfl | rfl
    -- the lengths are numbers
    case inr.inl | inr.inr.inr.inr.inr.inl => exact absurd (by decide) hnumeric
    all_goals simp +decide only [if_true, if_false, Run.pure_eq_ret, Option.some_or, Option.none_or]
  · simp only [numberNames, fieldNames, List.mem_cons, List.not_mem_nil, or_false, not_or]
      at hnumeric htext
    obtain ⟨hcount, hlen, hsigned⟩ := hnumeric
    obtain ⟨hseed, _, hmessage, hpublic, hsecret, _, hbytes⟩ := htext
    simp only [if_neg hcount, if_neg hseed, if_neg hlen, if_neg hmessage, if_neg hpublic,
      if_neg hsecret, if_neg hsigned, if_neg hbytes, Option.none_or, Run.pure_eq_ret]

/-- `setField` fails at a number that cannot be parsed. -/
theorem set_field_of_none (current : KatCase) (hname : name ∈ numberNames)
    (hnumber : numberOf value = none) :
    ∃ message, setField current name value = Run.halt (.none message) := by
  obtain ⟨message, hparse⟩ := parse_decimal_of_none hnumber name
  refine ⟨message, ?_⟩
  unfold setField
  rw [hparse]
  simp only [numberNames, List.mem_cons, List.not_mem_nil, or_false] at hname
  rcases hname with rfl | rfl | rfl <;> simp +decide

end Lines

section Lines

variable (native : Native) {pending : List Text} {line : Text} {verified : Nat}
  {rustResponse : Text}

/-- All blank lines are read alike. -/
theorem read_line_blank (state : ReaderState) (h : isBlank line = true) :
    readLine native state line = readLine native state [] := by
  have htrim : trim line = [] := of_decide_eq_true h
  unfold readLine
  rw [htrim]
  rfl

/-- A blank line before a record has started changes nothing. -/
theorem read_line_nil {state : ReaderState} (h : state.current.count = none) :
    readLine native state [] = Run.ret state [] := by
  unfold readLine
  rw [h]
  rfl

/-- A blank line after a count passes the case on. -/
theorem read_line_record {state : ReaderState} (h : state.current.count.isSome) :
    readLine native state [] =
      (verifyCase native state.current (state.verified == 0) state.rustResponse >>= fun text =>
        Run.ret ⟨{}, state.verified + 1, text⟩ []).after [state.current] := by
  unfold readLine
  rw [h]
  rfl

/-- A readable line is added to the lines that make the case. -/
theorem read_line_readable (hblank : isBlank line = false) (h : Readable line) :
    readLine native ⟨caseOf pending, verified, rustResponse⟩ line =
      Run.ret ⟨caseOf (pending ++ [line]), verified, rustResponse⟩ [] := by
  have htrim : trim line ≠ [] := of_decide_eq_false hblank
  unfold readLine
  simp only [if_neg htrim]
  by_cases hcomment : (trim line).head? = some '#'
  · have hlast : ∀ name, lastValue name (pending ++ [line]) = lastValue name pending :=
      fun name => by
        rw [last_value_of_append, last_value_singleton, value_from_of_comment hcomment,
          Option.none_or]
    simp only [if_pos hcomment, caseOf, hlast, Run.pure_eq_ret]
  · obtain hfalse | ⟨⟨name, value⟩, hentry, hnumber⟩ := h
    · exact absurd hfalse hcomment
    · have hsplit : splitOnce " = ".toList (trim line) = some (name, value) := by
        rw [← hentry, lineEntry, if_neg hcomment]
      simp only [if_neg hcomment, hsplit, set_field_eq hentry hnumber, Run.ret_bind,
        Run.after_nil, Run.pure_eq_ret]

/-- At any other line the reader stops with an error. -/
theorem read_line_unreadable (state : ReaderState) (hblank : isBlank line = false)
    (h : ¬ Readable line) :
    ∃ message, readLine native state line = Run.halt (.none message) := by
  have htrim : trim line ≠ [] := of_decide_eq_false hblank
  have hcomment : ¬ (trim line).head? = some '#' := fun hcomment => h (Or.inl hcomment)
  unfold readLine
  simp only [if_neg htrim, if_neg hcomment]
  cases hsplit : splitOnce " = ".toList (trim line) with
  | none => exact ⟨_, rfl⟩
  | some entry =>
      obtain ⟨name, value⟩ := entry
      have hentry : lineEntry line = some (name, value) := by
        rw [lineEntry, if_neg hcomment, hsplit]
      by_cases hname : name ∈ numberNames
      · cases hnumber : numberOf value with
        | none =>
            obtain ⟨message, hfield⟩ := set_field_of_none state.current hname hnumber
            exact ⟨message, by simp only [hfield, Run.halt_bind]⟩
        | some number =>
            exact absurd (Or.inr ⟨_, hentry, fun _ => by rw [hnumber]; rfl⟩) h
      · exact absurd (Or.inr ⟨_, hentry, fun hmem => absurd hmem hname⟩) h

/-- Readable lines are added to the lines that make the case. -/
theorem read_lines_readable {stanza : List Text} (hblank : ∀ line ∈ stanza, isBlank line = false)
    (h : ∀ line ∈ stanza, Readable line) :
    stanza.foldlM (readLine native) ⟨caseOf pending, verified, rustResponse⟩ =
      Run.ret ⟨caseOf (pending ++ stanza), verified, rustResponse⟩ [] := by
  induction stanza generalizing pending with
  | nil =>
      rw [List.append_nil]
      rfl
  | cons line rest ih =>
      rw [List.foldlM_cons, read_line_readable native (hblank line List.mem_cons_self)
          (h line List.mem_cons_self), Run.ret_bind, Run.after_nil,
        ih (fun other hother => hblank other (List.mem_cons_of_mem line hother))
          (fun other hother => h other (List.mem_cons_of_mem line hother)),
        List.append_assoc, List.singleton_append]

/-- Among other lines the reader stops with an error. -/
theorem read_lines_unreadable {stanza : List Text}
    (hblank : ∀ line ∈ stanza, isBlank line = false) (h : ¬ ∀ line ∈ stanza, Readable line) :
    ∃ message, stanza.foldlM (readLine native) ⟨caseOf pending, verified, rustResponse⟩ =
      Run.halt (.none message) := by
  induction stanza generalizing pending with
  | nil => exact absurd (fun line hline => absurd hline List.not_mem_nil) h
  | cons line rest ih =>
      have hfirst := hblank line List.mem_cons_self
      rw [List.foldlM_cons]
      by_cases hline : Readable line
      · rw [read_line_readable native hfirst hline, Run.ret_bind, Run.after_nil]
        refine ih (fun other hother => hblank other (List.mem_cons_of_mem line hother)) ?_
        intro hrest
        exact h (List.forall_mem_cons.mpr ⟨hline, hrest⟩)
      · obtain ⟨message, hhalt⟩ := read_line_unreadable native
          ⟨caseOf pending, verified, rustResponse⟩ hfirst hline
        exact ⟨message, by rw [hhalt, Run.halt_bind]⟩

end Lines

end Mqom.Kat
