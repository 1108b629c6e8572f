import Mqom.Kat.Records

/-!
# Reading a response that was written

`verify_response` writes the known answers that it has checked. The text it writes is read back as
the same known answers, whatever the text looked like that they were read from, so they are checked
again with the same result and the same text is written again.
-/

namespace Mqom.Kat

open Rust

/-! ## Entries -/

/-- The line for a name and a value. -/
def entryLine (entry : Text × Text) : Text :=
  entry.1 ++ " = ".toList ++ entry.2

/-- A name and a value that can be read back from their line. -/
structure Plain (entry : Text × Text) : Prop where
  name : Word entry.1
  noComment : entry.1.head? ≠ some '#'
  value : Word entry.2

namespace Plain

variable {entry : Text × Text}

/-- A line starts as its name does. -/
theorem head (h : Plain entry) : (entryLine entry).head? = entry.1.head? := by
  rw [entryLine, List.append_assoc, List.head?_append_of_ne_nil _ h.name.1]

/-- A line has no space around it. -/
theorem trim_line (h : Plain entry) : trim (entryLine entry) = entryLine entry := by
  apply trim_eq_self
  · intro c hc
    rw [h.head] at hc
    exact h.name.2 c (List.mem_of_mem_head? hc)
  · intro c hc
    rw [entryLine, List.getLast?_append_of_ne_nil _ h.value.1] at hc
    exact h.value.2 c (List.mem_of_getLast? hc)

/-- A line is read back as its entry. -/
theorem line_entry (h : Plain entry) : lineEntry (entryLine entry) = some entry := by
  rw [lineEntry, h.trim_line, if_neg (by rw [h.head]; exact h.noComment)]
  exact split_once_word h.name.2 entry.2

/-- A line is not blank. -/
theorem not_blank (h : Plain entry) : isBlank (entryLine entry) = false := by
  rw [isBlank, h.trim_line]
  apply decide_eq_false
  rw [entryLine, List.append_assoc]
  exact List.append_ne_nil_of_left_ne_nil h.name.1 _

/-- A line has no line break. -/
theorem one_line (h : Plain entry) : OneLine (entryLine entry) := by
  have hword : ∀ c, isWhitespace c = false → c ≠ '\n' ∧ c ≠ '\r' := by
    intro c hc
    constructor <;> rintro rfl <;> exact absurd hc (by decide)
  intro c hc
  rcases List.mem_append.mp hc with hfront | hvalue
  · rcases List.mem_append.mp hfront with hname | hseparator
    · exact hword c (h.name.2 c hname)
    · have hplain : OneLine " = ".toList := by decide
      exact hplain c hseparator
  · exact hword c (h.value.2 c hvalue)

end Plain

/-- The lines of plain entries hold the last value of each name. -/
theorem last_value_entries {entries : List (Text × Text)} (h : ∀ entry ∈ entries, Plain entry)
    (name : Text) : lastValue name (entries.map entryLine) =
      (entries.filterMap fun entry => if entry.1 = name then some entry.2 else none).getLast? := by
  rw [lastValue, List.filterMap_map]
  congr 1
  apply List.filterMap_congr
  intro entry hentry
  exact value_from_eq (h entry hentry).line_entry name

/-- Lines are found in the text that consists of them. -/
theorem lines_of_lines {written : List Text} (h : ∀ line ∈ written, OneLine line) (rest : Text) :
    lines (written.flatMap (fun line => line ++ ['\n']) ++ rest) = written ++ lines rest := by
  induction written with
  | nil => rfl
  | cons line others ih =>
      rw [List.flatMap_cons, List.append_assoc, List.append_assoc, List.singleton_append,
        lines_line (h line List.mem_cons_self),
        ih fun other hother => h other (List.mem_cons_of_mem line hother), List.cons_append]

/-- A stanza and the blank line after it. -/
theorem stanzas_from_stanza {pending stanza : List Text}
    (hblank : ∀ line ∈ stanza, isBlank line = false) (hne : pending ++ stanza ≠ [])
    (rest : List Text) :
    stanzasFrom pending (stanza ++ [] :: rest) = (pending ++ stanza) :: stanzasFrom [] rest := by
  induction stanza generalizing pending with
  | nil =>
      rw [List.append_nil] at hne ⊢
      have hend : isBlank [] = true := rfl
      rw [List.nil_append, stanzasFrom, if_pos hend, if_neg hne]
  | cons line others ih =>
      have hsplit : pending ++ line :: others = pending ++ [line] ++ others := by
        rw [List.append_assoc, List.singleton_append]
      rw [hsplit] at hne ⊢
      rw [List.cons_append, stanzasFrom, hblank line List.mem_cons_self,
        if_neg Bool.false_ne_true]
      exact ih (fun other hother => hblank other (List.mem_cons_of_mem line hother)) hne

/-- A number that is written can be read. -/
theorem number_of_decimal {n : Nat} (h : n < 2 ^ 64) : numberOf (decimal n) = some n := by
  rw [numberOf, parse_decimal_text h]
  rfl

/-! ## Known answers -/

namespace KnownAnswer

/-- The names and values that are written for a known answer. -/
def entries (answer : KnownAnswer) : List (Text × Text) :=
  [("count".toList, decimal answer.count),
    ("seed".toList, hexText answer.seed.toList),
    ("mlen".toList, decimal answer.message.length),
    ("msg".toList, hexText answer.message),
    ("pk".toList, hexText answer.key.verifyingKey.encoded.toList),
    ("sk".toList, hexText answer.key.toBytes.toList),
    ("smlen".toList, decimal (answer.message.length + 2916)),
    ("sm".toList, hexText (answer.message ++ answer.signature.encoded.toList))]

/-- The stanza that is written for a known answer. -/
def stanza (answer : KnownAnswer) : List Text :=
  answer.entries.map entryLine

/-- The case that is read from this stanza. -/
def case (answer : KnownAnswer) : KatCase where
  count := some answer.count
  seed := some (hexText answer.seed.toList)
  messageLen := some answer.message.length
  message := some (hexText answer.message)
  publicKey := some (hexText answer.key.verifyingKey.encoded.toList)
  secretKey := some (hexText answer.key.toBytes.toList)
  signedMessageLen := some (answer.message.length + 2916)
  signedMessage := some (hexText (answer.message ++ answer.signature.encoded.toList))

/-- A known answer whose numbers fit and whose line for the message has a value. -/
structure Writable (answer : KnownAnswer) : Prop where
  count_lt : answer.count < 2 ^ 64
  message_ne_nil : answer.message ≠ []
  length_lt : answer.message.length + 2916 < 2 ^ 64

variable {answer : KnownAnswer}

/-- The text of an answer is its lines and a blank one. -/
theorem text_eq (answer : KnownAnswer) :
    answer.text = answer.stanza.flatMap (fun line => line ++ ['\n']) ++ ['\n'] := by
  have hlength : answer.signature.encoded.toList.length = 2916 := Bytes.length_toList _
  unfold text caseText stanza entries
  rw [hlength]
  simp only [List.map_cons, List.map_nil, List.flatMap_cons, List.flatMap_nil, entryLine, hexLine,
    hex_text_append, List.append_assoc, List.append_nil]
  rfl

/-- The written case states the answer. -/
theorem case_states (answer : KnownAnswer) : States answer.case answer where
  count := rfl
  seed := congrArg some (decode_hex_text _)
  messageLen := rfl
  message := congrArg some (decode_hex_text _)
  publicKey := congrArg some (decode_hex_text _)
  secretKey := congrArg some (decode_hex_text _)
  signedMessageLen := rfl
  signedMessage := congrArg some (decode_hex_text _)

/-- The fields of an answer are the count and the other names. -/
theorem entry_names (answer : KnownAnswer) :
    answer.entries.map Prod.fst = "count".toList :: fieldNames := rfl

/-- The values of an answer are words. -/
theorem Writable.values (h : answer.Writable) : ∀ entry ∈ answer.entries, Word entry.2 := by
  have hbytes : ∀ {n : Nat} (bytes : Bytes n), n ≠ 0 → Word (hexText bytes.toList) :=
    fun bytes hn => hex_text_word fun hnil => hn (by rw [← bytes.length_toList, hnil]; rfl)
  have hsigned : answer.message ++ answer.signature.encoded.toList ≠ [] :=
    List.append_ne_nil_of_left_ne_nil h.message_ne_nil _
  simp only [entries, List.forall_mem_cons]
  refine ⟨decimal_word _, hbytes _ (by omega), decimal_word _, hex_text_word h.message_ne_nil,
    hbytes _ (by omega), hbytes _ (by omega), decimal_word _, hex_text_word hsigned, ?_⟩
  exact fun entry hentry => absurd hentry List.not_mem_nil

/-- So its entries are plain. -/
theorem Writable.plain (h : answer.Writable) : ∀ entry ∈ answer.entries, Plain entry := by
  have hnames : ∀ name ∈ "count".toList :: fieldNames, Word name ∧ name.head? ≠ some '#' := by
    decide
  intro entry hentry
  obtain ⟨hname, hcomment⟩ := hnames entry.1 (by
    rw [← entry_names answer]
    exact List.mem_map_of_mem hentry)
  exact ⟨hname, hcomment, h.values entry hentry⟩

/-- Its numbers can be read. -/
theorem Writable.numbers (h : answer.Writable) :
    ∀ entry ∈ answer.entries, entry.1 ∈ numberNames → (numberOf entry.2).isSome = true := by
  have hnumber : ∀ {n : Nat}, n < 2 ^ 64 → (numberOf (decimal n)).isSome = true := fun hn =>
    Option.isSome_of_eq_some (number_of_decimal hn)
  have hlength := h.length_lt
  simp only [entries, List.forall_mem_cons]
  refine ⟨fun _ => hnumber h.count_lt, ?_, fun _ => hnumber (by omega), ?_, ?_, ?_,
    fun _ => hnumber hlength, ?_, fun entry hentry => absurd hentry List.not_mem_nil⟩
  all_goals exact fun hname => absurd hname (by decide)

/-- The lines that are written for an answer make its case. -/
theorem Writable.case_of_stanza (h : answer.Writable) : caseOf answer.stanza = answer.case := by
  have hlength := h.length_lt
  unfold caseOf stanza
  simp only [last_value_entries h.plain]
  refine KatCase.ext ?_ rfl ?_ rfl rfl rfl ?_ rfl
  · exact number_of_decimal h.count_lt
  · exact number_of_decimal (by omega)
  · exact number_of_decimal hlength

/-- Its lines are not blank. -/
theorem Writable.not_blank (h : answer.Writable) :
    ∀ line ∈ answer.stanza, isBlank line = false := by
  intro line hline
  obtain ⟨entry, hentry, rfl⟩ := List.mem_map.mp hline
  exact (h.plain entry hentry).not_blank

/-- All its lines can be read. -/
theorem Writable.readable (h : answer.Writable) : ∀ line ∈ answer.stanza, Readable line := by
  intro line hline
  obtain ⟨entry, hentry, rfl⟩ := List.mem_map.mp hline
  exact Or.inr ⟨entry, (h.plain entry hentry).line_entry, h.numbers entry hentry⟩

/-- Its stanza has a count. -/
theorem Writable.counted (h : answer.Writable) :
    setsField "count".toList answer.stanza = true := by
  rw [← case_of_has_field List.mem_cons_self h.readable, h.case_of_stanza]
  rfl

/-- The stanza is found in the written text. -/
theorem Writable.lines_text (h : answer.Writable) (rest : Text) :
    lines (answer.text ++ rest) = answer.stanza ++ [] :: lines rest := by
  have hends : ∀ line ∈ answer.stanza, OneLine line := by
    intro line hline
    obtain ⟨entry, hentry, rfl⟩ := List.mem_map.mp hline
    exact (h.plain entry hentry).one_line
  rw [text_eq, List.append_assoc, lines_of_lines hends]
  rfl

end KnownAnswer

/-! ## Values that have been read -/

/-- A value that has been read is not empty, since the line was trimmed. -/
theorem line_entry_value {line name value : Text} (h : lineEntry line = some (name, value)) :
    value ≠ [] := by
  rintro rfl
  by_cases hcomment : (trim line).head? = some '#'
  · rw [lineEntry, if_pos hcomment] at h
    cases h
  · rw [lineEntry, if_neg hcomment] at h
    -- without a value the line would end in the blank of the separator
    have hline := split_once_eq h
    have hlast : (trim line).getLast? = some ' ' := by
      rw [hline, List.append_nil, List.getLast?_append_of_ne_nil _ (by decide)]
      rfl
    exact absurd (trim_last hlast) (by decide)

/-- A number that has been read fits. -/
theorem number_of_lt {value : Text} {n : Nat} (h : numberOf value = some n) : n < 2 ^ 64 := by
  unfold numberOf at h
  cases hparsed : parseUsize value with
  | ok number =>
      rw [hparsed] at h
      obtain rfl := Option.some.inj h
      exact parse_usize_lt hparsed
  | error error =>
      rw [hparsed] at h
      exact nomatch h

/-- A known answer that has been read can be written. -/
theorem States.writable {pending : List Text} {answer : KnownAnswer}
    (h : States (caseOf pending) answer) : answer.Writable := by
  obtain ⟨_, _, hcount⟩ := Option.bind_eq_some_iff.mp h.count
  obtain ⟨_, _, hlength⟩ := Option.bind_eq_some_iff.mp h.signedMessageLen
  obtain ⟨text, htext, hmessage⟩ := Option.map_eq_some_iff.mp h.message
  obtain ⟨line, _, hentry⟩ := last_value_line htext
  exact ⟨number_of_lt hcount, decode_hex_ne_nil (line_entry_value hentry) hmessage,
    number_of_lt hlength⟩

/-! ## Responses -/

/-- The first line of a response. -/
def headerLine : Text := "# MQOM2-L1-gf16-short-r5".toList

/-- The header is not blank. -/
theorem header_not_blank : ∀ line ∈ [headerLine], isBlank line = false := by decide

/-- The response that is written for some known answers. -/
def responseText (answers : List KnownAnswer) : Text :=
  "# MQOM2-L1-gf16-short-r5\n\n".toList ++ answers.flatMap KnownAnswer.text

/-- Known answers that are reproduced when `verified` cases come before them. Only the first case
of a response is mutated. -/
def AllReproduced (native : Native) (verified : Nat) (answers : List KnownAnswer) : Prop :=
  ∀ entry ∈ answers.zipIdx verified,
    entry.1.Writable ∧ entry.1.Reproduced native (entry.2 == 0)

/-- The first answer is reproduced with the mutation tests and the rest without them. -/
theorem all_reproduced_cons {native : Native} {verified : Nat} {answer : KnownAnswer}
    {rest : List KnownAnswer} : AllReproduced native verified (answer :: rest) ↔
      (answer.Writable ∧ answer.Reproduced native (verified == 0)) ∧
        AllReproduced native (verified + 1) rest := by
  rw [AllReproduced, List.zipIdx_cons, List.forall_mem_cons]
  rfl

/-- Answers that are reproduced are writable. -/
theorem AllReproduced.writable {native : Native} {verified : Nat} {answers : List KnownAnswer}
    (h : AllReproduced native verified answers) : ∀ answer ∈ answers, answer.Writable := by
  intro answer hanswer
  obtain ⟨i, hi, rfl⟩ := List.getElem_of_mem hanswer
  exact (h (answers[i], verified + i)
    (List.mk_add_mem_zipIdx_iff_getElem?.mpr (List.getElem?_eq_getElem hi))).1

section Responses

variable (native : Native) {pending stanza : List Text} {verified : Nat} {rustResponse : Text}

/-- Accepted stanzas state known answers, and the response of these is written. -/
theorem answers_of_stanzas {sections : List (List Text)}
    (hblank : ∀ stanza ∈ sections, ∀ line ∈ stanza, isBlank line = false) (hkept : Kept pending)
    {last : ReaderState}
    (h : (sections.foldlM (readStanza native) ⟨caseOf pending, verified, rustResponse⟩).outcome =
      .ok last) :
    ∃ answers, AllReproduced native verified answers ∧
      List.Forall₂ States (sections.foldlM (readStanza native)
        ⟨caseOf pending, verified, rustResponse⟩).events answers ∧
      last.verified = verified + answers.length ∧
      last.rustResponse = rustResponse ++ answers.flatMap KnownAnswer.text := by
  induction sections generalizing pending verified rustResponse with
  | nil =>
      obtain rfl := Except.ok.inj h
      exact ⟨[], fun _ hentry => absurd hentry List.not_mem_nil, .nil, rfl,
        (List.append_nil _).symm⟩
  | cons stanza rest ih =>
      have hfirst := hblank stanza List.mem_cons_self
      have hrest : ∀ other ∈ rest, ∀ line ∈ other, isBlank line = false := fun other hother =>
        hblank other (List.mem_cons_of_mem stanza hother)
      rw [List.foldlM_cons] at h ⊢
      by_cases hstanza : ∀ line ∈ stanza, Readable line
      · cases hcount : setsField "count".toList stanza with
        | false =>
            -- the lines count for the next record
            rw [read_stanza_kept native hfirst hkept hstanza hcount, Run.ret_bind,
              Run.after_nil] at h ⊢
            exact ih hrest (hkept.append hstanza hcount) h
        | true =>
            -- a record ends here, and its case was accepted
            rw [read_stanza_record native hfirst hkept hstanza hcount, Run.after_bind] at h ⊢
            rcases verify_case_quiet native (caseOf (pending ++ stanza)) (verified == 0)
              rustResponse with ⟨text, htext⟩ | ⟨message, hhalt⟩
            · obtain ⟨answer, hstates, hreproduced, rfl⟩ :=
                verify_case_ok.mp (congrArg Run.outcome htext)
              rw [htext, Run.ret_bind, Run.after_nil, Run.ret_bind, Run.after_nil] at h ⊢
              obtain ⟨answers, hall, hevents, hverified, hresponse⟩ := ih hrest Kept.nil h
              refine ⟨answer :: answers,
                all_reproduced_cons.mpr ⟨⟨hstates.writable, hreproduced⟩, hall⟩,
                .cons hstates hevents, ?_, ?_⟩
              · rw [hverified, List.length_cons]
                omega
              · rw [hresponse, List.flatMap_cons, List.append_assoc]
            · rw [hhalt] at h
              exact nomatch h
      · obtain ⟨message, hhalt⟩ := read_stanza_unreadable native pending verified rustResponse
          hfirst hstanza
        rw [hhalt] at h
        exact nomatch h

/-- The stanza that was written for a known answer is read as this answer. -/
theorem read_answer {answer : KnownAnswer} (hwritable : answer.Writable)
    (hreproduced : answer.Reproduced native (verified == 0)) :
    readStanza native ⟨caseOf [], verified, rustResponse⟩ answer.stanza =
      Run.ret ⟨caseOf [], verified + 1, rustResponse ++ answer.text⟩ [answer.case] := by
  rw [read_stanza_record native hwritable.not_blank Kept.nil hwritable.readable hwritable.counted,
    List.nil_append, hwritable.case_of_stanza]
  have hok : (verifyCase native answer.case (verified == 0) rustResponse).outcome =
      .ok (rustResponse ++ answer.text) :=
    verify_case_ok.mpr ⟨answer, answer.case_states, hreproduced, rfl⟩
  rw [(verify_case_quiet native answer.case (verified == 0) rustResponse).eq_ret hok]
  rfl

/-- The stanzas that were written for known answers are read as these answers. -/
theorem read_answers {answers : List KnownAnswer} (h : AllReproduced native verified answers) :
    (answers.map KnownAnswer.stanza).foldlM (readStanza native)
        ⟨caseOf [], verified, rustResponse⟩ =
      Run.ret ⟨caseOf [], verified + answers.length,
        rustResponse ++ answers.flatMap KnownAnswer.text⟩ (answers.map KnownAnswer.case) := by
  induction answers generalizing verified rustResponse with
  | nil => rw [List.flatMap_nil, List.append_nil]; rfl
  | cons answer rest ih =>
      obtain ⟨⟨hwritable, hreproduced⟩, hrest⟩ := all_reproduced_cons.mp h
      rw [List.map_cons, List.foldlM_cons, read_answer native hwritable hreproduced, Run.ret_bind,
        ih hrest, List.flatMap_cons, List.append_assoc, List.length_cons, Nat.add_assoc,
        Nat.add_comm 1]
      rfl

/-- The lines of a response are the header, a blank line and the answers. -/
theorem lines_response (answers : List KnownAnswer) :
    lines (responseText answers) =
      [headerLine, []] ++ lines (answers.flatMap KnownAnswer.text) := by
  have hends : ∀ line ∈ [headerLine, []], OneLine line := by decide
  exact lines_of_lines hends _

/-- The stanzas after the header are those of the answers. -/
theorem stanzas_from_answers {answers : List KnownAnswer}
    (h : ∀ answer ∈ answers, answer.Writable) :
    stanzasFrom [] (lines (answers.flatMap KnownAnswer.text)) =
      answers.map KnownAnswer.stanza := by
  induction answers with
  | nil => rfl
  | cons answer rest ih =>
      have hwritable := h answer List.mem_cons_self
      have hne : ([] : List Text) ++ answer.stanza ≠ [] := List.cons_ne_nil _ _
      rw [List.flatMap_cons, hwritable.lines_text,
        stanzas_from_stanza hwritable.not_blank hne,
        ih fun other hother => h other (List.mem_cons_of_mem answer hother)]
      rfl

/-- The stanzas of a response that was written. -/
theorem stanzas_response {answers : List KnownAnswer} (h : ∀ answer ∈ answers, answer.Writable) :
    stanzas (responseText answers) = [headerLine] :: answers.map KnownAnswer.stanza := by
  have hne : ([] : List Text) ++ [headerLine] ≠ [] := List.cons_ne_nil _ _
  unfold stanzas
  rw [lines_response, ← stanzas_from_answers h]
  exact stanzas_from_stanza header_not_blank hne _

/-- The first line of a response is a comment. -/
theorem read_header : readStanza native readerStart [headerLine] = Run.ret readerStart [] := by
  have hreadable : ∀ line ∈ [headerLine], Readable line := by
    intro line hline
    obtain rfl := List.mem_singleton.mp hline
    exact Or.inl (by decide)
  exact read_stanza_kept native header_not_blank Kept.nil hreadable (by decide)

/-- A response that was written is accepted and written again. -/
theorem verify_response_text {answers : List KnownAnswer} (hall : AllReproduced native 0 answers)
    (hlength : answers.length = 100) :
    verifyResponse native (responseText answers) =
      Run.ret (100, responseText answers) (answers.map KnownAnswer.case) := by
  rw [verify_response_eq, stanzas_response hall.writable, List.foldlM_cons, read_header,
    Run.ret_bind, Run.after_nil, readerStart, read_answers native hall, Run.ret_bind, Nat.zero_add,
    hlength, Run.require_of rfl, Run.ret_bind]
  exact congrArg (Run.ret _) (List.append_nil _)

/-- The reader and the writer are inverse on accepted responses. The response that is written for
an accepted text states the same known answers, is accepted and is written again. -/
theorem response_regenerates {contents response : Text}
    (h : (verifyResponse native contents).outcome = .ok (100, response)) :
    (verifyResponse native response).outcome = .ok (100, response) ∧
      ∃ answers : List KnownAnswer, answers.length = 100 ∧
        List.Forall₂ States (verifyResponse native contents).events answers ∧
        List.Forall₂ States (verifyResponse native response).events answers := by
  have hblank : ∀ stanza ∈ stanzas contents, ∀ line ∈ stanza, isBlank line = false :=
    stanzas_from_lines fun line hline => absurd hline List.not_mem_nil
  rw [verify_response_events]
  rw [verify_response_eq] at h
  obtain ⟨last, hread, hwritten⟩ := Run.bind_outcome_ok.mp h
  obtain ⟨_, hcount, hlast⟩ := Run.bind_outcome_ok.mp hwritten
  obtain ⟨hverified, rfl⟩ := Prod.mk.inj (Except.ok.inj hlast)
  obtain ⟨answers, hall, hevents, hlength, hresponse⟩ :=
    answers_of_stanzas native hblank Kept.nil hread
  have htext : last.rustResponse = responseText answers := hresponse
  have hregenerated := verify_response_text native hall (by omega)
  rw [htext, hregenerated]
  refine ⟨rfl, answers, by omega, hevents, ?_⟩
  exact List.forall₂_map_left_iff.mpr
    (List.forall₂_same.mpr fun answer _ => answer.case_states)

end Responses

/-- Native functions with one key, one message and one signature. -/
def sampleNative : Native where
  KatDrbg := Unit
  new _ := ()
  generate _ := (some ⟨0⟩, ())
  trySignWithRng _ _ _ := (some ⟨0⟩, ())
  verify key message signature :=
    decide (key = SigningKey.verifyingKey ⟨0⟩ ∧ message = [1] ∧ signature = ⟨0⟩)

/-- A hundred known answers with different counts. -/
def sampleAnswers : List KnownAnswer :=
  (List.range 100).map fun count => ⟨count, 0, [1], ⟨0⟩, ⟨0⟩⟩

/-- The verifier of the example accepts one signature. -/
theorem sample_verify {key : VerifyingKey} {message : List UInt8} {signature : Signature} :
    sampleNative.verify key message signature = true ↔
      key = SigningKey.verifyingKey ⟨0⟩ ∧ message = [1] ∧ signature = ⟨0⟩ :=
  decide_eq_true_iff

/-- The native functions of the example reproduce its answers. -/
theorem sample_all_reproduced : AllReproduced sampleNative 0 sampleAnswers := by
  intro entry hentry
  obtain ⟨count, hcount, hanswer⟩ := List.mem_map.mp (List.fst_mem_of_mem_zipIdx hentry)
  have hlt := List.mem_range.mp hcount
  rw [← hanswer]
  refine ⟨⟨by dsimp only; omega, List.cons_ne_nil _ _, by simp⟩,
    ⟨rfl, rfl, sample_verify.mpr ⟨rfl, rfl, rfl⟩, fun _ => ?_⟩⟩
  exact reject_mutations_of_unique (fun _ _ _ h => sample_verify.mp h) (List.cons_ne_nil _ _)

/-- The known answers after a blank line, which is not written again. -/
theorem sample_response_regenerates :
    (verifyResponse sampleNative (responseText sampleAnswers)).outcome =
        .ok (100, responseText sampleAnswers) ∧
      ∃ answers : List KnownAnswer, answers.length = 100 ∧
        List.Forall₂ States
          (verifyResponse sampleNative ('\n' :: responseText sampleAnswers)).events answers ∧
        List.Forall₂ States
          (verifyResponse sampleNative (responseText sampleAnswers)).events answers := by
  have hlength : sampleAnswers.length = 100 := by
    rw [sampleAnswers, List.length_map, List.length_range]
  have hwritten := verify_response_text sampleNative sample_all_reproduced hlength
  have hstanzas : ∀ contents, stanzas ('\n' :: contents) = stanzas contents := fun _ => rfl
  have hblank : verifyResponse sampleNative ('\n' :: responseText sampleAnswers) =
      verifyResponse sampleNative (responseText sampleAnswers) := by
    rw [verify_response_eq, verify_response_eq, hstanzas]
  exact response_regenerates sampleNative (by rw [hblank, hwritten]; rfl)

end Mqom.Kat
