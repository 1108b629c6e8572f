import Mqom.Kat.Reader

/-!
# Records that the reader completes from other stanzas

A stanza is a maximal run of lines that are not blank, and a record is a stanza with a count. The
reader forgets the fields it has read only after a record. So the fields of a stanza without a
count are still there when the next record ends, and that record is checked with them unless it
has lines for the same fields.
-/

namespace Mqom.Kat

open Rust

/-! ## Stanzas -/

/-- The stanzas of some lines that come after the lines of an unfinished stanza. -/
def stanzasFrom (stanza : List Text) : List Text → List (List Text)
  | [] => if stanza = [] then [] else [stanza]
  | line :: rest =>
    if isBlank line then
      if stanza = [] then stanzasFrom [] rest else stanza :: stanzasFrom [] rest
    else stanzasFrom (stanza ++ [line]) rest

/-- The stanzas of a text. -/
def stanzas (contents : Text) : List (List Text) :=
  stanzasFrom [] (lines contents)

/-- The records of a text. -/
def records (contents : Text) : List (List Text) :=
  (stanzas contents).filter (setsField "count".toList)

/-- The lines of a stanza are not blank. -/
theorem stanzas_from_lines {stanza remaining : List Text}
    (h : ∀ line ∈ stanza, isBlank line = false) :
    ∀ other ∈ stanzasFrom stanza remaining, ∀ line ∈ other, isBlank line = false := by
  induction remaining generalizing stanza with
  | nil =>
      intro other hother
      unfold stanzasFrom at hother
      split at hother
      · exact absurd hother List.not_mem_nil
      · rw [List.mem_singleton.mp hother]
        exact h
  | cons line rest ih =>
      intro other hother
      unfold stanzasFrom at hother
      have hfresh : ∀ line ∈ ([] : List Text), isBlank line = false := fun line hline =>
        absurd hline List.not_mem_nil
      split at hother
      · split at hother
        · exact ih hfresh other hother
        · rcases List.mem_cons.mp hother with rfl | hrest
          · exact h
          · exact ih hfresh other hrest
      · rename_i hblank
        refine ih (fun earlier hearlier => ?_) other hother
        rcases List.mem_append.mp hearlier with hstanza | hline
        · exact h earlier hstanza
        · rw [List.mem_singleton.mp hline]
          exact Bool.eq_false_of_not_eq_true hblank

section Stanzas

variable (native : Native)

/-- Reading a stanza and the blank line after it. -/
def readStanza (state : ReaderState) (stanza : List Text) : Report ReaderState := do
  let state ← stanza.foldlM (readLine native) state
  readLine native state []

/-- After a blank line there is no unfinished record. -/
theorem read_line_nil_count {state next : ReaderState}
    (h : (readLine native state []).outcome = .ok next) : next.current.count = none := by
  cases hcount : state.current.count with
  | none =>
      rw [read_line_nil native hcount] at h
      obtain rfl := Except.ok.inj h
      exact hcount
  | some count =>
      rw [read_line_record native (by rw [hcount]; rfl), Run.after_outcome] at h
      obtain ⟨text, _, hnext⟩ := Run.bind_outcome_ok.mp h
      obtain rfl := Except.ok.inj hnext
      rfl

/-- Reading lines is reading their stanzas. -/
theorem read_stanzas (stanza remaining : List Text) {state : ReaderState}
    (h : state.current.count = none) :
    (stanza ++ remaining ++ [[]]).foldlM (readLine native) state =
      (stanzasFrom stanza remaining).foldlM (readStanza native) state := by
  induction remaining generalizing stanza state with
  | nil =>
      rw [List.append_nil, List.foldlM_append, stanzasFrom]
      by_cases hempty : stanza = []
      · rw [if_pos hempty, hempty, List.foldlM_nil, pure_bind, List.foldlM_cons,
          read_line_nil native h]
        rfl
      · rw [if_neg hempty, List.foldlM_cons]
        simp only [List.foldlM_cons, List.foldlM_nil, readStanza, bind_assoc]
  | cons line rest ih =>
      rw [stanzasFrom]
      cases hblank : isBlank line with
      | true =>
          have hline : ∀ start, (line :: rest ++ [[]]).foldlM (readLine native) start =
              readLine native start [] >>= (rest ++ [[]]).foldlM (readLine native) :=
            fun start => by
              rw [List.cons_append, List.foldlM_cons, read_line_blank native start hblank]
          rw [if_pos rfl, List.append_assoc, List.foldlM_append]
          simp only [hline]
          -- a blank line ends a stanza; a second one in a row changes nothing
          by_cases hempty : stanza = []
          · rw [if_pos hempty, hempty, List.foldlM_nil, pure_bind, read_line_nil native h,
              Run.ret_bind, Run.after_nil]
            exact ih [] h
          · rw [if_neg hempty, List.foldlM_cons, readStanza, bind_assoc]
            exact bind_congr fun _ => Run.bind_congr_ok fun next hnext =>
              ih [] (read_line_nil_count native hnext)
      | false =>
          have hsplit : stanza ++ line :: rest = stanza ++ [line] ++ rest := by
            rw [List.append_assoc, List.singleton_append]
          rw [if_neg Bool.false_ne_true, hsplit]
          exact ih (stanza ++ [line]) h

end Stanzas

/-! ## Stanzas whose fields stay -/

/-- Whether some lines set all fields that earlier lines set. -/
def Covers (earlier later : List Text) : Prop :=
  ∀ name ∈ fieldNames, setsField name earlier → setsField name later

/-- Lines set the fields that one part of them sets. -/
theorem sets_field_append (name : Text) (earlier later : List Text) :
    setsField name (earlier ++ later) = (setsField name later || setsField name earlier) := by
  rw [setsField, last_value_of_append]
  exact Option.isSome_or

/-- A record is checked as it stands exactly when it covers the lines kept from before it. -/
theorem covers_iff {pending stanza : List Text} (hpending : ∀ line ∈ pending, Readable line)
    (hstanza : ∀ line ∈ stanza, Readable line)
    (hcount : setsField "count".toList stanza = true) :
    Covers pending stanza ↔ caseOf (pending ++ stanza) = caseOf stanza := by
  have hboth : ∀ line ∈ pending ++ stanza, Readable line := fun line hline =>
    (List.mem_append.mp hline).elim (hpending line) (hstanza line)
  constructor
  · intro hcovers
    -- each field comes from its last line, and a covering record has that line
    have hlast : ∀ name ∈ "count".toList :: fieldNames,
        lastValue name (pending ++ stanza) = lastValue name stanza := fun name hname => by
      rw [last_value_of_append]
      cases hlater : lastValue name stanza with
      | some value => rfl
      | none =>
          have hunset : setsField name stanza = false := by
            rw [setsField, hlater]
            rfl
          rcases List.mem_cons.mp hname with rfl | hfield
          · rw [hcount] at hunset
            exact nomatch hunset
          · have hearlier : ¬ setsField name pending = true := fun hset => by
              rw [hcovers name hfield hset] at hunset
              exact nomatch hunset
            exact Option.not_isSome_iff_eq_none.mp hearlier
    unfold caseOf
    simp (disch := decide) only [hlast]
  · intro hcase name hname hset
    have hmem : name ∈ "count".toList :: fieldNames := List.mem_cons_of_mem _ hname
    rw [← case_of_has_field hmem hstanza, ← hcase, case_of_has_field hmem hboth,
      sets_field_append, hset, Bool.or_true]

section Records

variable (native : Native)

/-- Every record that the reader comes to sets all fields that were set by lines since the record
before it. The reader comes to a record when the lines before it can be read and the records
before it are accepted. -/
def OwnFieldsFrom : List Text → Nat → List (List Text) → Prop
  | _, _, [] => True
  | pending, verified, stanza :: rest =>
    (∀ line ∈ stanza, Readable line) →
      if setsField "count".toList stanza then
        Covers pending stanza ∧
          (Verifies native (caseOf stanza) (verified == 0) →
            OwnFieldsFrom [] (verified + 1) rest)
      else OwnFieldsFrom (pending ++ stanza) verified rest

/-- Every record of a text that the reader comes to has its own fields. -/
def OwnFields (contents : Text) : Prop :=
  OwnFieldsFrom native [] 0 (stanzas contents)

/-- The records of a text are checked as they stand, and a record without a field of its own is
an error. -/
def NeverMixes (contents : Text) : Prop :=
  (verifyResponse native contents).events <+: (records contents).map caseOf ∧
    ∀ record ∈ records contents, (∃ name ∈ fieldNames, setsField name record = false) →
      ∃ message, (verifyResponse native contents).outcome = .error (.none message)

/-- Lines that the reader has read since the last record. -/
structure Kept (pending : List Text) : Prop where
  readable : ∀ line ∈ pending, Readable line
  uncounted : setsField "count".toList pending = false

/-- No lines are kept at the start. -/
theorem Kept.nil : Kept [] :=
  ⟨fun _ hline => absurd hline List.not_mem_nil, rfl⟩

variable {pending stanza : List Text} {verified : Nat} {rustResponse : Text}

/-- A stanza without a count is kept. -/
theorem Kept.append (h : Kept pending) (hstanza : ∀ line ∈ stanza, Readable line)
    (hcount : setsField "count".toList stanza = false) : Kept (pending ++ stanza) where
  readable line hline := (List.mem_append.mp hline).elim (h.readable line) (hstanza line)
  uncounted := by rw [sets_field_append, hcount, h.uncounted, Bool.false_or]

/-- The case made of kept lines and a stanza has a count exactly when the stanza has one. -/
theorem Kept.count (h : Kept pending) (hstanza : ∀ line ∈ stanza, Readable line) :
    (caseOf (pending ++ stanza)).count.isSome = setsField "count".toList stanza := by
  have hboth : ∀ line ∈ pending ++ stanza, Readable line := fun line hline =>
    (List.mem_append.mp hline).elim (h.readable line) (hstanza line)
  have hfield := case_of_has_field (List.mem_cons_self (a := "count".toList)) hboth
  rw [sets_field_append, h.uncounted, Bool.or_false] at hfield
  exact hfield

/-- A stanza without a count is kept. -/
theorem read_stanza_kept (hblank : ∀ line ∈ stanza, isBlank line = false) (hkept : Kept pending)
    (hstanza : ∀ line ∈ stanza, Readable line)
    (hcount : setsField "count".toList stanza = false) :
    readStanza native ⟨caseOf pending, verified, rustResponse⟩ stanza =
      Run.ret ⟨caseOf (pending ++ stanza), verified, rustResponse⟩ [] := by
  have hnone : (caseOf (pending ++ stanza)).count = none := by
    rw [← Option.isNone_iff_eq_none, ← Option.not_isSome, hkept.count hstanza, hcount]
    rfl
  rw [readStanza, read_lines_readable native hblank hstanza, Run.ret_bind, Run.after_nil]
  exact read_line_nil native hnone

/-- A record is checked together with what was kept. -/
theorem read_stanza_record (hblank : ∀ line ∈ stanza, isBlank line = false)
    (hkept : Kept pending) (hstanza : ∀ line ∈ stanza, Readable line)
    (hcount : setsField "count".toList stanza = true) :
    readStanza native ⟨caseOf pending, verified, rustResponse⟩ stanza =
      (verifyCase native (caseOf (pending ++ stanza)) (verified == 0) rustResponse >>= fun text =>
        Run.ret ⟨caseOf [], verified + 1, text⟩ []).after [caseOf (pending ++ stanza)] := by
  have hsome : (caseOf (pending ++ stanza)).count.isSome := by rw [hkept.count hstanza, hcount]
  rw [readStanza, read_lines_readable native hblank hstanza, Run.ret_bind, Run.after_nil]
  exact read_line_record native hsome

/-- At a stanza that cannot be read the reader stops. -/
theorem read_stanza_unreadable (pending : List Text) (verified : Nat) (rustResponse : Text)
    (hblank : ∀ line ∈ stanza, isBlank line = false) (h : ¬ ∀ line ∈ stanza, Readable line) :
    ∃ message, readStanza native ⟨caseOf pending, verified, rustResponse⟩ stanza =
      Run.halt (.none message) := by
  obtain ⟨message, hhalt⟩ := read_lines_unreadable native hblank h
  exact ⟨message, by rw [readStanza, hhalt, Run.halt_bind]⟩

/-! ## Whole responses -/

/-- The reader passes the records on as they stand exactly when the records that it comes to have
their own fields. -/
theorem events_iff {sections : List (List Text)}
    (hblank : ∀ stanza ∈ sections, ∀ line ∈ stanza, isBlank line = false) (hkept : Kept pending) :
    (sections.foldlM (readStanza native) ⟨caseOf pending, verified, rustResponse⟩).events <+:
        (sections.filter (setsField "count".toList)).map caseOf ↔
      OwnFieldsFrom native pending verified sections := by
  induction sections generalizing pending verified rustResponse with
  | nil => exact ⟨fun _ => trivial, fun _ => List.nil_prefix⟩
  | cons stanza rest ih =>
      have hfirst := hblank stanza List.mem_cons_self
      have hrest : ∀ other ∈ rest, ∀ line ∈ other, isBlank line = false := fun other hother =>
        hblank other (List.mem_cons_of_mem stanza hother)
      rw [List.foldlM_cons, OwnFieldsFrom]
      by_cases hstanza : ∀ line ∈ stanza, Readable line
      · rw [forall_prop_of_true hstanza]
        cases hcount : setsField "count".toList stanza with
        | false =>
            rw [read_stanza_kept native hfirst hkept hstanza hcount, Run.ret_bind, Run.after_nil,
              List.filter_cons_of_neg (by rw [hcount]; exact Bool.false_ne_true),
              if_neg Bool.false_ne_true]
            exact ih hrest (hkept.append hstanza hcount)
        | true =>
            rw [read_stanza_record native hfirst hkept hstanza hcount, Run.after_bind,
              Run.after_events, List.filter_cons_of_pos hcount, List.map_cons,
              List.singleton_append, List.cons_prefix_cons, if_pos rfl,
              covers_iff hkept.readable hstanza hcount]
            -- the record is passed on as it stands, and what follows depends on its check
            refine and_congr_right fun hcase => ?_
            rw [hcase, verifies_iff native (caseOf stanza) (verified == 0) rustResponse]
            rcases verify_case_quiet native (caseOf stanza) (verified == 0) rustResponse with
              ⟨text, htext⟩ | ⟨message, hhalt⟩
            · rw [htext, Run.ret_bind, Run.after_ret, Run.ret_bind]
              exact (ih hrest Kept.nil).trans ⟨fun h _ => h, fun h => h ⟨text, rfl⟩⟩
            · rw [hhalt, Run.halt_bind, Run.halt_bind]
              exact ⟨fun _ ⟨_, hok⟩ => (nomatch hok), fun _ => List.nil_prefix⟩
      · obtain ⟨message, hhalt⟩ := read_stanza_unreadable native pending verified rustResponse
          hfirst hstanza
        rw [hhalt, Run.halt_bind]
        exact ⟨fun _ h => absurd h hstanza, fun _ => List.nil_prefix⟩

/-- When the records that the reader comes to have their own fields, a record without one is an
error. -/
theorem lacking_error {sections : List (List Text)}
    (hblank : ∀ stanza ∈ sections, ∀ line ∈ stanza, isBlank line = false) (hkept : Kept pending)
    (hown : OwnFieldsFrom native pending verified sections) {record : List Text}
    (hrecord : record ∈ sections) (hcounted : setsField "count".toList record = true)
    {name : Text} (hname : name ∈ fieldNames) (hlacks : setsField name record = false) :
    ∃ message, (sections.foldlM (readStanza native)
      ⟨caseOf pending, verified, rustResponse⟩).outcome = .error (.none message) := by
  induction sections generalizing pending verified rustResponse with
  | nil => exact absurd hrecord List.not_mem_nil
  | cons stanza rest ih =>
      have hfirst := hblank stanza List.mem_cons_self
      have hrest : ∀ other ∈ rest, ∀ line ∈ other, isBlank line = false := fun other hother =>
        hblank other (List.mem_cons_of_mem stanza hother)
      rw [List.foldlM_cons]
      by_cases hstanza : ∀ line ∈ stanza, Readable line
      · have hown := hown hstanza
        cases hcount : setsField "count".toList stanza with
        | false =>
            rw [hcount, if_neg Bool.false_ne_true] at hown
            -- a stanza without a count is no record, and its lines stay
            rcases List.mem_cons.mp hrecord with rfl | hlater
            · rw [hcounted] at hcount
              exact nomatch hcount
            · rw [read_stanza_kept native hfirst hkept hstanza hcount, Run.ret_bind, Run.after_nil]
              exact ih hrest (hkept.append hstanza hcount) hown hlater
        | true =>
            rw [hcount, if_pos rfl, covers_iff hkept.readable hstanza hcount,
              verifies_iff native (caseOf stanza) (verified == 0) rustResponse] at hown
            rw [read_stanza_record native hfirst hkept hstanza hcount, Run.after_bind,
              Run.after_outcome, hown.1]
            rcases verify_case_quiet native (caseOf stanza) (verified == 0) rustResponse with
              ⟨text, htext⟩ | ⟨message, hhalt⟩
            · have hverifies := (verifies_iff native (caseOf stanza) (verified == 0)
                rustResponse).mpr ⟨text, by rw [htext]; rfl⟩
              -- an accepted record has all fields, so the one that lacks a field comes later
              rcases List.mem_cons.mp hrecord with rfl | hlater
              · have hfield := verifies_fields hverifies hname
                rw [case_of_has_field (List.mem_cons_of_mem _ hname) hstanza, hlacks] at hfield
                exact nomatch hfield
              · rw [htext, Run.ret_bind, Run.after_ret, Run.ret_bind]
                exact ih hrest Kept.nil (hown.2 ⟨text, by rw [htext]; rfl⟩) hlater
            · exact ⟨message, by rw [hhalt]; rfl⟩
      · obtain ⟨message, hhalt⟩ := read_stanza_unreadable native pending verified rustResponse
          hfirst hstanza
        exact ⟨message, by rw [hhalt]; rfl⟩

/-- The variables of `verify_response` before the first line. -/
def readerStart : ReaderState :=
  ⟨caseOf [], 0, "# MQOM2-L1-gf16-short-r5\n\n".toList⟩

/-- The reader reads the stanzas and then compares the number of cases. -/
theorem verify_response_eq (contents : Text) :
    verifyResponse native contents =
      ((stanzas contents).foldlM (readStanza native) readerStart >>= fun state => do
        Run.require ("native verifier expected 100 cases, found ".toList ++ decimal state.verified)
          (state.verified = 100)
        pure (state.verified, state.rustResponse)) := by
  have hnone : readerStart.current.count = none := rfl
  rw [stanzas, ← read_stanzas native [] (lines contents) hnone]
  rfl

/-- The comparison at the end passes no case on. -/
theorem verify_response_events (contents : Text) :
    (verifyResponse native contents).events =
      ((stanzas contents).foldlM (readStanza native) readerStart).events := by
  rw [verify_response_eq]
  obtain ⟨state, h⟩ | ⟨reason, h⟩ :=
    ((stanzas contents).foldlM (readStanza native) readerStart).cases_after
  · rw [h, Run.ret_bind, Run.after_events]
    by_cases hall : state.verified = 100
    · rw [Run.require_of hall]
      exact List.append_nil _
    · rw [Run.require_of_not hall]
      exact List.append_nil _
  · rw [h, Run.after_bind, Run.halt_bind]
    rfl

/-- The reader mixes no records exactly when every record that it comes to has lines of its own
for the fields that stanzas without a count, since the record before it, have lines for. -/
theorem never_mixes_iff (contents : Text) :
    NeverMixes native contents ↔ OwnFields native contents := by
  have hblank : ∀ stanza ∈ stanzas contents, ∀ line ∈ stanza, isBlank line = false :=
    stanzas_from_lines fun line hline => absurd hline List.not_mem_nil
  have hevents : (verifyResponse native contents).events <+: (records contents).map caseOf ↔
      OwnFields native contents := by
    rw [verify_response_events]
    exact events_iff native hblank Kept.nil
  unfold NeverMixes
  rw [hevents]
  refine and_iff_left_of_imp fun hown record hrecord hlacks => ?_
  obtain ⟨hmem, hcounted⟩ := List.mem_filter.mp hrecord
  obtain ⟨name, hname, hlacks⟩ := hlacks
  obtain ⟨message, herror⟩ := lacking_error native hblank Kept.nil hown hmem hcounted hname hlacks
  rw [verify_response_eq]
  exact ⟨message, Run.bind_outcome_of_error herror⟩

end Records

/-- Native functions that fail. -/
def failingNative : Native where
  KatDrbg := Unit
  new _ := ()
  generate _ := (none, ())
  trySignWithRng _ _ _ := (none, ())
  verify _ _ _ := false

/-- A stanza with a seed and no count, and a record with a count and no seed. -/
def splitResponse : Text := "seed = AB\n\ncount = 7\n".toList

/-- The record is checked with the seed of the stanza before it. -/
theorem split_response_mixes : ¬ NeverMixes failingNative splitResponse :=
  fun h => absurd h.1 (by decide)

end Mqom.Kat
