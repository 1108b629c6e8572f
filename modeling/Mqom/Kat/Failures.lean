import Mqom.Kat.Native

/-!
# The failures of the known-answer tests

Every error of `verify_response` with the functions of the crate is about a line, about a field, a
length or a hexadecimal value of a record, about a key or a signature that is another one or cannot
be made, about a mutation that is accepted, or about the number of cases. The other errors of
`verify_case` and of the mutation tests are never reported: a key is always generated, what the
mutation tests read again has the right length, a signature that signing returns is accepted, and
there is a message to change, since no value that is read from a line is empty.
-/

namespace Mqom.Kat

open Rust

/-- The messages of the errors that `verify_response` can report. -/
inductive Failure : Text → Prop where
  | malformed (line : Text) : Failure ("malformed KAT line: ".toList ++ line)
  | number {name value : Text} {error : ParseIntError} (hname : name ∈ numberNames)
      (hempty : value ≠ []) (hvalue : parseUsize value = .error error) :
      Failure ("invalid ".toList ++ name ++ " value ".toList ++ value ++ ": ".toList ++
        error.message)
  | missing (count : Nat) {name : Text} (hname : name ∈ fieldNames) :
      Failure (caseMessage count (" has no ".toList ++ name))
  | oddLength : Failure "hex value has odd length".toList
  | digit (byte : UInt8) : Failure ("invalid hex digit: ".toList ++ [Char.ofNat byte.toNat])
  | seedLength {length : Nat} (hlength : length ≠ 48) :
      Failure ("expected ".toList ++ decimal 48 ++ " decoded bytes, found ".toList ++
        decimal length)
  | messageLengths (count : Nat) :
      Failure (caseMessage count " has inconsistent message lengths".toList)
  | publicKey (count : Nat) {length : Nat} (hlength : length ≠ 60) :
      Failure (caseMessage count (" public key: ".toList ++ encodingMessage ⟨60, length⟩))
  | otherKey (count : Nat) :
      Failure ("native key generation differs from KAT case ".toList ++ decimal count)
  | notSigned (count : Nat) :
      Failure ("native signing failed for KAT case ".toList ++ decimal count)
  | otherSignature (count : Nat) (position : Option Nat) :
      Failure ("native signature differs from KAT case ".toList ++ decimal count ++
        " at byte ".toList ++ debugPosition position)
  | signatureMutation (count : Nat) {position : Nat}
      (hposition : position ∈ [0, 16, 80, 272, 2915]) :
      Failure (caseMessage count (" accepted signature mutation at byte ".toList ++
        decimal position))
  | messageMutation (count : Nat) :
      Failure (caseMessage count " accepted a message mutation".toList)
  | keyMutation (count : Nat) :
      Failure (caseMessage count " accepted a public-key mutation".toList)
  | cases {found : Nat} (hfound : found ≠ 100) :
      Failure ("native verifier expected 100 cases, found ".toList ++ decimal found)

/-! ## Calls -/

/-- A call that returns a value or stops with one of these messages. -/
def Explained {α : Type} (run : Report α) : Prop :=
  ∀ reason, run.outcome = .error reason → ∃ message, Failure message ∧ reason = .none message

namespace Explained

variable {α β : Type}

/-- A returned value needs no explanation. -/
theorem ret (value : α) (events : List KatCase) : Explained (Run.ret value events : Report α) :=
  fun _ h => nomatch h

/-- An error with one of the messages is explained. -/
theorem halt {message : Text} (h : Failure message) :
    Explained (Run.halt (.none message) : Report α) :=
  fun _ heq => ⟨message, h, (Except.error.inj heq).symm⟩

/-- Explained calls follow one another. -/
theorem bind {run : Report α} {next : α → Report β} (hrun : Explained run)
    (hnext : ∀ value, run.outcome = .ok value → Explained (next value)) :
    Explained (run >>= next) := by
  intro reason h
  cases houtcome : run.outcome with
  | ok value =>
      rw [Run.bind_outcome_of_ok houtcome] at h
      exact hnext value houtcome reason h
  | error other =>
      rw [Run.bind_outcome_of_error houtcome] at h
      obtain rfl := Except.error.inj h
      exact hrun other houtcome

/-- A missing value is explained by its message. -/
theorem of_option {message : Text} {value : Option α} (h : value = none → Failure message) :
    Explained (Run.ofOption message value : Report α) := by
  cases value with
  | none => exact halt (h rfl)
  | some value => exact ret value []

/-- So is a condition that fails. -/
theorem require {message : Text} {condition : Prop} [Decidable condition]
    (h : ¬ condition → Failure message) :
    Explained (Run.require message condition : Report Unit) := by
  by_cases hcondition : condition
  · rw [Run.require_of hcondition]
    exact ret () []
  · rw [Run.require_of_not hcondition]
    exact halt (h hcondition)

/-- So is an error that is turned into a message. -/
theorem or_err {ε : Type} {describe : ε → Text} {result : Except ε α}
    (h : ∀ error, result = .error error → Failure (describe error)) :
    Explained (orErr describe result) := by
  cases result with
  | ok value => exact ret value []
  | error error => exact halt (h error rfl)

/-- A result without an error needs no explanation. -/
theorem or_err_of_ok {ε : Type} {describe : ε → Text} {result : Except ε α} {value : α}
    (h : result = .ok value) : Explained (orErr describe result) := by
  rw [h]
  exact ret value []

/-- A loop over explained calls is explained. -/
theorem for_each {call : α → Report Unit} (items : List α)
    (hcall : ∀ item ∈ items, Explained (call item)) : Explained (items.forM call) := by
  induction items with
  | nil => exact ret () []
  | cons item rest ih =>
      exact bind (hcall item List.mem_cons_self) fun _ _ =>
        ih fun other hother => hcall other (List.mem_cons_of_mem item hother)

/-- A loop stops with one of these messages when its steps do in the states that it reaches. -/
theorem loop {σ : Type} {step : σ → α → Report σ} (inv : σ → Prop)
    (hstep : ∀ state item, inv state → Explained (step state item))
    (hkeep : ∀ state item next, inv state → (step state item).outcome = .ok next → inv next)
    (items : List α) {state : σ} (h : inv state) : Explained (items.foldlM step state) := by
  induction items generalizing state with
  | nil => exact ret state []
  | cons item rest ih =>
      rw [List.foldlM_cons]
      exact bind (hstep state item h) fun next hnext => ih (hkeep state item next h hnext)

end Explained

/-! ## Hexadecimal values -/

/-- A byte that is no hexadecimal digit is reported. -/
theorem decode_nibble_failure {byte : UInt8} {message : Text}
    (h : decodeNibble byte = .error message) : Failure message := by
  unfold decodeNibble at h
  split at h
  · cases h
  split at h
  · cases h
  split at h
  · cases h
  obtain rfl := Except.error.inj h
  exact Failure.digit byte

/-- Pairs of digits fail at a digit. -/
theorem decode_pairs_failure {bytes : List UInt8} {message : Text}
    (h : decodePairs bytes = .error message) : Failure message := by
  fun_induction decodePairs bytes with
  | case1 first second rest ih =>
      cases hhigh : decodeNibble first with
      | error other =>
          rw [hhigh] at h
          obtain rfl := Except.error.inj h
          exact decode_nibble_failure hhigh
      | ok high =>
          cases hlow : decodeNibble second with
          | error other =>
              rw [hhigh, hlow] at h
              obtain rfl := Except.error.inj h
              exact decode_nibble_failure hlow
          | ok low =>
              cases hrest : decodePairs rest with
              | error other =>
                  rw [hhigh, hlow, hrest] at h
                  obtain rfl := Except.error.inj h
                  exact ih hrest
              | ok others =>
                  rw [hhigh, hlow, hrest] at h
                  cases h
  | case2 => cases h

/-- A hexadecimal text fails at its length or at a digit. -/
theorem decode_hex_failure {text message : Text} (h : decodeHex text = .error message) :
    Failure message := by
  unfold decodeHex at h
  dsimp only at h
  split at h
  · obtain rfl := Except.error.inj h
    exact Failure.oddLength
  · exact decode_pairs_failure h

/-- A seed also fails when it does not have 48 bytes. -/
theorem decode_seed_failure {text message : Text} (h : decodeFixedHex 48 text = .error message) :
    Failure message := by
  unfold decodeFixedHex at h
  cases hvalue : decodeHex text with
  | error other =>
      rw [hvalue] at h
      obtain rfl := Except.error.inj h
      exact decode_hex_failure hvalue
  | ok value =>
      rw [hvalue] at h
      by_cases hlength : value.length = 48
      · have harray : tryInto 48 value = some ⟨value, hlength⟩ := dif_pos hlength
        simp only [bind, Except.bind, harray] at h
        cases h
      · have harray : tryInto 48 value = none := dif_neg hlength
        simp only [bind, Except.bind, harray] at h
        obtain rfl := Except.error.inj h
        exact Failure.seedLength hlength

/-! ## The mutation tests -/

section Mutations

variable {native : Native} {count : Nat} {key : VerifyingKey} {message : List UInt8}
  {signature : Signature}

/-- A flipped byte of a signature is accepted or there is no error. -/
theorem reject_mutation_explained {position : Nat} (hposition : position ∈ [0, 16, 80, 272, 2915]) :
    Explained (rejectMutationAt native count key.encoded.toList message signature.encoded.toList
      position) := by
  have hlt : position < signature.encoded.toList.length := by
    rw [Bytes.length_toList]
    simp only [List.mem_cons, List.not_mem_nil, or_false] at hposition
    omega
  let mutated : Signature :=
    ⟨⟨signature.encoded.toList.set position (signature.encoded.toList[position] ^^^ 1), by
      rw [List.length_set, Bytes.length_toList]⟩⟩
  have hread : Signature.fromSlice (signature.encoded.toList.set position
      (signature.encoded.toList[position] ^^^ 1)) = .ok mutated := signature_from_slice_ok.mpr rfl
  unfold rejectMutationAt
  rw [index_of_lt hlt, Run.ret_bind, Run.after_nil]
  refine Explained.bind (Explained.or_err_of_ok hread) fun _ _ => ?_
  refine Explained.bind (Explained.or_err_of_ok (verifying_key_from_slice_ok.mpr rfl)) fun _ _ => ?_
  exact Explained.require fun _ => Failure.signatureMutation count hposition

/-- The mutation tests of a key, a message that is not empty and a signature stop at a mutation that
is accepted. -/
theorem reject_mutations_explained (hmessage : message ≠ []) :
    Explained (rejectTargetedMutations native count key.encoded.toList message
      signature.encoded.toList) := by
  obtain ⟨first, rest, rfl⟩ := List.exists_cons_of_ne_nil hmessage
  have hlength : signature.encoded.toList.length = 2916 := Bytes.length_toList _
  have hlast : key.encoded.toList.length - 1 < key.encoded.toList.length := by
    rw [Bytes.length_toList]
    omega
  have hlastByte : key.encoded.toList.getLast? =
      some key.encoded.toList[key.encoded.toList.length - 1] :=
    List.getLast?_eq_getElem?.trans (List.getElem?_eq_getElem hlast)
  let mutatedKey : VerifyingKey :=
    ⟨⟨key.encoded.toList.set (key.encoded.toList.length - 1)
        (key.encoded.toList[key.encoded.toList.length - 1] ^^^ 1), by
      rw [List.length_set, Bytes.length_toList]⟩⟩
  have hmutated : VerifyingKey.fromSlice (key.encoded.toList.set (key.encoded.toList.length - 1)
      (key.encoded.toList[key.encoded.toList.length - 1] ^^^ 1)) = .ok mutatedKey :=
    verifying_key_from_slice_ok.mpr rfl
  unfold rejectTargetedMutations
  rw [Run.check_of (by omega), Run.ret_bind, Run.after_nil, hlastByte]
  refine Explained.bind (Explained.for_each _ fun position hposition => ?_) fun _ _ => ?_
  · rw [hlength] at hposition
    exact reject_mutation_explained hposition
  rw [List.head?_cons, Run.of_option_some, Run.ret_bind, Run.after_nil]
  refine Explained.bind (Explained.or_err_of_ok (verifying_key_from_slice_ok.mpr rfl)) fun _ _ => ?_
  refine Explained.bind (Explained.or_err_of_ok (signature_from_slice_ok.mpr rfl)) fun _ _ => ?_
  refine Explained.bind (Explained.require fun _ => Failure.messageMutation count) fun _ _ => ?_
  rw [Run.of_option_some, Run.ret_bind, Run.after_nil]
  refine Explained.bind (Explained.or_err_of_ok hmutated) fun _ _ => ?_
  exact Explained.require fun _ => Failure.keyMutation count

end Mutations

/-! ## The check of a case -/

section Native

variable (P : Primitives) (aes256 : Aes256)

/-- A public key fails at its length only. -/
theorem verifying_key_failure {count : Nat} {bytes : List UInt8} {error : EncodingError}
    (h : VerifyingKey.fromSlice bytes = .error error) :
    Failure (caseMessage count (" public key: ".toList ++ encodingMessage error)) := by
  unfold VerifyingKey.fromSlice encodedFromSlice at h
  by_cases hlength : bytes.length = 60
  · have hbytes : tryInto Params.publicKeySize bytes = some ⟨bytes, hlength⟩ := dif_pos hlength
    rw [hbytes] at h
    cases h
  · have hbytes : tryInto Params.publicKeySize bytes = none := dif_neg hlength
    rw [hbytes] at h
    obtain rfl := Except.error.inj h
    exact Failure.publicKey count hlength

/-- A case with a count and without an empty message is accepted or stops with one of these
messages. -/
theorem verify_case_explained {case : KatCase} (hcount : case.count.isSome)
    (hfilled : case.message ≠ some []) (testMutations : Bool) (rustResponse : Text) :
    Explained (verifyCase (nativeFunctions P aes256) case testMutations rustResponse) := by
  have hhex : ∀ text, Explained (orErr id (decodeHex text)) := fun text =>
    Explained.or_err fun _ => decode_hex_failure
  unfold verifyCase
  refine Explained.bind (Explained.of_option fun hnone => ?_) fun count _ => ?_
  · rw [hnone] at hcount
    cases hcount
  -- the fields
  have hmissing : ∀ name ∈ fieldNames, Failure (caseMessage count (" has no ".toList ++ name)) :=
    fun _ => Failure.missing count
  simp only [fieldNames, List.forall_mem_cons] at hmissing
  obtain ⟨hnoSeed, hnoLen, hnoMessage, hnoPublic, hnoSecret, hnoSigned, hnoBytes, _⟩ := hmissing
  refine Explained.bind (Explained.of_option fun _ => hnoLen) fun messageLen _ => ?_
  refine Explained.bind (Explained.of_option fun _ => hnoMessage) fun messageText htext => ?_
  refine Explained.bind (hhex messageText) fun message hdecoded => ?_
  have hmessage : message ≠ [] := by
    refine decode_hex_ne_nil (fun hempty => hfilled ?_) (or_err_ok.mp hdecoded)
    rw [of_option_ok.mp htext, hempty]
  refine Explained.bind (Explained.of_option fun _ => hnoSeed) fun seedText _ => ?_
  refine Explained.bind (Explained.or_err fun _ => decode_seed_failure) fun seed _ => ?_
  refine Explained.bind (Explained.of_option fun _ => hnoPublic) fun publicText _ => ?_
  refine Explained.bind (hhex publicText) fun publicKeyBytes _ => ?_
  refine Explained.bind (Explained.of_option fun _ => hnoSecret) fun secretText _ => ?_
  refine Explained.bind (hhex secretText) fun secretKeyBytes _ => ?_
  refine Explained.bind (Explained.of_option fun _ => hnoSigned) fun signedLen _ => ?_
  refine Explained.bind (Explained.of_option fun _ => hnoBytes) fun signedText _ => ?_
  refine Explained.bind (hhex signedText) fun signedMessage _ => ?_
  refine Explained.bind (Explained.require fun _ => Failure.messageLengths count)
    fun _ hlengths => ?_
  obtain ⟨rfl, rfl, hle, htake⟩ := require_ok.mp hlengths
  rw [if_pos hle]
  refine Explained.bind (Explained.ret _ []) fun signatureBytes _ => ?_
  refine Explained.bind (Explained.or_err fun _ => verifying_key_failure) fun publicKey hkey => ?_
  -- a key is always generated
  have hgenerated := native_generate P aes256 seed
  refine Explained.bind (Explained.of_option fun hnone => ?_) fun generatedKey _ => ?_
  · cases hnone.symm.trans (congrArg Prod.fst hgenerated)
  refine Explained.bind (Explained.require fun _ => Failure.otherKey count) fun _ hsame => ?_
  refine Explained.bind (Explained.of_option fun _ => Failure.notSigned count)
    fun generatedSignature hsignature => ?_
  refine Explained.bind (Explained.require fun _ => Failure.otherSignature count _)
    fun _ hsameSignature => ?_
  obtain ⟨rfl, rfl⟩ := require_ok.mp hsame
  obtain rfl := require_ok.mp hsameSignature
  refine Explained.bind (Explained.or_err_of_ok (signature_from_slice_ok.mpr rfl))
    fun signature hread => ?_
  obtain rfl : generatedKey.verifyingKey = publicKey :=
    Except.ok.inj ((verifying_key_from_slice_ok.mpr rfl).symm.trans (or_err_ok.mp hkey))
  obtain rfl : generatedSignature = signature :=
    Except.ok.inj ((signature_from_slice_ok.mpr rfl).symm.trans (or_err_ok.mp hread))
  -- a signature that is made is accepted
  have hsigned : ((nativeFunctions P aes256).trySignWithRng generatedKey
      ((nativeFunctions P aes256).generate ((nativeFunctions P aes256).new seed)).2 message).1 =
        some generatedSignature := of_option_ok.mp hsignature
  rw [hgenerated] at hsigned
  rw [Run.require_of (native_verify P aes256 hsigned), Run.ret_bind, Run.after_nil]
  cases testMutations with
  | false => exact Explained.ret _ []
  | true =>
      exact Explained.bind (reject_mutations_explained hmessage) fun _ _ => Explained.ret _ []

/-! ## The reader -/

/-- A number that is not read is reported with its name. -/
theorem parse_decimal_explained {name value : Text} (hname : name ∈ numberNames)
    (hvalue : value ≠ []) : Explained (parseDecimal name value) :=
  Explained.or_err fun _ herror => Failure.number hname hvalue herror

/-- So a field with a value fails at a number only. -/
theorem set_field_explained (current : KatCase) (name : Text) {value : Text} (hvalue : value ≠ []) :
    Explained (setField current name value) := by
  have hnumber : ∀ field ∈ numberNames, name = field → Explained (parseDecimal name value) := by
    rintro field hfield rfl
    exact parse_decimal_explained hfield hvalue
  simp only [numberNames, List.forall_mem_cons] at hnumber
  obtain ⟨hcount, hlen, hsigned, _⟩ := hnumber
  unfold setField
  split_ifs with hcountName _ hlenName _ _ _ hsignedName
  · exact Explained.bind (hcount hcountName) fun _ _ => Explained.ret _ []
  · exact Explained.ret _ []
  · exact Explained.bind (hlen hlenName) fun _ _ => Explained.ret _ []
  · exact Explained.ret _ []
  · exact Explained.ret _ []
  · exact Explained.ret _ []
  · exact Explained.bind (hsigned hsignedName) fun _ _ => Explained.ret _ []
  · exact Explained.ret _ []
  · exact Explained.ret _ []

/-- A field is set to the value of its line and to nothing else. -/
theorem set_field_message {current next : KatCase} {name value : Text}
    (h : (setField current name value).outcome = .ok next) :
    next.message = current.message ∨ next.message = some value := by
  unfold setField at h
  split_ifs at h
  · obtain ⟨number, _, hnext⟩ := Run.bind_outcome_ok.mp h
    rw [← Except.ok.inj hnext]
    exact Or.inl rfl
  · rw [← Except.ok.inj h]
    exact Or.inl rfl
  · obtain ⟨number, _, hnext⟩ := Run.bind_outcome_ok.mp h
    rw [← Except.ok.inj hnext]
    exact Or.inl rfl
  · rw [← Except.ok.inj h]
    exact Or.inr rfl
  · rw [← Except.ok.inj h]
    exact Or.inl rfl
  · rw [← Except.ok.inj h]
    exact Or.inl rfl
  · obtain ⟨number, _, hnext⟩ := Run.bind_outcome_ok.mp h
    rw [← Except.ok.inj hnext]
    exact Or.inl rfl
  · rw [← Except.ok.inj h]
    exact Or.inl rfl
  · rw [← Except.ok.inj h]
    exact Or.inl rfl

/-- The value of an entry that the reader splits off is not empty. -/
theorem entry_value_ne_nil {line name value : Text} (hcomment : ¬ (trim line).head? = some '#')
    (hsplit : splitOnce " = ".toList (trim line) = some (name, value)) : value ≠ [] := by
  have hentry : lineEntry line = some (name, value) := by
    rw [lineEntry, if_neg hcomment, hsplit]
  exact line_entry_value hentry

/-- The reader never holds an empty message. -/
theorem read_line_filled {native : Native} {state next : ReaderState} {line : Text}
    (hfilled : state.current.message ≠ some [])
    (h : (readLine native state line).outcome = .ok next) : next.current.message ≠ some [] := by
  unfold readLine at h
  dsimp only at h
  by_cases hblank : trim line = []
  · rw [if_pos hblank] at h
    by_cases hcount : state.current.count.isSome
    · -- the next record starts without a message
      rw [if_pos hcount] at h
      obtain ⟨_, _, h⟩ := Run.bind_outcome_ok.mp h
      obtain ⟨_, _, h⟩ := Run.bind_outcome_ok.mp h
      rw [← Except.ok.inj h]
      exact Option.some_ne_none _ ∘ Eq.symm
    · rw [if_neg hcount] at h
      rw [← Except.ok.inj h]
      exact hfilled
  rw [if_neg hblank] at h
  by_cases hcomment : (trim line).head? = some '#'
  · rw [if_pos hcomment] at h
    rw [← Except.ok.inj h]
    exact hfilled
  rw [if_neg hcomment] at h
  cases hsplit : splitOnce " = ".toList (trim line) with
  | none =>
      rw [hsplit] at h
      cases h
  | some entry =>
      rw [hsplit] at h
      obtain ⟨current, hfield, h⟩ := Run.bind_outcome_ok.mp h
      rw [← Except.ok.inj h]
      rcases set_field_message hfield with hsame | hvalue
      · show current.message ≠ some []
        rw [hsame]
        exact hfilled
      · show current.message ≠ some []
        rw [hvalue]
        exact fun heq => entry_value_ne_nil hcomment hsplit (Option.some.inj heq)

/-- A line fails at its own text or with the record that it ends. -/
theorem read_line_explained {state : ReaderState} (line : Text)
    (hfilled : state.current.message ≠ some []) :
    Explained (readLine (nativeFunctions P aes256) state line) := by
  unfold readLine
  dsimp only
  by_cases hblank : trim line = []
  · rw [if_pos hblank]
    by_cases hcount : state.current.count.isSome
    · rw [if_pos hcount]
      refine Explained.bind (Explained.ret () _) fun _ _ => ?_
      exact Explained.bind (verify_case_explained P aes256 hcount hfilled _ _)
        fun _ _ => Explained.ret _ []
    · rw [if_neg hcount]
      exact Explained.ret state []
  rw [if_neg hblank]
  by_cases hcomment : (trim line).head? = some '#'
  · rw [if_pos hcomment]
    exact Explained.ret state []
  rw [if_neg hcomment]
  cases hsplit : splitOnce " = ".toList (trim line) with
  | none => exact Explained.halt (Failure.malformed _)
  | some entry =>
      exact Explained.bind (set_field_explained _ _ (entry_value_ne_nil hcomment hsplit))
        fun _ _ => Explained.ret _ []

/-- Whatever the response is, `verify_response` returns or reports one of these messages. It never
panics, and it never reports that a key could not be generated, that a signature it made cannot be
read or is rejected, or that the mutation tests could not be set up. -/
theorem native_failures (contents : Text) :
    (∃ result, (verifyResponse (nativeFunctions P aes256) contents).outcome = .ok result) ∨
      ∃ message, Failure message ∧
        (verifyResponse (nativeFunctions P aes256) contents).outcome = .error (.none message) := by
  have hrun : Explained (verifyResponse (nativeFunctions P aes256) contents) := by
    unfold verifyResponse
    have hread : Explained ((lines contents ++ [[]]).foldlM (readLine (nativeFunctions P aes256))
        ⟨{}, 0, "# MQOM2-L1-gf16-short-r5\n\n".toList⟩) :=
      Explained.loop (fun state => state.current.message ≠ some [])
        (fun _ line hfilled => read_line_explained P aes256 line hfilled)
        (fun _ _ _ hfilled hnext => read_line_filled hfilled hnext) _
        (Option.some_ne_none _ ∘ Eq.symm)
    refine Explained.bind hread fun state _ => ?_
    refine Explained.bind (Explained.require Failure.cases) fun _ _ => ?_
    exact Explained.ret _ []
  cases houtcome : (verifyResponse (nativeFunctions P aes256) contents).outcome with
  | ok result => exact Or.inl ⟨result, rfl⟩
  | error reason =>
      obtain ⟨message, hfailure, rfl⟩ := hrun reason houtcome
      exact Or.inr ⟨message, hfailure, rfl⟩

end Native

end Mqom.Kat
