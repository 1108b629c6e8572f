import Mqom.Kat.Text
import Mqom.Sign.Keys

/-!
# The check of a case

`verify_case` ends with a text or with an error and never panics: the positions that the mutation
tests change are positions of a signature of the right length. It accepts a case when its fields
state a known answer that the native functions reproduce, and then appends this answer to the text
collected before. So whether it accepts a case does not depend on that text, and it accepts only
cases with all fields.
-/

namespace Mqom.Kat

open Rust Params

/-! ## Calls that neither panic nor report a case -/

/-- A call that returns a value or stops with an error, and passes no case on. -/
def Quiet {α : Type} (run : Report α) : Prop :=
  (∃ value, run = Run.ret value []) ∨ ∃ message, run = Run.halt (.none message)

namespace Quiet

variable {α β : Type}

/-- A returned value is quiet. -/
theorem ret (value : α) : Quiet (Run.ret value [] : Report α) :=
  Or.inl ⟨value, rfl⟩

/-- Quiet calls follow one another quietly. -/
theorem bind {run : Report α} {next : α → Report β} (hrun : Quiet run)
    (hnext : ∀ value, run.outcome = .ok value → Quiet (next value)) : Quiet (run >>= next) := by
  rcases hrun with ⟨value, rfl⟩ | ⟨message, rfl⟩
  · rw [Run.ret_bind, Run.after_nil]
    exact hnext value rfl
  · exact Or.inr ⟨message, rfl⟩

/-- A missing value is an error and nothing else. -/
theorem of_option (message : Text) (value : Option α) :
    Quiet (Run.ofOption message value : Report α) := by
  cases value with
  | none => exact Or.inr ⟨message, rfl⟩
  | some value => exact ret value

/-- So is a condition that fails. -/
theorem require (message : Text) (condition : Prop) [Decidable condition] :
    Quiet (Run.require message condition : Report Unit) := by
  by_cases h : condition
  · rw [Run.require_of h]
    exact ret ()
  · rw [Run.require_of_not h]
    exact Or.inr ⟨message, rfl⟩

/-- So is an error that is turned into a message. -/
theorem or_err {ε : Type} (describe : ε → Text) (value : Except ε α) :
    Quiet (orErr describe value) := by
  cases value with
  | ok value => exact ret value
  | error error => exact Or.inr ⟨_, rfl⟩

/-- A loop over quiet calls is quiet. -/
theorem for_each {call : α → Report Unit} (items : List α)
    (hcall : ∀ item ∈ items, Quiet (call item)) : Quiet (items.forM call) := by
  induction items with
  | nil => exact ret ()
  | cons item rest ih =>
      exact bind (hcall item List.mem_cons_self) fun _ _ =>
        ih fun other hother => hcall other (List.mem_cons_of_mem item hother)

/-- Such a call that returns a value does nothing else. -/
theorem eq_ret {run : Report α} {value : α} (hrun : Quiet run) (h : run.outcome = .ok value) :
    run = Run.ret value [] := by
  rcases hrun with ⟨other, rfl⟩ | ⟨message, rfl⟩
  · obtain rfl := Except.ok.inj h
    rfl
  · exact nomatch h

end Quiet

/-- A described result is a value exactly when the result is. -/
theorem or_err_ok {ε α : Type} {describe : ε → Text} {result : Except ε α} {value : α} :
    (orErr describe result).outcome = .ok value ↔ result = .ok value := by
  cases result with
  | ok other => exact ⟨fun h => congrArg _ (Except.ok.inj h), fun h => congrArg _ (Except.ok.inj h)⟩
  | error error => exact ⟨fun h => (nomatch h), fun h => (nomatch h)⟩

/-- A value that may be missing is returned exactly when it is there. -/
theorem of_option_ok {α : Type} {message : Text} {result : Option α} {value : α} :
    (Run.ofOption message result : Report α).outcome = .ok value ↔ result = some value := by
  cases result with
  | some other =>
      exact ⟨fun h => congrArg _ (Except.ok.inj h), fun h => congrArg _ (Option.some.inj h)⟩
  | none => exact ⟨fun h => (nomatch h), fun h => (nomatch h)⟩

/-- A condition that is required lets the call go on exactly when it holds. -/
theorem require_ok {message : Text} {condition : Prop} [Decidable condition] :
    (Run.require message condition : Report Unit).outcome = .ok () ↔ condition := by
  by_cases h : condition
  · rw [Run.require_of h]
    exact ⟨fun _ => h, fun _ => rfl⟩
  · rw [Run.require_of_not h]
    exact ⟨fun hok => (nomatch hok), fun hcondition => absurd hcondition h⟩

/-! ## The mutation tests -/

/-- A flipped byte inside the signature is tested quietly. -/
theorem reject_mutation_quiet (native : Native) (count : Nat)
    (publicKeyBytes message : List UInt8) {bytes : List UInt8} {position : Nat}
    (h : position < bytes.length) :
    Quiet (rejectMutationAt native count publicKeyBytes message bytes position) := by
  unfold rejectMutationAt
  rw [index_of_lt h, Run.ret_bind, Run.after_nil]
  refine Quiet.bind (Quiet.or_err _ _) fun signature _ => ?_
  refine Quiet.bind (Quiet.or_err _ _) fun publicKey _ => ?_
  exact Quiet.require _ _

/-- The mutation tests of a signature of the right length are quiet. -/
theorem reject_mutations_quiet (native : Native) (count : Nat)
    (publicKeyBytes message : List UInt8) {bytes : List UInt8}
    (h : bytes.length = 2916) :
    Quiet (rejectTargetedMutations native count publicKeyBytes message bytes) := by
  unfold rejectTargetedMutations
  rw [Run.check_of (by omega), Run.ret_bind, Run.after_nil]
  refine Quiet.bind (Quiet.for_each _ fun position hposition => ?_) fun _ _ => ?_
  · refine reject_mutation_quiet native count publicKeyBytes message ?_
    simp only [List.mem_cons, List.not_mem_nil, or_false] at hposition
    omega
  refine Quiet.bind (Quiet.of_option _ _) fun firstByte _ => ?_
  refine Quiet.bind (Quiet.or_err _ _) fun publicKey _ => ?_
  refine Quiet.bind (Quiet.or_err _ _) fun signature _ => ?_
  refine Quiet.bind (Quiet.require _ _) fun _ _ => ?_
  refine Quiet.bind (Quiet.of_option _ _) fun lastByte _ => ?_
  refine Quiet.bind (Quiet.or_err _ _) fun mutatedKey _ => ?_
  exact Quiet.require _ _

/-- A loop succeeds when all its calls do. -/
theorem for_each_ok {α : Type} {call : α → Report Unit} {items : List α}
    (h : ∀ item ∈ items, (call item).outcome = .ok ()) : (items.forM call).outcome = .ok () := by
  induction items with
  | nil => rfl
  | cons item rest ih =>
      exact Run.bind_outcome_ok.mpr ⟨(), h item List.mem_cons_self,
        ih fun other hother => h other (List.mem_cons_of_mem item hother)⟩

/-- Bytes with one bit flipped are other bytes. -/
theorem set_flipped_ne {bytes : List UInt8} {position : Nat} (h : position < bytes.length) :
    bytes.set position (bytes[position] ^^^ 1) ≠ bytes := by
  intro heq
  have hbyte := congrArg (fun changed : List UInt8 => changed[position]?) heq
  simp only [List.getElem?_set_self h, List.getElem?_eq_getElem h] at hbyte
  have hone : (1 : UInt8) = 0 := by
    calc (1 : UInt8) = bytes[position] ^^^ (bytes[position] ^^^ 1) := by
          rw [← UInt8.xor_assoc, UInt8.xor_self, UInt8.zero_xor]
      _ = 0 := by rw [Option.some.inj hbyte, UInt8.xor_self]
  exact absurd hone (by decide)

section Mutations

variable {native : Native} {count : Nat} {key : VerifyingKey} {message : List UInt8}
  {signature : Signature}

/-- A verifier that accepts one signature only rejects a flipped byte. -/
theorem reject_mutation_of_unique (hunique : ∀ otherKey otherMessage otherSignature,
      native.verify otherKey otherMessage otherSignature = true →
        otherKey = key ∧ otherMessage = message ∧ otherSignature = signature)
    {position : Nat} (h : position < 2916) :
    (rejectMutationAt native count key.encoded.toList message signature.encoded.toList
      position).outcome = .ok () := by
  have hposition : position < signature.encoded.toList.length := by
    rw [Bytes.length_toList]
    exact h
  let mutated : Signature :=
    ⟨⟨signature.encoded.toList.set position (signature.encoded.toList[position] ^^^ 1), by
      rw [List.length_set, Bytes.length_toList]⟩⟩
  have hmutated : native.verify key message mutated = false := by
    apply Bool.eq_false_of_not_eq_true
    intro haccepted
    obtain ⟨_, _, hsame⟩ := hunique _ _ _ haccepted
    exact set_flipped_ne hposition (congrArg (fun other => other.encoded.toList) hsame)
  unfold rejectMutationAt
  rw [index_of_lt hposition, Run.ret_bind, Run.after_nil]
  refine Run.bind_outcome_ok.mpr
    ⟨mutated, or_err_ok.mpr (signature_from_slice_ok.mpr rfl), ?_⟩
  refine Run.bind_outcome_ok.mpr ⟨key, or_err_ok.mpr (verifying_key_from_slice_ok.mpr rfl), ?_⟩
  exact require_ok.mpr hmutated

/-- A verifier that accepts nothing else rejects all mutations. -/
theorem reject_mutations_of_unique (hunique : ∀ otherKey otherMessage otherSignature,
      native.verify otherKey otherMessage otherSignature = true →
        otherKey = key ∧ otherMessage = message ∧ otherSignature = signature)
    (hmessage : message ≠ []) :
    (rejectTargetedMutations native count key.encoded.toList message
      signature.encoded.toList).outcome = .ok () := by
  have hlength : signature.encoded.toList.length = 2916 := Bytes.length_toList _
  have hposition : 0 < message.length := List.length_pos_iff.mpr hmessage
  have hlast : key.encoded.toList.length - 1 < key.encoded.toList.length := by
    rw [Bytes.length_toList]
    omega
  let mutatedKey : VerifyingKey :=
    ⟨⟨key.encoded.toList.set (key.encoded.toList.length - 1)
        (key.encoded.toList[key.encoded.toList.length - 1] ^^^ 1), by
      rw [List.length_set, Bytes.length_toList]⟩⟩
  have hmutatedMessage :
      native.verify key (message.set 0 (message[0] ^^^ 1)) signature = false := by
    apply Bool.eq_false_of_not_eq_true
    intro haccepted
    obtain ⟨_, hsame, _⟩ := hunique _ _ _ haccepted
    exact set_flipped_ne hposition hsame
  have hmutatedKey : native.verify mutatedKey message signature = false := by
    apply Bool.eq_false_of_not_eq_true
    intro haccepted
    obtain ⟨hsame, _, _⟩ := hunique _ _ _ haccepted
    exact set_flipped_ne hlast (congrArg (fun other => other.encoded.toList) hsame)
  have hread : VerifyingKey.fromSlice key.encoded.toList = .ok key :=
    verifying_key_from_slice_ok.mpr rfl
  unfold rejectTargetedMutations
  rw [Run.check_of (by omega), Run.ret_bind, Run.after_nil]
  refine Run.bind_outcome_ok.mpr ⟨(), for_each_ok fun position hmem => ?_, ?_⟩
  · refine reject_mutation_of_unique hunique ?_
    simp only [List.mem_cons, List.not_mem_nil, or_false] at hmem
    omega
  refine Run.bind_outcome_ok.mpr
    ⟨message[0], of_option_ok.mpr (List.head?_eq_getElem?.trans (List.getElem?_eq_getElem _)), ?_⟩
  refine Run.bind_outcome_ok.mpr ⟨key, or_err_ok.mpr hread, ?_⟩
  refine Run.bind_outcome_ok.mpr
    ⟨signature, or_err_ok.mpr (signature_from_slice_ok.mpr rfl), ?_⟩
  refine Run.bind_outcome_ok.mpr ⟨(), require_ok.mpr hmutatedMessage, ?_⟩
  refine Run.bind_outcome_ok.mpr ⟨key.encoded.toList[key.encoded.toList.length - 1],
    of_option_ok.mpr (List.getLast?_eq_getElem?.trans (List.getElem?_eq_getElem _)), ?_⟩
  refine Run.bind_outcome_ok.mpr
    ⟨mutatedKey, or_err_ok.mpr (verifying_key_from_slice_ok.mpr rfl), ?_⟩
  exact require_ok.mpr hmutatedKey

end Mutations

/-! ## The check -/

/-- `verify_case` never panics. -/
theorem verify_case_quiet (native : Native) (case : KatCase) (testMutations : Bool)
    (rustResponse : Text) : Quiet (verifyCase native case testMutations rustResponse) := by
  unfold verifyCase
  refine Quiet.bind (Quiet.of_option _ _) fun count _ => ?_
  refine Quiet.bind (Quiet.of_option _ _) fun messageLen _ => ?_
  refine Quiet.bind (Quiet.of_option _ _) fun message _ => ?_
  refine Quiet.bind (Quiet.or_err _ _) fun message _ => ?_
  refine Quiet.bind (Quiet.of_option _ _) fun seed _ => ?_
  refine Quiet.bind (Quiet.or_err _ _) fun seed _ => ?_
  refine Quiet.bind (Quiet.of_option _ _) fun publicKey _ => ?_
  refine Quiet.bind (Quiet.or_err _ _) fun publicKeyBytes _ => ?_
  refine Quiet.bind (Quiet.of_option _ _) fun secretKey _ => ?_
  refine Quiet.bind (Quiet.or_err _ _) fun secretKeyBytes _ => ?_
  refine Quiet.bind (Quiet.of_option _ _) fun signedMessageLen _ => ?_
  refine Quiet.bind (Quiet.of_option _ _) fun signedMessage _ => ?_
  refine Quiet.bind (Quiet.or_err _ _) fun signedMessage _ => ?_
  refine Quiet.bind (Quiet.require _ _) fun _ _ => ?_
  refine Quiet.bind (Quiet.of_option _ _) fun signatureBytes _ => ?_
  refine Quiet.bind (Quiet.or_err _ _) fun publicKey _ => ?_
  refine Quiet.bind (Quiet.of_option _ _) fun generatedKey _ => ?_
  refine Quiet.bind (Quiet.require _ _) fun _ _ => ?_
  refine Quiet.bind (Quiet.of_option _ _) fun generatedSignature _ => ?_
  refine Quiet.bind (Quiet.require _ _) fun _ _ => ?_
  refine Quiet.bind (Quiet.or_err _ _) fun signature hsignature => ?_
  refine Quiet.bind (Quiet.require _ _) fun _ _ => ?_
  -- the mutations index into the signature, whose length `from_slice` has checked
  have hlength := signature_length (or_err_ok.mp hsignature)
  cases testMutations with
  | false => exact Quiet.ret _
  | true =>
      exact Quiet.bind (reject_mutations_quiet native count publicKeyBytes message hlength)
        fun _ _ => Quiet.ret _

/-- Whether a case is accepted. -/
def Verifies (native : Native) (case : KatCase) (testMutations : Bool) : Prop :=
  ∃ text, (verifyCase native case testMutations []).outcome = .ok text

/-- `verify_case` appends to the response. -/
theorem verify_case_append (native : Native) (case : KatCase) (testMutations : Bool)
    (rustResponse : Text) : verifyCase native case testMutations rustResponse =
      (fun text => rustResponse ++ text) <$> verifyCase native case testMutations [] := by
  unfold verifyCase
  simp only [map_bind, List.nil_append]
  repeat refine bind_congr fun _ => ?_
  cases testMutations with
  | false => rfl
  | true =>
      simp only [if_true, map_bind]
      rfl

/-- The response collected before does not decide whether a case is accepted. -/
theorem verifies_iff (native : Native) (case : KatCase) (testMutations : Bool)
    (rustResponse : Text) : Verifies native case testMutations ↔
      ∃ text, (verifyCase native case testMutations rustResponse).outcome = .ok text := by
  rw [verify_case_append]
  rcases verify_case_quiet native case testMutations [] with ⟨value, h⟩ | ⟨message, h⟩
  · rw [Verifies, h]
    exact ⟨fun _ => ⟨_, rfl⟩, fun _ => ⟨_, rfl⟩⟩
  · rw [Verifies, h]
    exact ⟨fun ⟨_, hok⟩ => (nomatch hok), fun ⟨_, hok⟩ => (nomatch hok)⟩

/-! ## Known answers -/

/-- What a case states: the values that key generation and signing have to reproduce. -/
@[ext]
structure KnownAnswer where
  count : Nat
  seed : Bytes 48
  message : List UInt8
  key : SigningKey
  signature : Signature

/-- What `verify_case` writes for an accepted case. -/
def KnownAnswer.text (answer : KnownAnswer) : Text :=
  caseText answer.count answer.seed answer.message answer.key answer.signature

/-- The fields of a case decode to the values of a known answer. -/
structure States (case : KatCase) (answer : KnownAnswer) : Prop where
  count : case.count = some answer.count
  seed : case.seed.map decodeHex = some (.ok answer.seed.toList)
  messageLen : case.messageLen = some answer.message.length
  message : case.message.map decodeHex = some (.ok answer.message)
  publicKey : case.publicKey.map decodeHex = some (.ok answer.key.verifyingKey.encoded.toList)
  secretKey : case.secretKey.map decodeHex = some (.ok answer.key.toBytes.toList)
  signedMessageLen : case.signedMessageLen = some (answer.message.length + 2916)
  signedMessage : case.signedMessage.map decodeHex =
    some (.ok (answer.message ++ answer.signature.encoded.toList))

/-- The native functions reproduce a known answer and reject its mutations. -/
structure KnownAnswer.Reproduced (native : Native) (answer : KnownAnswer) (testMutations : Bool) :
    Prop where
  generated : (native.generate (native.new answer.seed)).1 = some answer.key
  signed : (native.trySignWithRng answer.key (native.generate (native.new answer.seed)).2
    answer.message).1 = some answer.signature
  verified : native.verify answer.key.verifyingKey answer.message answer.signature = true
  rejected : testMutations = true → (rejectTargetedMutations native answer.count
    answer.key.verifyingKey.encoded.toList answer.message
    answer.signature.encoded.toList).outcome = .ok ()

/-- A fixed number of bytes is decoded exactly when the text stands for them. -/
theorem decode_fixed_hex_ok {n : Nat} {text : Text} {bytes : Bytes n} :
    decodeFixedHex n text = .ok bytes ↔ decodeHex text = .ok bytes.toList := by
  unfold decodeFixedHex
  rw [except_bind_ok]
  constructor
  · rintro ⟨value, hvalue, h⟩
    split at h
    · rename_i array harray
      rw [hvalue, try_into_eq_some.mp harray, Except.ok.inj h]
    · exact nomatch h
  · intro h
    refine ⟨_, h, ?_⟩
    rw [try_into_toList]
    rfl

section VerifyCase

variable {native : Native} {case : KatCase} {testMutations : Bool} {rustResponse text : Text}

/-- An accepted case states a known answer that is reproduced, and this answer is written. -/
theorem answer_of_verify_case
    (h : (verifyCase native case testMutations rustResponse).outcome = .ok text) :
    ∃ answer : KnownAnswer, States case answer ∧ answer.Reproduced native testMutations ∧
      text = rustResponse ++ answer.text := by
  unfold verifyCase at h
  obtain ⟨count, hcount, h⟩ := Run.bind_outcome_ok.mp h
  obtain ⟨messageLen, hlen, h⟩ := Run.bind_outcome_ok.mp h
  obtain ⟨messageText, hmessage, h⟩ := Run.bind_outcome_ok.mp h
  obtain ⟨message, hdecoded, h⟩ := Run.bind_outcome_ok.mp h
  obtain ⟨seedText, hseed, h⟩ := Run.bind_outcome_ok.mp h
  obtain ⟨seed, hdecodedSeed, h⟩ := Run.bind_outcome_ok.mp h
  obtain ⟨publicText, hpublic, h⟩ := Run.bind_outcome_ok.mp h
  obtain ⟨publicKeyBytes, hdecodedPublic, h⟩ := Run.bind_outcome_ok.mp h
  obtain ⟨secretText, hsecret, h⟩ := Run.bind_outcome_ok.mp h
  obtain ⟨secretKeyBytes, hdecodedSecret, h⟩ := Run.bind_outcome_ok.mp h
  obtain ⟨signedLen, hsigned, h⟩ := Run.bind_outcome_ok.mp h
  obtain ⟨signedText, hbytes, h⟩ := Run.bind_outcome_ok.mp h
  obtain ⟨signedMessage, hdecodedBytes, h⟩ := Run.bind_outcome_ok.mp h
  obtain ⟨_, hlengths, h⟩ := Run.bind_outcome_ok.mp h
  obtain ⟨signatureBytes, hdetached, h⟩ := Run.bind_outcome_ok.mp h
  obtain ⟨publicKey, hkey, h⟩ := Run.bind_outcome_ok.mp h
  obtain ⟨key, hgenerated, h⟩ := Run.bind_outcome_ok.mp h
  obtain ⟨_, hsame, h⟩ := Run.bind_outcome_ok.mp h
  obtain ⟨generatedSignature, hsignature, h⟩ := Run.bind_outcome_ok.mp h
  obtain ⟨_, hsameSignature, h⟩ := Run.bind_outcome_ok.mp h
  obtain ⟨signature, hread, h⟩ := Run.bind_outcome_ok.mp h
  obtain ⟨_, hverified, hlast⟩ := Run.bind_outcome_ok.mp h
  -- the checks identify what was read with what was generated
  obtain ⟨rfl, rfl, hle, htake⟩ := require_ok.mp hlengths
  obtain ⟨rfl, rfl⟩ := require_ok.mp hsame
  obtain rfl := require_ok.mp hsameSignature
  obtain rfl : key.verifyingKey = publicKey :=
    Except.ok.inj ((verifying_key_from_slice_ok.mpr rfl).symm.trans (or_err_ok.mp hkey))
  obtain rfl : generatedSignature = signature :=
    Except.ok.inj ((signature_from_slice_ok.mpr rfl).symm.trans (or_err_ok.mp hread))
  -- the signed message is the message followed by the signature
  have hdetached := of_option_ok.mp hdetached
  rw [if_pos hle] at hdetached
  have hjoined : signedMessage = message ++ generatedSignature.encoded.toList := by
    have hparts := (List.take_append_drop message.length signedMessage).symm
    rwa [htake, Option.some.inj hdetached] at hparts
  refine ⟨⟨count, seed, message, key, generatedSignature⟩, ?_, ?_, ?_⟩
  · exact {
      count := of_option_ok.mp hcount
      seed := Option.map_eq_some_iff.mpr
        ⟨_, of_option_ok.mp hseed, decode_fixed_hex_ok.mp (or_err_ok.mp hdecodedSeed)⟩
      messageLen := of_option_ok.mp hlen
      message := Option.map_eq_some_iff.mpr
        ⟨_, of_option_ok.mp hmessage, or_err_ok.mp hdecoded⟩
      publicKey := Option.map_eq_some_iff.mpr
        ⟨_, of_option_ok.mp hpublic, or_err_ok.mp hdecodedPublic⟩
      secretKey := Option.map_eq_some_iff.mpr
        ⟨_, of_option_ok.mp hsecret, or_err_ok.mp hdecodedSecret⟩
      signedMessageLen := by
        rw [of_option_ok.mp hsigned, hjoined, List.length_append, Bytes.length_toList]
      signedMessage := Option.map_eq_some_iff.mpr
        ⟨_, of_option_ok.mp hbytes, by rw [or_err_ok.mp hdecodedBytes, hjoined]⟩ }
  · exact {
      generated := of_option_ok.mp hgenerated
      signed := of_option_ok.mp hsignature
      verified := require_ok.mp hverified
      rejected := by
        rintro rfl
        obtain ⟨_, hrejected, _⟩ := Run.bind_outcome_ok.mp hlast
        exact hrejected }
  · cases testMutations with
    | false => exact (Except.ok.inj hlast).symm
    | true =>
        obtain ⟨_, _, hwritten⟩ := Run.bind_outcome_ok.mp hlast
        exact (Except.ok.inj hwritten).symm

/-- A case that states a reproduced answer is accepted, and the answer is written. -/
theorem States.verify_case {answer : KnownAnswer} (hstates : States case answer)
    (hreproduced : answer.Reproduced native testMutations) :
    (verifyCase native case testMutations rustResponse).outcome =
      .ok (rustResponse ++ answer.text) := by
  obtain ⟨message, hmessage, hdecoded⟩ := Option.map_eq_some_iff.mp hstates.message
  obtain ⟨seed, hseed, hdecodedSeed⟩ := Option.map_eq_some_iff.mp hstates.seed
  obtain ⟨publicKey, hpublic, hdecodedPublic⟩ := Option.map_eq_some_iff.mp hstates.publicKey
  obtain ⟨secretKey, hsecret, hdecodedSecret⟩ := Option.map_eq_some_iff.mp hstates.secretKey
  obtain ⟨signed, hbytes, hdecodedBytes⟩ := Option.map_eq_some_iff.mp hstates.signedMessage
  have hlength : (answer.message ++ answer.signature.encoded.toList).length =
      answer.message.length + 2916 := by
    rw [List.length_append, Bytes.length_toList]
  unfold verifyCase
  refine Run.bind_outcome_ok.mpr ⟨_, of_option_ok.mpr hstates.count, ?_⟩
  refine Run.bind_outcome_ok.mpr ⟨_, of_option_ok.mpr hstates.messageLen, ?_⟩
  refine Run.bind_outcome_ok.mpr ⟨_, of_option_ok.mpr hmessage, ?_⟩
  refine Run.bind_outcome_ok.mpr ⟨_, or_err_ok.mpr hdecoded, ?_⟩
  refine Run.bind_outcome_ok.mpr ⟨_, of_option_ok.mpr hseed, ?_⟩
  refine Run.bind_outcome_ok.mpr ⟨_, or_err_ok.mpr (decode_fixed_hex_ok.mpr hdecodedSeed), ?_⟩
  refine Run.bind_outcome_ok.mpr ⟨_, of_option_ok.mpr hpublic, ?_⟩
  refine Run.bind_outcome_ok.mpr ⟨_, or_err_ok.mpr hdecodedPublic, ?_⟩
  refine Run.bind_outcome_ok.mpr ⟨_, of_option_ok.mpr hsecret, ?_⟩
  refine Run.bind_outcome_ok.mpr ⟨_, or_err_ok.mpr hdecodedSecret, ?_⟩
  refine Run.bind_outcome_ok.mpr ⟨_, of_option_ok.mpr hstates.signedMessageLen, ?_⟩
  refine Run.bind_outcome_ok.mpr ⟨_, of_option_ok.mpr hbytes, ?_⟩
  refine Run.bind_outcome_ok.mpr ⟨_, or_err_ok.mpr hdecodedBytes, ?_⟩
  refine Run.bind_outcome_ok.mpr
    ⟨(), require_ok.mpr ⟨rfl, hlength, by omega, List.take_left⟩, ?_⟩
  refine Run.bind_outcome_ok.mpr ⟨_, of_option_ok.mpr (if_pos (by omega)), ?_⟩
  refine Run.bind_outcome_ok.mpr
    ⟨_, or_err_ok.mpr (verifying_key_from_slice_ok.mpr rfl), ?_⟩
  refine Run.bind_outcome_ok.mpr ⟨_, of_option_ok.mpr hreproduced.generated, ?_⟩
  refine Run.bind_outcome_ok.mpr ⟨(), require_ok.mpr ⟨rfl, rfl⟩, ?_⟩
  refine Run.bind_outcome_ok.mpr ⟨_, of_option_ok.mpr hreproduced.signed, ?_⟩
  rw [List.drop_left]
  refine Run.bind_outcome_ok.mpr ⟨(), require_ok.mpr rfl, ?_⟩
  refine Run.bind_outcome_ok.mpr
    ⟨_, or_err_ok.mpr (signature_from_slice_ok.mpr rfl), ?_⟩
  refine Run.bind_outcome_ok.mpr ⟨(), require_ok.mpr hreproduced.verified, ?_⟩
  cases testMutations with
  | false => rfl
  | true => exact Run.bind_outcome_ok.mpr ⟨(), hreproduced.rejected rfl, rfl⟩

/-- `verify_case` accepts the cases that state a known answer which the native functions
reproduce, and writes that answer. -/
theorem verify_case_ok : (verifyCase native case testMutations rustResponse).outcome = .ok text ↔
    ∃ answer : KnownAnswer, States case answer ∧ answer.Reproduced native testMutations ∧
      text = rustResponse ++ answer.text := by
  constructor
  · exact answer_of_verify_case
  · rintro ⟨answer, hstates, hreproduced, rfl⟩
    exact hstates.verify_case hreproduced

end VerifyCase

/-! ## Fields -/

/-- The names of the lines of a record apart from its count. -/
def fieldNames : List Text :=
  ["seed".toList, "mlen".toList, "msg".toList, "pk".toList, "sk".toList, "smlen".toList,
    "sm".toList]

/-- Whether the field for a name is set. -/
def hasField (case : KatCase) (name : Text) : Bool :=
  if name = "count".toList then case.count.isSome
  else if name = "seed".toList then case.seed.isSome
  else if name = "mlen".toList then case.messageLen.isSome
  else if name = "msg".toList then case.message.isSome
  else if name = "pk".toList then case.publicKey.isSome
  else if name = "sk".toList then case.secretKey.isSome
  else if name = "smlen".toList then case.signedMessageLen.isSome
  else if name = "sm".toList then case.signedMessage.isSome
  else false

/-- An accepted case has all fields. -/
theorem verifies_fields {native : Native} {case : KatCase} {testMutations : Bool}
    (h : Verifies native case testMutations) {name : Text} (hname : name ∈ fieldNames) :
    hasField case name = true := by
  obtain ⟨text, h⟩ := h
  obtain ⟨answer, hstates, _, _⟩ := verify_case_ok.mp h
  have hsome : ∀ {field : Option Text} {value : Except Text (List UInt8)},
      field.map decodeHex = some value → field.isSome = true := fun hfield => by
    rw [← Option.isSome_map, hfield]
    rfl
  simp only [fieldNames, List.mem_cons, List.not_mem_nil, or_false] at hname
  rcases hname with rfl | rfl | rfl | rfl | rfl | rfl | rfl
  · exact hsome hstates.seed
  · exact Option.isSome_of_eq_some hstates.messageLen
  · exact hsome hstates.message
  · exact hsome hstates.publicKey
  · exact hsome hstates.secretKey
  · exact Option.isSome_of_eq_some hstates.signedMessageLen
  · exact hsome hstates.signedMessage

end Mqom.Kat
