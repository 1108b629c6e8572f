import Mqom.Kat.Drbg
import Mqom.Kat.RoundTrip
import Mqom.Sign.Session

/-!
# The known answers of the crate

`verify_response` with the functions of the crate and the generator in counter mode. A known answer
is reproduced when it is what key generation and signing make of the first requests to the
generator, and a signature that signing returns is accepted, so the checks after the comparison of
the signatures never fail.
-/

namespace Mqom.Kat

open Rust Library

variable (P : Primitives) (aes256 : Aes256)

/-! ## The native functions -/

/-- The seed of key generation, and the seed and the salt of signing. -/
structure Draws where
  keySeed : Bytes 32
  masterSeed : Bytes 16
  salt : Bytes 16

/-- The state of the generator after key generation. -/
def afterKey (seed : Bytes 48) : KatDrbg :=
  (KatDrbg.generate aes256 32 (KatDrbg.new aes256 seed)).2

/-- What `verify_case` draws for a seed. -/
def drawsOf (seed : Bytes 48) : Draws where
  keySeed := (KatDrbg.generate aes256 32 (KatDrbg.new aes256 seed)).1
  masterSeed := (KatDrbg.generate aes256 16 (afterKey aes256 seed)).1
  salt := (KatDrbg.generate aes256 16 (KatDrbg.generate aes256 16 (afterKey aes256 seed)).2).1

/-- The draws of a seed are the first requests of counter mode. -/
theorem draws_eq (seed : Bytes 48) :
    (CounterDrbg.requests aes256 [32, 16, 16] (CounterDrbg.instantiate aes256 seed)).1 =
      [(drawsOf aes256 seed).keySeed.toList, (drawsOf aes256 seed).masterSeed.toList,
        (drawsOf aes256 seed).salt.toList] := by
  have hseed := KatDrbg.abstract_update aes256 ⟨0, 0⟩ (some seed)
  have hrun := KatDrbg.requests_eq aes256 [32, 16, 16] (KatDrbg.new aes256 seed)
  rw [KatDrbg.new, hseed] at hrun
  exact hrun.1.symm

/-- Generation draws the key seed and goes on after the key. -/
theorem native_generate (seed : Bytes 48) :
    (nativeFunctions P aes256).generate ((nativeFunctions P aes256).new seed) =
      (some ⟨secretKeyOf P (drawsOf aes256 seed).keySeed⟩, afterKey aes256 seed) := by
  have hrun : (SigningKey.generate P (KatDrbg.tryFillBytes aes256)
      (KatDrbg.new aes256 seed)).outcome = .ok
        (some ⟨secretKeyOf P (drawsOf aes256 seed).keySeed⟩, afterKey aes256 seed) :=
    generate_of_seed P rfl
  simp only [nativeFunctions, hrun]

/-- Signing with the generator is `sign` on what is drawn. -/
theorem try_sign_outcome (key : SigningKey) (state : KatDrbg) (message : List UInt8) :
    (key.trySignWithRng P (KatDrbg.tryFillBytes aes256) state message).outcome =
      .ok (signedWith P key message ((KatDrbg.generate aes256 16 state).1,
          (KatDrbg.generate aes256 16 (KatDrbg.generate aes256 16 state).2).1),
        (KatDrbg.generate aes256 16 (KatDrbg.generate aes256 16 state).2).2) :=
  try_sign_with_rng_outcome P (KatDrbg.tryFillBytes aes256) key state message

/-- The functions that `verify_case` calls never panic. -/
theorem native_run_ok (key : SigningKey) (state : KatDrbg) (message : List UInt8) :
    (∃ result, (SigningKey.generate P (KatDrbg.tryFillBytes aes256) state).outcome = .ok result) ∧
      ∃ result, (key.trySignWithRng P (KatDrbg.tryFillBytes aes256) state message).outcome =
        .ok result :=
  ⟨⟨_, generate_of_seed P rfl⟩, ⟨_, try_sign_outcome P aes256 key state message⟩⟩

/-- Signing draws the seed and the salt after the key. -/
theorem native_sign (key : SigningKey) (seed : Bytes 48) (message : List UInt8)
    (signature : Signature) :
    ((nativeFunctions P aes256).trySignWithRng key (afterKey aes256 seed) message).1 =
        some signature ↔
      (sign P key.encoded message (drawsOf aes256 seed).masterSeed
        (drawsOf aes256 seed).salt).outcome = .ok signature.encoded := by
  have hrun : ((nativeFunctions P aes256).trySignWithRng key (afterKey aes256 seed) message).1 =
      (sign P key.encoded message (drawsOf aes256 seed).masterSeed
        (drawsOf aes256 seed).salt).outcome.toOption.map Signature.mk := by
    simp only [nativeFunctions, try_sign_outcome]
    rfl
  rw [hrun]
  cases (sign P key.encoded message (drawsOf aes256 seed).masterSeed
    (drawsOf aes256 seed).salt).outcome with
  | ok encoded =>
      constructor
      · intro h
        rw [← Option.some.inj h]
      · intro h
        rw [Except.ok.inj h]
        rfl
  | error reason => exact ⟨fun h => (nomatch h), fun h => (nomatch h)⟩

/-- A signature that signing returns is accepted by the verifying key. -/
theorem native_verify {key : SigningKey} {seed : Bytes 48} {message : List UInt8}
    {signature : Signature}
    (h : ((nativeFunctions P aes256).trySignWithRng key (afterKey aes256 seed) message).1 =
      some signature) :
    (nativeFunctions P aes256).verify key.verifyingKey message signature = true := by
  let input : SignInput := ⟨key.encoded, message, (drawsOf aes256 seed).masterSeed,
    (drawsOf aes256 seed).salt⟩
  have haccepted := input.accepted_of_signed P ((native_sign P aes256 key seed message _).mp h)
  exact decide_eq_true haccepted

/-! ## Known answers -/

/-- A known answer is what the crate makes of its seed and message: counter mode from the seed draws
32, 16 and 16 bytes, key generation makes the key of the first, and signing the signature with the
others as seed and salt. -/
def KnownAnswer.Genuine (answer : KnownAnswer) : Prop :=
  ∃ draws : Draws,
    (CounterDrbg.requests aes256 [32, 16, 16] (CounterDrbg.instantiate aes256 answer.seed)).1 =
      [draws.keySeed.toList, draws.masterSeed.toList, draws.salt.toList] ∧
    (keypairFromSeed P draws.keySeed).outcome =
      .ok (answer.key.encoded, answer.key.verifyingKey.encoded) ∧
    (sign P answer.key.encoded answer.message draws.masterSeed draws.salt).outcome =
      .ok answer.signature.encoded

/-- Reproducing an answer is being genuine and passing the mutation test. -/
theorem reproduced_iff_genuine (answer : KnownAnswer) (testMutations : Bool) :
    answer.Reproduced (nativeFunctions P aes256) testMutations ↔
      answer.Genuine P aes256 ∧
        (testMutations = true → (rejectTargetedMutations (nativeFunctions P aes256) answer.count
          answer.key.verifyingKey.encoded.toList answer.message
          answer.signature.encoded.toList).outcome = .ok ()) := by
  constructor
  · rintro ⟨hgenerated, hsigned, _, hrejected⟩
    rw [native_generate] at hgenerated hsigned
    have hkey := Option.some.inj hgenerated
    refine ⟨⟨drawsOf aes256 answer.seed, draws_eq aes256 answer.seed, ?_,
      (native_sign P aes256 _ _ _ _).mp hsigned⟩, hrejected⟩
    rw [keypair_from_seed_eq, Run.ret_outcome, ← hkey, SigningKey.verifyingKey, secret_key_public]
  · rintro ⟨⟨draws, hdraws, hkeypair, hsign⟩, hrejected⟩
    rw [draws_eq] at hdraws
    obtain ⟨hkeySeed, hrest⟩ := List.cons.inj hdraws
    obtain ⟨hmasterSeed, hrest⟩ := List.cons.inj hrest
    rw [← Bytes.toList_injective hkeySeed, keypair_from_seed_eq, Run.ret_outcome] at hkeypair
    rw [← Bytes.toList_injective hmasterSeed,
      ← Bytes.toList_injective (List.singleton_inj.mp hrest)] at hsign
    have hkey : (⟨secretKeyOf P (drawsOf aes256 answer.seed).keySeed⟩ : SigningKey) =
        answer.key := by
      have hencoded : secretKeyOf P (drawsOf aes256 answer.seed).keySeed = answer.key.encoded :=
        (Prod.ext_iff.mp (Except.ok.inj hkeypair)).1
      rw [hencoded]
    have hsigned := (native_sign P aes256 answer.key answer.seed answer.message _).mpr hsign
    refine ⟨?_, ?_, native_verify P aes256 hsigned, hrejected⟩
    · rw [native_generate, hkey]
    · rw [native_generate]
      exact hsigned

/-! ## Responses that were written -/

/-- A case states one known answer. -/
theorem States.unique {case : KatCase} {answer other : KnownAnswer} (h : States case answer)
    (hother : States case other) : answer = other := by
  have hbytes : ∀ {field : Option Text} {left right : List UInt8},
      field.map decodeHex = some (.ok left) → field.map decodeHex = some (.ok right) →
        left = right := fun hleft hright =>
    Except.ok.inj (Option.some.inj (hleft.symm.trans hright))
  have hmessage := hbytes h.message hother.message
  have hsigned := hbytes h.signedMessage hother.signedMessage
  rw [hmessage] at hsigned
  refine KnownAnswer.ext (Option.some.inj (h.count.symm.trans hother.count))
    (Bytes.ext (hbytes h.seed hother.seed)) hmessage ?_ ?_
  · exact congrArg SigningKey.mk (Bytes.ext (hbytes h.secretKey hother.secretKey))
  · exact congrArg Signature.mk (Bytes.ext (List.append_cancel_left hsigned))

section Written

variable (native : Native) {verified : Nat} {rustResponse : Text} {last : ReaderState}

/-- The stanza of an answer is accepted when the answer is reproduced, and only then. -/
theorem read_answer_iff {answer : KnownAnswer} (hwritable : answer.Writable) :
    (readStanza native ⟨caseOf [], verified, rustResponse⟩ answer.stanza).outcome = .ok last ↔
      answer.Reproduced native (verified == 0) ∧
        ⟨caseOf [], verified + 1, rustResponse ++ answer.text⟩ = last := by
  constructor
  · intro h
    rw [read_stanza_record native hwritable.not_blank Kept.nil hwritable.readable
      hwritable.counted, List.nil_append, hwritable.case_of_stanza, Run.after_outcome] at h
    obtain ⟨text, hverified, hlast⟩ := Run.bind_outcome_ok.mp h
    obtain ⟨other, hstates, hreproduced, rfl⟩ := verify_case_ok.mp hverified
    obtain rfl := answer.case_states.unique hstates
    exact ⟨hreproduced, Except.ok.inj hlast⟩
  · rintro ⟨hreproduced, rfl⟩
    rw [read_answer native hwritable hreproduced]
    rfl

/-- The stanzas of answers are accepted when all of them are reproduced, and only then. -/
theorem read_answers_iff {answers : List KnownAnswer}
    (hwritable : ∀ answer ∈ answers, answer.Writable) :
    ((answers.map KnownAnswer.stanza).foldlM (readStanza native)
        ⟨caseOf [], verified, rustResponse⟩).outcome = .ok last ↔
      AllReproduced native verified answers ∧
        ⟨caseOf [], verified + answers.length,
          rustResponse ++ answers.flatMap KnownAnswer.text⟩ = last := by
  constructor
  · intro h
    induction answers generalizing verified rustResponse with
    | nil =>
        refine ⟨fun _ hentry => absurd hentry List.not_mem_nil, ?_⟩
        rw [List.flatMap_nil, List.append_nil]
        exact Except.ok.inj h
    | cons answer rest ih =>
        rw [List.map_cons, List.foldlM_cons] at h
        obtain ⟨middle, hfirst, hrest⟩ := Run.bind_outcome_ok.mp h
        have hhead := hwritable answer List.mem_cons_self
        obtain ⟨hreproduced, rfl⟩ := (read_answer_iff native hhead).mp hfirst
        obtain ⟨hall, hlast⟩ := ih (fun other hother =>
          hwritable other (List.mem_cons_of_mem answer hother)) hrest
        refine ⟨all_reproduced_cons.mpr ⟨⟨hhead, hreproduced⟩, hall⟩, ?_⟩
        rw [← hlast, List.length_cons, List.flatMap_cons, List.append_assoc, Nat.add_assoc,
          Nat.add_comm 1]
  · rintro ⟨hall, rfl⟩
    rw [read_answers native hall]
    rfl

/-- A response that was written is accepted when its hundred answers are reproduced. -/
theorem written_response_iff {answers : List KnownAnswer}
    (hwritable : ∀ answer ∈ answers, answer.Writable) :
    (verifyResponse native (responseText answers)).outcome = .ok (100, responseText answers) ↔
      answers.length = 100 ∧ AllReproduced native 0 answers := by
  constructor
  · intro h
    rw [verify_response_eq, stanzas_response hwritable, List.foldlM_cons, read_header,
      Run.ret_bind, Run.after_nil, readerStart] at h
    obtain ⟨last, hread, hwritten⟩ := Run.bind_outcome_ok.mp h
    obtain ⟨hall, rfl⟩ := (read_answers_iff native hwritable).mp hread
    obtain ⟨_, hcount, _⟩ := Run.bind_outcome_ok.mp hwritten
    have hlength : 0 + answers.length = 100 := require_ok.mp hcount
    exact ⟨by omega, hall⟩
  · rintro ⟨hlength, hall⟩
    rw [verify_response_text native hall hlength]
    rfl

end Written

/-- Answers after the first are not mutated. -/
theorem all_reproduced_succ (answers : List KnownAnswer) (verified : Nat) :
    AllReproduced (nativeFunctions P aes256) (verified + 1) answers ↔
      ∀ answer ∈ answers, answer.Writable ∧ answer.Genuine P aes256 := by
  induction answers generalizing verified with
  | nil =>
      exact ⟨fun _ _ hanswer => absurd hanswer List.not_mem_nil,
        fun _ _ hentry => absurd hentry List.not_mem_nil⟩
  | cons answer rest ih =>
      have hlater : (verified + 1 == 0) = false := rfl
      rw [all_reproduced_cons, ih, reproduced_iff_genuine, hlater, List.forall_mem_cons]
      simp

/-- The response of a hundred known answers is accepted when each answer is what the crate makes of
its seed and message and the verifier rejects the mutations of the first, and only then. -/
theorem written_response_accepted (answers : List {answer : KnownAnswer // answer.Writable}) :
    (verifyResponse (nativeFunctions P aes256) (responseText (answers.map Subtype.val))).outcome =
        .ok (100, responseText (answers.map Subtype.val)) ↔
      answers.length = 100 ∧ (∀ answer ∈ answers, answer.val.Genuine P aes256) ∧
        ∀ first ∈ answers.head?, (rejectTargetedMutations (nativeFunctions P aes256)
          first.val.count first.val.key.verifyingKey.encoded.toList first.val.message
          first.val.signature.encoded.toList).outcome = .ok () := by
  have hwritable : ∀ answer ∈ answers.map Subtype.val, answer.Writable := by
    intro answer hanswer
    obtain ⟨written, _, rfl⟩ := List.mem_map.mp hanswer
    exact written.property
  rw [written_response_iff _ hwritable, List.length_map]
  refine and_congr_right fun _ => ?_
  cases answers with
  | nil => simp [AllReproduced]
  | cons first rest =>
      have hzero : (0 == 0) = true := rfl
      rw [List.map_cons, all_reproduced_cons, all_reproduced_succ, reproduced_iff_genuine, hzero]
      constructor
      · rintro ⟨⟨_, hgenuine, hrejected⟩, hrest⟩
        refine ⟨List.forall_mem_cons.mpr ⟨hgenuine, fun answer hanswer =>
          (hrest answer.val (List.mem_map_of_mem hanswer)).2⟩, ?_⟩
        intro answer hanswer
        obtain rfl := Option.some.inj hanswer
        exact hrejected rfl
      · rintro ⟨hgenuine, hrejected⟩
        refine ⟨⟨first.property, hgenuine first List.mem_cons_self, fun _ => hrejected first rfl⟩,
          ?_⟩
        intro answer hanswer
        obtain ⟨written, hwritten, rfl⟩ := List.mem_map.mp hanswer
        exact ⟨written.property, hgenuine written (List.mem_cons_of_mem first hwritten)⟩

end Mqom.Kat
