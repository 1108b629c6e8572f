import Mqom.Sign.Transcript

/-!
# The invocations of SHAKE128

Every SHAKE128 call that key generation, key import, the expansion of equations, signing or
verification records absorbs a transcript of its site.
-/

namespace Mqom

open Rust Params Transcript

/-! ## What the sites absorb -/

/-- The strings that the sites absorb for a transcript. `evaluate_opening` absorbs the partial
deltas as one string. -/
inductive Absorbs : Transcript → List (List UInt8) → Prop where
  | keyExpansion (keySeed : Bytes 32) : Absorbs (.keyExpansion keySeed) [[0x00], keySeed.toList]
  | equationSeed (masterSeed : Bytes 32) (equationIndex : Fin 14) :
      Absorbs (.equationSeed masterSeed equationIndex) (equationParts masterSeed equationIndex)
  | messageHash (message : List UInt8) : Absorbs (.messageHash message) (messageParts message)
  | responseCommitment (alphaZero : Alpha) (alphaOne : Bytes 192) :
      Absorbs (.responseCommitment alphaZero alphaOne) (responseParts alphaZero alphaOne.toList)
  | fiatShamir (publicKey : Bytes 60) (firstCommitment secondCommitment messageDigest : Bytes 32) :
      Absorbs (.fiatShamir publicKey firstCommitment secondCommitment messageDigest)
        [[0x04], publicKey.toList, firstCommitment.toList, secondCommitment.toList,
          messageDigest.toList]
  | challenge (hash : Bytes 32) (nonce : Bytes 4) :
      Absorbs (.challenge hash nonce) (challengeParts hash nonce)
  | leafHash (commitments : Vector (Bytes 32) 2048) :
      Absorbs (.leafHash commitments) ([0x06] :: arrayParts commitments)
  | overallCommitment (hashes : Vector (Bytes 32) 12) (partialDeltas : Vector (Bytes 12) 12) :
      Absorbs (.overallCommitment hashes partialDeltas)
        ([0x07] :: arrayParts hashes ++ arrayParts partialDeltas)
  | openedCommitment (hashes : Vector (Bytes 32) 12) (partialDeltas : Vector (Bytes 12) 12) :
      Absorbs (.overallCommitment hashes partialDeltas)
        ([0x07] :: arrayParts hashes ++ [(arrayParts partialDeltas).flatten])
  | batching (firstCommitment : Bytes 32) :
      Absorbs (.batching firstCommitment) (batchingParts firstCommitment)

/-- Together the strings are the encoding of the transcript. -/
theorem Absorbs.flatten_eq {transcript : Transcript} {parts : List (List UInt8)}
    (h : Absorbs transcript parts) : parts.flatten = transcript.encoding := by
  cases h with
  | responseCommitment alphaZero alphaOne =>
      have halpha : (encodedAlpha alphaZero).toList = (alphaParts alphaZero).flatten := rfl
      simp [encoding, components, responseParts, kind, HashKind.tag, halpha]
  | _ => simp [encoding, components, equationParts, messageParts, challengeParts, batchingParts,
      kind, HashKind.tag]

/-- A SHAKE128 call absorbs a transcript of its site. -/
def Framed : Call → Prop
  | .shake128 kind parts => ∃ transcript, transcript.kind = kind ∧ Absorbs transcript parts
  | .commitSeed .. => True

/-- All calls of a run are framed. -/
def AllFramed {α : Type} (run : Exec α) : Prop :=
  ∀ call ∈ run.events, Framed call

namespace AllFramed

variable {α β : Type}

/-- Framed calls follow one another. -/
theorem bind {run : Exec α} {next : α → Exec β} (hrun : AllFramed run)
    (hnext : ∀ value, run.outcome = .ok value → AllFramed (next value)) :
    AllFramed (run >>= next) := by
  intro call hcall
  rcases Run.mem_bind_events hcall with hfirst | ⟨value, houtcome, hrest⟩
  · exact hrun call hfirst
  · exact hnext value houtcome call hrest

/-- A run without calls is framed. -/
theorem of_events_nil {run : Exec α} (h : run.events = []) : AllFramed run := by
  intro call hcall
  rw [h] at hcall
  exact absurd hcall List.not_mem_nil

/-- A returned value makes no calls. -/
theorem ret (value : α) : AllFramed (Run.ret value [] : Exec α) :=
  of_events_nil rfl

end AllFramed

/-- The arrays of a vector are its entries. -/
theorem array_parts_of_fn {m n : Nat} (entry : Fin n → Bytes m) :
    arrayParts (Vector.ofFn entry) = (List.finRange n).map fun i => (entry i).toList := by
  rw [arrayParts, Vector.toList_ofFn, List.ofFn_eq_map, List.map_map]
  rfl

/-- Parts that are listed by numbers below `n`. -/
theorem array_parts_range {m n : Nat} (entry : Nat → Bytes m) :
    arrayParts (Vector.ofFn fun i : Fin n => entry i) =
      (List.range n).map fun i => (entry i).toList := by
  rw [array_parts_of_fn, ← List.map_coe_finRange_eq_range, List.map_map]
  rfl

/-! ## The calls of the parts -/

/-- The calls that expand the equations are framed. -/
theorem equation_calls_framed (masterSeed : Bytes 32) :
    ∀ call ∈ equationCalls masterSeed, Framed call := by
  intro call hcall
  obtain ⟨j, hj, rfl⟩ := List.mem_map.mp hcall
  exact ⟨_, rfl, .equationSeed masterSeed ⟨j, List.mem_range.mp hj⟩⟩

/-- So are those that expand a batched system. -/
theorem batching_calls_framed (firstCommitment masterSeed : Bytes 32) :
    ∀ call ∈ Call.shake128 .batching (batchingParts firstCommitment) :: equationCalls masterSeed,
      Framed call := by
  intro call hcall
  rcases List.mem_cons.mp hcall with rfl | hrest
  · exact ⟨_, rfl, .batching firstCommitment⟩
  · exact equation_calls_framed masterSeed call hrest

/-- The calls of a commitment are framed. -/
theorem commit_calls_framed (P : Primitives) (input : CommitInput) :
    ∀ call ∈ input.calls P, Framed call := by
  intro call hcall
  rcases List.mem_append.mp hcall with hexecution | hoverall
  · obtain ⟨e, _, he⟩ := List.mem_flatMap.mp hexecution
    rcases List.mem_append.mp he with hleaf | hhash
    · obtain ⟨j, _, rfl⟩ := List.mem_map.mp hleaf
      exact trivial
    · rw [List.mem_singleton.mp hhash]
      refine ⟨.leafHash (Vector.ofFn fun j : Fin 2048 => input.leafCommitment P e j), rfl, ?_⟩
      rw [CommitInput.leafParts, ← array_parts_range]
      exact .leafHash _
  · rw [List.mem_singleton.mp hoverall]
    refine ⟨.overallCommitment (Vector.ofFn fun e => (input.committed P e).leafCommitmentHash)
      (Vector.ofFn (input.partialDelta P)), rfl, ?_⟩
    rw [CommitInput.overallParts, ← array_parts_of_fn, ← array_parts_of_fn]
    exact .overallCommitment _ _

/-- So are those of an evaluated opening. -/
theorem evaluate_calls_framed (P : Primitives) (input : EvaluateInput) :
    ∀ call ∈ input.calls P, Framed call := by
  intro call hcall
  cases call with
  | commitSeed => exact trivial
  | shake128 kind parts =>
      obtain ⟨e, rfl, rfl⟩ | ⟨rfl, rfl⟩ := shake_mem_calls hcall
      · refine ⟨.leafHash (Vector.ofFn fun j : Fin 2048 => input.leafCommitment P e j), rfl, ?_⟩
        rw [EvaluateInput.leafParts, ← array_parts_range]
        exact .leafHash _
      · refine ⟨.overallCommitment (Vector.ofFn (input.leafHash P))
          (Vector.ofFn (OpeningParts.decode input.opening).partialDeltas), rfl, ?_⟩
        rw [EvaluateInput.overallParts, ← partial_deltas_flatten, ← array_parts_of_fn,
          ← array_parts_of_fn]
        exact .openedCommitment _ _

/-- The challenges of a search are framed. -/
theorem search_calls_framed (hash : Bytes 32) (start count : Nat) :
    ∀ call ∈ searchCalls hash start count, Framed call := by
  intro call hcall
  obtain ⟨value, _, rfl⟩ := List.mem_map.mp hcall
  exact ⟨_, rfl, .challenge hash (nonceOf value)⟩

/-- The calls of the two hashes of `fiat_shamir_hash`. -/
theorem fiat_shamir_calls_framed (P : Primitives) (publicKey : Bytes 60)
    (firstCommitment secondCommitment : Bytes 32) (message : List UInt8) :
    ∀ call ∈ [Call.shake128 .messageHash (messageParts message),
      .shake128 .fiatShamir (fiatShamirParts P publicKey.toList firstCommitment.toList
        secondCommitment.toList message)], Framed call := by
  intro call hcall
  rcases List.mem_cons.mp hcall with rfl | hrest
  · exact ⟨_, rfl, .messageHash message⟩
  · rw [List.mem_singleton.mp hrest]
    exact ⟨_, rfl, .fiatShamir publicKey firstCommitment secondCommitment _⟩

/-! ## The calls of the functions -/

section Functions

variable (P : Primitives)

/-- The calls behind the decision of the verifier are framed. -/
theorem decision_framed (input : VerifyInput) : AllFramed (input.decision P) := by
  intro call hcall
  rcases input.mem_decision_events P hcall with hchallenge | hevaluate | hresponse
  · rcases List.mem_append.mp (show call ∈ [_, _] ++ [_] from hchallenge) with hhash | hlast
    · exact fiat_shamir_calls_framed P input.publicKey input.firstCommitment
        input.secondCommitment input.message call hhash
    · rw [List.mem_singleton.mp hlast]
      exact ⟨_, rfl, .challenge _ _⟩
  · exact evaluate_calls_framed P _ call hevaluate
  · rcases List.mem_append.mp hresponse with hbatching | hcommitment
    · exact batching_calls_framed _ _ call hbatching
    · rw [List.mem_singleton.mp hcommitment]
      exact ⟨_, rfl, .responseCommitment _ _⟩

/-- All calls of verification are framed. -/
theorem verify_framed (publicKey message signature : List UInt8) :
    AllFramed (verify P publicKey message signature) := by
  have hinner : AllFramed (verifyInner P publicKey message signature) := by
    by_cases hlengths : publicKey.length = 60 ∧ signature.length = 2916
    · have hrun := VerifyInput.verify_inner_eq P
        ⟨⟨publicKey, hlengths.1⟩, message, ⟨signature, hlengths.2⟩⟩
      rw [show verifyInner P publicKey message signature = _ from hrun]
      exact decision_framed P _
    · rw [verify_inner_of_lengths P message hlengths]
      exact AllFramed.of_events_nil rfl
  unfold verify
  refine AllFramed.bind ?_ fun result _ => AllFramed.ret _
  intro call hcall
  rw [Run.attempt_events] at hcall
  exact hinner call hcall

/-- All calls before the search are framed. -/
theorem prepare_framed (input : SignInput) :
    AllFramed (prepareSignature P input.key input.message input.masterSeed input.salt) := by
  intro call hcall
  rw [input.prepare_signature_eq P, Run.ret_events, SignInput.prepareCalls] at hcall
  rcases List.mem_append.mp hcall with hcommit | hrest
  · rcases List.mem_append.mp hcommit with hcommit | hbatching
    · exact commit_calls_framed P _ call hcommit
    · exact batching_calls_framed _ _ call hbatching
  · rcases List.mem_cons.mp hrest with rfl | hhash
    · exact ⟨_, rfl, .responseCommitment _ _⟩
    · exact fiat_shamir_calls_framed P input.publicKey (input.firstCommitment P)
        (input.secondCommitment P) input.message call hhash

/-- The calls of the search, and that the indices it finds are indices of leaves. -/
theorem sample_challenge_framed (hash : Bytes 32) :
    AllFramed (sampleChallenge P hash) ∧
      ∀ indices nonce, (sampleChallenge P hash).outcome = .ok (indices, nonce) →
        ∀ e : Fin 12, indices[e].toNat < 2048 := by
  have hsearch := sample_from_cases P hash (2 ^ 32) 0
  rw [← sample_challenge_eq] at hsearch
  rcases hsearch with ⟨k, _, _, _, hrun⟩ | ⟨_, hrun⟩
  · rw [hrun]
    refine ⟨search_calls_framed hash _ _, fun indices nonce hfound => ?_⟩
    obtain ⟨rfl, rfl⟩ := Prod.ext_iff.mp (Except.ok.inj hfound)
    exact indices_of_lt P hash _
  · rw [hrun]
    refine ⟨fun call hcall => ?_, fun indices nonce hfound => (nomatch hfound)⟩
    rw [Run.after_events, Run.halt_events, List.append_nil] at hcall
    exact search_calls_framed hash _ _ call hcall

/-- Copying makes no calls. -/
theorem copy_framed {n : Nat} (target : Bytes n) (lo hi : Nat) (source : List UInt8) :
    AllFramed (copyFromSlice target lo hi source) := by
  unfold copyFromSlice
  split
  · exact AllFramed.ret _
  · exact AllFramed.of_events_nil rfl

/-- All calls of a signer are framed. -/
theorem sign_framed (input : SignInput) :
    AllFramed (sign P input.key input.message input.masterSeed input.salt) := by
  unfold sign
  refine AllFramed.bind (prepare_framed P input) fun state hstate => ?_
  rw [input.prepare_signature_eq P, Run.ret_outcome] at hstate
  obtain rfl := Except.ok.inj hstate
  obtain ⟨hframed, hlt⟩ := sample_challenge_framed P (input.hash P)
  refine AllFramed.bind hframed fun found hfound => ?_
  have hopen := input.commitInput.open_at_eq P found.1 (hlt found.1 found.2 hfound)
  refine AllFramed.bind ?_ fun opening _ => ?_
  · intro call hcall
    rw [show (input.commitment P).openAt P found.1 = _ from hopen, Run.ret_events] at hcall
    obtain ⟨e, _, rfl⟩ := List.mem_map.mp hcall
    exact trivial
  refine AllFramed.bind (copy_framed _ _ _ _) fun signature _ => ?_
  refine AllFramed.bind (copy_framed _ _ _ _) fun signature _ => ?_
  refine AllFramed.bind (verify_framed P _ _ _) fun accepted _ => ?_
  refine AllFramed.bind ?_ fun _ _ => AllFramed.ret _
  unfold Run.require
  split <;> exact AllFramed.of_events_nil rfl

/-- The calls that expand one equation are framed. -/
theorem expand_equation_framed (masterSeed : Bytes 32) (equationIndex : Nat) :
    AllFramed (expandEquation P masterSeed equationIndex) := by
  by_cases hindex : equationIndex < 14
  · rw [expand_equation_eq P masterSeed hindex]
    intro call hcall
    rw [List.mem_singleton.mp hcall]
    exact ⟨_, rfl, .equationSeed masterSeed ⟨equationIndex, hindex⟩⟩
  · rw [expand_equation_of_not_lt P masterSeed equationIndex hindex]
    exact AllFramed.of_events_nil rfl

/-- All calls of key generation from a seed are framed. -/
theorem keypair_framed (seed : Bytes 32) : AllFramed (keypairFromSeed P seed) := by
  rw [keypair_from_seed_eq]
  intro call hcall
  rcases List.mem_cons.mp hcall with rfl | hrest
  · exact ⟨_, rfl, .keyExpansion seed⟩
  · exact equation_calls_framed _ call hrest

/-- So are those of key generation. -/
theorem generate_framed {State : Type} (rng : TryCryptoRng State) (state : State) :
    AllFramed (SigningKey.generate P rng state) := by
  unfold SigningKey.generate
  cases rng 32 state with
  | mk drawn next =>
      cases drawn with
      | none => exact AllFramed.ret _
      | some seed =>
          refine AllFramed.bind ?_ fun keypair _ => AllFramed.ret _
          intro call hcall
          rw [Run.attempt_events] at hcall
          exact keypair_framed P seed call hcall

/-- So are those of signing with randomness. -/
theorem try_sign_framed {State : Type} (key : SigningKey) (rng : TryCryptoRng State)
    (state : State) (message : List UInt8) :
    AllFramed (key.trySignWithRng P rng state message) := by
  unfold SigningKey.trySignWithRng
  cases rng 16 state with
  | mk drawn next =>
      cases drawn with
      | none => exact AllFramed.ret _
      | some masterSeed =>
          dsimp only
          cases rng 16 next with
          | mk drawn last =>
              cases drawn with
              | none => exact AllFramed.ret _
              | some salt =>
                  refine AllFramed.bind ?_ fun signature _ => AllFramed.ret _
                  intro call hcall
                  rw [Run.attempt_events] at hcall
                  exact sign_framed P ⟨key.encoded, message, masterSeed, salt⟩ call hcall

/-- So are those that check an imported key. -/
theorem from_slice_framed (bytes : List UInt8) : AllFramed (SigningKey.fromSlice P bytes) := by
  unfold SigningKey.fromSlice
  cases encodedFromSlice secretKeySize bytes with
  | error error => exact AllFramed.ret _
  | ok key =>
      refine AllFramed.bind ?_ fun consistent _ => ?_
      · have hconsistent := secret_key_is_consistent_eq P key
        rw [show secretKeyIsConsistent P key = _ from hconsistent]
        exact equation_calls_framed _
      · cases consistent with
        | false => exact AllFramed.ret _
        | true => exact AllFramed.ret _

end Functions

/-! ## Separation -/

/-- The calls of a run of key generation, key import, the expansion of an equation, signing or
verification, on any arguments. -/
inductive RunCalls (P : Primitives) : List Call → Prop where
  | keypairFromSeed (seed : Bytes 32) : RunCalls P (keypairFromSeed P seed).events
  | generate {State : Type} (rng : TryCryptoRng State) (state : State) :
      RunCalls P (SigningKey.generate P rng state).events
  | fromSlice (bytes : List UInt8) : RunCalls P (SigningKey.fromSlice P bytes).events
  | expandEquation (masterSeed : Bytes 32) (equationIndex : Nat) :
      RunCalls P (expandEquation P masterSeed equationIndex).events
  | sign (key : Bytes 88) (message : List UInt8) (masterSeed salt : Bytes 16) :
      RunCalls P (sign P key message masterSeed salt).events
  | trySignWithRng {State : Type} (key : SigningKey) (rng : TryCryptoRng State) (state : State)
      (message : List UInt8) : RunCalls P (key.trySignWithRng P rng state message).events
  | verify (publicKey message signature : List UInt8) :
      RunCalls P (verify P publicKey message signature).events

/-- The calls of every run are framed. -/
theorem RunCalls.framed {P : Primitives} {calls : List Call} (h : RunCalls P calls) :
    ∀ call ∈ calls, Framed call := by
  cases h with
  | keypairFromSeed seed => exact keypair_framed P seed
  | generate rng state => exact generate_framed P rng state
  | fromSlice bytes => exact from_slice_framed P bytes
  | expandEquation masterSeed equationIndex =>
      exact expand_equation_framed P masterSeed equationIndex
  | sign key message masterSeed salt => exact sign_framed P ⟨key, message, masterSeed, salt⟩
  | trySignWithRng key rng state message => exact try_sign_framed P key rng state message
  | verify publicKey message signature => exact verify_framed P publicKey message signature

/-- Two invocations of SHAKE128 that absorb the same bytes come from the same site and hash the
same components. -/
theorem domain_separation {P P' : Primitives} {calls calls' : List Call} (h : RunCalls P calls)
    (h' : RunCalls P' calls') {kind kind' : HashKind} {parts parts' : List (List UInt8)}
    (hcall : .shake128 kind parts ∈ calls) (hcall' : .shake128 kind' parts' ∈ calls')
    (hbytes : parts.flatten = parts'.flatten) :
    kind = kind' ∧ ∃ transcript : Transcript, transcript.kind = kind ∧
      Absorbs transcript parts ∧ Absorbs transcript parts' ∧
      ∀ other, Absorbs other parts ∨ Absorbs other parts' → other = transcript := by
  obtain ⟨transcript, hkind, habsorbs⟩ := h.framed _ hcall
  obtain ⟨transcript', hkind', habsorbs'⟩ := h'.framed _ hcall'
  have hencoding : transcript.encoding = transcript'.encoding := by
    rw [← habsorbs.flatten_eq, ← habsorbs'.flatten_eq, hbytes]
  obtain rfl := Transcript.encoding_injective hencoding
  refine ⟨hkind.symm.trans hkind', transcript, hkind, habsorbs, habsorbs', ?_⟩
  rintro other (hother | hother)
  · exact Transcript.encoding_injective (hother.flatten_eq.symm.trans habsorbs.flatten_eq)
  · exact Transcript.encoding_injective (hother.flatten_eq.symm.trans habsorbs'.flatten_eq)

/-- Key generation from the zero seed and the expansion of one of its equations. -/
theorem equation_seed_separation :
    HashKind.equationSeed = .equationSeed ∧ ∃ transcript : Transcript,
      transcript.kind = .equationSeed ∧ Absorbs transcript (equationParts 0 3) ∧
      Absorbs transcript (equationParts 0 3) ∧
      ∀ other, Absorbs other (equationParts 0 3) ∨ Absorbs other (equationParts 0 3) →
        other = transcript := by
  have hmaster : (keyExpansion zeroPrimitives 0).extract 28 32 (by omega) = 0 := rfl
  have hcall : .shake128 .equationSeed (equationParts 0 3) ∈
      (keypairFromSeed zeroPrimitives 0).events := by
    rw [keypair_from_seed_eq, Run.ret_events, hmaster]
    exact List.mem_cons_of_mem _ (List.mem_map_of_mem (List.mem_range.mpr (by omega)))
  have hcall' : .shake128 .equationSeed (equationParts 0 3) ∈
      (expandEquation zeroPrimitives 0 3).events := by
    rw [expand_equation_eq zeroPrimitives 0 (by omega)]
    exact List.mem_singleton.mpr rfl
  exact domain_separation (.keypairFromSeed 0) (.expandEquation 0 3) hcall hcall' rfl

end Mqom
