import Mqom.Sign.SelfVerification

/-!
# The shape of a run

The shape of a call is its site and the lengths of the strings that it absorbs. The shape of a run
of the verifier depends on the length of the message and the check at which the run ends, and the
shape of a run of the signer on the length of the message and the number of nonces that it tries.
-/

namespace Mqom

open Rust Params

/-! ## Shapes -/

/-- A call without the bytes that it is about. -/
inductive CallShape where
  | shake128 (kind : HashKind) (lengths : List Nat)
  | commitSeed
  deriving DecidableEq

/-- The shape of a call. -/
def Call.shape : Call → CallShape
  | .shake128 kind parts => .shake128 kind (parts.map List.length)
  | .commitSeed .. => .commitSeed

/-- An execution of which some leaves are committed to. -/
def executionShape (leaves : Nat) : List CallShape :=
  List.replicate leaves .commitSeed ++ [.shake128 .leafHash (1 :: List.replicate 2048 32)]

/-- `commit`. -/
def commitShape : List CallShape :=
  (List.replicate 12 (executionShape 2048)).flatten ++
    [.shake128 .overallCommitment (1 :: List.replicate 12 32 ++ List.replicate 12 12)]

/-- `evaluate_opening`. -/
def evaluateShape : List CallShape :=
  (List.replicate 12 (executionShape 2047)).flatten ++
    [.shake128 .overallCommitment (1 :: List.replicate 12 32 ++ [144])]

/-- The expansion of the batching coefficients and of the equations, and the second commitment. -/
def responseShape : List CallShape :=
  .shake128 .batching [1, 32] :: List.replicate 14 (.shake128 .equationSeed [1, 32, 2]) ++
    [.shake128 .responseCommitment (1 :: List.replicate 96 2 ++ [192])]

/-- The Fiat-Shamir hash of a message of this length. -/
def hashShape (messageLength : Nat) : List CallShape :=
  [.shake128 .messageHash [1, messageLength], .shake128 .fiatShamir [1, 60, 32, 32, 32]]

/-- The hash of a nonce. -/
def challengeShape : CallShape :=
  .shake128 .challenge [1, 32, 4]

/-- A run of `verify_inner` with this outcome. -/
def verifyShape (messageLength : Nat) (outcome : Except (Rust.Halt Branch) Unit) :
    List CallShape :=
  if outcome = .error (.none .encodedLength) then []
  else hashShape messageLength ++ challengeShape ::
    if outcome = .error (.none .grinding) then []
    else evaluateShape ++
      if outcome = .error (.none .firstCommitment) then [] else responseShape

/-- `sign` up to the challenge search. -/
def prepareShape (messageLength : Nat) : List CallShape :=
  commitShape ++ responseShape ++ hashShape messageLength

/-- `sign` after the challenge search. -/
def finishShape (messageLength : Nat) : List CallShape :=
  List.replicate 12 .commitSeed ++ verifyShape messageLength (.ok ())

/-! ## Parts of runs -/

/-- A loop of which every step has one shape. -/
theorem flatMap_shape {α : Type} {items : List α} {calls : α → List Call} {shape : List CallShape}
    (h : ∀ item ∈ items, (calls item).map Call.shape = shape) :
    (items.flatMap calls).map Call.shape = (List.replicate items.length shape).flatten := by
  rw [List.map_flatMap, List.flatMap_congr h, List.flatMap_def, List.map_const']

/-- A loop that skips one item. -/
theorem flatMap_unless {α β : Type} [DecidableEq α] (items : List α) (skipped : α) (call : α → β) :
    (items.flatMap fun item => if item = skipped then [] else [call item]) =
      (items.filter (· != skipped)).map call := by
  induction items with
  | nil => rfl
  | cons item rest ih =>
      rw [List.flatMap_cons, ih]
      by_cases h : item = skipped <;> simp [h]

/-- The responses are 96 parts of two bytes. -/
theorem alpha_parts_lengths (alpha : Alpha) :
    (alphaParts alpha).map List.length = List.replicate 96 2 := by
  have hlengths : ∀ part ∈ alphaParts alpha, part.length = 2 := by
    intro part hpart
    obtain ⟨execution, _, hpart⟩ := List.mem_flatMap.mp hpart
    obtain ⟨element, _, rfl⟩ := List.mem_map.mp hpart
    exact element.toBytes.length_toList
  refine List.eq_replicate_iff.mpr ⟨?_, ?_⟩
  · simp [alphaParts, List.length_flatMap]
  · intro length hlength
    obtain ⟨part, hpart, rfl⟩ := List.mem_map.mp hlength
    exact hlengths part hpart

/-- The shape of the hash of the responses. -/
theorem response_parts_shape (alphaZero : Alpha) (alphaOne : Bytes 192) :
    (Call.shake128 .responseCommitment (responseParts alphaZero alphaOne.toList)).shape =
      .shake128 .responseCommitment (1 :: List.replicate 96 2 ++ [192]) := by
  rw [Call.shape, responseParts, List.map_append, List.map_cons, alpha_parts_lengths]
  simp

/-- The shape of the calls that expand a batched system. -/
theorem system_calls_shape (firstCommitment masterSeed : Bytes 32) :
    (Call.shake128 .batching (batchingParts firstCommitment) :: equationCalls masterSeed).map
        Call.shape =
      .shake128 .batching [1, 32] :: List.replicate 14 (.shake128 .equationSeed [1, 32, 2]) := by
  simp [equationCalls, batchingParts, equationParts, Call.shape, Function.comp_def]

namespace CommitInput

variable (P : Primitives) (input : CommitInput)

/-- The signer makes the calls for all leaves of an execution. -/
theorem execution_calls_shape (e : Fin 12) :
    (input.executionCalls P e).map Call.shape = executionShape 2048 := by
  rw [executionCalls, List.map_append, List.map_map]
  refine congrArg₂ (· ++ ·) ?_ ?_
  · have hseed : (Call.shape ∘ fun j => commitCall input.salt (executionByte e)
        (input.leafSeed P e j)) = fun _ => .commitSeed := rfl
    rw [hseed, List.map_const', List.length_range]
  · rw [List.map_singleton, Call.shape, leaf_parts_lengths, List.map_const', List.length_range]

/-- The shape of the calls of a commitment. -/
theorem calls_shape : (input.calls P).map Call.shape = commitShape := by
  rw [calls, List.map_append, flatMap_shape (fun e _ => input.execution_calls_shape P e),
    List.length_finRange, List.map_singleton, Call.shape, overall_parts_lengths, List.map_const',
    List.map_const', List.length_finRange]
  rfl

end CommitInput

namespace EvaluateInput

variable (P : Primitives) (input : EvaluateInput)

/-- All leaves but the hidden one are committed to. -/
theorem leaf_calls_shape (e : Fin 12) :
    ((List.range 2048).flatMap (input.leafCalls P e)).map Call.shape =
      List.replicate 2047 .commitSeed := by
  have hmem : input.hidden e ∈ List.range 2048 := List.mem_range.mpr (input.hidden_lt e)
  have hcalls : (List.range 2048).flatMap (input.leafCalls P e) =
      ((List.range 2048).erase (input.hidden e)).map fun j =>
        commitCall input.salt (executionByte e) (input.leafSeed P e j) := by
    rw [List.nodup_range.erase_eq_filter]
    exact flatMap_unless _ _ _
  have hseed : (Call.shape ∘ fun j => commitCall input.salt (executionByte e)
      (input.leafSeed P e j)) = fun _ => .commitSeed := rfl
  rw [hcalls, List.map_map, hseed, List.map_const', List.length_erase_of_mem hmem,
    List.length_range]

/-- The verifier makes the calls for all leaves but one. -/
theorem execution_calls_shape (e : Fin 12) :
    (input.executionCalls P e).map Call.shape = executionShape 2047 := by
  rw [executionCalls, List.map_append, leaf_calls_shape, List.map_singleton, Call.shape,
    leaf_parts_lengths, List.map_const', List.length_range]
  rfl

/-- The shape of the calls of an evaluated opening. -/
theorem calls_shape : (input.calls P).map Call.shape = evaluateShape := by
  rw [calls, List.map_append, flatMap_shape (fun e _ => input.execution_calls_shape P e),
    List.length_finRange, List.map_singleton, Call.shape, overall_parts_lengths, List.map_const',
    List.length_finRange]
  rfl

end EvaluateInput

/-- An opening of which an index is refused. The executions before it have been evaluated. -/
theorem evaluate_opening_refused (P : Primitives) (salt : Bytes 16) (expected : Bytes 32)
    (opening : Bytes 2640) (hiddenIndices : Vector UInt16 12) (e : Fin 12)
    (hrefused : ¬ hiddenIndices[e].toNat < 2048)
    (hbefore : ∀ f < e, hiddenIndices[f].toNat < 2048) :
    (evaluateOpening P salt expected opening.toList hiddenIndices).outcome =
        .error (.none .hiddenIndex) ∧
      (evaluateOpening P salt expected opening.toList hiddenIndices).events.map Call.shape =
        (List.replicate e (executionShape 2047)).flatten := by
  have hexecutions := Run.of_fn_m_eq_halt e
    (fun f hf => by
      obtain ⟨input, hrun⟩ := evaluate_execution_of_lt P salt opening hiddenIndices f (hbefore f hf)
      exact ⟨_, congrArg Run.outcome hrun⟩)
    (evaluate_execution_of_not_lt P salt opening.toList hiddenIndices e hrefused)
  have hshape : ∀ f ∈ (List.finRange 12).take e,
      (evaluateExecution P salt opening.toList hiddenIndices f).events.map Call.shape =
        executionShape 2047 := by
    intro f hf
    obtain ⟨k, hk, rfl⟩ := List.mem_take_iff_getElem.mp hf
    have hlt : (List.finRange 12)[k] < e := by
      rw [List.getElem_finRange, Fin.lt_def]
      exact lt_of_lt_of_le hk (min_le_left _ _)
    obtain ⟨input, hrun⟩ := evaluate_execution_of_lt P salt opening hiddenIndices _ (hbefore _ hlt)
    rw [hrun, Run.ret_events, input.execution_calls_shape]
  rw [evaluateOpening, reconstructOpening, Run.require_of (by simp), Run.ret_bind,
    hexecutions, Run.after_nil, Run.after_bind, Run.halt_bind, Run.after_bind, Run.halt_bind]
  refine ⟨rfl, ?_⟩
  rw [Run.after_events, Run.halt_events, List.append_nil, flatMap_shape hshape, List.length_take,
    List.length_finRange, min_eq_left e.isLt.le]

/-- `evaluate_opening` on any bytes and any indices never panics. It makes no call when the length
is wrong, the calls of the executions before the first index that is not the one of a leaf, and
otherwise all calls, and then it compares the commitments. -/
theorem evaluate_opening_total (P : Primitives) (salt : Bytes 16) (expected : Bytes 32)
    (opening : List UInt8) (hiddenIndices : Vector UInt16 12) :
    (opening.length ≠ openingSize ∧
      evaluateOpening P salt expected opening hiddenIndices =
        Run.halt (.none .openingLength)) ∨
    (opening.length = openingSize ∧ ∃ e : Fin 12, nbEvals ≤ hiddenIndices[e].toNat ∧
      (∀ f < e, hiddenIndices[f].toNat < nbEvals) ∧
      (evaluateOpening P salt expected opening hiddenIndices).outcome =
        .error (.none .hiddenIndex) ∧
      (evaluateOpening P salt expected opening hiddenIndices).events.map Call.shape =
        (List.replicate e (executionShape 2047)).flatten) ∨
    (opening.length = openingSize ∧ (∀ e : Fin 12, hiddenIndices[e].toNat < nbEvals) ∧
      (evaluateOpening P salt expected opening hiddenIndices).events.map Call.shape =
        evaluateShape ∧
      ∃ digest opened,
        (reconstructOpening P salt opening hiddenIndices).outcome = .ok (digest, opened) ∧
        (evaluateOpening P salt expected opening hiddenIndices).outcome =
          if digest = expected then .ok opened else .error (.none .firstCommitment)) := by
  by_cases hlength : opening.length = openingSize
  swap
  · refine Or.inl ⟨hlength, ?_⟩
    rw [evaluateOpening, reconstructOpening, Run.require_of_not hlength]
    rfl
  let bytes : Bytes 2640 := ⟨opening, hlength⟩
  by_cases hrefused : ∃ e : Fin 12, nbEvals ≤ hiddenIndices[e].toNat
  · obtain ⟨e, he, hfirst⟩ := wellFounded_lt.has_min
      {e : Fin 12 | nbEvals ≤ hiddenIndices[e].toNat} hrefused
    have hbefore : ∀ f < e, hiddenIndices[f].toNat < nbEvals :=
      fun f hf => not_le.mp fun hle => hfirst f hle hf
    have hrun := evaluate_opening_refused P salt expected bytes hiddenIndices e (not_lt.mpr he)
      hbefore
    exact Or.inr (Or.inl ⟨hlength, e, he, hbefore, hrun⟩)
  · push Not at hrefused
    let input : EvaluateInput := ⟨salt, bytes, hiddenIndices, hrefused⟩
    have hreconstruct := congrArg Run.outcome (input.reconstruct_opening_eq P)
    have hrun := congrArg Run.outcome (input.evaluate_opening_eq P expected)
    have hevents := congrArg (List.map Call.shape) (input.evaluate_opening_events P expected)
    refine Or.inr (Or.inr ⟨hlength, hrefused, hevents.trans (input.calls_shape P), input.digest P,
      input.opened P, hreconstruct, hrun.trans ?_⟩)
    rw [Run.after_outcome]
    split
    · rfl
    · rfl

/-! ## The verifier -/

namespace VerifyInput

variable (P : Primitives) (input : VerifyInput)

/-- The shape of the calls up to the challenge. -/
theorem challenge_calls_shape :
    (input.challengeCalls P).map Call.shape =
      hashShape input.message.length ++ [challengeShape] := by
  simp [challengeCalls, hashShape, challengeShape, Call.shape, messageParts, fiatShamirParts,
    challengeParts]

/-- The shape of the calls for the responses. -/
theorem response_calls_shape : (input.responseCalls P).map Call.shape = responseShape := by
  rw [responseCalls, List.map_append, system_calls_shape, List.map_singleton, response_parts_shape]
  rfl

/-- The check that fails decides which calls have been made. -/
theorem decision_shape :
    (input.decision P).events.map Call.shape =
      verifyShape input.message.length (input.decision P).outcome := by
  rw [decision]
  split
  · split
    · split
      · simp [verifyShape, challenge_calls_shape, response_calls_shape,
          EvaluateInput.calls_shape]
      · simp [verifyShape, challenge_calls_shape, response_calls_shape,
          EvaluateInput.calls_shape]
    · simp [verifyShape, challenge_calls_shape, EvaluateInput.calls_shape]
  · simp [verifyShape, challenge_calls_shape]

end VerifyInput

/-- The shape of a verification depends on the length of the message and on its outcome. -/
theorem verify_inner_shape (P : Primitives) (publicKey message signature : List UInt8) :
    (verifyInner P publicKey message signature).events.map Call.shape =
      verifyShape message.length (verifyInner P publicKey message signature).outcome := by
  by_cases hlengths : publicKey.length = 60 ∧ signature.length = 2916
  · obtain ⟨hkey, hsignature⟩ := hlengths
    let input : VerifyInput := ⟨⟨publicKey, hkey⟩, message, ⟨signature, hsignature⟩⟩
    have hrun : verifyInner P publicKey message signature = input.decision P :=
      input.verify_inner_eq P
    rw [hrun]
    exact input.decision_shape P
  · rw [verify_inner_of_lengths P message hlengths]
    rfl

/-- An execution makes a call for every leaf and one more. -/
theorem execution_shape_length (leaves : Nat) : (executionShape leaves).length = leaves + 1 := by
  rw [executionShape, List.length_append, List.length_replicate, List.length_singleton]

/-- An evaluated opening makes 24577 calls. -/
theorem evaluate_shape_length : evaluateShape.length = 24577 := by
  rw [evaluateShape, List.length_append, List.length_flatten, List.map_replicate,
    execution_shape_length, List.sum_replicate_nat]
  rfl

/-- A verification makes at most 24596 calls. -/
theorem verify_shape_length_le (messageLength : Nat) (outcome : Except (Rust.Halt Branch) Unit) :
    (verifyShape messageLength outcome).length ≤ 24596 := by
  have hhash : (hashShape messageLength).length = 2 := rfl
  have hresponse : responseShape.length = 16 := rfl
  unfold verifyShape
  split
  · exact Nat.zero_le _
  rw [List.length_append, List.length_cons, hhash]
  split
  · exact Nat.le_add_left 3 24593
  rw [List.length_append, evaluate_shape_length]
  split
  · exact Nat.le_add_left 24580 16
  · rw [hresponse]

/-- The shape of a run of the verifier is a function of the length of the message and of the check
at which the run ends, and no run makes more than 24596 calls. -/
theorem verify_shape (P : Primitives) (publicKey message signature : List UInt8) :
    (verify P publicKey message signature).events.map Call.shape =
        verifyShape message.length (verifyInner P publicKey message signature).outcome ∧
      (verify P publicKey message signature).events.length ≤ 24596 := by
  have hshape := verify_inner_shape P publicKey message signature
  rw [verify_events]
  refine ⟨hshape, ?_⟩
  rw [← List.length_map (f := Call.shape), hshape]
  exact verify_shape_length_le _ _

/-! ## The signer -/

namespace SignInput

variable (P : Primitives) (input : SignInput) (nonce : Bytes 4)

/-- The shape of the calls before the search. -/
theorem prepare_calls_shape :
    (input.prepareCalls P).map Call.shape = prepareShape input.message.length := by
  have hlast : [Call.shake128 .responseCommitment (responseParts (input.alphaZero P)
        (encodedAlpha (input.alphaOne P)).toList),
      .shake128 .messageHash (messageParts input.message),
      .shake128 .fiatShamir (fiatShamirParts P input.publicKey.toList
        (input.firstCommitment P).toList (input.secondCommitment P).toList input.message)].map
          Call.shape = .shake128 .responseCommitment (1 :: List.replicate 96 2 ++ [192]) ::
            hashShape input.message.length := by
    rw [List.map_cons, response_parts_shape]
    simp [hashShape, Call.shape, messageParts, fiatShamirParts]
  rw [prepareCalls, List.map_append, List.map_append, hlast, system_calls_shape,
    CommitInput.calls_shape, prepareShape, responseShape]
  simp

/-- All challenges of a search have the same shape. -/
theorem search_calls_shape (hash : Bytes 32) (start count : Nat) :
    (searchCalls hash start count).map Call.shape = List.replicate count challengeShape := by
  have hchallenge : (Call.shape ∘ fun value =>
      Call.shake128 .challenge (challengeParts hash (nonceOf value))) =
        fun _ => challengeShape := by
    funext value
    simp [Call.shape, challengeParts, challengeShape]
  rw [searchCalls, List.map_map, hchallenge, List.map_const', List.length_range']

/-- The shape of the calls after the search. -/
theorem finish_calls_shape :
    (input.finishCalls P nonce).map Call.shape = finishShape input.message.length := by
  have hopen : (Call.shape ∘ input.commitInput.openCall P (input.hiddenIndices P nonce)) =
      fun _ => .commitSeed := rfl
  rw [finishCalls, verifyCalls, List.map_append, List.map_map, hopen, List.map_const',
    List.length_finRange, List.map_append, List.map_append, VerifyInput.challenge_calls_shape,
    EvaluateInput.calls_shape, VerifyInput.response_calls_shape]
  simp [finishShape, verifyShape, verifyInput]

/-- A signer that finds no nonce stops after the search. -/
theorem sign_eq_of_not_found {searched : List Call}
    (hfound : sampleChallenge P (input.hash P) = (Run.halt (.none .nonceSearch)).after searched) :
    sign P input.key input.message input.masterSeed input.salt =
      (Run.halt (.none .nonceSearch)).after (input.prepareCalls P ++ searched) := by
  unfold sign
  rw [input.prepare_signature_eq P, Run.ret_bind]
  dsimp only
  rw [hfound, Run.after_bind, Run.halt_bind, Run.after_after]

end SignInput

/-- The shape of a run of the signer is a function of the length of the message, the number of
nonces that the search tries and whether it finds one. Nothing else of it depends on the key, the
seed, the salt or the bytes of the message. -/
theorem sign_shape (P : Primitives) (key : Bytes 88) (message : List UInt8)
    (masterSeed salt : Bytes 16) :
    ∃ state, (prepareSignature P key message masterSeed salt).outcome = .ok state ∧
      (sign P key message masterSeed salt).events.map Call.shape =
        prepareShape message.length ++
          (List.replicate (sampleChallenge P state.fiatShamirHash).events.length challengeShape ++
            match (sampleChallenge P state.fiatShamirHash).outcome with
            | .ok _ => finishShape message.length
            | .error _ => []) := by
  let input : SignInput := ⟨key, message, masterSeed, salt⟩
  refine ⟨_, congrArg Run.outcome (input.prepare_signature_eq P), ?_⟩
  have hlength : ∀ count, (searchCalls (input.hash P) 0 count).length = count := fun count => by
    rw [searchCalls, List.length_map, List.length_range']
  have hsearch := sample_from_cases P (input.hash P) (2 ^ 32) 0
  rw [← sample_challenge_eq] at hsearch
  rcases hsearch with ⟨k, _, haccepted, _, hrun⟩ | ⟨_, hrun⟩
  · have hcalls := congrArg (List.map Call.shape) (input.sign_events P _ haccepted hrun)
    rw [List.map_append, List.map_append, input.prepare_calls_shape,
      SignInput.search_calls_shape, input.finish_calls_shape] at hcalls
    simp only [hrun, Run.ret_events, Run.ret_outcome, hlength]
    exact hcalls
  · have hcalls := congrArg (List.map Call.shape)
      (congrArg Run.events (input.sign_eq_of_not_found P hrun))
    rw [Run.after_events, Run.halt_events, List.append_nil, List.map_append,
      input.prepare_calls_shape, SignInput.search_calls_shape] at hcalls
    simp only [hrun, Run.after_events, Run.after_outcome, Run.halt_events, Run.halt_outcome,
      hlength, List.append_nil]
    exact hcalls

end Mqom
