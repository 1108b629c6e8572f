import Mqom.Mq.Response

/-!
# Masked responses

At points of the committed lines the verifier recomputes the `alpha_zero` of the signer, up to the
batched difference between the values of the equations and the public output. For two secrets with
the same values the masks of one can be exchanged for masks of the other that give the same
responses and the same opened points.
-/

namespace Mqom

open Rust Params Library Matrix

/-! ## The error of the verifier -/

namespace ResponseSystem

variable (system : ResponseSystem)

/-- An entry of the first response is a mask and a constant part. -/
theorem alpha_zero_entry (masks : MaskState) (e : Fin 12) (component : Fin 8) :
    (system.alphaZero masks)[e][component] =
      masks.uZero[e][component] + system.constantPart component masks.xZero[e] := by
  rw [alphaZero, getElem_fin, getElem_fin, Vector.getElem_ofFn, Vector.getElem_ofFn]

/-- An entry of the second response is a mask and a linear part. -/
theorem alpha_one_entry (masks : MaskState) (secret : Vector Gf16 56) (e : Fin 12)
    (component : Fin 8) :
    (system.alphaOne masks secret)[e][component] =
      masks.uOne[e][component] + system.linearPart component masks.xZero[e] secret := by
  rw [alphaOne, getElem_fin, getElem_fin, Vector.getElem_ofFn, Vector.getElem_ofFn]

/-- An entry that the verifier recomputes. -/
theorem recomputed_entry (alphaOne : Alpha) (hiddenIndices : Vector UInt16 12)
    (opened : OpenedEvaluations) (publicOutput : Vector Gf256x2 14) (e : Fin 12)
    (component : Fin 8) :
    (system.recomputed alphaOne hiddenIndices opened publicOutput)[e][component] =
      opened.u[e][component] + ∑ j, system.weight component j *
          homogeneousValue (system.equation j).matrix (system.equation j).vector
            (evaluationPoint hiddenIndices[e]) (fun i => opened.x[e][i]) publicOutput[j] +
        evaluationPoint hiddenIndices[e] * alphaOne[e][component] := by
  rw [recomputed, getElem_fin (Vector.ofFn _), Vector.getElem_ofFn,
    getElem_fin (Vector.ofFn _), Vector.getElem_ofFn]

/-- The verifier's sum of a component is off by the batched error times the square of the point. -/
theorem recomputed_eq (masks : MaskState) (secret : Vector Gf16 56)
    (hiddenIndices : Vector UInt16 12) (opened : OpenedEvaluations)
    (publicOutput : Vector Gf256x2 14) (e : Fin 12) (component : Fin 8)
    (hx : ∀ i : Fin 56, opened.x[e][i] =
      masks.xZero[e][i] + evaluationPoint hiddenIndices[e] * Gf16.toExt secret[i])
    (hu : opened.u[e][component] =
      masks.uZero[e][component] + evaluationPoint hiddenIndices[e] * masks.uOne[e][component]) :
    (system.recomputed (system.alphaOne masks secret) hiddenIndices opened
        publicOutput)[e][component] =
      (system.alphaZero masks)[e][component] + evaluationPoint hiddenIndices[e] ^ 2 *
        ∑ j, system.weight component j *
          ((system.equation j).valueAt secret + publicOutput[j]) := by
  have hresponse := masked_response (system.weight component) (fun j => (system.equation j).matrix)
    (fun j => (system.equation j).vector) hx hu (fun j => publicOutput[j])
  simp only [batchedError] at hresponse
  rw [recomputed_entry, alpha_one_entry, alpha_zero_entry, linearPart, constantPart]
  simp only [PackedEquation.valueAt]
  with_reducible exact hresponse

/-- At points of the signer's lines the verifier recomputes the committed responses when the secret
solves the system. -/
theorem recomputed_of_lines (masks : MaskState) (secret : Vector Gf16 56)
    (hiddenIndices : Vector UInt16 12) (opened : OpenedEvaluations)
    (publicOutput : Vector Gf256x2 14)
    (hx : ∀ (e : Fin 12) (i : Fin 56), opened.x[e][i] =
      masks.xZero[e][i] + evaluationPoint hiddenIndices[e] * Gf16.toExt secret[i])
    (hu : ∀ (e : Fin 12) (component : Fin 8), opened.u[e][component] =
      masks.uZero[e][component] + evaluationPoint hiddenIndices[e] * masks.uOne[e][component])
    (hsolves : ∀ j : Fin 14, publicOutput[j] = (system.equation j).valueAt secret) :
    system.recomputed (system.alphaOne masks secret) hiddenIndices opened publicOutput =
      system.alphaZero masks := by
  refine vector_ext fun e => vector_ext fun component => ?_
  have herror : ∑ j, system.weight component j *
      ((system.equation j).valueAt secret + publicOutput[j]) = 0 :=
    Finset.sum_eq_zero fun j _ => by rw [hsolves j, CharTwo.add_self_eq_zero, mul_zero]
  rw [system.recomputed_eq masks secret hiddenIndices opened publicOutput e component (hx e)
    (hu e component), herror, mul_zero, add_zero]

/-- When the verifier recomputes one `alpha_zero` at three points of a line, the slope solves the
batched equations. -/
theorem solves_of_three_points {alphaZero alphaOne : Alpha}
    {hiddenIndices : Fin 3 → Vector UInt16 12} {opened : Fin 3 → OpenedEvaluations}
    {publicOutput : Vector Gf256x2 14} {xZero : Fin 56 → Gf256x2} {secret : Vector Gf16 56}
    {uZero uOne : Gf256x2} {e : Fin 12} {component : Fin 8}
    (hpoints : Function.Injective fun k => evaluationPoint (hiddenIndices k)[e])
    (hx : ∀ (k : Fin 3) (i : Fin 56), (opened k).x[e][i] =
      xZero i + evaluationPoint (hiddenIndices k)[e] * Gf16.toExt secret[i])
    (hu : ∀ k : Fin 3, (opened k).u[e][component] =
      uZero + evaluationPoint (hiddenIndices k)[e] * uOne)
    (hresponse : ∀ k, system.recomputed alphaOne (hiddenIndices k) (opened k) publicOutput =
      alphaZero) :
    ∑ j, system.weight component j *
      ((system.equation j).valueAt secret + publicOutput[j]) = 0 := by
  have hentry : ∀ k : Fin 3, (opened k).u[e][component] + ∑ j, system.weight component j *
        homogeneousValue (system.equation j).matrix (system.equation j).vector
          (evaluationPoint (hiddenIndices k)[e]) (fun i => (opened k).x[e][i]) publicOutput[j] +
      evaluationPoint (hiddenIndices k)[e] * alphaOne[e][component] =
        alphaZero[e][component] := by
    intro k
    rw [← hresponse k]
    exact (system.recomputed_entry alphaOne (hiddenIndices k) (opened k) publicOutput e
      component).symm
  have herror := batched_error_eq_zero_of_three (system.weight component)
    (fun j => (system.equation j).matrix) (fun j => (system.equation j).vector) hpoints hx hu hentry
  simp only [batchedError, getElem_fin] at herror
  simp only [PackedEquation.valueAt, getElem_fin]
  with_reducible exact herror

end ResponseSystem

/-- On opened values from the lines of the signer, `recompute_alpha_zero` gives the `alpha_zero`
of `compute_alpha` and the error of the secret as a solution for the public output. -/
theorem recompute_alpha_zero_error (P : Primitives) (firstCommitment masterSeed : Bytes 32)
    (secret : Vector Gf16 56) (publicOutput : Vector Gf256x2 14) (commitment : SigningCommitment)
    (hiddenIndices : Vector UInt16 12) (opened : OpenedEvaluations)
    (hx : ∀ (e : Fin 12) (i : Fin 56), opened.x[e][i] =
      commitment.xZero[e][i] + evaluationPoint hiddenIndices[e] * (secret[i] : Gf16))
    (hu : ∀ (e : Fin 12) (k : Fin 8), opened.u[e][k] =
      commitment.uZero[e][k] + evaluationPoint hiddenIndices[e] * commitment.uOne[e][k]) :
    ∃ (alphaZero alphaOne recomputed : Alpha) (batching : Vector (Vector Gf256x2 14) 8)
      (value : Fin 14 → Gf256x2),
      (computeAlpha P firstCommitment commitment secret masterSeed).outcome =
        .ok (alphaZero, alphaOne) ∧
      (recomputeAlphaZero P firstCommitment alphaOne hiddenIndices opened masterSeed
        publicOutput).outcome = .ok recomputed ∧
      (expandBatching P firstCommitment).outcome = .ok batching ∧
      (∀ j : Fin 14, ∃ equation, (expandEquation P masterSeed j).outcome = .ok equation ∧
        (equation.evaluateBase secret).outcome = .ok (value j)) ∧
      ∀ (e : Fin 12) (component : Fin 8), recomputed[e][component] =
        alphaZero[e][component] + evaluationPoint hiddenIndices[e] ^ 2 *
          ∑ j : Fin 14, batching[component][j] * (value j + publicOutput[j]) := by
  have hcompute := compute_alpha_eq P firstCommitment masterSeed commitment secret
  have hbatching := expand_batching_eq P firstCommitment
  have hequation := fun j : Fin 14 => expand_equation_eq P masterSeed j.isLt
  let system := systemOf P firstCommitment masterSeed
  have hrecompute := recompute_alpha_zero_eq P firstCommitment masterSeed
    (system.alphaOne commitment.masks secret) hiddenIndices opened publicOutput
  refine ⟨system.alphaZero commitment.masks, system.alphaOne commitment.masks secret,
    system.recomputed (system.alphaOne commitment.masks secret) hiddenIndices opened publicOutput,
    system.batching, fun j => (system.equation j).valueAt secret, congrArg Run.outcome hcompute,
    congrArg Run.outcome hrecompute, congrArg Run.outcome hbatching, fun j =>
      ⟨system.equation j, congrArg Run.outcome (hequation j),
        congrArg Run.outcome ((system.equation j).evaluate_base_eq secret)⟩, fun e component => ?_⟩
  have hx' : ∀ i : Fin 56, opened.x[e][i] = commitment.masks.xZero[e][i] +
      evaluationPoint hiddenIndices[e] * Gf16.toExt secret[i] := fun i => by
    rw [hx e i, Gf16.mul_scalar]
  have herror := system.recomputed_eq commitment.masks secret hiddenIndices opened publicOutput e
    component hx' (hu e component)
  simp only [ResponseSystem.weight] at herror
  with_reducible exact herror

/-- A commitment of zeros. -/
def zeroCommitment : SigningCommitment where
  commitment := 0
  xZero := Vector.replicate 12 (Vector.replicate 56 0)
  uZero := Vector.replicate 12 (Vector.replicate 8 0)
  uOne := Vector.replicate 12 (Vector.replicate 8 0)
  salt := 0
  delta := 0
  rootSeeds := Vector.replicate 12 0
  partialDeltas := Vector.replicate 12 0

/-- The values that the lines of a commitment of zeros take for a secret of ones, all at the point
of the leaf 5. -/
def sampleOpened : OpenedEvaluations where
  x := Vector.replicate 12 (Vector.replicate 56 (evaluationPoint 5))
  u := Vector.replicate 12 (Vector.replicate 8 0)

/-- Primitives that return zeros. -/
def zeroPrimitives : Primitives := ⟨fun _ _ => 0, fun _ _ => 0⟩

/-- The error of a secret of ones for an output of ones. -/
theorem sample_recompute_alpha_zero_error :
    ∃ (alphaZero alphaOne recomputed : Alpha) (batching : Vector (Vector Gf256x2 14) 8)
      (value : Fin 14 → Gf256x2),
      (computeAlpha zeroPrimitives 0 zeroCommitment (Vector.replicate 56 1) 0).outcome =
        .ok (alphaZero, alphaOne) ∧
      (recomputeAlphaZero zeroPrimitives 0 alphaOne (Vector.replicate 12 5) sampleOpened 0
        (Vector.replicate 14 1)).outcome = .ok recomputed ∧
      (expandBatching zeroPrimitives 0).outcome = .ok batching ∧
      (∀ j : Fin 14, ∃ equation, (expandEquation zeroPrimitives 0 j).outcome = .ok equation ∧
        (equation.evaluateBase (Vector.replicate 56 1)).outcome = .ok (value j)) ∧
      ∀ (e : Fin 12) (component : Fin 8), recomputed[e][component] =
        alphaZero[e][component] + evaluationPoint (Vector.replicate 12 (5 : UInt16))[e] ^ 2 *
          ∑ j : Fin 14, batching[component][j] * (value j + (Vector.replicate 14 1)[j]) :=
  recompute_alpha_zero_error zeroPrimitives 0 0 (Vector.replicate 56 1) (Vector.replicate 14 1)
    zeroCommitment (Vector.replicate 12 5) sampleOpened
    (fun e i => by simp [sampleOpened, zeroCommitment])
    (fun e k => by simp [sampleOpened, zeroCommitment])

/-! ## Exchanging the secret -/

namespace ResponseSystem

variable (system : ResponseSystem) (hiddenIndices : Vector UInt16 12)
variable (secret secret' : Vector Gf16 56)

/-- The base of a line with another slope through the same point. -/
def exchangedBase (w : Gf256x2) (xZero : Vector Gf256x2 56) : Vector Gf256x2 56 :=
  Vector.ofFn fun i => xZero[i] + w * (Gf16.toExt secret[i] + Gf16.toExt secret'[i])

/-- The difference that an exchange of the secret makes to the linear terms of a component. -/
def exchangedLinear (w : Gf256x2) (component : Fin 8) (xZero : Vector Gf256x2 56) : Gf256x2 :=
  system.linearPart component xZero secret +
    system.linearPart component (exchangedBase secret secret' w xZero) secret'

/-- The masks for the second secret that show the verifier what `masks` show for the first. -/
def exchange (masks : MaskState) : MaskState where
  xZero := Vector.ofFn fun e =>
    exchangedBase secret secret' (evaluationPoint hiddenIndices[e]) masks.xZero[e]
  uZero := Vector.ofFn fun e => Vector.ofFn fun component =>
    masks.uZero[e][component] + evaluationPoint hiddenIndices[e] *
      system.exchangedLinear secret secret' (evaluationPoint hiddenIndices[e]) component
        masks.xZero[e]
  uOne := Vector.ofFn fun e => Vector.ofFn fun component =>
    masks.uOne[e][component] +
      system.exchangedLinear secret secret' (evaluationPoint hiddenIndices[e]) component
        masks.xZero[e]

/-- Exchanging the secrets twice gives the base back. -/
theorem exchanged_base_exchanged_base (w : Gf256x2) (xZero : Vector Gf256x2 56) :
    exchangedBase secret' secret w (exchangedBase secret secret' w xZero) = xZero := by
  ext1 i hi
  simp only [exchangedBase, Vector.getElem_ofFn, getElem_fin]
  rw [add_assoc, add_comm (Gf16.toExt secret'[i]), CharTwo.add_self_eq_zero, add_zero]

/-- Both exchanges make the same difference. -/
theorem exchanged_linear_exchanged_base (w : Gf256x2) (component : Fin 8)
    (xZero : Vector Gf256x2 56) :
    system.exchangedLinear secret' secret w component (exchangedBase secret secret' w xZero) =
      system.exchangedLinear secret secret' w component xZero := by
  rw [exchangedLinear, exchangedLinear, exchanged_base_exchanged_base, add_comm]

/-- The bases after an exchange. -/
theorem exchange_x_zero (masks : MaskState) (e : Fin 12) :
    (system.exchange hiddenIndices secret secret' masks).xZero[e] =
      exchangedBase secret secret' (evaluationPoint hiddenIndices[e]) masks.xZero[e] := by
  rw [exchange, getElem_fin, Vector.getElem_ofFn]

/-- The constant masks after an exchange. -/
theorem exchange_u_zero (masks : MaskState) (e : Fin 12) (component : Fin 8) :
    (system.exchange hiddenIndices secret secret' masks).uZero[e][component] =
      masks.uZero[e][component] + evaluationPoint hiddenIndices[e] *
        system.exchangedLinear secret secret' (evaluationPoint hiddenIndices[e]) component
          masks.xZero[e] := by
  rw [exchange, getElem_fin, getElem_fin, Vector.getElem_ofFn, Vector.getElem_ofFn]

/-- The linear masks after an exchange. -/
theorem exchange_u_one (masks : MaskState) (e : Fin 12) (component : Fin 8) :
    (system.exchange hiddenIndices secret secret' masks).uOne[e][component] =
      masks.uOne[e][component] +
        system.exchangedLinear secret secret' (evaluationPoint hiddenIndices[e]) component
          masks.xZero[e] := by
  rw [exchange, getElem_fin, getElem_fin, Vector.getElem_ofFn, Vector.getElem_ofFn]

/-- Exchanging the secret back gives back the masks. -/
theorem exchange_exchange (masks : MaskState) :
    system.exchange hiddenIndices secret' secret
      (system.exchange hiddenIndices secret secret' masks) = masks := by
  refine MaskState.ext (vector_ext fun e => ?_) (vector_ext fun e => vector_ext fun k => ?_)
    (vector_ext fun e => vector_ext fun k => ?_)
  · rw [exchange_x_zero, exchange_x_zero, exchanged_base_exchanged_base]
  · rw [exchange_u_zero, exchange_x_zero, exchange_u_zero, exchanged_linear_exchanged_base,
      add_assoc, CharTwo.add_self_eq_zero, add_zero]
  · rw [exchange_u_one, exchange_x_zero, exchange_u_one, exchanged_linear_exchanged_base,
      add_assoc, CharTwo.add_self_eq_zero, add_zero]

/-- The exchange of masks is a bijection. -/
def exchangeEquiv : MaskState ≃ MaskState where
  toFun := system.exchange hiddenIndices secret secret'
  invFun := system.exchange hiddenIndices secret' secret
  left_inv := system.exchange_exchange hiddenIndices secret secret'
  right_inv := system.exchange_exchange hiddenIndices secret' secret

/-- The exchanged base has the same point. -/
theorem exchanged_base_point (w : Gf256x2) (xZero : Vector Gf256x2 56) (i : Fin 56) :
    xZero[i] + w * Gf16.toExt secret[i] =
      (exchangedBase secret secret' w xZero)[i] + w * Gf16.toExt secret'[i] := by
  simp only [exchangedBase, Vector.getElem_ofFn, getElem_fin]
  linear_combination (-w) * CharTwo.add_self_eq_zero (Gf16.toExt secret'[i])

/-- The exchange keeps the opened vectors. -/
theorem exchange_opened (masks : MaskState) (e : Fin 12) (i : Fin 56) :
    masks.xZero[e][i] + evaluationPoint hiddenIndices[e] * Gf16.toExt secret[i] =
      (system.exchange hiddenIndices secret secret' masks).xZero[e][i] +
        evaluationPoint hiddenIndices[e] * Gf16.toExt secret'[i] := by
  rw [exchange_x_zero]
  exact exchanged_base_point secret secret' (evaluationPoint hiddenIndices[e]) masks.xZero[e] i

/-- The exchange keeps the opened masks. -/
theorem exchange_opened_mask (masks : MaskState) (e : Fin 12) (k : Fin 8) :
    masks.uZero[e][k] + evaluationPoint hiddenIndices[e] * masks.uOne[e][k] =
      (system.exchange hiddenIndices secret secret' masks).uZero[e][k] +
        evaluationPoint hiddenIndices[e] *
          (system.exchange hiddenIndices secret secret' masks).uOne[e][k] := by
  rw [exchange_u_zero, exchange_u_one]
  generalize system.exchangedLinear _ _ _ _ _ = difference
  generalize evaluationPoint hiddenIndices[e] = w
  linear_combination (-w) * CharTwo.add_self_eq_zero difference

/-- The exchange keeps the `alpha_one`. -/
theorem alpha_one_exchange (masks : MaskState) :
    system.alphaOne (system.exchange hiddenIndices secret secret' masks) secret' =
      system.alphaOne masks secret := by
  refine vector_ext fun e => vector_ext fun k => ?_
  rw [alpha_one_entry, alpha_one_entry, exchange_u_one, exchange_x_zero, exchangedLinear, add_assoc,
    add_assoc, CharTwo.add_self_eq_zero, add_zero]

variable {secret secret'}
variable (hvalues : ∀ j, (system.equation j).valueAt secret = (system.equation j).valueAt secret')
include hvalues

/-- Lines of both secrets through one point have the same terms there. -/
theorem terms_exchange (w : Gf256x2) (component : Fin 8) (xZero : Vector Gf256x2 56) :
    system.constantPart component xZero + w * system.linearPart component xZero secret =
      system.constantPart component (exchangedBase secret secret' w xZero) +
        w * system.linearPart component (exchangedBase secret secret' w xZero) secret' := by
  have hpoint := exchanged_base_point secret secret' w xZero
  simp only [PackedEquation.valueAt] at hvalues
  have hterms := batched_terms_eq (system.weight component) (fun j => (system.equation j).matrix)
    (fun j => (system.equation j).vector) hpoint hvalues
  rw [constantPart, constantPart, linearPart, linearPart]
  with_reducible exact hterms

/-- The exchange keeps the `alpha_zero` when the secrets have the same values. -/
theorem alpha_zero_exchange (masks : MaskState) :
    system.alphaZero (system.exchange hiddenIndices secret secret' masks) =
      system.alphaZero masks := by
  refine vector_ext fun e => vector_ext fun k => ?_
  have hterms := system.terms_exchange hvalues (evaluationPoint hiddenIndices[e]) k masks.xZero[e]
  rw [alpha_zero_entry, alpha_zero_entry, exchange_u_zero, exchange_x_zero, exchangedLinear]
  generalize system.linearPart k masks.xZero[e] secret = linear at hterms ⊢
  generalize system.linearPart k _ secret' = linear' at hterms ⊢
  generalize system.constantPart k masks.xZero[e] = constant at hterms ⊢
  generalize system.constantPart k _ = constant' at hterms ⊢
  linear_combination evaluationPoint hiddenIndices[e] * CharTwo.add_self_eq_zero linear - hterms

end ResponseSystem

/-- Two secrets with the same values under all equations: a bijection between the masks of the
signer shows the verifier the same values and responses, whichever of the secrets was used. -/
theorem responses_witness_independent (P : Primitives) (firstCommitment masterSeed : Bytes 32)
    (hiddenIndices : Vector UInt16 12) (secret secret' : Vector Gf16 56)
    (hvalues : ∀ j < Mq.equationCount, ∀ equation,
      (expandEquation P masterSeed j).outcome = .ok equation →
        (equation.evaluateBase secret).outcome = (equation.evaluateBase secret').outcome) :
    ∃ exchange : MaskState ≃ MaskState, ∀ commitment commitment' : SigningCommitment,
      commitment'.masks = exchange commitment.masks →
        (∀ (e : Fin 12) (i : Fin 56),
          commitment.xZero[e][i] + evaluationPoint hiddenIndices[e] * (secret[i] : Gf16) =
            commitment'.xZero[e][i] + evaluationPoint hiddenIndices[e] * (secret'[i] : Gf16)) ∧
        (∀ (e : Fin 12) (k : Fin 8),
          commitment.uZero[e][k] + evaluationPoint hiddenIndices[e] * commitment.uOne[e][k] =
            commitment'.uZero[e][k] + evaluationPoint hiddenIndices[e] * commitment'.uOne[e][k]) ∧
        ∃ alphas,
          (computeAlpha P firstCommitment commitment secret masterSeed).outcome = .ok alphas ∧
          (computeAlpha P firstCommitment commitment' secret' masterSeed).outcome = .ok alphas := by
  -- the hypothesis is about all equations of the system
  let system := systemOf P firstCommitment masterSeed
  have hsystem : ∀ j, (system.equation j).valueAt secret = (system.equation j).valueAt secret' := by
    intro j
    have hequation := expand_equation_eq P masterSeed j.isLt
    have hvalue := hvalues j j.isLt _ (congrArg Run.outcome hequation)
    rw [PackedEquation.evaluate_base_eq, PackedEquation.evaluate_base_eq] at hvalue
    exact Except.ok.inj hvalue
  refine ⟨system.exchangeEquiv hiddenIndices secret secret',
    fun commitment commitment' hmasks => ?_⟩
  have hx : commitment'.xZero = (system.exchange hiddenIndices secret secret'
      commitment.masks).xZero := congrArg MaskState.xZero hmasks
  have huZero : commitment'.uZero = (system.exchange hiddenIndices secret secret'
      commitment.masks).uZero := congrArg MaskState.uZero hmasks
  have huOne : commitment'.uOne = (system.exchange hiddenIndices secret secret'
      commitment.masks).uOne := congrArg MaskState.uOne hmasks
  refine ⟨fun e i => ?_, fun e k => ?_, (system.alphaZero commitment.masks,
    system.alphaOne commitment.masks secret), ?_, ?_⟩
  · have hopened := system.exchange_opened hiddenIndices secret secret' commitment.masks e i
    rw [Gf16.mul_scalar, Gf16.mul_scalar, hx]
    with_reducible exact hopened
  · have hopened := system.exchange_opened_mask hiddenIndices secret secret' commitment.masks e k
    rw [huZero, huOne]
    with_reducible exact hopened
  · rw [compute_alpha_eq, Run.ret_outcome]
  · have hexchanged : commitment'.masks =
        system.exchange hiddenIndices secret secret' commitment.masks := hmasks
    rw [compute_alpha_eq, hexchanged, Run.ret_outcome,
      show systemOf P firstCommitment masterSeed = system from rfl,
      system.alpha_one_exchange, system.alpha_zero_exchange hiddenIndices hsystem]

/-- The equations that primitives of zeros expand to have the value zero everywhere. -/
theorem zero_value_at (masterSeed : Bytes 32) (j : Nat) (x : Vector Gf16 56) :
    (equationOf zeroPrimitives masterSeed j).valueAt x = 0 := by
  have hstream : equationStream zeroPrimitives masterSeed j = 0 := by
    have hblock : ∀ deriver : SeedDeriver, deriver.derive zeroPrimitives 0 = 0 := fun _ => rfl
    apply Bytes.ext_getElem
    intro i hi
    have hbyte : streamByte zeroPrimitives 0 0 0 i = 0 := by
      rw [streamByte, hblock, Bytes.getElem_zero]
    rw [equationStream, stream, Bytes.getElem_ofFn, Bytes.getElem_zero]
    exact hbyte
  have helement : ∀ i (h : 2 * i + 1 < 3304), extensionAt (0 : Bytes 3304) i h = 0 :=
    fun i h => map_zero (extensionHom i h)
  have hmatrix : (equationOf zeroPrimitives masterSeed j).matrix = 0 := by
    funext row col
    rw [PackedEquation.matrix]
    split
    · rw [equationOf, hstream]
      simp only [helement]
      rw [Vector.getElem?_ofFn]
      split <;> rfl
    · rfl
  have hvector : (equationOf zeroPrimitives masterSeed j).vector = 0 := by
    funext i
    rw [PackedEquation.vector, equationOf, hstream]
    simp [helement]
  rw [PackedEquation.valueAt, quadraticValue, hmatrix, hvector, zero_mulVec, zero_dotProduct,
    add_zero]

/-- Secrets of zeros and of ones under equations of zeros. -/
theorem sample_responses_witness_independent :
    ∃ exchange : MaskState ≃ MaskState, ∀ commitment commitment' : SigningCommitment,
      commitment'.masks = exchange commitment.masks →
        (∀ (e : Fin 12) (i : Fin 56),
          commitment.xZero[e][i] + evaluationPoint (Vector.replicate 12 (5 : UInt16))[e] *
              ((Vector.replicate 56 (0 : Gf16))[i] : Gf16) =
            commitment'.xZero[e][i] + evaluationPoint (Vector.replicate 12 (5 : UInt16))[e] *
              ((Vector.replicate 56 (1 : Gf16))[i] : Gf16)) ∧
        (∀ (e : Fin 12) (k : Fin 8),
          commitment.uZero[e][k] +
              evaluationPoint (Vector.replicate 12 (5 : UInt16))[e] * commitment.uOne[e][k] =
            commitment'.uZero[e][k] +
              evaluationPoint (Vector.replicate 12 (5 : UInt16))[e] * commitment'.uOne[e][k]) ∧
        ∃ alphas,
          (computeAlpha zeroPrimitives 0 commitment (Vector.replicate 56 0) 0).outcome =
            .ok alphas ∧
          (computeAlpha zeroPrimitives 0 commitment' (Vector.replicate 56 1) 0).outcome =
            .ok alphas :=
  responses_witness_independent zeroPrimitives 0 0 (Vector.replicate 12 5) (Vector.replicate 56 0)
    (Vector.replicate 56 1) (fun j hj equation hequation => by
      have hexpand := expand_equation_eq zeroPrimitives 0 (show j < 14 from hj)
      rw [hexpand, Run.ret_outcome] at hequation
      rw [← Except.ok.inj hequation, PackedEquation.evaluate_base_eq,
        PackedEquation.evaluate_base_eq, zero_value_at, zero_value_at])

end Mqom
