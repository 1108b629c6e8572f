import Mqom.Mq.Masking

/-!
# Simulated responses

What the verifier sees of the signer's lines, an opened point on each and `alpha_one`, determines
the masks of the signer, and every view is that of some masks. So a view can be chosen without the
secret, and `recompute_alpha_zero` adds the `alpha_zero` that the signer would have committed to.
-/

namespace Mqom

open Rust Params Library Matrix

/-- The opened values and the `alpha_one` that the verifier sees. -/
@[ext]
structure ResponseView where
  x : Vector (Vector Gf256x2 56) 12
  u : Vector (Vector Gf256x2 8) 12
  alphaOne : Alpha

/-- The opened values of a view. -/
def ResponseView.opened (view : ResponseView) : OpenedEvaluations :=
  ⟨view.x, view.u⟩

namespace ResponseSystem

variable (system : ResponseSystem) (hiddenIndices : Vector UInt16 12) (secret : Vector Gf16 56)

/-- The view of the masks of a signer. -/
def view (masks : MaskState) : ResponseView where
  x := Vector.ofFn fun e => Vector.ofFn fun i =>
    masks.xZero[e][i] + evaluationPoint hiddenIndices[e] * Gf16.toExt secret[i]
  u := Vector.ofFn fun e => Vector.ofFn fun component =>
    masks.uZero[e][component] + evaluationPoint hiddenIndices[e] * masks.uOne[e][component]
  alphaOne := system.alphaOne masks secret

/-- The base of the line through an opened point. -/
def viewedBase (view : ResponseView) (e : Fin 12) : Vector Gf256x2 56 :=
  Vector.ofFn fun i => view.x[e][i] + evaluationPoint hiddenIndices[e] * Gf16.toExt secret[i]

/-- The masks behind a view. -/
def viewedMasks (view : ResponseView) : MaskState where
  xZero := Vector.ofFn (viewedBase hiddenIndices secret view)
  uZero := Vector.ofFn fun e => Vector.ofFn fun component =>
    view.u[e][component] + evaluationPoint hiddenIndices[e] * (view.alphaOne[e][component] +
      system.linearPart component (viewedBase hiddenIndices secret view e) secret)
  uOne := Vector.ofFn fun e => Vector.ofFn fun component =>
    view.alphaOne[e][component] +
      system.linearPart component (viewedBase hiddenIndices secret view e) secret

/-- A view has the points of the lines at the opened value. -/
theorem view_x (masks : MaskState) (e : Fin 12) (i : Fin 56) :
    (system.view hiddenIndices secret masks).x[e][i] =
      masks.xZero[e][i] + evaluationPoint hiddenIndices[e] * Gf16.toExt secret[i] := by
  rw [view, getElem_fin, getElem_fin, Vector.getElem_ofFn, Vector.getElem_ofFn]

/-- It has the points of the masks there too. -/
theorem view_u (masks : MaskState) (e : Fin 12) (component : Fin 8) :
    (system.view hiddenIndices secret masks).u[e][component] =
      masks.uZero[e][component] +
        evaluationPoint hiddenIndices[e] * masks.uOne[e][component] := by
  rw [view, getElem_fin, getElem_fin, Vector.getElem_ofFn, Vector.getElem_ofFn]

/-- The bases behind a view. -/
theorem viewed_x_zero (view : ResponseView) (e : Fin 12) :
    (system.viewedMasks hiddenIndices secret view).xZero[e] =
      viewedBase hiddenIndices secret view e := by
  rw [viewedMasks, getElem_fin, Vector.getElem_ofFn]

/-- The linear masks behind a view. -/
theorem viewed_u_one (view : ResponseView) (e : Fin 12) (component : Fin 8) :
    (system.viewedMasks hiddenIndices secret view).uOne[e][component] =
      view.alphaOne[e][component] +
        system.linearPart component (viewedBase hiddenIndices secret view e) secret := by
  rw [viewedMasks, getElem_fin, getElem_fin, Vector.getElem_ofFn, Vector.getElem_ofFn]

/-- The constant masks behind a view. -/
theorem viewed_u_zero (view : ResponseView) (e : Fin 12) (component : Fin 8) :
    (system.viewedMasks hiddenIndices secret view).uZero[e][component] =
      view.u[e][component] + evaluationPoint hiddenIndices[e] *
        (system.viewedMasks hiddenIndices secret view).uOne[e][component] := by
  rw [viewed_u_one, viewedMasks, getElem_fin, getElem_fin, Vector.getElem_ofFn,
    Vector.getElem_ofFn]

/-- The base is the point less the slope times the opened value. -/
theorem viewed_base_entry (view : ResponseView) (e : Fin 12) (i : Fin 56) :
    (viewedBase hiddenIndices secret view e)[i] =
      view.x[e][i] + evaluationPoint hiddenIndices[e] * Gf16.toExt secret[i] := by
  rw [viewedBase, getElem_fin, Vector.getElem_ofFn]

/-- The line through the point that masks open has their base. -/
theorem viewed_base_view (masks : MaskState) (e : Fin 12) :
    viewedBase hiddenIndices secret (system.view hiddenIndices secret masks) e =
      masks.xZero[e] := by
  refine vector_ext fun i => ?_
  rw [viewed_base_entry, view_x, CharTwo.add_cancel_right]

/-- The masks behind the view of some masks are these. -/
theorem viewed_masks_view (masks : MaskState) :
    system.viewedMasks hiddenIndices secret (system.view hiddenIndices secret masks) = masks := by
  have hone : ∀ (e : Fin 12) (component : Fin 8), (system.viewedMasks hiddenIndices secret
      (system.view hiddenIndices secret masks)).uOne[e][component] = masks.uOne[e][component] := by
    intro e component
    rw [viewed_u_one, viewed_base_view, view, alpha_one_entry, CharTwo.add_cancel_right]
  refine MaskState.ext (vector_ext fun e => ?_)
    (vector_ext fun e => vector_ext fun component => ?_)
    (vector_ext fun e => vector_ext fun component => hone e component)
  · rw [viewed_x_zero, viewed_base_view]
  · rw [viewed_u_zero, hone, view_u, CharTwo.add_cancel_right]

/-- A view is the view of the masks behind it. -/
theorem view_viewed_masks (view : ResponseView) :
    system.view hiddenIndices secret (system.viewedMasks hiddenIndices secret view) = view := by
  refine ResponseView.ext (vector_ext fun e => vector_ext fun i => ?_)
    (vector_ext fun e => vector_ext fun component => ?_)
    (vector_ext fun e => vector_ext fun component => ?_)
  · rw [view_x, viewed_x_zero, viewed_base_entry, CharTwo.add_cancel_right]
  · rw [view_u, viewed_u_zero, CharTwo.add_cancel_right]
  · rw [ResponseSystem.view, alpha_one_entry, viewed_u_one, viewed_x_zero,
      CharTwo.add_cancel_right]

/-- Masks and views determine each other. -/
def viewEquiv : MaskState ≃ ResponseView where
  toFun := system.view hiddenIndices secret
  invFun := system.viewedMasks hiddenIndices secret
  left_inv := system.viewed_masks_view hiddenIndices secret
  right_inv := system.view_viewed_masks hiddenIndices secret

/-- The responses that are committed to are those that the verifier recomputes from the view. -/
theorem recomputed_view (masks : MaskState) {publicOutput : Vector Gf256x2 14}
    (hsolves : ∀ j : Fin 14, publicOutput[j] = (system.equation j).valueAt secret) :
    system.recomputed (system.alphaOne masks secret) hiddenIndices
      (system.view hiddenIndices secret masks).opened publicOutput = system.alphaZero masks :=
  system.recomputed_of_lines masks secret hiddenIndices _ publicOutput
    (system.view_x hiddenIndices secret masks) (system.view_u hiddenIndices secret masks) hsolves

end ResponseSystem

/-- Zero knowledge of the responses to known challenges. For a secret of the public output, the
masks of the signer correspond one to one to the views, an opened point on each of its lines and an
`alpha_one`. Every view is that of one signer, and the `alpha_zero` of this signer is what
`recompute_alpha_zero` computes from the view alone. -/
theorem responses_simulated (P : Primitives) (firstCommitment masterSeed : Bytes 32)
    (hiddenIndices : Vector UInt16 12) (secret : Vector Gf16 56) (publicOutput : Vector Gf256x2 14)
    (hsecret : ∀ j : Fin 14, (do
      let equation ← expandEquation P masterSeed j
      equation.evaluateBase secret).outcome = .ok publicOutput[j]) :
    ∃ simulate : ResponseView ≃ MaskState, ∀ (view : ResponseView) (commitment : SigningCommitment),
      commitment.masks = simulate view →
        (∀ (e : Fin 12) (i : Fin 56), view.x[e][i] =
          commitment.xZero[e][i] + evaluationPoint hiddenIndices[e] * (secret[i] : Gf16)) ∧
        (∀ (e : Fin 12) (k : Fin 8), view.u[e][k] =
          commitment.uZero[e][k] + evaluationPoint hiddenIndices[e] * commitment.uOne[e][k]) ∧
        ∃ alphaZero,
          (computeAlpha P firstCommitment commitment secret masterSeed).outcome =
            .ok (alphaZero, view.alphaOne) ∧
          (recomputeAlphaZero P firstCommitment view.alphaOne hiddenIndices view.opened masterSeed
            publicOutput).outcome = .ok alphaZero := by
  let system := systemOf P firstCommitment masterSeed
  have hsolves : ∀ j : Fin 14, publicOutput[j] = (system.equation j).valueAt secret := by
    intro j
    have hvalue := hsecret j
    rw [expand_equation_eq P _ j.isLt, Run.ret_bind, PackedEquation.evaluate_base_eq] at hvalue
    exact (Except.ok.inj hvalue).symm
  refine ⟨(system.viewEquiv hiddenIndices secret).symm, fun view commitment hmasks => ?_⟩
  -- the view is that of the masks in the commitment
  obtain rfl : system.view hiddenIndices secret commitment.masks = view := by
    rw [hmasks]
    exact (system.viewEquiv hiddenIndices secret).apply_symm_apply view
  have hone : (system.view hiddenIndices secret commitment.masks).alphaOne =
      system.alphaOne commitment.masks secret := rfl
  refine ⟨fun e i => ?_, fun e k => ?_, system.alphaZero commitment.masks, ?_, ?_⟩
  · have hx := system.view_x hiddenIndices secret commitment.masks e i
    rw [Gf16.mul_scalar]
    with_reducible exact hx
  · have hu := system.view_u hiddenIndices secret commitment.masks e k
    with_reducible exact hu
  · have hcompute := compute_alpha_eq P firstCommitment masterSeed commitment secret
    rw [hone]
    exact congrArg Run.outcome hcompute
  · rw [hone, recompute_alpha_zero_eq, Run.ret_outcome,
      show systemOf P firstCommitment masterSeed = system from rfl,
      system.recomputed_view hiddenIndices secret commitment.masks hsolves]

/-- Views of a secret of ones under equations of zeros. -/
theorem sample_responses_simulated :
    ∃ simulate : ResponseView ≃ MaskState, ∀ (view : ResponseView) (commitment : SigningCommitment),
      commitment.masks = simulate view →
        (∀ (e : Fin 12) (i : Fin 56), view.x[e][i] = commitment.xZero[e][i] +
          evaluationPoint (Vector.replicate 12 (5 : UInt16))[e] *
            ((Vector.replicate 56 (1 : Gf16))[i] : Gf16)) ∧
        (∀ (e : Fin 12) (k : Fin 8), view.u[e][k] = commitment.uZero[e][k] +
          evaluationPoint (Vector.replicate 12 (5 : UInt16))[e] * commitment.uOne[e][k]) ∧
        ∃ alphaZero,
          (computeAlpha zeroPrimitives 0 commitment (Vector.replicate 56 1) 0).outcome =
            .ok (alphaZero, view.alphaOne) ∧
          (recomputeAlphaZero zeroPrimitives 0 view.alphaOne (Vector.replicate 12 5) view.opened 0
            (Vector.replicate 14 0)).outcome = .ok alphaZero :=
  responses_simulated zeroPrimitives 0 0 (Vector.replicate 12 5) (Vector.replicate 56 1)
    (Vector.replicate 14 0) fun j => by
      rw [expand_equation_eq zeroPrimitives 0 j.isLt, Run.ret_bind,
        PackedEquation.evaluate_base_eq, zero_value_at]
      simp

end Mqom
