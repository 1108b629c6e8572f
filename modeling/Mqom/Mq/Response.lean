import Mqom.Model.Sign
import Mqom.Mq.Equation

/-!
# The response of the signer and of the verifier

`compute_alpha` masks the coefficients of the batched equations along the committed lines, and
`recompute_alpha_zero` evaluates the batched equations at opened points. Both succeed on every
input, and their results are the batched forms of the library.
-/

namespace Mqom

open Rust Params Library Matrix

/-! ## Batching coefficients and equations -/

/-- The strings that the batching coefficients are hashed from. -/
def batchingParts (firstCommitment : Bytes 32) : List (List UInt8) :=
  [[0x08], firstCommitment.toList]

/-- The batching coefficients of a first commitment. -/
def batchingOf (P : Primitives) (firstCommitment : Bytes 32) : Vector (Vector Gf256x2 14) 8 :=
  Vector.ofFn fun component => parsed 14
    ((P.shake128 (batchingParts firstCommitment).flatten 224).extract (28 * component) 28
      (batching_part_le component)) output_elements_le

/-- The batching matrix is read from one hash. -/
theorem expand_batching_eq (P : Primitives) (firstCommitment : Bytes 32) :
    expandBatching P firstCommitment =
      Run.ret (batchingOf P firstCommitment)
        [.shake128 .batching (batchingParts firstCommitment)] := by
  rw [expandBatching, shake128_eq, Run.ret_bind]
  simp only [parse_extension_vector_eq _ (show (28 : Nat) = 14 * 2 from rfl), Run.of_fn_m_ret]
  rfl

/-- The system that the responses are about: the batching coefficients and the equations. -/
structure ResponseSystem where
  batching : Vector (Vector Gf256x2 14) 8
  equation : Fin 14 → PackedEquation

/-- The equations in order. -/
def ResponseSystem.equations (system : ResponseSystem) : List PackedEquation :=
  List.ofFn system.equation

/-- The system of a first commitment and an equation seed. -/
def systemOf (P : Primitives) (firstCommitment masterSeed : Bytes 32) : ResponseSystem where
  batching := batchingOf P firstCommitment
  equation j := equationOf P masterSeed j

/-- The calls that the expansion of the equations records. -/
def equationCalls (masterSeed : Bytes 32) : List Call :=
  (List.range 14).map fun j => .shake128 .equationSeed (equationParts masterSeed j)

/-- Every equation of the key is expanded. -/
theorem expand_equations_eq (P : Primitives) (firstCommitment masterSeed : Bytes 32) :
    expandEquations P masterSeed =
      Run.ret (systemOf P firstCommitment masterSeed).equations (equationCalls masterSeed) := by
  have hequations : (systemOf P firstCommitment masterSeed).equations =
      (List.range 14).map (equationOf P masterSeed) := by
    rw [ResponseSystem.equations, List.ofFn_eq_map, ← List.map_coe_finRange_eq_range, List.map_map]
    rfl
  rw [expandEquations, hequations, show Mq.equationCount = 14 from rfl,
    Run.mapM_eq_ret (List.range 14) (equationOf P masterSeed)
      (fun j => [.shake128 .equationSeed (equationParts masterSeed j)])
      (fun j hj => expand_equation_eq P masterSeed (List.mem_range.mp hj)),
    ← List.map_eq_flatMap]
  rfl

/-- The verifier expands the same equations with the same calls. -/
theorem expand_checked_equations_eq (P : Primitives) (firstCommitment masterSeed : Bytes 32) :
    expandCheckedEquations P masterSeed =
      Run.ret (systemOf P firstCommitment masterSeed).equations (equationCalls masterSeed) := by
  rw [expandCheckedEquations, expand_equations_eq P firstCommitment, Run.ret_bind,
    Run.require_of (show (systemOf P firstCommitment masterSeed).equations.length =
      Mq.equationCount from List.length_ofFn), Run.ret_bind]
  simp

/-- An entry of an array of as many entries as there are equations. -/
theorem index_of_fn {α : Type} (entry : Fin 14 → α) (j : Fin 14) :
    (index (List.ofFn entry) j : Exec α) = Run.ret (entry j) [] := by
  rw [index_of_lt (by rw [List.length_ofFn]; exact j.isLt), List.getElem_ofFn]

/-- A loop that adds up products. -/
theorem add_products_eq {α : Type} [HMul Gf256x2 α Gf256x2] {n : Nat} (start : Gf256x2)
    (left : Vector Gf256x2 n) (right : Vector α n) :
    addProducts start left right = start + ∑ i : Fin n, left[i] * right[i] :=
  foldl_fin_range_eq_sum (fun i : Fin n => (left[i] : Gf256x2) * (right[i] : α)) start

/-! ## The signer -/

/-- What `compute_alpha` computes for one equation. -/
theorem expand_at_secret_eq (equation : PackedEquation) (xZero : Vector Gf256x2 56)
    (secret : Vector Gf16 56) (tOne : Vector Gf256x2 56)
    (htOne : ∀ i : Fin 56, tOne[i] =
      (equation.matrix *ᵥ fun j => Gf16.toExt secret[j]) i + equation.vector i) :
    expandAtSecret equation tOne xZero secret =
      Run.ret (constantTerm equation.matrix (fun i => xZero[i]),
        linearTerm equation.matrix equation.vector (fun i => xZero[i])
          fun i => Gf16.toExt secret[i]) [] := by
  rw [expandAtSecret, PackedEquation.multiply_extension_eq, Run.ret_bind]
  dsimp only
  refine congrArg (fun value => Run.ret value []) (Prod.ext ?_ ?_)
  · simp [add_products_eq, constantTerm, dotProduct]
  · simp [add_products_eq, linearTerm, dotProduct, htOne]

/-- The masks of the signer. -/
@[ext]
structure MaskState where
  xZero : Vector (Vector Gf256x2 56) 12
  uZero : Vector (Vector Gf256x2 8) 12
  uOne : Vector (Vector Gf256x2 8) 12

/-- The masks in a commitment. -/
abbrev SigningCommitment.masks (commitment : SigningCommitment) : MaskState :=
  ⟨commitment.xZero, commitment.uZero, commitment.uOne⟩

namespace ResponseSystem

variable (system : ResponseSystem)

/-- The weights of a component. -/
def weight (component : Fin 8) (j : Fin 14) : Gf256x2 :=
  system.batching[component][j]

/-- The batched constant terms of a component. -/
def constantPart (component : Fin 8) (xZero : Vector Gf256x2 56) : Gf256x2 :=
  batchedConstant (system.weight component) (fun j => (system.equation j).matrix) fun i => xZero[i]

/-- The batched linear terms of a component. -/
def linearPart (component : Fin 8) (xZero : Vector Gf256x2 56) (secret : Vector Gf16 56) :
    Gf256x2 :=
  batchedLinear (system.weight component) (fun j => (system.equation j).matrix)
    (fun j => (system.equation j).vector) (fun i => xZero[i]) fun i => Gf16.toExt secret[i]

/-- The `alpha_zero` of the signer. -/
def alphaZero (masks : MaskState) : Alpha :=
  Vector.ofFn fun e => Vector.ofFn fun component =>
    masks.uZero[e][component] + system.constantPart component masks.xZero[e]

/-- The `alpha_one` of the signer. -/
def alphaOne (masks : MaskState) (secret : Vector Gf16 56) : Alpha :=
  Vector.ofFn fun e => Vector.ofFn fun component =>
    masks.uOne[e][component] + system.linearPart component masks.xZero[e] secret

/-- The `alpha_zero` that the verifier recomputes. -/
def recomputed (alphaOne : Alpha) (hiddenIndices : Vector UInt16 12) (opened : OpenedEvaluations)
    (publicOutput : Vector Gf256x2 14) : Alpha :=
  Vector.ofFn fun e => Vector.ofFn fun component =>
    opened.u[e][component] + ∑ j, system.weight component j *
        homogeneousValue (system.equation j).matrix (system.equation j).vector
          (evaluationPoint hiddenIndices[e]) (fun i => opened.x[e][i]) publicOutput[j] +
      evaluationPoint hiddenIndices[e] * alphaOne[e][component]

/-- The sum that both sides form for a component. -/
theorem add_products_weight (component : Fin 8) (start : Gf256x2) (value : Fin 14 → Gf256x2) :
    addProducts start system.batching[component.val] (Vector.ofFn value) =
      start + ∑ j, system.weight component j * value j := by
  rw [add_products_eq]
  refine congrArg (start + ·) (Finset.sum_congr rfl fun j _ => ?_)
  rw [getElem_fin (Vector.ofFn value), Vector.getElem_ofFn]
  rfl

/-- The array of `compute_alpha` that does not depend on the execution. -/
def tOne (secret : Vector Gf16 56) : List (Vector Gf256x2 56) :=
  List.ofFn fun j => Vector.ofFn fun i : Fin 56 =>
    ((system.equation j).matrix *ᵥ fun k => Gf16.toExt secret[k]) i + (system.equation j).vector i

/-- The linear terms of the equations at the secret. -/
theorem t_one_eq (secret : Vector Gf16 56) :
    (system.equations.mapM fun equation => do
      let value ← equation.multiplyBase secret
      pure (Vector.ofFn fun i : Fin 56 => value[i] + equation.linear[i])) =
      (Run.ret (system.tOne secret) [] : Exec (List (Vector Gf256x2 56))) := by
  rw [Run.mapM_eq_ret system.equations (fun equation => Vector.ofFn fun i : Fin 56 =>
    (equation.matrix *ᵥ fun j => Gf16.toExt secret[j]) i + equation.vector i) (fun _ => []),
    Run.flatMap_nil, equations, List.map_ofFn]
  · rfl
  intro equation _
  rw [PackedEquation.multiply_base_eq, Run.ret_bind]
  simp [PackedEquation.vector]

end ResponseSystem

/-- One execution of the responses. -/
theorem alpha_execution_eq (system : ResponseSystem) (commitment : SigningCommitment)
    (secret : Vector Gf16 56) (e : Fin 12) :
    alphaExecution system.batching system.equations (system.tOne secret) commitment secret e =
      Run.ret ((system.alphaZero commitment.masks)[e],
        (system.alphaOne commitment.masks secret)[e]) [] := by
  rw [alphaExecution, Run.of_fn_m_eq_ret
    (fun j => (constantTerm (system.equation j).matrix (fun i => commitment.xZero[e][i]),
      linearTerm (system.equation j).matrix (system.equation j).vector
        (fun i => commitment.xZero[e][i]) fun i => Gf16.toExt secret[i])) (fun _ => []),
    Run.flatMap_nil, Run.ret_bind]
  · simp only [Vector.map_ofFn, system.add_products_weight, ResponseSystem.alphaZero,
      ResponseSystem.alphaOne, ResponseSystem.constantPart, ResponseSystem.linearPart,
      batchedConstant, batchedLinear, Function.comp_apply, getElem_fin,
      Vector.getElem_ofFn, Run.pure_eq_ret, Run.after_nil]
  · intro j
    rw [ResponseSystem.equations, index_of_fn, Run.ret_bind, ResponseSystem.tOne, index_of_fn,
      Run.ret_bind, expand_at_secret_eq _ _ _ _ (fun i => by simp)]
    rfl

/-- `compute_alpha` succeeds on every input. -/
theorem compute_alpha_eq (P : Primitives) (firstCommitment masterSeed : Bytes 32)
    (commitment : SigningCommitment) (secret : Vector Gf16 56) :
    computeAlpha P firstCommitment commitment secret masterSeed =
      Run.ret ((systemOf P firstCommitment masterSeed).alphaZero commitment.masks,
        (systemOf P firstCommitment masterSeed).alphaOne commitment.masks secret)
        (.shake128 .batching (batchingParts firstCommitment) :: equationCalls masterSeed) := by
  rw [computeAlpha, expand_batching_eq, Run.ret_bind, expand_equations_eq P firstCommitment,
    Run.ret_bind, ResponseSystem.t_one_eq, Run.ret_bind,
    show batchingOf P firstCommitment = (systemOf P firstCommitment masterSeed).batching from rfl,
    Run.of_fn_m_eq_ret _ (fun _ => []) (alpha_execution_eq _ commitment secret), Run.ret_bind]
  have hpair : ∀ first second : Alpha,
      (Vector.ofFn fun e : Fin 12 => (first[e], second[e])).map (·.1) = first ∧
        (Vector.ofFn fun e : Fin 12 => (first[e], second[e])).map (·.2) = second := by
    intro first second
    constructor <;> ext1 e he <;> simp
  rw [(hpair _ _).1, (hpair _ _).2, Run.flatMap_nil]
  simp

/-! ## The verifier -/

/-- The value of an equation at an opened point. -/
theorem evaluate_at_point_eq (equation : PackedEquation) (w : Gf256x2) (x : Vector Gf256x2 56)
    (output : Gf256x2) :
    evaluateAtPoint equation w x output =
      Run.ret (homogeneousValue equation.matrix equation.vector w (fun i => x[i]) output) [] := by
  rw [evaluateAtPoint, PackedEquation.multiply_extension_eq, Run.ret_bind]
  dsimp only
  refine congrArg (fun value => Run.ret value []) ?_
  rw [add_products_eq, zero_add, Gf256x2.square_eq]
  simp [homogeneousValue, dotProduct, PackedEquation.vector]

/-- One execution of the recomputed responses. -/
theorem recompute_execution_eq (system : ResponseSystem) (alphaOne : Alpha)
    (hiddenIndices : Vector UInt16 12) (opened : OpenedEvaluations)
    (publicOutput : Vector Gf256x2 14) (e : Fin 12) :
    recomputeExecution system.batching system.equations alphaOne hiddenIndices opened publicOutput
        e =
      Run.ret (system.recomputed alphaOne hiddenIndices opened publicOutput)[e] [] := by
  rw [recomputeExecution, Run.of_fn_m_eq_ret
    (fun j => homogeneousValue (system.equation j).matrix (system.equation j).vector
      (evaluationPoint hiddenIndices[e]) (fun i => opened.x[e][i]) publicOutput[j]) (fun _ => []),
    Run.flatMap_nil, Run.ret_bind]
  · simp only [system.add_products_weight, ResponseSystem.recomputed, getElem_fin,
      Vector.getElem_ofFn, Run.pure_eq_ret, Run.after_nil]
  · intro j
    rw [ResponseSystem.equations, index_of_fn, Run.ret_bind, evaluate_at_point_eq]
    rfl

/-- `recompute_alpha_zero` succeeds on every input. -/
theorem recompute_alpha_zero_eq (P : Primitives) (firstCommitment masterSeed : Bytes 32)
    (alphaOne : Alpha) (hiddenIndices : Vector UInt16 12) (opened : OpenedEvaluations)
    (publicOutput : Vector Gf256x2 14) :
    recomputeAlphaZero P firstCommitment alphaOne hiddenIndices opened masterSeed publicOutput =
      Run.ret ((systemOf P firstCommitment masterSeed).recomputed alphaOne hiddenIndices opened
        publicOutput)
        (.shake128 .batching (batchingParts firstCommitment) :: equationCalls masterSeed) := by
  rw [recomputeAlphaZero, expand_batching_eq, Run.ret_bind,
    expand_checked_equations_eq P firstCommitment, Run.ret_bind,
    show batchingOf P firstCommitment = (systemOf P firstCommitment masterSeed).batching from rfl,
    Run.of_fn_m_eq_ret _ (fun _ => [])
      (recompute_execution_eq _ alphaOne hiddenIndices opened publicOutput)]
  simp

end Mqom
