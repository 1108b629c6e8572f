import Mqom.Model.Mq

/-!
# The binary line commitment

`blc.rs`: the three walks through the seed tree of an execution, the Gray-code folding of the
expanded leaves, `commit`, `SigningCommitment::open` and `evaluate_opening`. The body of a loop
over the executions, and the statements that `commit` and `evaluate_opening` share, have names of
their own.
-/

namespace Mqom

open Rust Params

variable {n : Nat}

namespace Blc

/-- `BASE_VECTOR_SIZE`. -/
@[simp] def baseVectorSize : Nat := mqN * baseFieldBits / 8
/-- `MASK_VECTOR_SIZE`. -/
@[simp] def maskVectorSize : Nat := eta * extFieldBits / 8
/-- `EXPANDED_LEAF_SIZE`. -/
@[simp] def expandedLeafSize : Nat := baseVectorSize + maskVectorSize
/-- `LEAF_PRG_SIZE`. -/
@[simp] def leafPrgSize : Nat := expandedLeafSize - seedSize
/-- `PARTIAL_DELTA_SIZE`. -/
@[simp] def partialDeltaSize : Nat := baseVectorSize - seedSize
/-- `PATH_SIZE_PER_EXECUTION`. -/
@[simp] def pathSizePerExecution : Nat := nbEvalsLog * seedSize
/-- `PATHS_SIZE`. -/
@[simp] def pathsSize : Nat := tau * pathSizePerExecution
/-- `HIDDEN_COMMITMENTS_SIZE`. -/
@[simp] def hiddenCommitmentsSize : Nat := tau * digestSize
/-- `PARTIAL_DELTAS_OFFSET`. -/
@[simp] def partialDeltasOffset : Nat := pathsSize + hiddenCommitmentsSize

example : baseVectorSize = 28 ∧ maskVectorSize = 16 ∧ leafPrgSize = 28 ∧ partialDeltaSize = 12 ∧
    pathsSize = 2112 ∧ hiddenCommitmentsSize = 384 ∧
    partialDeltasOffset + tau * partialDeltaSize = openingSize := by decide

end Blc

/-- The indices of a loop `for index in lo..hi`. -/
def rangeOf (lo hi : Nat) : List Nat := List.range' lo (hi - lo)

/-! ## Seed commitments -/

/-- `SeedCommitter`. -/
structure SeedCommitter where
  first : SeedDeriver
  second : SeedDeriver
  deriving DecidableEq

namespace SeedCommitter

/-- `SeedCommitter::new`: the second key is the first with the lowest bit of byte 0 flipped. -/
def new (salt : Bytes 16) (execution : UInt8) : SeedCommitter :=
  let firstKey := tweakSalt salt 0 execution 0
  let secondKey := firstKey.set 0 (firstKey[0] ^^^ 1)
  ⟨⟨firstKey⟩, ⟨secondKey⟩⟩

/-- The commitment that `SeedCommitter::commit` returns. -/
def commitment (P : Primitives) (committer : SeedCommitter) (seed : Bytes 16) : Bytes 32 :=
  (committer.first.derive P seed).append (committer.second.derive P seed)

/-- `SeedCommitter::commit`. -/
def commit (P : Primitives) (committer : SeedCommitter) (seed : Bytes 16) : Exec (Bytes 32) := do
  Run.emit (.commitSeed committer.first.key committer.second.key seed)
  pure (committer.commitment P seed)

end SeedCommitter

/-! ## The seed tree -/

/-- The deriver of the children on a level, as all three walks through the tree build it. -/
def levelDeriver (salt : Bytes 16) (execution : UInt8) (depthIndex : UInt16) : SeedDeriver :=
  ⟨tweakSalt salt 2 execution depthIndex⟩

/-- The nodes of a partially known tree, and which of them are known. -/
abbrev PartialTree : Type := Vector (Bytes 16) 4096 × Vector Bool 4096

/-- The first loop of `partially_expand_tree`: put one seed of the path at the sibling of the
current node, then go to the parent. -/
def placeSibling (state : PartialTree × Nat) (siblingSeed : List UInt8) :
    Exec (PartialTree × Nat) := do
  let ((nodes, present), nodeIndex) := state
  let siblingIndex := nodeIndex ^^^ 1
  let seed ← Run.expect (tryInto 16 siblingSeed)
  let nodes ← setIndex nodes siblingIndex seed
  let present ← setIndex present siblingIndex true
  pure ((nodes, present), nodeIndex / 2)

/-- The second loop of `partially_expand_tree`: derive the children of a known node. -/
def expandPresent (P : Primitives) (deriver : SeedDeriver) (tree : PartialTree)
    (parentIndex : Nat) : Exec PartialTree := do
  let (nodes, present) := tree
  if !(← index present.toList parentIndex) then pure tree
  else do
    let parent ← index nodes.toList parentIndex
    let leftIndex := 2 * parentIndex
    let left := deriver.derive P parent
    let right := left ^^^ parent
    let nodes ← setIndex nodes leftIndex left
    let nodes ← setIndex nodes (leftIndex + 1) right
    let present ← setIndex present leftIndex true
    let present ← setIndex present (leftIndex + 1) true
    pure (nodes, present)

/-- `partially_expand_tree`: the leaves, the hidden one being all zero. -/
def partiallyExpandTree (P : Primitives) (salt : Bytes 16) (path : List UInt8)
    (execution : UInt8) (hiddenIndex : Nat) : Exec (List (Bytes 16)) := do
  Run.require .treeArguments
    (path.length = Blc.pathSizePerExecution ∧ hiddenIndex < nbEvals)
  let (tree, _) ← (chunksExact 16 path).foldlM placeSibling
    ((Vector.replicate 4096 0, Vector.replicate 4096 false), nbEvals + hiddenIndex)
  let (nodes, present) ← (rangeOf 1 nbEvalsLog).foldlM (fun tree depth => do
    let depthIndex ← Run.ofOption .treeDepth (u16TryFrom (depth - 1))
    let deriver := levelDeriver salt execution depthIndex
    (rangeOf (1 <<< depth) (1 <<< (depth + 1))).foldlM (expandPresent P deriver) tree) tree
  let leavesPresent ← slice present.toList nbEvals 4096
  Run.require .treePresence
    (∀ pair ∈ leavesPresent.zipIdx, pair.1 ≠ (pair.2 == hiddenIndex))
  pure ((nodes.toList.drop nbEvals).take nbEvals)

/-- The loop of `fully_expand_tree`: derive the children of a node. -/
def expandParent (P : Primitives) (deriver : SeedDeriver) (nodes : Vector (Bytes 16) 4096)
    (parentIndex : Nat) : Exec (Vector (Bytes 16) 4096) := do
  let parent ← index nodes.toList parentIndex
  let leftIndex := 2 * parentIndex
  let left := deriver.derive P parent
  let right := left ^^^ parent
  let nodes ← setIndex nodes leftIndex left
  setIndex nodes (leftIndex + 1) right

/-- `fully_expand_tree`. -/
def fullyExpandTree (P : Primitives) (salt rootSeed delta : Bytes 16) (execution : UInt8) :
    Exec (Vector (Bytes 16) 4096) :=
  let nodes := ((Vector.replicate 4096 (0 : Bytes 16)).set 2 rootSeed).set 3 (rootSeed ^^^ delta)
  (rangeOf 1 nbEvalsLog).foldlM (fun nodes depth => do
    let depthIndex ← Run.expect (u16TryFrom (depth - 1))
    let deriver := levelDeriver salt execution depthIndex
    (rangeOf (1 <<< depth) (1 <<< (depth + 1))).foldlM (expandParent P deriver) nodes) nodes

/-- The left child on a level of `opening_path`. -/
def openingLeft (P : Primitives) (salt rootSeed : Bytes 16) (execution : UInt8)
    (parent : Bytes 16) (depth : Nat) : Exec (Bytes 16) :=
  if depth = 0 then pure rootSeed
  else do
    let depthIndex ← Run.ofOption .pathDepth (u16TryFrom (depth - 1))
    pure ((levelDeriver salt execution depthIndex).derive P parent)

/-- One level of `opening_path`: derive the children, write the sibling of the one on the way to
the leaf into the path, and go to that child. -/
def openingStep (P : Primitives) (salt rootSeed : Bytes 16) (execution : UInt8) (leafIndex : Nat)
    (state : Bytes 16 × Bytes n) (depth : Nat) : Exec (Bytes 16 × Bytes n) := do
  let (parent, path) := state
  let left ← openingLeft P salt rootSeed execution parent depth
  let right := left ^^^ parent
  let bit := (leafIndex >>> (nbEvalsLog - 1 - depth)) &&& 1
  let (selected, sibling) := if bit = 0 then (left, right) else (right, left)
  let pathIndex := nbEvalsLog - 1 - depth
  let path ← copyFromSlice path (pathIndex * seedSize) ((pathIndex + 1) * seedSize) sibling.toList
  pure (selected, path)

/-- `opening_path`: the seed of the hidden leaf, and the path slice afterwards. -/
def openingPath (P : Primitives) (salt rootSeed delta : Bytes 16) (execution : UInt8)
    (hiddenIndex : Nat) (path : Bytes n) : Exec (Bytes 16 × Bytes n) := do
  Run.require .pathArguments (hiddenIndex < nbEvals ∧ n = Blc.pathSizePerExecution)
  (List.range nbEvalsLog).foldlM
    (openingStep P salt rootSeed execution (nbEvals + hiddenIndex)) (delta, path)

/-! ## Folding -/

/-- `trailing_zeros` of a `u16`. -/
def trailingZeros (value : UInt16) : Nat :=
  ((List.range 16).find? fun i => value.toNat.testBit i).getD 16

/-- `gray_code`. -/
def grayCode (leafIndex : Nat) : Exec UInt16 := do
  let leafIndex ← Run.ofOption .grayCodeIndex (u16TryFrom leafIndex)
  pure (leafIndex ^^^ (leafIndex >>> 1))

/-- `gray_code_bit_position`: the bit in which the codes of a leaf and of the next one differ. -/
def grayCodeBitPosition (leafIndex : Nat) : Exec Nat := do
  let current ← grayCode leafIndex
  let next ← if leafIndex + 1 < nbEvals then grayCode (leafIndex + 1) else pure 0
  let position := trailingZeros (current ^^^ next)
  Run.require .grayCodePosition (position < nbEvalsLog)
  pure position

/-- `parse_extension_vector`. The same function stands in `blc.rs`, `sign.rs` and `verify.rs`. -/
def parseExtensionVector (N : Nat) (bytes : List UInt8) : Exec (Vector Gf256x2 N) := do
  Run.require .extensionVectorLength (bytes.length = N * 2)
  Vector.ofFnM fun i : Fin N => do
    let offset := i.val * 2
    let first ← index bytes offset
    let second ← index bytes (offset + 1)
    pure (Gf256x2.fromBytes (Bytes.pair first second))

/-- `xor_bytes`. -/
def xorBytes (destination : Bytes n) (source : List UInt8) : Exec (Bytes n) :=
  if h : source.length = n then pure (destination ^^^ ⟨source, h⟩)
  else Run.halt (.none .xorLength)

/-- What a leaf loop accumulates. -/
@[ext]
structure LeafFold where
  commitmentHash : Shake128State
  accumulator : Bytes 44
  folding : Vector (Bytes 44) 11

namespace LeafFold

/-- The accumulators before the first leaf. -/
def new : LeafFold := ⟨Shake128State.new.absorb [0x06], 0, Vector.replicate 11 0⟩

/-- Absorb a leaf commitment. -/
def absorb (fold : LeafFold) (commitment : List UInt8) : LeafFold :=
  { fold with commitmentHash := fold.commitmentHash.absorb commitment }

/-- Add an expanded leaf to the accumulator, and the accumulator to the vector of the bit that
changes after this leaf. -/
def add (fold : LeafFold) (leafIndex : Nat) (expanded : Bytes 44) : Exec LeafFold := do
  let accumulator ← xorBytes fold.accumulator expanded.toList
  let foldingIndex ← grayCodeBitPosition leafIndex
  let folded ← index fold.folding.toList foldingIndex
  let folded ← xorBytes folded accumulator.toList
  let folding ← setIndex fold.folding foldingIndex folded
  pure { fold with accumulator, folding }

end LeafFold

/-- A leaf seed followed by its generator stream. -/
def expandLeaf (P : Primitives) (generator : Generator) (leafSeed : Bytes 16) :
    Exec (Bytes 44) := do
  let (filled, stream) ← generator.fill P leafSeed (0 : Bytes 28)
  Run.require .leafStream filled
  pure (leafSeed.append stream)

/-- The leaf loop of `commit`. -/
def commitLeaf (P : Primitives) (committer : SeedCommitter) (generator : Generator)
    (fold : LeafFold) (leaf : Bytes 16 × Nat) : Exec LeafFold := do
  let (leafSeed, leafIndex) := leaf
  let commitment ← committer.commit P leafSeed
  let expanded ← expandLeaf P generator leafSeed
  (fold.absorb commitment.toList).add leafIndex expanded

/-- The leaf loop of `evaluate_opening`: the hidden leaf contributes the commitment from the
opening and a zero expansion. -/
def openLeaf (P : Primitives) (committer : SeedCommitter) (generator : Generator)
    (hiddenIndex : Nat) (hiddenCommitment : List UInt8) (fold : LeafFold)
    (leaf : Bytes 16 × Nat) : Exec LeafFold := do
  let (leafSeed, leafIndex) := leaf
  if leafIndex = hiddenIndex then
    (fold.absorb hiddenCommitment).add leafIndex 0
  else do
    let commitment ← committer.commit P leafSeed
    let expanded ← expandLeaf P generator leafSeed
    (fold.absorb commitment.toList).add leafIndex expanded

/-- The loop over the folded vectors in `commit` and `evaluate_opening`: vector `k` contributes
with the field element encoded by `1 << k`. -/
def combineBasis (folding : Vector (Bytes 44) 11) :
    Exec (Vector Gf256x2 56 × Vector Gf256x2 8) :=
  (List.finRange 11).foldlM (fun (state : Vector Gf256x2 56 × Vector Gf256x2 8) (k : Fin 11) => do
    let (x, u) := state
    let folded := folding[k]
    let basis := Gf256x2.fromBytes (u16ToLeBytes (1 <<< UInt16.ofNat k))
    let base ← slice folded.toList 0 Blc.baseVectorSize
    let (unpacked, baseVector) ← unpackGf16 base (Vector.replicate 56 0)
    Run.require .basisUnpacking unpacked
    let x := Vector.ofFn fun i : Fin 56 => x[i] + (baseVector[i] : Gf16) * basis
    let mask ← slice folded.toList Blc.baseVectorSize Blc.expandedLeafSize
    let maskVector ← parseExtensionVector 8 mask
    let u := Vector.ofFn fun i : Fin 8 => u[i] + basis * maskVector[i]
    pure (x, u))
    (Vector.replicate 56 0, Vector.replicate 8 0)

/-! ## Committing and opening -/

/-- `SigningCommitment`. -/
structure SigningCommitment where
  commitment : Bytes 32
  xZero : Vector (Vector Gf256x2 56) 12
  uZero : Vector (Vector Gf256x2 8) 12
  uOne : Vector (Vector Gf256x2 8) 12
  salt : Bytes 16
  delta : Bytes 16
  rootSeeds : Vector (Bytes 16) 12
  partialDeltas : Vector (Bytes 12) 12

/-- What `commit` computes for one execution. -/
structure CommittedExecution where
  xZero : Vector Gf256x2 56
  uZero : Vector Gf256x2 8
  uOne : Vector Gf256x2 8
  partialDelta : Bytes 12
  leafCommitmentHash : Bytes 32

/-- The loop over the executions in `commit`. -/
def commitExecution (P : Primitives) (salt : Bytes 16) (serializedSecret : Bytes 28)
    (delta : Bytes 16) (rootSeeds : Vector (Bytes 16) 12) (execution : Fin 12) :
    Exec CommittedExecution := do
  let executionU8 ← Run.ofOption .executionIndex (u8TryFrom execution)
  let nodes ← fullyExpandTree P salt rootSeeds[execution] delta executionU8
  let leaves ← slice nodes.toList nbEvals 4096
  Run.require .leafCount (leaves.length = nbEvals)
  let committer := SeedCommitter.new salt executionU8
  let generator ← Generator.new salt executionU8 Blc.leafPrgSize
  let fold ← leaves.zipIdx.foldlM (commitLeaf P committer generator) LeafFold.new
  let leafCommitmentHash ← fold.commitmentHash.squeeze P .leafHash 32
  let (xZero, uZero) ← combineBasis fold.folding
  let mask ← slice fold.accumulator.toList Blc.baseVectorSize Blc.expandedLeafSize
  let uOne ← parseExtensionVector 8 mask
  let partialDelta := serializedSecret.extract 16 12 secret_tail_le ^^^
    fold.accumulator.extract 16 12 leaf_tail_le
  pure ⟨xZero, uZero, uOne, partialDelta, leafCommitmentHash⟩

/-- `commit`. -/
def commit (P : Primitives) (masterSeed salt : Bytes 16) (secret : Vector Gf16 56) :
    Exec SigningCommitment := do
  let (packed, serializedSecret) ← packGf16 secret (0 : Bytes 28)
  Run.require .secretPacking packed
  let delta := serializedSecret.extract 0 16 secret_delta_le
  let (filled, rootSeedStream) ← prgFill P 0 0 masterSeed (0 : Bytes 192)
  Run.require .rootSeedStream filled
  let rootSeeds := Vector.ofFn fun e : Fin 12 =>
    rootSeedStream.extract (16 * e) 16 (execution_part_le e)
  let executions ← Vector.ofFnM (commitExecution P salt serializedSecret delta rootSeeds)
  let commitmentHash := Shake128State.new.absorb [0x07]
  let commitmentHash := executions.toList.foldl
    (fun state execution => state.absorb execution.leafCommitmentHash.toList) commitmentHash
  let commitmentHash := executions.toList.foldl
    (fun state execution => state.absorb execution.partialDelta.toList) commitmentHash
  let commitment ← commitmentHash.squeeze P .overallCommitment 32
  pure {
    commitment, salt, delta, rootSeeds
    xZero := executions.map (·.xZero)
    uZero := executions.map (·.uZero)
    uOne := executions.map (·.uOne)
    partialDeltas := executions.map (·.partialDelta) }

/-- The loop over the executions in `SigningCommitment::open`. -/
def openExecution (P : Primitives) (commitment : SigningCommitment)
    (hiddenIndices : Vector UInt16 12) (opening : Bytes 2640) (execution : Fin 12) :
    Exec (Bytes 2640) := do
  let executionU8 ← Run.ofOption .executionIndex (u8TryFrom execution)
  let hiddenIndex := hiddenIndices[execution].toNat
  let pathOffset := execution * Blc.pathSizePerExecution
  let path ← slice opening.toList pathOffset (pathOffset + Blc.pathSizePerExecution)
  let (hiddenSeed, path) ← openingPath P commitment.salt commitment.rootSeeds[execution]
    commitment.delta executionU8 hiddenIndex (Bytes.mk path rfl)
  let opening ← copyFromSlice opening pathOffset (pathOffset + Blc.pathSizePerExecution)
    path.toList
  let hiddenCommitment ← (SeedCommitter.new commitment.salt executionU8).commit P hiddenSeed
  let commitmentOffset := Blc.pathsSize + execution * digestSize
  let opening ← copyFromSlice opening commitmentOffset (commitmentOffset + digestSize)
    hiddenCommitment.toList
  let partialDeltaOffset := Blc.partialDeltasOffset + execution * Blc.partialDeltaSize
  copyFromSlice opening partialDeltaOffset (partialDeltaOffset + Blc.partialDeltaSize)
    commitment.partialDeltas[execution].toList

/-- `SigningCommitment::open`. -/
def SigningCommitment.openAt (P : Primitives) (commitment : SigningCommitment)
    (hiddenIndices : Vector UInt16 12) : Exec (Bytes 2640) :=
  (List.finRange 12).foldlM (openExecution P commitment hiddenIndices) 0

/-! ## Evaluating an opening -/

/-- `OpenedEvaluations`. -/
structure OpenedEvaluations where
  x : Vector (Vector Gf256x2 56) 12
  u : Vector (Vector Gf256x2 8) 12

/-- What `evaluate_opening` computes for one execution. -/
@[ext]
structure EvaluatedExecution where
  x : Vector Gf256x2 56
  u : Vector Gf256x2 8
  leafCommitmentHash : Bytes 32

/-- The loop over the executions in `evaluate_opening`. -/
def evaluateExecution (P : Primitives) (salt : Bytes 16) (opening : List UInt8)
    (hiddenIndices : Vector UInt16 12) (execution : Fin 12) : Exec EvaluatedExecution := do
  let executionU8 ← Run.ofOption .executionIndex (u8TryFrom execution)
  let hiddenIndex := hiddenIndices[execution].toNat
  Run.require .hiddenIndex (hiddenIndex < nbEvals)
  let pathOffset := execution * Blc.pathSizePerExecution
  let path ← slice opening pathOffset (pathOffset + Blc.pathSizePerExecution)
  let leaves ← partiallyExpandTree P salt path executionU8 hiddenIndex
  let hiddenCommitmentOffset := Blc.pathsSize + execution * digestSize
  let hiddenCommitment ← slice opening hiddenCommitmentOffset
    (hiddenCommitmentOffset + digestSize)
  let partialDeltaOffset := Blc.partialDeltasOffset + execution * Blc.partialDeltaSize
  let partialDelta ← slice opening partialDeltaOffset (partialDeltaOffset + Blc.partialDeltaSize)
  let committer := SeedCommitter.new salt executionU8
  let generator ← Generator.new salt executionU8 Blc.leafPrgSize
  let fold ← leaves.zipIdx.foldlM
    (openLeaf P committer generator hiddenIndex hiddenCommitment) LeafFold.new
  let leafCommitmentHash ← fold.commitmentHash.squeeze P .leafHash 32
  let (x, u) ← combineBasis fold.folding
  let evaluationPoint ← grayCode hiddenIndex
  let evaluationPoint := Gf256x2.fromBytes (u16ToLeBytes evaluationPoint)
  let adjustedTail ← xorBytes (fold.accumulator.extract 16 12 leaf_tail_le) partialDelta
  let adjustedBase := (fold.accumulator.extract 0 16 leaf_seed_le).append adjustedTail
  let (unpacked, adjustedBaseVector) ← unpackGf16 adjustedBase.toList (Vector.replicate 56 0)
  Run.require .adjustedBase unpacked
  let x := Vector.ofFn fun i : Fin 56 => x[i] + (adjustedBaseVector[i] : Gf16) * evaluationPoint
  let mask ← slice fold.accumulator.toList Blc.baseVectorSize Blc.expandedLeafSize
  let accumulatedMask ← parseExtensionVector 8 mask
  let u := Vector.ofFn fun i : Fin 8 => u[i] + evaluationPoint * accumulatedMask[i]
  pure ⟨x, u, leafCommitmentHash⟩

/-- `evaluate_opening` up to the comparison: the recomputed commitment and the evaluations. -/
def reconstructOpening (P : Primitives) (salt : Bytes 16) (opening : List UInt8)
    (hiddenIndices : Vector UInt16 12) : Exec (Bytes 32 × OpenedEvaluations) := do
  Run.require .openingLength (opening.length = openingSize)
  let executions ← Vector.ofFnM (evaluateExecution P salt opening hiddenIndices)
  let commitmentHash := Shake128State.new.absorb [0x07]
  let commitmentHash := executions.toList.foldl
    (fun state execution => state.absorb execution.leafCommitmentHash.toList) commitmentHash
  let partialDeltas ← slice opening Blc.partialDeltasOffset openingSize
  let commitmentHash := commitmentHash.absorb partialDeltas
  let observedCommitment ← commitmentHash.squeeze P .overallCommitment 32
  pure (observedCommitment, ⟨executions.map (·.x), executions.map (·.u)⟩)

/-- `evaluate_opening`. -/
def evaluateOpening (P : Primitives) (salt : Bytes 16) (expectedCommitment : Bytes 32)
    (opening : List UInt8) (hiddenIndices : Vector UInt16 12) : Exec OpenedEvaluations := do
  let (observedCommitment, opened) ← reconstructOpening P salt opening hiddenIndices
  Run.require .firstCommitment (observedCommitment = expectedCommitment)
  pure opened

end Mqom
