import Mqom.Model.Keygen
import Mqom.Mq.Response

/-!
# Keys

A secret key is the seed of the equations, the values of the equations at the secret vector, and
the packed secret vector. Key generation writes the values and key import recomputes them, both
from the seed and the vector, so both succeed on every input and agree.
-/

namespace Mqom

open Rust Params

variable (P : Primitives)

/-! ## Slices that hold keys and signatures -/

/-- An array is read from the slice of its bytes and from no other. -/
theorem encoded_from_slice_ok {n : Nat} {bytes : List UInt8} {encoded : Bytes n} :
    encodedFromSlice n bytes = .ok encoded ↔ bytes = encoded.toList := by
  rw [← try_into_eq_some, encodedFromSlice]
  cases tryInto n bytes with
  | some found =>
      constructor
      · intro h
        rw [Except.ok.inj h]
      · intro h
        rw [Option.some.inj h]
  | none => exact ⟨fun h => (nomatch h), fun h => (nomatch h)⟩

/-- The same holds of a type that only wraps an array. -/
theorem from_slice_map_ok {n : Nat} {α : Type} {wrap : Bytes n → α}
    (hwrap : Function.Injective wrap) {bytes : List UInt8} {encoded : Bytes n} :
    (encodedFromSlice n bytes).map wrap = .ok (wrap encoded) ↔ bytes = encoded.toList := by
  rw [← encoded_from_slice_ok]
  cases encodedFromSlice n bytes with
  | ok found =>
      constructor
      · intro h
        rw [hwrap (Except.ok.inj h)]
      · intro h
        rw [Except.ok.inj h]
        rfl
  | error error => exact ⟨fun h => (nomatch h), fun h => (nomatch h)⟩

/-- A signature is read from its own bytes. -/
theorem signature_from_slice_ok {bytes : List UInt8} {signature : Signature} :
    Signature.fromSlice bytes = .ok signature ↔ bytes = signature.encoded.toList :=
  from_slice_map_ok fun _ _ h => congrArg Signature.encoded h

/-- So is a verifying key. -/
theorem verifying_key_from_slice_ok {bytes : List UInt8} {key : VerifyingKey} :
    VerifyingKey.fromSlice bytes = .ok key ↔ bytes = key.encoded.toList :=
  from_slice_map_ok fun _ _ h => congrArg VerifyingKey.encoded h

/-- A slice that is read as a signature has the length of one. -/
theorem signature_length {bytes : List UInt8} {signature : Signature}
    (h : Signature.fromSlice bytes = .ok signature) : bytes.length = 2916 := by
  rw [signature_from_slice_ok.mp h]
  exact signature.encoded.length_toList

/-- Parts of arrays with the same bytes there are equal. -/
theorem extract_eq_of_bytes {n : Nat} {left right : Bytes n} {offset length : Nat}
    (h : offset + length ≤ n)
    (hsame : ∀ i, offset ≤ i ∧ i < offset + length → left.toList[i]? = right.toList[i]?) :
    left.extract offset length h = right.extract offset length h := by
  apply Bytes.ext_getElem
  intro i hi
  have hlist : ∀ bytes : Bytes n, bytes.toList[offset + i]? = some bytes[offset + i] :=
    fun bytes => List.getElem?_eq_getElem (by simp; omega)
  have hbyte := hsame (offset + i) ⟨by omega, by omega⟩
  rw [hlist, hlist] at hbyte
  rw [Bytes.getElem_extract, Bytes.getElem_extract]
  exact Option.some.inj hbyte

/-! ## The fields of a secret key -/

/-- The seed of the equations. -/
def masterSeedOf (key : Bytes 88) : Bytes 32 :=
  key.extract 0 32 (by omega)

/-- The secret vector. -/
def secretVectorOf (key : Bytes 88) : Vector Gf16 56 :=
  unpacked 56 (key.extract 60 28 key_secret_le) secret_elements_le

/-- The encoded value of an equation at a vector. -/
def equationOutput (masterSeed : Bytes 32) (secret : Vector Gf16 56) (j : Nat) : Bytes 2 :=
  ((equationOf P masterSeed j).valueAt secret).toBytes

/-- The embedded values are those of the equations at the secret vector. -/
def KeyConsistent (key : Bytes 88) : Prop :=
  ∀ j : Fin 14, equationOutput P (masterSeedOf key) (secretVectorOf key) j =
    key.extract (32 + 2 * j) 2 (by omega)

instance (key : Bytes 88) : Decidable (KeyConsistent P key) :=
  inferInstanceAs (Decidable (∀ _, _))

/-- Consistent keys with the same seed and the same secret vector are equal. -/
theorem KeyConsistent.eq {key other : Bytes 88} (h : KeyConsistent P key)
    (hother : KeyConsistent P other)
    (hseed : key.extract 0 32 (by omega) = other.extract 0 32 (by omega))
    (hsecret : key.extract 60 28 (by omega) = other.extract 60 28 (by omega)) : key = other := by
  apply Bytes.ext_getElem
  intro i hi
  rcases Nat.lt_or_ge i 32 with hlt | hge
  · have hbyte := congrArg (fun bytes : Bytes 32 => bytes[i]) hseed
    simpa using hbyte
  rcases Nat.lt_or_ge i 60 with hlt | hge'
  · have hvector : secretVectorOf key = secretVectorOf other := by
      rw [secretVectorOf, secretVectorOf, hsecret]
    have houtput := h ⟨(i - 32) / 2, by omega⟩
    rw [masterSeedOf, hseed, hvector] at houtput
    have hsame := houtput.symm.trans (hother ⟨(i - 32) / 2, by omega⟩)
    have hbyte := congrArg (fun bytes : Bytes 2 => bytes[(i - 32) % 2]) hsame
    have hindex : 32 + 2 * ((i - 32) / 2) + (i - 32) % 2 = i := by omega
    simpa only [Bytes.getElem_extract, hindex] using hbyte
  · have hindex : i - 60 < 28 := by omega
    have hbyte := congrArg (fun bytes : Bytes 28 => bytes[i - 60]) hsecret
    simpa only [Bytes.getElem_extract, show 60 + (i - 60) = i by omega] using hbyte

/-! ## Key import -/

/-- Whether one embedded value is right. -/
def outputMatches (key : Bytes 88) (j : Nat) : Bool :=
  decide ((equationOutput P (masterSeedOf key) (secretVectorOf key) j).toList =
    (key.toList.drop (32 + j * 2)).take 2)

/-- The loop over the outputs tests the consistency of the key. -/
theorem all_outputs_match (key : Bytes 88) :
    (List.range 14).all (outputMatches P key) = decide (KeyConsistent P key) := by
  rw [Bool.eq_iff_iff, List.all_eq_true, decide_eq_true_iff]
  constructor
  · intro h j
    have hmatch := of_decide_eq_true (h j (List.mem_range.mpr j.isLt))
    apply Bytes.ext
    rw [hmatch, Bytes.toList_extract, Nat.mul_comm]
  · intro h j hj
    have hmatch := h ⟨j, List.mem_range.mp hj⟩
    apply decide_eq_true
    rw [hmatch, Bytes.toList_extract, Nat.mul_comm]

/-- The loop of `secret_key_is_consistent`. -/
theorem compare_outputs_eq (key : Bytes 88) :
    (List.range 14).foldlM (fun equal equationIndex => do
      let equation ← expandEquation P (masterSeedOf key) equationIndex
      let observed ← slice key.toList (32 + equationIndex * 2) (32 + equationIndex * 2 + 2)
      let value ← equation.evaluateBase (secretVectorOf key)
      pure (equal && decide (value.toBytes.toList = observed))) true =
      Run.ret (decide (KeyConsistent P key)) (equationCalls (masterSeedOf key)) := by
  refine (Run.foldlM_trace (List.range 14) (fun i => (List.range i).all (outputMatches P key))
    (fun j => [.shake128 .equationSeed (equationParts (masterSeedOf key) j)])
    (fun i hi => ?_)).trans ?_
  · have hlt : i < 14 := by simpa using hi
    rw [List.getElem_range, expand_equation_eq P _ hlt, Run.ret_bind,
      slice_of_le (by omega) (by simp; omega), Run.ret_bind,
      PackedEquation.evaluate_base_eq, Run.ret_bind, List.range_succ, List.all_append]
    simp [outputMatches, equationOutput]
    rfl
  · rw [List.length_range, all_outputs_match, ← List.map_eq_flatMap]
    rfl

/-- `secret_key_is_consistent` compares all values. -/
theorem secret_key_is_consistent_eq (key : Bytes 88) :
    secretKeyIsConsistent P key =
      Run.ret (decide (KeyConsistent P key)) (equationCalls (masterSeedOf key)) := by
  unfold secretKeyIsConsistent
  rw [show Verify.publicSeedSize = 32 from rfl, show publicKeySize = 60 from rfl,
    show secretKeySize = 88 from rfl, show Mq.equationCount = 14 from rfl,
    slice_toList key 32 (by omega) rfl, Run.ret_bind, try_into_toList]
  dsimp only
  rw [slice_toList key 28 (by omega) rfl, Run.ret_bind, Run.after_nil,
    unpack_gf16_eq _ _ (by omega) (by omega), Run.ret_bind, Run.after_nil]
  have hloop := compare_outputs_eq P key
  simp only [masterSeedOf, secretVectorOf] at hloop ⊢
  simp only [Bool.not_true, Bool.false_eq_true, if_false]
  rw [hloop, Run.attempt_ret, Run.ret_bind]
  simp

/-- `from_slice` accepts consistent keys of the right length. -/
theorem from_slice_toList (key : Bytes 88) :
    (SigningKey.fromSlice P key.toList).outcome =
      .ok (if KeyConsistent P key then .ok ⟨key⟩ else .error .inconsistent) := by
  have hbytes : encodedFromSlice secretKeySize key.toList = .ok key :=
    encoded_from_slice_ok.mpr rfl
  unfold SigningKey.fromSlice
  rw [hbytes]
  dsimp only
  rw [secret_key_is_consistent_eq, Run.ret_bind, Run.after_outcome]
  by_cases h : KeyConsistent P key
  · rw [decide_eq_true h, if_pos h]
    rfl
  · rw [decide_eq_false h, if_neg h]
    rfl

/-- A key of another length is refused. -/
theorem from_slice_of_length {bytes : List UInt8} (h : bytes.length ≠ 88) :
    (SigningKey.fromSlice P bytes).outcome =
      .ok (.error (.invalidLength ⟨88, bytes.length⟩)) := by
  have hlength : bytes.length ≠ secretKeySize := h
  have hbytes : encodedFromSlice secretKeySize bytes = .error ⟨88, bytes.length⟩ := by
    rw [encodedFromSlice, tryInto, dif_neg hlength]
    rfl
  unfold SigningKey.fromSlice
  rw [hbytes]
  rfl

/-- A key that `from_slice` accepts. -/
theorem from_slice_ok {bytes : List UInt8} {key : SigningKey} :
    (SigningKey.fromSlice P bytes).outcome = .ok (.ok key) ↔
      key.encoded.toList = bytes ∧ KeyConsistent P key.encoded := by
  by_cases hlength : bytes.length = 88
  · obtain ⟨encoded, rfl⟩ : ∃ encoded : Bytes 88, encoded.toList = bytes :=
      ⟨⟨bytes, hlength⟩, rfl⟩
    rw [from_slice_toList]
    by_cases h : KeyConsistent P encoded
    · rw [if_pos h]
      constructor
      · intro heq
        obtain rfl := Except.ok.inj (Except.ok.inj heq)
        exact ⟨rfl, h⟩
      · intro heq
        rw [← Bytes.ext heq.1]
    · rw [if_neg h]
      constructor
      · intro heq
        exact nomatch Except.ok.inj heq
      · intro heq
        rw [Bytes.ext heq.1] at heq
        exact absurd heq.2 h
  · rw [from_slice_of_length P hlength]
    constructor
    · intro heq
      exact nomatch Except.ok.inj heq
    · intro heq
      rw [← heq.1, Bytes.length_toList] at hlength
      exact absurd rfl hlength

/-! ## Key generation -/

/-- What `keypair_from_seed` expands a seed to. -/
def keyExpansion (seed : Bytes 32) : Bytes 60 :=
  P.shake128 ([[0x00], seed.toList].flatten) 60

/-- A public key with the first values written. -/
def publicKeyUpTo (masterSeed : Bytes 32) (secret : Vector Gf16 56) : Nat → Bytes 60
  | 0 => (0 : Bytes 60).write 0 masterSeed.toList
  | j + 1 => (publicKeyUpTo masterSeed secret j).write (32 + j * 2)
      (equationOutput P masterSeed secret j).toList

section PublicKey

variable (masterSeed : Bytes 32) (secret : Vector Gf16 56)

/-- The public key starts with the master seed. -/
theorem public_key_seed (count : Nat) :
    (publicKeyUpTo P masterSeed secret count).extract 0 32 public_seed_le = masterSeed := by
  induction count with
  | zero => exact Bytes.extract_write _ _ _ _
  | succ j ih =>
      rw [publicKeyUpTo, Bytes.extract_write_of_disjoint _ _ (Or.inl (by omega))]
      exact ih

/-- It holds the output of every equation written so far. -/
theorem public_key_output {count j : Nat} (hj : j < count) (hcount : count ≤ 14) :
    (publicKeyUpTo P masterSeed secret count).extract (32 + 2 * j) 2 (by omega) =
      equationOutput P masterSeed secret j := by
  induction count with
  | zero => exact absurd hj (Nat.not_lt_zero j)
  | succ i ih =>
      rw [publicKeyUpTo]
      rcases Nat.lt_succ_iff_lt_or_eq.mp hj with hlt | rfl
      · rw [Bytes.extract_write_of_disjoint _ _ (Or.inl (by omega))]
        exact ih hlt (by omega)
      · simp only [Nat.mul_comm 2 j]
        exact Bytes.extract_write _ _ _ _

end PublicKey

/-- The public key of a seed. -/
def publicKeyOf (seed : Bytes 32) : Bytes 60 :=
  publicKeyUpTo P ((keyExpansion P seed).extract 28 32 (by omega))
    (unpacked 56 ((keyExpansion P seed).extract 0 28 (by omega)) secret_elements_le) 14

/-- The secret key of a seed. -/
def secretKeyOf (seed : Bytes 32) : Bytes 88 :=
  ((0 : Bytes 88).write 0 (publicKeyOf P seed).toList).write 60
    ((keyExpansion P seed).extract 0 28 (by omega)).toList

/-- A key with the values of the equations of its seed at its secret vector. -/
def keyWith (masterSeed : Bytes 32) (secret : Bytes 28) : Bytes 88 :=
  ((0 : Bytes 88).write 0
    (publicKeyUpTo P masterSeed (unpacked 56 secret secret_elements_le) 14).toList).write 60
      secret.toList

/-- The secret of a key that is made from a seed and a secret. -/
theorem key_with_secret (masterSeed : Bytes 32) (secret : Bytes 28) :
    (keyWith P masterSeed secret).extract 60 28 key_secret_le = secret :=
  Bytes.extract_write _ _ _ _

/-- It starts with the public key. -/
theorem key_with_public (masterSeed : Bytes 32) (secret : Bytes 28) :
    (keyWith P masterSeed secret).extract 0 60 key_public_le =
      publicKeyUpTo P masterSeed (unpacked 56 secret secret_elements_le) 14 := by
  rw [keyWith, Bytes.extract_write_of_disjoint _ _ (Or.inl (by omega))]
  exact Bytes.extract_write _ _ _ _

/-- Such a key is consistent. -/
theorem key_with_consistent (masterSeed : Bytes 32) (secret : Bytes 28) :
    KeyConsistent P (keyWith P masterSeed secret) := by
  have hpublic : ∀ (offset length : Nat) (h : offset + length ≤ 60),
      (keyWith P masterSeed secret).extract offset length (by omega) =
        (publicKeyUpTo P masterSeed (unpacked 56 secret secret_elements_le) 14).extract offset
          length h := fun offset length h => by
    rw [← key_with_public, Bytes.extract_extract]
    simp only [Nat.zero_add]
  have hseed : masterSeedOf (keyWith P masterSeed secret) = masterSeed := by
    rw [masterSeedOf, hpublic 0 32 (by omega)]
    exact public_key_seed P _ _ _
  intro j
  rw [hseed, secretVectorOf, key_with_secret, hpublic (32 + 2 * j) 2 (by omega)]
  exact (public_key_output P _ _ j.isLt (by omega)).symm

/-- A secret key starts with its public key. -/
theorem secret_key_public (seed : Bytes 32) :
    (secretKeyOf P seed).extract 0 60 key_public_le = publicKeyOf P seed :=
  key_with_public P _ _

/-- Generated keys are consistent. -/
theorem secret_key_consistent (seed : Bytes 32) : KeyConsistent P (secretKeyOf P seed) :=
  key_with_consistent P ((keyExpansion P seed).extract 28 32 (by omega))
    ((keyExpansion P seed).extract 0 28 (by omega))

/-- The loop of `keypair_from_seed`. -/
theorem write_outputs_eq (masterSeed : Bytes 32) (secret : Vector Gf16 56) :
    (List.range 14).foldlM (fun publicKey equationIndex => do
      let equation ← expandEquation P masterSeed equationIndex
      let value ← equation.evaluateBase secret
      copyFromSlice publicKey (32 + equationIndex * 2) (32 + equationIndex * 2 + 2)
        value.toBytes.toList) (publicKeyUpTo P masterSeed secret 0) =
      Run.ret (publicKeyUpTo P masterSeed secret 14) (equationCalls masterSeed) := by
  refine (Run.foldlM_trace (List.range 14) (publicKeyUpTo P masterSeed secret)
    (fun j => [.shake128 .equationSeed (equationParts masterSeed j)]) (fun i hi => ?_)).trans ?_
  · have hlt : i < 14 := by simpa using hi
    rw [List.getElem_range, expand_equation_eq P _ hlt, Run.ret_bind,
      PackedEquation.evaluate_base_eq, Run.ret_bind,
      copy_from_slice_of_le _ (by omega) (by omega) (by simp)]
    rfl
  · rw [List.length_range, ← List.map_eq_flatMap]
    rfl

/-- `keypair_from_seed` succeeds on every seed. -/
theorem keypair_from_seed_eq (seed : Bytes 32) :
    keypairFromSeed P seed =
      Run.ret (secretKeyOf P seed, publicKeyOf P seed)
        (.shake128 .keyExpansion [[0x00], seed.toList] ::
          equationCalls ((keyExpansion P seed).extract 28 32 (by omega))) := by
  unfold keypairFromSeed
  rw [show Verify.publicSeedSize = 32 from rfl, show publicKeySize = 60 from rfl,
    show secretKeySize = 88 from rfl, show Mq.equationCount = 14 from rfl, shake128_eq,
    Run.ret_bind, ← keyExpansion, slice_toList (keyExpansion P seed) 28 (by omega) rfl,
    Run.ret_bind, Run.after_nil, unpack_gf16_eq _ _ (by omega) (by omega), Run.ret_bind,
    Run.after_nil]
  dsimp only
  rw [Run.require_of rfl, Run.ret_bind, Run.after_nil,
    slice_toList (keyExpansion P seed) 32 (by omega) rfl, Run.ret_bind, Run.after_nil,
    try_into_toList, Run.of_option_some, Run.ret_bind, Run.after_nil,
    copy_from_slice_of_le _ (by omega) (by omega) (by simp), Run.ret_bind, Run.after_nil]
  -- the loop over the equations writes the values behind the seed
  have hloop := write_outputs_eq P ((keyExpansion P seed).extract 28 32 (by omega))
    (unpacked 56 ((keyExpansion P seed).extract 0 28 (by omega)) (by omega))
  rw [publicKeyUpTo] at hloop
  rw [hloop, Run.ret_bind, copy_from_slice_of_le _ (by omega) (by omega) (by simp), Run.ret_bind,
    Run.after_nil, copy_from_slice_of_le _ (by omega) (by omega) (by simp), Run.ret_bind,
    Run.after_nil]
  simp [secretKeyOf, publicKeyOf]

/-- A generated key is the key of the seed that was drawn. -/
theorem generate_ok {State : Type} {rng : TryCryptoRng State} {state final : State}
    {key : SigningKey} (h : (SigningKey.generate P rng state).outcome = .ok (some key, final)) :
    ∃ seed, rng 32 state = (some seed, final) ∧ key.encoded = secretKeyOf P seed := by
  unfold SigningKey.generate at h
  cases hdraw : rng 32 state with
  | mk drawn next =>
      rw [hdraw] at h
      cases drawn with
      | none =>
          have hpair := Except.ok.inj h
          exact nomatch congrArg Prod.fst hpair
      | some seed =>
          dsimp only at h
          rw [keypair_from_seed_eq, Run.attempt_ret, Run.ret_bind, Run.after_outcome] at h
          have hpair := Except.ok.inj h
          obtain rfl := congrArg Prod.snd hpair
          obtain rfl := Option.some.inj (congrArg Prod.fst hpair)
          exact ⟨seed, rfl, rfl⟩

/-- A drawn seed gives a key. -/
theorem generate_of_seed {State : Type} {rng : TryCryptoRng State} {state final : State}
    {seed : Bytes 32} (h : rng 32 state = (some seed, final)) :
    (SigningKey.generate P rng state).outcome = .ok (some ⟨secretKeyOf P seed⟩, final) := by
  unfold SigningKey.generate
  rw [h]
  dsimp only
  rw [keypair_from_seed_eq, Run.attempt_ret, Run.ret_bind]
  rfl

/-! ## Agreement -/

/-- The bytes of a consistent key: its length, and the value of each equation at the vector. -/
def ConsistentEncoding (bytes : List UInt8) : Prop :=
  bytes.length = 88 ∧ ∀ j < 14, ∃ (masterSeed : Bytes 32) (equation : PackedEquation)
    (secret : Vector Gf16 56) (value : Gf256x2),
      masterSeed.toList = bytes.take 32 ∧
      (expandEquation P masterSeed j).outcome = .ok equation ∧
      (unpackGf16 (bytes.drop 60) (Vector.replicate 56 0) : Exec _).outcome = .ok (true, secret) ∧
      (equation.evaluateBase secret).outcome = .ok value ∧
      value.toBytes.toList = (bytes.drop (32 + 2 * j)).take 2

/-- Consistency depends on the bytes of a key only. -/
theorem consistent_encoding_iff (key : Bytes 88) :
    ConsistentEncoding P key.toList ↔ KeyConsistent P key := by
  have hunpack : (unpackGf16 (key.toList.drop 60) (Vector.replicate 56 0) :
      Exec (Bool × Vector Gf16 56)).outcome = .ok (true, secretVectorOf key) := by
    have hslice : (key.extract 60 28 (by omega)).toList = key.toList.drop 60 := by
      rw [Bytes.toList_extract]
      exact List.take_of_length_le (by simp)
    rw [← hslice, unpack_gf16_eq _ _ (by omega) (by omega)]
    rfl
  constructor
  · intro h j
    obtain ⟨masterSeed, equation, secret, value, hseed, hequation, hsecret, hvalue, houtput⟩ :=
      h.2 j j.isLt
    obtain rfl : masterSeed = masterSeedOf key := Bytes.ext hseed
    rw [expand_equation_eq P _ j.isLt, Run.ret_outcome] at hequation
    obtain rfl := Except.ok.inj hequation
    rw [hunpack] at hsecret
    obtain rfl := congrArg Prod.snd (Except.ok.inj hsecret)
    rw [PackedEquation.evaluate_base_eq, Run.ret_outcome] at hvalue
    obtain rfl := Except.ok.inj hvalue
    exact Bytes.ext houtput
  · intro h
    refine ⟨key.length_toList, fun j hj => ⟨masterSeedOf key, equationOf P (masterSeedOf key) j,
      secretVectorOf key, (equationOf P (masterSeedOf key) j).valueAt (secretVectorOf key), rfl, ?_,
      hunpack, ?_, ?_⟩⟩
    · rw [expand_equation_eq P _ hj]
      rfl
    · rw [PackedEquation.evaluate_base_eq]
      rfl
    · exact congrArg Bytes.toList (h ⟨j, hj⟩)

/-- Key generation and key import agree. Import accepts exactly the consistent encodings and keeps
their bytes, generation succeeds with a key that import accepts, and a change to the embedded
values of an accepted key is always noticed. -/
theorem keys_agree :
    (∀ bytes, (∃ key, (SigningKey.fromSlice P bytes).outcome = .ok (.ok key)) ↔
      ConsistentEncoding P bytes) ∧
    (∀ bytes key, (SigningKey.fromSlice P bytes).outcome = .ok (.ok key) →
      key.toBytes.toList = bytes ∧ key.verifyingKey.encoded.toList = bytes.take 60) ∧
    (∀ seed, ∃ secretKey publicKey,
      (keypairFromSeed P seed).outcome = .ok (secretKey, publicKey) ∧
      publicKey = secretKey.extract 0 60 (by omega) ∧
      ∃ key, (SigningKey.fromSlice P secretKey.toList).outcome = .ok (.ok key)) ∧
    (∀ (State : Type) (rng : TryCryptoRng State) (state final : State) (key : SigningKey),
      (SigningKey.generate P rng state).outcome = .ok (some key, final) →
      ConsistentEncoding P key.encoded.toList) ∧
    (∀ bytes changed key, (SigningKey.fromSlice P bytes).outcome = .ok (.ok key) →
      changed.length = bytes.length → changed ≠ bytes →
      (∀ i, i < 32 ∨ 60 ≤ i → changed[i]? = bytes[i]?) →
      (SigningKey.fromSlice P changed).outcome = .ok (.error .inconsistent)) := by
  refine ⟨fun bytes => ?_, fun bytes key h => ?_, fun seed => ?_,
    fun State rng state final key h => ?_, fun bytes changed key h hlength hne hsame => ?_⟩
  · constructor
    · rintro ⟨key, h⟩
      obtain ⟨rfl, hkey⟩ := (from_slice_ok P).mp h
      exact (consistent_encoding_iff P key.encoded).mpr hkey
    · intro h
      have hkey : KeyConsistent P ⟨bytes, h.1⟩ := (consistent_encoding_iff P ⟨bytes, h.1⟩).mp h
      exact ⟨⟨⟨bytes, h.1⟩⟩, (from_slice_ok P).mpr ⟨rfl, hkey⟩⟩
  · obtain ⟨rfl, _⟩ := (from_slice_ok P).mp h
    exact ⟨rfl, rfl⟩
  · refine ⟨secretKeyOf P seed, publicKeyOf P seed, ?_, (secret_key_public P seed).symm,
      ⟨secretKeyOf P seed⟩, (from_slice_ok P).mpr ⟨rfl, secret_key_consistent P seed⟩⟩
    rw [keypair_from_seed_eq]
    rfl
  · obtain ⟨seed, _, hkey⟩ := generate_ok P h
    rw [hkey]
    exact (consistent_encoding_iff P _).mpr (secret_key_consistent P seed)
  · obtain ⟨rfl, hkey⟩ := (from_slice_ok P).mp h
    obtain ⟨other, rfl⟩ : ∃ other : Bytes 88, other.toList = changed :=
      ⟨⟨changed, hlength.trans key.encoded.length_toList⟩, rfl⟩
    -- the seed and the vector are unchanged, and they determine the values
    have hinconsistent : ¬ KeyConsistent P other := fun hother => by
      refine hne (congrArg Bytes.toList (KeyConsistent.eq P hother hkey ?_ ?_))
      · exact extract_eq_of_bytes (by omega) fun i hi => hsame i (Or.inl (by omega))
      · exact extract_eq_of_bytes (by omega) fun i hi => hsame i (Or.inr (by omega))
    rw [from_slice_toList, if_neg hinconsistent]

end Mqom
