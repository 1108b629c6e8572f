import Mqom.Sign.Signer

/-!
# Domain separation of the transcripts

A transcript is what one SHAKE128 invocation is about: its site and the components it hashes. The
sites absorb nothing but tags and components, and all components but the message have fixed
lengths, so the absorbed bytes determine the transcript.
-/

namespace Mqom

open Rust Params

/-! ## Transcripts -/

/-- The tag byte of a site. -/
def HashKind.tag : HashKind → UInt8
  | .keyExpansion => 0x00
  | .equationSeed => 0x01
  | .messageHash => 0x02
  | .responseCommitment => 0x03
  | .fiatShamir => 0x04
  | .challenge => 0x05
  | .leafHash => 0x06
  | .overallCommitment => 0x07
  | .batching => 0x08

/-- Every kind of hash has its own tag. -/
theorem HashKind.tag_injective : Function.Injective HashKind.tag := by
  intro kind kind' h
  cases kind <;> cases kind' <;> first | rfl | exact absurd h (by decide)

/-- An invocation of SHAKE128 with its components. -/
inductive Transcript where
  | keyExpansion (keySeed : Bytes 32)
  | equationSeed (masterSeed : Bytes 32) (equationIndex : Fin 14)
  | messageHash (message : List UInt8)
  | responseCommitment (alphaZero : Alpha) (alphaOne : Bytes 192)
  | fiatShamir (publicKey : Bytes 60) (firstCommitment secondCommitment messageDigest : Bytes 32)
  | challenge (hash : Bytes 32) (nonce : Bytes 4)
  | leafHash (commitments : Vector (Bytes 32) 2048)
  | overallCommitment (hashes : Vector (Bytes 32) 12) (partialDeltas : Vector (Bytes 12) 12)
  | batching (firstCommitment : Bytes 32)

namespace Transcript

/-- The site of a transcript. -/
def kind : Transcript → HashKind
  | .keyExpansion .. => .keyExpansion
  | .equationSeed .. => .equationSeed
  | .messageHash .. => .messageHash
  | .responseCommitment .. => .responseCommitment
  | .fiatShamir .. => .fiatShamir
  | .challenge .. => .challenge
  | .leafHash .. => .leafHash
  | .overallCommitment .. => .overallCommitment
  | .batching .. => .batching

/-- The bytes of an array of arrays, one part for each. -/
def arrayParts {m n : Nat} (arrays : Vector (Bytes m) n) : List (List UInt8) :=
  arrays.toList.map Bytes.toList

/-- The components, in the order of absorption. -/
def components : Transcript → List (List UInt8)
  | .keyExpansion keySeed => [keySeed.toList]
  | .equationSeed masterSeed equationIndex =>
    [masterSeed.toList, (u16ToLeBytes (UInt16.ofNat equationIndex)).toList]
  | .messageHash message => [message]
  | .responseCommitment alphaZero alphaOne => [(encodedAlpha alphaZero).toList, alphaOne.toList]
  | .fiatShamir publicKey firstCommitment secondCommitment messageDigest =>
    [publicKey.toList, firstCommitment.toList, secondCommitment.toList, messageDigest.toList]
  | .challenge hash nonce => [hash.toList, nonce.toList]
  | .leafHash commitments => arrayParts commitments
  | .overallCommitment hashes partialDeltas => arrayParts hashes ++ arrayParts partialDeltas
  | .batching firstCommitment => [firstCommitment.toList]

/-- The absorbed bytes. -/
def encoding (transcript : Transcript) : List UInt8 :=
  transcript.kind.tag :: transcript.components.flatten

/-- Arrays are parts of one length. -/
theorem array_parts_lengths {m n : Nat} (arrays : Vector (Bytes m) n) :
    (arrayParts arrays).map List.length = List.replicate n m := by
  rw [arrayParts, List.map_map]
  exact List.eq_replicate_iff.mpr ⟨by simp, fun length hlength => by
    obtain ⟨array, _, rfl⟩ := List.mem_map.mp hlength
    exact array.length_toList⟩

/-- Arrays are known from their parts. -/
theorem array_parts_injective {m n : Nat} :
    Function.Injective (arrayParts : Vector (Bytes m) n → List (List UInt8)) := fun _ _ h =>
  Vector.toList_inj.mp (List.map_injective_iff.mpr Bytes.toList_injective h)

/-- The lengths of the components of a site, the message excepted. -/
def componentLengths : HashKind → List Nat
  | .keyExpansion => [32]
  | .equationSeed => [32, 2]
  | .messageHash => []
  | .responseCommitment => [192, 192]
  | .fiatShamir => [60, 32, 32, 32]
  | .challenge => [32, 4]
  | .leafHash => List.replicate 2048 32
  | .overallCommitment => List.replicate 12 32 ++ List.replicate 12 12
  | .batching => [32]

/-- The kind of a transcript gives the lengths of its components. -/
theorem components_lengths {transcript : Transcript} (h : transcript.kind ≠ .messageHash) :
    transcript.components.map List.length = componentLengths transcript.kind := by
  cases transcript with
  | messageHash => exact absurd rfl h
  | leafHash commitments => exact array_parts_lengths commitments
  | overallCommitment hashes partialDeltas =>
      rw [components, List.map_append, array_parts_lengths, array_parts_lengths]
      rfl
  | _ => simp [components, componentLengths, kind]

/-- The components of one site determine the transcript. -/
theorem eq_of_components {transcript other : Transcript} (hkind : transcript.kind = other.kind)
    (h : transcript.components = other.components) : transcript = other := by
  cases transcript with
  | keyExpansion keySeed =>
      cases other with
      | keyExpansion keySeed' =>
          exact congrArg keyExpansion (Bytes.ext (List.singleton_inj.mp h))
      | _ => exact nomatch hkind
  | equationSeed masterSeed equationIndex =>
      cases other with
      | equationSeed masterSeed' equationIndex' =>
          obtain ⟨hseed, hindex⟩ := List.cons.inj h
          -- an index below 14 is determined by its two bytes
          have hbytes := Bytes.ext (List.singleton_inj.mp hindex)
          have hvalue := congrArg UInt16.toNat (u16_to_le_bytes_injective hbytes)
          have hsize : UInt16.size = 65536 := rfl
          rw [UInt16.toNat_ofNat_of_lt' (by omega), UInt16.toNat_ofNat_of_lt' (by omega)] at hvalue
          exact congrArg₂ equationSeed (Bytes.ext hseed) (Fin.ext hvalue)
      | _ => exact nomatch hkind
  | messageHash message =>
      cases other with
      | messageHash message' => exact congrArg messageHash (List.singleton_inj.mp h)
      | _ => exact nomatch hkind
  | responseCommitment alphaZero alphaOne =>
      cases other with
      | responseCommitment alphaZero' alphaOne' =>
          obtain ⟨hzero, hone⟩ := List.cons.inj h
          exact congrArg₂ responseCommitment (encoded_alpha_injective (Bytes.ext hzero))
            (Bytes.ext (List.singleton_inj.mp hone))
      | _ => exact nomatch hkind
  | fiatShamir publicKey firstCommitment secondCommitment messageDigest =>
      cases other with
      | fiatShamir publicKey' firstCommitment' secondCommitment' messageDigest' =>
          obtain ⟨hkey, h⟩ := List.cons.inj h
          obtain ⟨hfirst, h⟩ := List.cons.inj h
          obtain ⟨hsecond, hmessage⟩ := List.cons.inj h
          rw [Bytes.ext hkey, Bytes.ext hfirst, Bytes.ext hsecond,
            Bytes.ext (List.singleton_inj.mp hmessage)]
      | _ => exact nomatch hkind
  | challenge hash nonce =>
      cases other with
      | challenge hash' nonce' =>
          obtain ⟨hhash, hnonce⟩ := List.cons.inj h
          exact congrArg₂ challenge (Bytes.ext hhash) (Bytes.ext (List.singleton_inj.mp hnonce))
      | _ => exact nomatch hkind
  | leafHash commitments =>
      cases other with
      | leafHash commitments' => exact congrArg leafHash (array_parts_injective h)
      | _ => exact nomatch hkind
  | overallCommitment hashes partialDeltas =>
      cases other with
      | overallCommitment hashes' partialDeltas' =>
          -- there are twelve hashes on both sides
          obtain ⟨hhashes, hdeltas⟩ := List.append_inj h (by simp [arrayParts])
          exact congrArg₂ overallCommitment (array_parts_injective hhashes)
            (array_parts_injective hdeltas)
      | _ => exact nomatch hkind
  | batching firstCommitment =>
      cases other with
      | batching firstCommitment' =>
          exact congrArg batching (Bytes.ext (List.singleton_inj.mp h))
      | _ => exact nomatch hkind

/-- The absorbed bytes determine the transcript. -/
theorem encoding_injective : Function.Injective encoding := by
  intro transcript other h
  obtain ⟨htag, hflatten⟩ := List.cons.inj h
  have hkind : transcript.kind = other.kind := HashKind.tag_injective htag
  refine eq_of_components hkind ?_
  by_cases hmessage : transcript.kind = .messageHash
  · -- the message is the only component of its site
    cases transcript with
    | messageHash message =>
        cases other with
        | messageHash message' =>
            simp only [components, List.flatten_singleton] at hflatten
            rw [hflatten]
        | _ => exact nomatch hkind
    | _ => exact nomatch hmessage
  · refine List.eq_iff_flatten_eq.mpr ⟨hflatten, ?_⟩
    rw [components_lengths hmessage, components_lengths (hkind ▸ hmessage), hkind]

end Transcript

end Mqom
