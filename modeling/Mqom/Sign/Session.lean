import Mqom.Sign.SelfVerification

/-!
# Sessions

A caller of the crate generates and imports keys and signs with the keys it has, in any order, with
one source of randomness. Whatever the source does, every key of a session is one that `from_slice`
accepts and every signature one that `verify` accepts. With a source that reads a stream, each key
that is generated and each signature that is tried takes the next 32 bytes of the stream, so no
byte is used twice.
-/

namespace Mqom

open Rust

/-! ## Calls of the interface -/

/-- A call of the interface by its user. Keys are named by the order in which they were obtained. -/
inductive Request where
  | generate
  | fromSlice (bytes : List UInt8)
  | trySign (key : Nat) (message : List UInt8)

/-- A signature with the key and the message it was made for. -/
structure Signed where
  key : SigningKey
  message : List UInt8
  signature : Signature

/-- What a user has: the source of randomness, keys and signatures. -/
structure Session (State : Type) where
  rng : State
  keys : List SigningKey
  signatures : List Signed

/-- A user before the first call. -/
def Session.start {State : Type} (state : State) : Session State :=
  ⟨state, [], []⟩

section Perform

variable {State : Type} (P : Primitives) (rng : TryCryptoRng State)

/-- One call. A call that fails leaves the keys and the signatures. -/
def perform (session : Session State) : Request → Exec (Session State)
  | .generate => do
    let (key, state) ← SigningKey.generate P rng session.rng
    pure { session with rng := state, keys := session.keys ++ key.toList }
  | .fromSlice bytes => do
    let key ← SigningKey.fromSlice P bytes
    pure { session with keys := session.keys ++ key.toOption.toList }
  | .trySign key message =>
    match session.keys[key]? with
    | none => pure session
    | some key => do
      let (signature, state) ← key.trySignWithRng P rng session.rng message
      pure { session with
        rng := state
        signatures := session.signatures ++ (signature.map (Signed.mk key message)).toList }

/-- Calls one after another. -/
def performAll (requests : List Request) (session : Session State) : Exec (Session State) :=
  requests.foldlM (perform P rng) session

end Perform

/-! ## What a call does -/

/-- The two draws of a signing call. -/
def signingDraws {State : Type} (rng : TryCryptoRng State) (state : State) :
    Option (Bytes 16 × Bytes 16) × State :=
  match (rng 16 state).1 with
  | none => (none, (rng 16 state).2)
  | some masterSeed =>
    ((rng 16 (rng 16 state).2).1.map fun salt => (masterSeed, salt), (rng 16 (rng 16 state).2).2)

/-- The signature for a seed and a salt, if there is one. -/
def signedWith (P : Primitives) (key : SigningKey) (message : List UInt8)
    (draws : Bytes 16 × Bytes 16) : Option Signature :=
  (sign P key.encoded message draws.1 draws.2).outcome.toOption.map Signature.mk

section Calls

variable {State : Type} (P : Primitives) (rng : TryCryptoRng State)

/-- Generation draws one seed. -/
theorem generate_outcome (state : State) :
    (SigningKey.generate P rng state).outcome =
      .ok ((rng 32 state).1.map fun seed => ⟨secretKeyOf P seed⟩, (rng 32 state).2) := by
  cases hdraw : rng 32 state with
  | mk drawn next =>
      cases drawn with
      | some seed => exact generate_of_seed P hdraw
      | none =>
          unfold SigningKey.generate
          rw [hdraw]
          rfl

/-- `try_sign_with_rng` is `sign` on what is drawn. -/
theorem try_sign_with_rng_outcome (key : SigningKey) (state : State) (message : List UInt8) :
    (key.trySignWithRng P rng state message).outcome =
      .ok ((signingDraws rng state).1.bind (signedWith P key message),
        (signingDraws rng state).2) := by
  unfold SigningKey.trySignWithRng signingDraws
  cases hmasterSeed : rng 16 state with
  | mk drawn next =>
      cases drawn with
      | none => rfl
      | some masterSeed =>
          dsimp only
          cases hsalt : rng 16 next with
          | mk drawn last =>
              cases drawn with
              | none => rfl
              | some salt =>
                  let input : SignInput := ⟨key.encoded, message, masterSeed, salt⟩
                  exact Run.bind_outcome_of_ok (input.attempt_sign_outcome P)

/-- The key that bytes encode, if there is one. -/
def importedKey (bytes : List UInt8) : Option SigningKey :=
  ((tryInto 88 bytes).filter fun encoded => KeyConsistent P encoded).map SigningKey.mk

/-- Importing a key returns it exactly when it is consistent. -/
theorem from_slice_outcome (bytes : List UInt8) :
    ∃ result, (SigningKey.fromSlice P bytes).outcome = .ok result ∧
      result.toOption = importedKey P bytes := by
  unfold importedKey
  by_cases hlength : bytes.length = 88
  · obtain ⟨encoded, rfl⟩ : ∃ encoded : Bytes 88, encoded.toList = bytes := ⟨⟨bytes, hlength⟩, rfl⟩
    refine ⟨_, from_slice_toList P encoded, ?_⟩
    rw [try_into_toList]
    by_cases h : KeyConsistent P encoded
    · rw [if_pos h, Option.filter_some, if_pos (decide_eq_true h)]
      rfl
    · rw [if_neg h, Option.filter_some, if_neg (ne_true_of_eq_false (decide_eq_false h))]
      rfl
  · refine ⟨_, from_slice_of_length P hlength, ?_⟩
    rw [tryInto, dif_neg hlength]
    rfl

/-- The session after a call. -/
def Session.after (session : Session State) : Request → Session State
  | .generate =>
    { session with
      rng := (rng 32 session.rng).2
      keys := session.keys ++
        ((rng 32 session.rng).1.map fun seed => ⟨secretKeyOf P seed⟩).toList }
  | .fromSlice bytes =>
    { session with
      keys := session.keys ++ (importedKey P bytes).toList }
  | .trySign key message =>
    match session.keys[key]? with
    | none => session
    | some key =>
      { session with
        rng := (signingDraws rng session.rng).2
        signatures := session.signatures ++
          (((signingDraws rng session.rng).1.bind (signedWith P key message)).map
            (Signed.mk key message)).toList }

/-- A request leads to the state of the specification. -/
theorem perform_outcome (session : Session State) (request : Request) :
    (perform P rng session request).outcome = .ok (session.after P rng request) := by
  cases request with
  | generate =>
      show (SigningKey.generate P rng session.rng >>= fun result => _).outcome = _
      rw [Run.bind_outcome_of_ok (generate_outcome P rng session.rng)]
      rfl
  | fromSlice bytes =>
      obtain ⟨result, hresult, hkey⟩ := from_slice_outcome P bytes
      show (SigningKey.fromSlice P bytes >>= fun key => _).outcome = _
      rw [Run.bind_outcome_of_ok hresult, Session.after, ← hkey]
      rfl
  | trySign key message =>
      simp only [perform, Session.after]
      cases session.keys[key]? with
      | none => rfl
      | some key =>
          exact Run.bind_outcome_of_ok (try_sign_with_rng_outcome P rng key session.rng message)

/-- Calls never panic. -/
theorem perform_all_outcome (requests : List Request) (session : Session State) :
    (performAll P rng requests session).outcome =
      .ok (requests.foldl (Session.after P rng) session) := by
  induction requests generalizing session with
  | nil => rfl
  | cons request rest ih =>
      unfold performAll
      rw [List.foldlM_cons, Run.bind_outcome_of_ok (perform_outcome P rng session request)]
      exact ih _

end Calls

/-! ## Safety -/

/-- The keys of a session are consistent, and its signatures are accepted under its keys. -/
structure Session.Sound {State : Type} (P : Primitives) (session : Session State) : Prop where
  consistent : ∀ key ∈ session.keys, KeyConsistent P key.encoded
  signer : ∀ entry ∈ session.signatures, entry.key ∈ session.keys
  accepted : ∀ entry ∈ session.signatures,
    (entry.key.verifyingKey.verify P entry.message entry.signature).outcome = .ok true

section Safety

variable {State : Type} (P : Primitives) (rng : TryCryptoRng State)

/-- An imported key is consistent. -/
theorem imported_key_consistent {bytes : List UInt8} {key : SigningKey}
    (h : importedKey P bytes = some key) : KeyConsistent P key.encoded := by
  obtain ⟨encoded, hfilter, rfl⟩ := Option.map_eq_some_iff.mp h
  exact of_decide_eq_true (Option.filter_eq_some_iff.mp hfilter).2

/-- A signature that is returned is accepted. -/
theorem signed_with_accepted {key : SigningKey} {message : List UInt8}
    {draws : Bytes 16 × Bytes 16} {signature : Signature}
    (h : signedWith P key message draws = some signature) :
    (key.verifyingKey.verify P message signature).outcome = .ok true := by
  obtain ⟨encoded, hsigned, rfl⟩ := Option.map_eq_some_iff.mp h
  let input : SignInput := ⟨key.encoded, message, draws.1, draws.2⟩
  refine input.accepted_of_signed P ?_
  cases houtcome : (sign P key.encoded message draws.1 draws.2).outcome with
  | error reason =>
      rw [houtcome] at hsigned
      cases hsigned
  | ok found =>
      rw [houtcome] at hsigned
      exact congrArg Except.ok (Option.some.inj hsigned)

/-- A call keeps a session sound. -/
theorem Session.Sound.after {session : Session State} (h : session.Sound P) (request : Request) :
    (session.after P rng request).Sound P := by
  have hextend : ∀ (state : State) (added : Option SigningKey),
      (∀ key, added = some key → KeyConsistent P key.encoded) →
        Session.Sound P ⟨state, session.keys ++ added.toList, session.signatures⟩ := by
    intro state added hadded
    refine ⟨fun key hkey => ?_, fun entry hentry => List.mem_append_left _ (h.signer entry hentry),
      h.accepted⟩
    rcases List.mem_append.mp hkey with hold | hnew
    · exact h.consistent key hold
    · exact hadded key (Option.mem_toList.mp hnew)
  cases request with
  | generate =>
      refine hextend _ _ fun key hkey => ?_
      obtain ⟨seed, _, rfl⟩ := Option.map_eq_some_iff.mp hkey
      exact secret_key_consistent P seed
  | fromSlice bytes => exact hextend _ _ fun key hkey => imported_key_consistent P hkey
  | trySign index message =>
      simp only [Session.after]
      cases hfound : session.keys[index]? with
      | none => exact h
      | some key =>
          have hnew : ∀ entry ∈ session.signatures ++
              (((signingDraws rng session.rng).1.bind (signedWith P key message)).map
                (Signed.mk key message)).toList, entry ∈ session.signatures ∨
                  entry.key = key ∧
                    (entry.key.verifyingKey.verify P entry.message entry.signature).outcome =
                      .ok true := by
            intro entry hentry
            rcases List.mem_append.mp hentry with hold | hadded
            · exact Or.inl hold
            · obtain ⟨signature, hbind, rfl⟩ :=
                Option.map_eq_some_iff.mp (Option.mem_toList.mp hadded)
              obtain ⟨draws, _, hsigned⟩ := Option.bind_eq_some_iff.mp hbind
              exact Or.inr ⟨rfl, signed_with_accepted P hsigned⟩
          refine ⟨h.consistent, fun entry hentry => ?_, fun entry hentry => ?_⟩
          · rcases hnew entry hentry with hold | ⟨hkey, _⟩
            · exact h.signer entry hold
            · rw [hkey]
              exact List.mem_of_getElem? hfound
          · rcases hnew entry hentry with hold | ⟨_, haccepted⟩
            · exact h.accepted entry hold
            · exact haccepted

/-- Whatever a user does and whatever the source of randomness returns, no call panics, every key
that was obtained is read again by `from_slice`, and every signature that was obtained is accepted
under the key it was made with. -/
theorem sessions_safe (state : State) (requests : List Request) :
    ∃ last, (performAll P rng requests (Session.start state)).outcome = .ok last ∧
      (∀ key ∈ last.keys,
        (SigningKey.fromSlice P key.toBytes.toList).outcome = .ok (.ok key)) ∧
      ∀ entry ∈ last.signatures, entry.key ∈ last.keys ∧
        (entry.key.verifyingKey.verify P entry.message entry.signature).outcome = .ok true := by
  have hsound : ∀ session : Session State, session.Sound P →
      (requests.foldl (Session.after P rng) session).Sound P := by
    induction requests with
    | nil => exact fun session h => h
    | cons request rest ih => exact fun session h => ih _ (h.after P rng request)
  have hlast := hsound (Session.start state)
    ⟨fun _ hkey => absurd hkey List.not_mem_nil, fun _ hentry => absurd hentry List.not_mem_nil,
      fun _ hentry => absurd hentry List.not_mem_nil⟩
  refine ⟨_, perform_all_outcome P rng requests _, fun key hkey => ?_, fun entry hentry =>
    ⟨hlast.signer entry hentry, hlast.accepted entry hentry⟩⟩
  exact (from_slice_ok P).mpr ⟨rfl, hlast.consistent key hkey⟩

end Safety

/-! ## Randomness -/

/-- Bytes of a stream. -/
def streamBytes (stream : Nat → UInt8) (position n : Nat) : Bytes n :=
  ⟨(List.range' position n).map stream, by rw [List.length_map, List.length_range']⟩

/-- A source of randomness that reads a stream and never fails. -/
def streamRng (stream : Nat → UInt8) : TryCryptoRng Nat := fun n position =>
  (some (streamBytes stream position n), position + n)

/-- The seed is the first half of a block. -/
theorem block_seed_le : 0 + 16 ≤ 32 := by decide

/-- The salt is the second half. -/
theorem block_salt_le : 16 + 16 ≤ 32 := by decide

/-- The session after a call, with one block of randomness for a key or a signature. The state of
the source is the number of blocks that were used. -/
def Session.afterBlock (P : Primitives) (block : Nat → Bytes 32) (session : Session Nat) :
    Request → Session Nat
  | .generate =>
    { session with
      rng := session.rng + 1
      keys := session.keys ++ ((keypairFromSeed P (block session.rng)).outcome.toOption.map
        fun pair => SigningKey.mk pair.1).toList }
  | .fromSlice bytes => { session with keys := session.keys ++ (importedKey P bytes).toList }
  | .trySign key message =>
    match session.keys[key]? with
    | none => session
    | some key =>
      { session with
        rng := session.rng + 1
        signatures := session.signatures ++ ((signedWith P key message
          ((block session.rng).extract 0 16 block_seed_le,
            (block session.rng).extract 16 16 block_salt_le)).map (Signed.mk key message)).toList }

section Stream

variable (P : Primitives) (stream : Nat → UInt8)

/-- The blocks of a stream. -/
def streamBlock (k : Nat) : Bytes 32 := streamBytes stream (32 * k) 32

/-- A part of some bytes of the stream is bytes of the stream. -/
theorem stream_bytes_extract (position : Nat) {n offset length : Nat} (h : offset + length ≤ n) :
    (streamBytes stream position n).extract offset length h =
      streamBytes stream (position + offset) length := by
  apply Bytes.ext
  rw [Bytes.toList_extract, streamBytes, streamBytes, ← List.map_drop, ← List.map_take,
    List.drop_range', List.take_range'_of_length_ge (by omega), Nat.mul_one]

/-- A session that has used whole blocks of the stream. -/
def Session.position (session : Session Nat) : Session Nat :=
  { session with rng := 32 * session.rng }

/-- Signing draws the next two blocks of 16 bytes. -/
theorem signing_draws_stream (position : Nat) :
    signingDraws (streamRng stream) position =
      (some (streamBytes stream position 16, streamBytes stream (position + 16) 16),
        position + 16 + 16) := rfl

/-- A call with the stream uses the next block. -/
theorem after_stream (session : Session Nat) (request : Request) :
    session.position.after P (streamRng stream) request =
      (session.afterBlock P (streamBlock stream) request).position := by
  have hnext : 32 * session.rng + 32 = 32 * (session.rng + 1) := (Nat.mul_succ 32 _).symm
  cases request with
  | generate =>
      have hkey : (keypairFromSeed P (streamBlock stream session.rng)).outcome =
          .ok (secretKeyOf P (streamBlock stream session.rng),
            publicKeyOf P (streamBlock stream session.rng)) := by
        rw [keypair_from_seed_eq, Run.ret_outcome]
      simp only [Session.after, Session.afterBlock, Session.position, streamRng, hkey, ← hnext]
      rfl
  | fromSlice bytes => rfl
  | trySign index message =>
      simp only [Session.after, Session.afterBlock, Session.position]
      cases session.keys[index]? with
      | none => rfl
      | some key =>
          rw [signing_draws_stream, streamBlock, stream_bytes_extract, stream_bytes_extract,
            Nat.add_zero, Nat.add_assoc, hnext]
          rfl

/-- With a source that reads a stream, the key or the signature that a call makes is the one of
the next 32 bytes of the stream, whether or not earlier calls succeeded. -/
theorem sessions_read_stream (requests : List Request) :
    (performAll P (streamRng stream) requests (Session.start 0)).outcome =
      .ok (requests.foldl (Session.afterBlock P (streamBlock stream))
        (Session.start 0)).position := by
  have hrun : ∀ session : Session Nat,
      requests.foldl (Session.after P (streamRng stream)) session.position =
        (requests.foldl (Session.afterBlock P (streamBlock stream)) session).position := by
    induction requests with
    | nil => exact fun session => rfl
    | cons request rest ih =>
        intro session
        rw [List.foldl_cons, List.foldl_cons, after_stream, ih]
  rw [perform_all_outcome]
  exact congrArg Except.ok (hrun (Session.start 0))

end Stream

end Mqom
