import Mqom.Model.Keygen

/-!
# The known-answer tests

`xtask/src/main.rs` from `verify_response` down: the reader of a response file, the check of a
case, and the text that is written for it. A `str` is the list of its characters. A call that
returns `Err` is a run that stops with the text of the error, and the events of a run are the
cases that `verify_response` passes to `verify_case`. The native functions that a case is checked
with are parameters.
-/

namespace Mqom.Kat

open Rust Params

/-- A `str` or `String`. -/
abbrev Text : Type := List Char

/-! ## Text functions of the standard library -/

/-- `char::is_whitespace`. -/
def isWhitespace (c : Char) : Bool :=
  let code := c.toNat
  (9 ≤ code && code ≤ 13) || code == 0x20 || code == 0x85 || code == 0xa0 || code == 0x1680 ||
    (0x2000 ≤ code && code ≤ 0x200a) || code == 0x2028 || code == 0x2029 || code == 0x202f ||
    code == 0x205f || code == 0x3000

/-- `str::trim`. -/
def trim (text : Text) : Text :=
  ((text.dropWhile isWhitespace).reverse.dropWhile isWhitespace).reverse

/-- `str::lines`: the lines without their endings, which are `\n` or `\r\n`. -/
def lines : Text → List Text
  | [] => []
  | '\n' :: rest => [] :: lines rest
  | '\r' :: '\n' :: rest => [] :: lines rest
  | c :: rest =>
    match lines rest with
    | [] => [[c]]
    | line :: others => (c :: line) :: others

/-- `str::split_once`: the parts before and after the first occurrence of a separator. -/
def splitOnce (separator : Text) : Text → Option (Text × Text)
  | [] => if separator = [] then some ([], []) else none
  | c :: rest =>
    if separator.isPrefixOf (c :: rest) then some ([], (c :: rest).drop separator.length)
    else (splitOnce separator rest).map fun parts => (c :: parts.1, parts.2)

/-- The decimal digits of a number, as `Display` writes them. -/
def decimal (n : Nat) : Text := Nat.toDigits 10 n

/-- `ParseIntError`, for the errors that an unsigned number can have. -/
inductive ParseIntError where
  | empty
  | invalidDigit
  | posOverflow
  deriving DecidableEq, Repr

/-- The `Display` text of a `ParseIntError`. -/
def ParseIntError.message : ParseIntError → Text
  | .empty => "cannot parse integer from empty string".toList
  | .invalidDigit => "invalid digit found in string".toList
  | .posOverflow => "number too large to fit in target type".toList

/-- The value of a decimal digit. -/
def digitValue (c : Char) : Option Nat :=
  if '0' ≤ c ∧ c ≤ '9' then some (c.toNat - 48) else none

/-- The loop of `usize::from_str`, with checks at every digit. -/
def parseDigits : Nat → Text → Except ParseIntError Nat
  | value, [] => .ok value
  | value, c :: rest =>
    match digitValue c with
    | none => .error .invalidDigit
    | some digit =>
      if value * 10 + digit < 2 ^ 64 then parseDigits (value * 10 + digit) rest
      else .error .posOverflow

/-- `usize::from_str`: digits, with an optional plus sign in front. -/
def parseUsize (text : Text) : Except ParseIntError Nat :=
  match text with
  | [] => .error .empty
  | ['+'] => .error .invalidDigit
  | ['-'] => .error .invalidDigit
  | '+' :: rest => parseDigits 0 rest
  | _ => parseDigits 0 text

/-- The UTF-8 bytes of a text. -/
def utf8Bytes (text : Text) : List UInt8 := text.flatMap String.utf8EncodeChar

/-! ## Cases -/

/-- `KatCase`. -/
@[ext]
structure KatCase where
  count : Option Nat := none
  seed : Option Text := none
  messageLen : Option Nat := none
  message : Option Text := none
  publicKey : Option Text := none
  secretKey : Option Text := none
  signedMessageLen : Option Nat := none
  signedMessage : Option Text := none
  deriving DecidableEq

/-- A run of a function that returns `Result<_, String>`. -/
abbrev Report (α : Type) : Type := Run KatCase Text α

/-- The `?` operator after `map_err`. -/
def orErr {ε α : Type} (describe : ε → Text) : Except ε α → Report α
  | .ok value => Run.ret value []
  | .error error => Run.halt (.none (describe error))

/-- The functions of the crate and of the deterministic generator that a case is checked with. -/
structure Native where
  KatDrbg : Type
  /-- `KatDrbg::new`. -/
  new : Bytes 48 → KatDrbg
  /-- `SigningKey::generate`. -/
  generate : KatDrbg → Option SigningKey × KatDrbg
  /-- `SigningKey::try_sign_with_rng`. -/
  trySignWithRng : SigningKey → KatDrbg → List UInt8 → Option Signature × KatDrbg
  /-- `VerifyingKey::verify`: whether the signature is accepted. -/
  verify : VerifyingKey → List UInt8 → Signature → Bool

/-! ## Hexadecimal values -/

/-- `decode_nibble`. -/
def decodeNibble (byte : UInt8) : Except Text UInt8 :=
  if 48 ≤ byte ∧ byte ≤ 57 then .ok (byte - 48)
  else if 97 ≤ byte ∧ byte ≤ 102 then .ok (byte - 97 + 10)
  else if 65 ≤ byte ∧ byte ≤ 70 then .ok (byte - 65 + 10)
  else .error ("invalid hex digit: ".toList ++ [Char.ofNat byte.toNat])

/-- The loop of `decode_hex` over the pairs of digits. -/
def decodePairs : List UInt8 → Except Text (List UInt8)
  | first :: second :: rest => do
    let high ← decodeNibble first
    let low ← decodeNibble second
    let others ← decodePairs rest
    pure ((high <<< 4 ||| low) :: others)
  | _ => pure []

/-- `decode_hex`. -/
def decodeHex (encoded : Text) : Except Text (List UInt8) :=
  let bytes := utf8Bytes encoded
  if bytes.length % 2 ≠ 0 then .error "hex value has odd length".toList
  else decodePairs bytes

/-- `decode_fixed_hex`. -/
def decodeFixedHex (n : Nat) (encoded : Text) : Except Text (Bytes n) := do
  let value ← decodeHex encoded
  match tryInto n value with
  | some array => pure array
  | none => .error ("expected ".toList ++ decimal n ++ " decoded bytes, found ".toList ++
      decimal value.length)

/-- The characters of `HEX`. -/
def hexDigit (nibble : UInt8) : Char :=
  "0123456789ABCDEF".toList.getD nibble.toNat '0'

/-- What `append_hex` appends. -/
def hexText (bytes : List UInt8) : Text :=
  bytes.flatMap fun (byte : UInt8) => [hexDigit (byte >>> 4), hexDigit (byte &&& 0x0f)]

/-- What `append_hex_line` appends. -/
def hexLine (name : Text) (bytes : List UInt8) : Text :=
  name ++ " = ".toList ++ hexText bytes ++ ['\n']

/-! ## The check of a case -/

/-- The `Display` text of an `EncodingError`. -/
def encodingMessage (error : EncodingError) : Text :=
  "invalid encoded length: expected ".toList ++ decimal error.expected ++ ", received ".toList ++
    decimal error.actual

/-- The texts of the errors about a case start with its count. -/
def caseMessage (count : Nat) (text : Text) : Text :=
  "KAT case ".toList ++ decimal count ++ text

/-- The `Debug` text of an optional position. -/
def debugPosition : Option Nat → Text
  | some position => "Some(".toList ++ decimal position ++ [')']
  | none => "None".toList

/-- One round of the first loop of `reject_targeted_mutations`. -/
def rejectMutationAt (native : Native) (count : Nat) (publicKeyBytes message : List UInt8)
    (signatureBytes : List UInt8) (position : Nat) : Report Unit := do
  let byte ← index signatureBytes position
  let mutated := signatureBytes.set position (byte ^^^ 1)
  let signature ← orErr (fun error => "mutation parse for case ".toList ++ decimal count ++
    ": ".toList ++ encodingMessage error) (Signature.fromSlice mutated)
  let publicKey ← orErr (fun error => "mutation key for case ".toList ++ decimal count ++
    ": ".toList ++ encodingMessage error) (VerifyingKey.fromSlice publicKeyBytes)
  Run.require (caseMessage count (" accepted signature mutation at byte ".toList ++
    decimal position)) (native.verify publicKey message signature = false)

/-- `reject_targeted_mutations`. -/
def rejectTargetedMutations (native : Native) (count : Nat) (publicKeyBytes message : List UInt8)
    (signatureBytes : List UInt8) : Report Unit := do
  Run.check (1 ≤ signatureBytes.length)
  [0, 16, 80, 272, signatureBytes.length - 1].forM
    (rejectMutationAt native count publicKeyBytes message signatureBytes)
  let firstByte ← Run.ofOption (caseMessage count " has an empty mutation message".toList)
    message.head?
  let mutatedMessage := message.set 0 (firstByte ^^^ 1)
  let publicKey ← orErr (fun error => "message mutation key for case ".toList ++ decimal count ++
    ": ".toList ++ encodingMessage error) (VerifyingKey.fromSlice publicKeyBytes)
  let signature ← orErr (fun error => "message mutation signature for case ".toList ++
    decimal count ++ ": ".toList ++ encodingMessage error) (Signature.fromSlice signatureBytes)
  Run.require (caseMessage count " accepted a message mutation".toList)
    (native.verify publicKey mutatedMessage signature = false)
  let lastByte ← Run.ofOption (caseMessage count " has an empty public key".toList)
    publicKeyBytes.getLast?
  let mutatedKey := publicKeyBytes.set (publicKeyBytes.length - 1) (lastByte ^^^ 1)
  let publicKey ← orErr (fun error => "public-key mutation for case ".toList ++ decimal count ++
    ": ".toList ++ encodingMessage error) (VerifyingKey.fromSlice mutatedKey)
  Run.require (caseMessage count " accepted a public-key mutation".toList)
    (native.verify publicKey message signature = false)

/-- What `verify_case` writes for a case. -/
def caseText (count : Nat) (seed : Bytes 48) (message : List UInt8) (key : SigningKey)
    (signature : Signature) : Text :=
  "count = ".toList ++ decimal count ++ ['\n'] ++ hexLine "seed".toList seed.toList ++
    "mlen = ".toList ++ decimal message.length ++ ['\n'] ++ hexLine "msg".toList message ++
    hexLine "pk".toList key.verifyingKey.encoded.toList ++ hexLine "sk".toList key.toBytes.toList ++
    "smlen = ".toList ++ decimal (message.length + signature.encoded.toList.length) ++ ['\n'] ++
    "sm = ".toList ++ hexText message ++ hexText signature.encoded.toList ++ "\n\n".toList

/-- `verify_case`. -/
def verifyCase (native : Native) (case : KatCase) (testMutations : Bool) (rustResponse : Text) :
    Report Text := do
  let count ← Run.ofOption "KAT case has no count".toList case.count
  let messageLen ← Run.ofOption (caseMessage count " has no mlen".toList) case.messageLen
  let message ← Run.ofOption (caseMessage count " has no msg".toList) case.message
  let message ← orErr id (decodeHex message)
  let seed ← Run.ofOption (caseMessage count " has no seed".toList) case.seed
  let seed ← orErr id (decodeFixedHex 48 seed)
  let publicKeyBytes ← Run.ofOption (caseMessage count " has no pk".toList) case.publicKey
  let publicKeyBytes ← orErr id (decodeHex publicKeyBytes)
  let secretKeyBytes ← Run.ofOption (caseMessage count " has no sk".toList) case.secretKey
  let secretKeyBytes ← orErr id (decodeHex secretKeyBytes)
  let signedMessageLen ← Run.ofOption (caseMessage count " has no smlen".toList)
    case.signedMessageLen
  let signedMessage ← Run.ofOption (caseMessage count " has no sm".toList) case.signedMessage
  let signedMessage ← orErr id (decodeHex signedMessage)
  Run.require (caseMessage count " has inconsistent message lengths".toList)
    (message.length = messageLen ∧ signedMessage.length = signedMessageLen ∧
      messageLen ≤ signedMessage.length ∧ signedMessage.take messageLen = message)
  let signatureBytes ← Run.ofOption (caseMessage count " has no detached signature".toList)
    (if messageLen ≤ signedMessage.length then some (signedMessage.drop messageLen) else none)
  let publicKey ← orErr (fun error => caseMessage count (" public key: ".toList ++
    encodingMessage error)) (VerifyingKey.fromSlice publicKeyBytes)
  let katRng := native.new seed
  let (generatedKey, katRng) := native.generate katRng
  let generatedKey ← Run.ofOption ("native key generation failed for KAT case ".toList ++
    decimal count) generatedKey
  Run.require ("native key generation differs from KAT case ".toList ++ decimal count)
    (generatedKey.verifyingKey.encoded.toList = publicKeyBytes ∧
      generatedKey.toBytes.toList = secretKeyBytes)
  let (generatedSignature, _) := native.trySignWithRng generatedKey katRng message
  let generatedSignature ← Run.ofOption ("native signing failed for KAT case ".toList ++
    decimal count) generatedSignature
  let firstDifference := (generatedSignature.encoded.toList.zip signatureBytes).findIdx?
    fun pair => pair.1 != pair.2
  Run.require ("native signature differs from KAT case ".toList ++ decimal count ++
    " at byte ".toList ++ debugPosition firstDifference)
    (generatedSignature.encoded.toList = signatureBytes)
  let rustResponse := rustResponse ++ caseText count seed message generatedKey generatedSignature
  let signature ← orErr (fun error => caseMessage count (" signature: ".toList ++
    encodingMessage error)) (Signature.fromSlice signatureBytes)
  Run.require ("native verification failed for KAT case ".toList ++ decimal count)
    (native.verify publicKey message signature = true)
  if testMutations then
    rejectTargetedMutations native count publicKeyBytes message signatureBytes
  pure rustResponse

/-! ## The reader -/

/-- `parse_decimal`. -/
def parseDecimal (name value : Text) : Report Nat :=
  orErr (fun error : ParseIntError => "invalid ".toList ++ name ++ " value ".toList ++ value ++
    ": ".toList ++ error.message) (parseUsize value)

/-- The `match` on the name of a line. -/
def setField (current : KatCase) (name value : Text) : Report KatCase :=
  if name = "count".toList then do
    let number ← parseDecimal name value
    pure { current with count := some number }
  else if name = "seed".toList then pure { current with seed := some value }
  else if name = "mlen".toList then do
    let number ← parseDecimal name value
    pure { current with messageLen := some number }
  else if name = "msg".toList then pure { current with message := some value }
  else if name = "pk".toList then pure { current with publicKey := some value }
  else if name = "sk".toList then pure { current with secretKey := some value }
  else if name = "smlen".toList then do
    let number ← parseDecimal name value
    pure { current with signedMessageLen := some number }
  else if name = "sm".toList then pure { current with signedMessage := some value }
  else pure current

/-- The variables of `verify_response`. -/
structure ReaderState where
  current : KatCase
  verified : Nat
  rustResponse : Text

/-- The loop of `verify_response` over the lines. -/
def readLine (native : Native) (state : ReaderState) (line : Text) : Report ReaderState :=
  let line := trim line
  if line = [] then
    if state.current.count.isSome then do
      Run.emit state.current
      let rustResponse ← verifyCase native state.current (state.verified == 0) state.rustResponse
      pure ⟨{}, state.verified + 1, rustResponse⟩
    else pure state
  else if line.head? = some '#' then pure state
  else
    match splitOnce " = ".toList line with
    | none => Run.halt (.none ("malformed KAT line: ".toList ++ line))
    | some (name, value) => do
      let current ← setField state.current name value
      pure { state with current }

/-- `verify_response`: the number of verified cases and the response of the native code. -/
def verifyResponse (native : Native) (contents : Text) : Report (Nat × Text) := do
  let state ← (lines contents ++ [[]]).foldlM (readLine native)
    ⟨{}, 0, "# MQOM2-L1-gf16-short-r5\n\n".toList⟩
  Run.require ("native verifier expected 100 cases, found ".toList ++ decimal state.verified)
    (state.verified = 100)
  pure (state.verified, state.rustResponse)

end Mqom.Kat
