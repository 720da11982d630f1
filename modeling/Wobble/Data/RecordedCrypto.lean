import Wobble.Data.Types

namespace Wobble

open Codec

-- Concrete runs need hashes and signatures on a handful of inputs only. They are recorded with
-- the values SHA-256 and ed25519 give there, as big-endian numbers.

/-- `n` as `width` bytes, most significant first. -/
def beBytes (width n : Nat) : List.Vector UInt8 width := ⟨(toLeBytes width n).reverse, by simp⟩

/-- An input with its hash and the hash of its hash. -/
structure Digest where
  input : Bytes
  once : Nat
  twice : Nat

/-- A message of 32 bytes with a signature on it, which verifies under the key. -/
structure Signed where
  key : Nat
  message : Nat
  signature : Nat

def recordedSha256 (digests : List Digest) (data : Bytes) : Bytes32 :=
  let n := ofBeBytes data
  beBytes 32 ((digests.findSome? fun d =>
    if data.length == d.input.length && n == ofBeBytes d.input then some d.once
    else if data.length == 32 && n == d.once then some d.twice
    else none).getD 0)

def recordedSignature (signed : List Signed) (key : Nat) (message : Bytes) : Option Nat :=
  signed.findSome? fun s =>
    if s.key == key && message.length == 32 && ofBeBytes message == s.message
    then some s.signature else none

/-- The recorded hashes and signatures. A key is named by its public bytes. -/
@[reducible] def recordedCrypto (digests : List Digest) (signed : List Signed) : Crypto where
  VerifyingKey := Nat
  SigningKey := Nat
  sha256 := recordedSha256 digests
  keyFromBytes bytes :=
    (signed.map Signed.key).find? fun key => key == ofBeBytes bytes.toList
  keyToBytes := beBytes 32
  verifyingKey key := key
  sign key message := beBytes 64 ((recordedSignature signed key message).getD 0)
  verify key message signature :=
    signed.any fun s => s.key == key && message.length == 32 && ofBeBytes message == s.message &&
      ofBeBytes signature.toList == s.signature

/-- The same with a signature for every message, zero where none is recorded. -/
@[reducible] def completedCrypto (digests : List Digest) (signed : List Signed) : Crypto :=
  { recordedCrypto digests signed with
    verify := fun key message signature =>
      signature == beBytes 64 ((recordedSignature signed key message).getD 0) }

end Wobble
