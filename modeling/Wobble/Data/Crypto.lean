import Wobble.Framework.Codec

namespace Wobble

abbrev Bytes := List UInt8

/-- `[u8; 32]`. -/
abbrev Bytes32 := List.Vector UInt8 32

/-- `[u8; 64]`, also the whole content of an `ed25519_dalek::Signature`. -/
abbrev Bytes64 := List.Vector UInt8 64

/-- The cryptographic crates the node calls: `sha2` and `ed25519_dalek`. -/
class Crypto where
  VerifyingKey : Type
  SigningKey : Type
  sha256 : Bytes → Bytes32
  keyFromBytes : Bytes32 → Option VerifyingKey
  keyToBytes : VerifyingKey → Bytes32
  verifyingKey : SigningKey → VerifyingKey
  sign : SigningKey → Bytes → Bytes64
  verify : VerifyingKey → Bytes → Bytes64 → Bool

export Crypto (VerifyingKey SigningKey)

variable [Crypto]

def doubleSha256 (bytes : Bytes) : Bytes32 := Crypto.sha256 (Crypto.sha256 bytes).toList

def verifyingKeyBytes (key : VerifyingKey) : Bytes32 := Crypto.keyToBytes key

def parseVerifyingKey (bytes : Bytes) : Option VerifyingKey :=
  if h : bytes.length = 32 then Crypto.keyFromBytes ⟨bytes, h⟩ else none

def parseSignature (bytes : Bytes) : Option Bytes64 :=
  if h : bytes.length = 64 then some ⟨bytes, h⟩ else none

def signMessage (signingKey : SigningKey) (message : Bytes) : Bytes64 :=
  Crypto.sign signingKey message

def verifyMessage (signature : Bytes64) (key : VerifyingKey) (message : Bytes) : Bool :=
  Crypto.verify key message signature

end Wobble
