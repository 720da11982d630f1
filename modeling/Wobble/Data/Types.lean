import Wobble.Data.Crypto
import Wobble.Framework.Hex
import Wobble.Framework.Merkle

namespace Wobble

open Rust Codec

structure Txid where
  bytes : Bytes32
  deriving DecidableEq

structure BlockHash where
  bytes : Bytes32
  deriving DecidableEq

structure OutPoint where
  txid : Txid
  vout : UInt32
  deriving DecidableEq

structure TxIn where
  previousOutput : OutPoint
  unlockingData : Bytes
  deriving DecidableEq

structure TxOut where
  value : UInt64
  lockingData : Bytes
  deriving DecidableEq

structure Transaction where
  version : UInt32
  inputs : List TxIn
  outputs : List TxOut
  lockTime : UInt32
  deriving DecidableEq

structure BlockHeader where
  version : UInt32
  prevBlockhash : BlockHash
  merkleRoot : Bytes32
  time : UInt64
  bits : UInt32
  nonce : UInt32
  deriving DecidableEq

structure Block where
  header : BlockHeader
  transactions : List Transaction
  deriving DecidableEq

/-- Heights count blocks and are unbounded here; a `u64` height would need 2^64 blocks to
run over. -/
structure ChainIndexEntry where
  blockHash : BlockHash
  height : Nat
  cumulativeWork : Nat
  parent : Option BlockHash
  deriving DecidableEq

structure Utxo where
  outpoint : OutPoint
  output : TxOut
  createdAtHeight : Nat
  isCoinbase : Bool
  deriving DecidableEq

/-- `Default` of the hash types. -/
def zeroBytes : Bytes32 := ⟨List.replicate 32 0, rfl⟩

def BlockHash.default : BlockHash := ⟨zeroBytes⟩

def Txid.toString (txid : Txid) : Bytes := Hex.render txid.bytes.toList

def BlockHash.toString (hash : BlockHash) : Bytes := Hex.render hash.bytes.toList

theorem Txid.toString_injective : Function.Injective Txid.toString := by
  rintro ⟨a⟩ ⟨b⟩ h
  exact congrArg Txid.mk (List.Vector.toList_injective (Hex.render_injective h))

theorem BlockHash.toString_injective : Function.Injective BlockHash.toString := by
  rintro ⟨a⟩ ⟨b⟩ h
  exact congrArg BlockHash.mk (List.Vector.toList_injective (Hex.render_injective h))

/-- The order `sort_by_key(|txid| txid.to_string())` uses. -/
instance : LinearOrder Txid :=
  LinearOrder.lift' (fun txid => order txid.toString)
    (order_injective.comp Txid.toString_injective)

instance : LinearOrder BlockHash :=
  LinearOrder.lift' (fun hash => order hash.toString)
    (order_injective.comp BlockHash.toString_injective)

/-- The order `sort_by_key(|o| (o.txid.to_string(), o.vout))` uses. -/
def OutPoint.sortKey (o : OutPoint) : List Nat ×ₗ Nat :=
  toLex (order o.txid.toString, o.vout.toNat)

theorem OutPoint.sortKey_injective : Function.Injective OutPoint.sortKey := by
  rintro ⟨t, v⟩ ⟨t', v'⟩ h
  simp only [OutPoint.sortKey, toLex_inj, Prod.mk.injEq] at h
  rw [Txid.toString_injective (order_injective h.1), UInt32.toNat_inj.mp h.2]

instance : LinearOrder OutPoint :=
  LinearOrder.lift' OutPoint.sortKey OutPoint.sortKey_injective

section Encoding

variable {ε : Type}

def encodeLen (len : Nat) : Res ε Bytes :=
  if len < 2^32 then .ok (toLeBytes 4 len) else .error (.panic "length exceeds u32")

def encodeBytes (data : Bytes) : Res ε Bytes := do
  let len ← encodeLen data.length
  return len ++ data

def TxIn.encode (includeUnlockingData : Bool) (input : TxIn) : Res ε Bytes := do
  let data ← encodeBytes (if includeUnlockingData then input.unlockingData else [])
  return input.previousOutput.txid.bytes.toList ++
    toLeBytes 4 input.previousOutput.vout.toNat ++ data

def TxOut.encode (output : TxOut) : Res ε Bytes := do
  let data ← encodeBytes output.lockingData
  return toLeBytes 8 output.value.toNat ++ data

def Transaction.encodeWithUnlockingData (tx : Transaction) (includeUnlockingData : Bool) :
    Res ε Bytes := do
  let inputLen ← encodeLen tx.inputs.length
  let inputs ← encodeAll (TxIn.encode includeUnlockingData) tx.inputs
  let outputLen ← encodeLen tx.outputs.length
  let outputs ← encodeAll TxOut.encode tx.outputs
  return toLeBytes 4 tx.version.toNat ++ (inputLen ++ (inputs ++ (outputLen ++ (outputs ++
    toLeBytes 4 tx.lockTime.toNat))))

def Transaction.encode (tx : Transaction) : Res ε Bytes := tx.encodeWithUnlockingData true

/-- A transaction with no prior spends is the block-reward transaction. -/
def Transaction.isCoinbase (tx : Transaction) : Bool := tx.inputs.isEmpty

def BlockHeader.encode (header : BlockHeader) : Bytes :=
  toLeBytes 4 header.version.toNat ++ header.prevBlockhash.bytes.toList ++
    header.merkleRoot.toList ++ toLeBytes 8 header.time.toNat ++
    toLeBytes 4 header.bits.toNat ++ toLeBytes 4 header.nonce.toNat

variable [Crypto]

def Transaction.signingDigest (tx : Transaction) : Res ε Bytes32 := do
  let bytes ← tx.encodeWithUnlockingData false
  return doubleSha256 bytes

def Txid.fromData (bytes : Bytes) : Txid := ⟨doubleSha256 bytes⟩

def BlockHash.fromData (bytes : Bytes) : BlockHash := ⟨doubleSha256 bytes⟩

def Transaction.txid (tx : Transaction) : Res ε Txid := do
  let bytes ← tx.encode
  return Txid.fromData bytes

def BlockHeader.blockHash (header : BlockHeader) : BlockHash :=
  BlockHash.fromData header.encode

/-- The parent of two merkle nodes. -/
def merkleNode (left right : Bytes32) : Bytes32 := doubleSha256 (left.toList ++ right.toList)

def txidLevel : List Transaction → Res ε (List Bytes32)
  | [] => .ok []
  | tx :: rest => do
    let txid ← tx.txid
    let level ← txidLevel rest
    return txid.bytes :: level

def Block.merkleRoot (block : Block) : Res ε Bytes32 := do
  let level ← txidLevel block.transactions
  if level.isEmpty then return doubleSha256 []
  Res.expect "index out of bounds" (Merkle.reduce merkleNode level.length level).head?

end Encoding

end Wobble
