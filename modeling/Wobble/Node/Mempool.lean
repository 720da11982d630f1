import Wobble.Ledger.UtxoSet

namespace Wobble

open Rust

def maxMempoolTransactions : Nat := 1024

inductive MempoolError where
  | duplicateTransaction (txid : Txid)
  | conflictingInput (outpoint : OutPoint)
  | replacementFeeTooLow (existing replacement : UInt64)
  | capacityFeeTooLow (lowest candidate : UInt64)
  | invalidTransaction (e : ValidationError)
  deriving DecidableEq

/-- Pending transactions keyed by transaction id. -/
abbrev Mempool := HashMap Txid Transaction

def transactionsConflict (left right : Transaction) : Bool :=
  left.inputs.any fun leftInput =>
    right.inputs.any fun rightInput => rightInput.previousOutput == leftInput.previousOutput

def sameInputSet (left right : Transaction) : Bool :=
  left.inputs.length == right.inputs.length &&
    left.inputs.all fun leftInput =>
      right.inputs.any fun rightInput => rightInput.previousOutput == leftInput.previousOutput

def firstConflictingInput (tx : Transaction) (pending : Mempool) : Option OutPoint :=
  (tx.inputs.find? fun input => pending.iter.any fun other =>
    other.2.inputs.any fun spent => spent.previousOutput == input.previousOutput).map
      TxIn.previousOutput

namespace Mempool

def conflictingTransactions (pool : Mempool) (tx : Transaction) : List Txid :=
  (pool.iter.filter fun entry => transactionsConflict tx entry.2).map Prod.fst

def conflictsAreReplaceable (pool : Mempool) (tx : Transaction) :
    List Txid → Res MempoolError Bool
  | [] => .ok true
  | txid :: rest => do
    let pending ← Res.expect "conflicting transaction must exist" (pool.get txid)
    if sameInputSet tx pending then pool.conflictsAreReplaceable tx rest else .ok false

def removeMany (pool : Mempool) (txids : List Txid) : Mempool := pool.removeAll txids

variable [Crypto]

def pendingFee (utxos : UtxoSet) (tx : Transaction) : Res MempoolError UInt64 :=
  Res.expectOk "pending transactions should remain valid against active UTXOs"
    (utxos.transactionFee tx)

/-- The part of `submit` for a transaction that spends what pending ones spend. -/
def checkReplacement (pool : Mempool) (utxos : UtxoSet) (tx : Transaction)
    (replacementFee : UInt64) (conflictingIds : List Txid) : Res MempoolError Unit :=
  if conflictingIds.isEmpty then .ok () else do
  let replaceable ← pool.conflictsAreReplaceable tx conflictingIds
  if !replaceable then do
    let outpoint ← Res.expect "conflicting transaction set should expose an input"
      (firstConflictingInput tx pool)
    .error (.err (.conflictingInput outpoint))
  else do
    let fees ← Res.mapAll (fun existingTxid => do
      let pending ← Res.expect "conflicting transaction must exist" (pool.get existingTxid)
      pendingFee utxos pending) conflictingIds
    let existingFee ← Res.expect
      "replaceable conflicts should include at least one transaction" fees.max?
    if replacementFee ≤ existingFee then
      .error (.err (.replacementFeeTooLow existingFee replacementFee))
    else .ok ()

def capacityEvictionCandidate (pool : Mempool) (utxos : UtxoSet) (conflictingIds : List Txid) :
    Res MempoolError (Option (Txid × UInt64)) :=
  let survivorCount := pool.len - conflictingIds.length
  if survivorCount < maxMempoolTransactions then .ok none else do
  let fees ← Res.mapAll (fun entry : Txid × Transaction => do
      let fee ← pendingFee utxos entry.2
      .ok (entry.1, fee))
    (pool.iter.filter fun entry => !conflictingIds.contains entry.1)
  .ok (fees.argmin fun candidate => toLex (candidate.2.toNat, candidate.1))

/-- The pool after an admission, and the id it was admitted under. The pool changes only in a
call that returns `Ok`. -/
def submit (pool : Mempool) (utxos : UtxoSet) (tx : Transaction) :
    Res MempoolError (Mempool × Txid) := do
  let txid ← tx.txid
  if pool.containsKey txid then .error (.err (.duplicateTransaction txid)) else do
  let replacementFee ← (utxos.transactionFee tx).mapErr .invalidTransaction
  let conflictingIds := pool.conflictingTransactions tx
  pool.checkReplacement utxos tx replacementFee conflictingIds
  let displaced ← pool.capacityEvictionCandidate utxos conflictingIds
  let pool ← match displaced with
    | none => .ok pool
    | some (evictedTxid, evictedFee) =>
      if replacementFee ≤ evictedFee then
        .error (.err (.capacityFeeTooLow evictedFee replacementFee))
      else .ok (pool.remove evictedTxid)
  .ok ((pool.removeMany conflictingIds).insert txid tx, txid)

/-- The selecting loop of `collect_valid`, with room for `room` more. -/
def collectFrom {ε : Type} : List (Txid × Transaction) → UtxoSet → Nat →
    Res ε (List (Txid × Transaction))
  | [], _, _ => .ok []
  | entry :: rest, candidate, room =>
    if room = 0 then .ok [] else
    match candidate.applyTransaction entry.2 0 with
    | .ok candidate => do
      let selected ← collectFrom rest candidate (room - 1)
      .ok (entry :: selected)
    | .error (.err _) => collectFrom rest candidate room
    | .error (.panic m) => .error (.panic m)

/-- Entries in ascending order of the id's text, which is the order `iter` has here. -/
def collectValid {ε : Type} (pool : Mempool) (utxos : UtxoSet) (maxCount : Nat) :
    Res ε (List Transaction × List Txid) := do
  let selected ← collectFrom pool.iter utxos maxCount
  .ok (selected.map Prod.snd, selected.map Prod.fst)

def pruneInvalid {ε : Type} (pool : Mempool) (utxos : UtxoSet) : Res ε Mempool :=
  pool.retain fun _ tx => Res.isOk (utxos.validateTransaction tx)

end Mempool

end Wobble
