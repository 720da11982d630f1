import Wobble.Chain.Tree
import Wobble.Node.MempoolInvariant
import Wobble.Node.Mining

namespace Wobble

open Rust

inductive NodeStateError where
  | chain (e : ChainError)
  | consensus (e : ConsensusError)
  | consensusFee (e : ValidationError)
  | mempool (e : MempoolError)
  | insufficientFunds (requested available : UInt64)
  | missingIndexedBlock (hash : BlockHash)
  | missingParentState (hash : BlockHash)
  deriving DecidableEq

/-- Indexed blocks together with the UTXO view of the active chain. -/
@[ext] structure NodeState where
  chain : ChainIndex
  activeUtxos : UtxoSet
  mempool : Mempool
  blocks : HashMap BlockHash Block
  utxoSnapshots : HashMap BlockHash UtxoSet
  deriving DecidableEq

section Payment

variable [Crypto]

/-- The loop that gathers outputs of the senders until `amount` is covered. -/
def selectInputs (utxos : UtxoSet) (senderKeys : List (Bytes × SigningKey)) (amount : UInt64) :
    List OutPoint → List (OutPoint × SigningKey) → UInt64 →
      List (OutPoint × SigningKey) × UInt64
  | [], selected, total => (selected, total)
  | outpoint :: rest, selected, total =>
    match utxos.get outpoint with
    | none => selectInputs utxos senderKeys amount rest selected total
    | some utxo =>
      match senderKeys.find? fun sender => sender.1 == utxo.output.lockingData with
      | none => selectInputs utxos senderKeys amount rest selected total
      | some (_, signingKey) =>
        let selected := selected ++ [(outpoint, signingKey)]
        let total := saturatingAdd total utxo.output.value
        if amount ≤ total then (selected, total)
        else selectInputs utxos senderKeys amount rest selected total

def buildPaymentTransaction (utxos : UtxoSet) (senderSigningKeys : List SigningKey)
    (changeVerifyingKey recipientVerifyingKey : VerifyingKey) (amount : UInt64)
    (uniqueness : UInt32) : Res NodeStateError Transaction := do
  let senderKeys := senderSigningKeys.map fun key =>
    ((verifyingKeyBytes (Crypto.verifyingKey key)).toList, key)
  let outpoints := utxos.iter.map Prod.fst
  let (selected, total) := selectInputs utxos senderKeys amount outpoints [] 0
  if total < amount then .error (.err (.insufficientFunds amount total)) else do
  let change := total - amount
  let outputs := ⟨amount, (verifyingKeyBytes recipientVerifyingKey).toList⟩ ::
    if 0 < change then [⟨change, (verifyingKeyBytes changeVerifyingKey).toList⟩] else []
  let tx : Transaction := ⟨1, selected.map fun input => ⟨input.1, []⟩, outputs, uniqueness⟩
  let signingDigest ← tx.signingDigest
  return { tx with inputs := selected.map fun input =>
    ⟨input.1, (signMessage input.2 signingDigest.toList).toList⟩ }

end Payment

namespace NodeState

def new : NodeState := ⟨ChainIndex.new, HashMap.new, HashMap.new, HashMap.new, HashMap.new⟩

section Model

variable [Crypto]

/-- The unchecked `sum()` over the outputs locked to `owner`. -/
def balanceForKey [Profile] {ε : Type} (state : NodeState) (owner : VerifyingKey) :
    Res ε UInt64 :=
  let ownerBytes := (verifyingKeyBytes owner).toList
  ((state.activeUtxos.iter.filter fun entry => entry.2.output.lockingData == ownerBytes).map
    fun entry => entry.2.output.value).foldlM addU64 0

def submitTransaction (state : NodeState) (tx : Transaction) :
    NodeState × Res NodeStateError Txid :=
  match (state.mempool.submit state.activeUtxos tx).mapErr NodeStateError.mempool with
  | .ok (mempool, txid) => ({ state with mempool := mempool }, .ok txid)
  | .error e => (state, .error e)

def submitPayment (state : NodeState) (senderSigningKeys : List SigningKey)
    (changeVerifyingKey recipientVerifyingKey : VerifyingKey) (amount : UInt64)
    (uniqueness : UInt32) : NodeState × Res NodeStateError Txid :=
  match buildPaymentTransaction state.activeUtxos senderSigningKeys changeVerifyingKey
    recipientVerifyingKey amount uniqueness with
  | .ok tx => state.submitTransaction tx
  | .error e => (state, .error e)

/-- The view a block is applied to: its parent's, or the empty one for genesis. -/
def parentView (state : NodeState) : Option BlockHash → Res NodeStateError UtxoSet
  | none => .ok HashMap.new
  | some parentHash =>
    Res.okOr (.missingParentState parentHash) (state.utxoSnapshots.get parentHash)

/-- The cached views once the block has one. -/
def ensureSnapshot (state : NodeState) (blockHash : BlockHash) (parent : Option BlockHash)
    (height : Nat) : Res NodeStateError (HashMap BlockHash UtxoSet) :=
  if state.utxoSnapshots.containsKey blockHash then .ok state.utxoSnapshots else do
  let utxos ← state.parentView parent
  let block ← Res.okOr (.missingIndexedBlock blockHash) (state.blocks.get blockHash)
  let utxos ← (applyBlock utxos block height).mapErr .consensus
  return state.utxoSnapshots.insert blockHash utxos

/-- The end of `accept_block`: the views move to a block that has become the tip. -/
def adoptTip (state : NodeState) (blockHash : BlockHash) : NodeState × Res NodeStateError Unit :=
  if state.chain.bestTip = some blockHash then
    match Res.okOr (.missingParentState blockHash) (state.utxoSnapshots.get blockHash) with
    | .error e => (state, .error e)
    | .ok utxos =>
      let state := { state with activeUtxos := utxos }
      match state.mempool.pruneInvalid state.activeUtxos with
      | .error e => (state, .error e)
      | .ok mempool => ({ state with mempool := mempool }, .ok ())
  else (state, .ok ())

/-- The part of `accept_block` after the block has been indexed and stored. -/
def settle (state : NodeState) (entry : ChainIndexEntry) : NodeState × Res NodeStateError Unit :=
  match state.ensureSnapshot entry.blockHash entry.parent entry.height with
  | .error e => (state, .error e)
  | .ok snapshots => { state with utxoSnapshots := snapshots }.adoptTip entry.blockHash

/-- The state after the call, whether or not it fails, and what the call returns. -/
def acceptBlock (state : NodeState) (block : Block) : NodeState × Res NodeStateError Unit :=
  match state.chain.insertBlock block with
  | (chain, .error e) =>
    ({ state with chain := chain }, Res.mapErr NodeStateError.chain (.error e))
  | (chain, .ok entry) =>
    settle { state with
      chain := chain
      blocks := state.blocks.orInsert entry.blockHash block } entry

/-- The loop of `from_persisted`. -/
def acceptAll : NodeState → List Block → Res NodeStateError NodeState
  | state, [] => .ok state
  | state, block :: rest =>
    match state.acceptBlock block with
    | (state, .ok ()) => acceptAll state rest
    | (_, .error e) => .error e

def fromPersisted (blocks : List Block) (mempool : Mempool) : Res NodeStateError NodeState := do
  let state ← acceptAll new blocks
  let mempool ← mempool.pruneInvalid state.activeUtxos
  return { state with mempool := mempool }

/-- The `try_fold` that adds up the fees of the selected transactions. -/
def sumFees (utxos : UtxoSet) : UInt64 → List Transaction → Res ValidationError UInt64
  | total, [] => .ok total
  | total, tx :: rest => do
    let fee ← utxos.transactionFee tx
    let total ← Res.okOr .inputValueOverflow (checkedAdd total fee)
    sumFees utxos total rest

/-- What `mine_block` knows before it looks for a nonce: the transactions it includes, their
ids, and the reward. -/
def selectPending [Profile] (state : NodeState) (subsidy : UInt64) (maxTransactions : Nat) :
    Res NodeStateError (List Transaction × List Txid × UInt64) := do
  let (pending, includedIds) ← state.mempool.collectValid state.activeUtxos maxTransactions
  let totalFees ← (sumFees state.activeUtxos 0 pending).mapErr .consensusFee
  let reward ← addU64 subsidy totalFees
  return (pending, includedIds, reward)

/-- `none` when the nonce search does not end. -/
def mineBlock [Profile] (state : NodeState) (subsidy : UInt64)
    (minerVerifyingKey : VerifyingKey) (uniqueness bits : UInt32) (maxTransactions : Nat) :
    Option (NodeState × Res NodeStateError BlockHash) :=
  let prev := state.chain.bestTip.getD BlockHash.default
  match state.selectPending subsidy maxTransactions with
  | .error e => some (state, .error e)
  | .ok (pending, includedIds, reward) =>
    match Mining.mineBlock prev reward minerVerifyingKey uniqueness bits pending with
    | none => none
    | some (.error e) => some (state, .error e)
    | some (.ok block) =>
      match state.acceptBlock block with
      | (state, .error e) => some (state, .error e)
      | (state, .ok ()) =>
        some ({ state with mempool := state.mempool.removeMany includedIds },
          .ok block.header.blockHash)

end Model

end NodeState

end Wobble
