import Wobble.Node.Invariant
import Wobble.Store.Tables

namespace Wobble

open Rust

/-- One row of the transaction index before it is written out. -/
structure IndexedTransaction where
  txid : Txid
  transaction : Transaction
  blockHash : Option BlockHash
  blockHeight : Option Nat
  positionInBlock : Option UInt32
  status : IndexedTransactionStatus
  firstSeenAt : Option Text
  lastUpdatedAt : Option Text
  deriving DecidableEq

structure TransactionKeyEdge where
  txid : Txid
  keyRole : TransactionKeyRole
  keyData : Bytes
  value : Option UInt64
  vout : Option UInt32
  deriving DecidableEq

section Model

variable [Crypto] {ε : Type}

/-- The common body of the functions that list the edges of one transaction, over the way
they look up the outputs it spends. -/
def keyEdges (resolve : OutPoint → Option TxOut) (transaction : Transaction) :
    Res ε (List TransactionKeyEdge) := do
  let txid ← transaction.txid
  let inputs := transaction.inputs.filterMap fun input =>
    (resolve input.previousOutput).map fun previousOutput =>
      ⟨txid, .input, previousOutput.lockingData, some previousOutput.value,
        some input.previousOutput.vout⟩
  let outputs := transaction.outputs.mapIdx fun vout output =>
    ⟨txid, .output, output.lockingData, some output.value, some (UInt32.ofNat vout)⟩
  return inputs ++ outputs

/-- The edges that `append_transaction_key_edges` appends. -/
def appendTransactionKeyEdges (transaction : Transaction)
    (knownOutputs : HashMap OutPoint TxOut) : Res ε (List TransactionKeyEdge) :=
  keyEdges knownOutputs.get transaction

def rememberOutputs (transaction : Transaction) (knownOutputs : HashMap OutPoint TxOut) :
    Res ε (HashMap OutPoint TxOut) := do
  let txid ← transaction.txid
  return knownOutputs.insertAll
    (transaction.outputs.mapIdx fun vout output => (⟨txid, UInt32.ofNat vout⟩, output))

/-- The local variables of `build_transaction_index`. -/
structure IndexBuild where
  transactions : List IndexedTransaction
  edges : List TransactionKeyEdge
  seenTxids : HashMap Txid Unit
  knownOutputs : HashMap OutPoint TxOut

namespace IndexBuild

def new : IndexBuild := ⟨[], [], HashMap.new, HashMap.new⟩

/-- The common body of its two loops: a txid seen before is skipped. -/
def index (build : IndexBuild) (indexed : IndexedTransaction) : Res ε IndexBuild :=
  if build.seenTxids.containsKey indexed.txid then .ok build else do
  let edges ← appendTransactionKeyEdges indexed.transaction build.knownOutputs
  let knownOutputs ← rememberOutputs indexed.transaction build.knownOutputs
  return ⟨build.transactions ++ [indexed], build.edges ++ edges,
    build.seenTxids.insert indexed.txid (), knownOutputs⟩

def indexBlock (entry : ChainIndexEntry) : Nat → List Transaction → IndexBuild → Res ε IndexBuild
  | _, [], build => .ok build
  | position, transaction :: rest, build => do
    let txid ← transaction.txid
    let build ← build.index ⟨txid, transaction, some entry.blockHash, some entry.height,
      some (UInt32.ofNat position), .confirmed, none, none⟩
    indexBlock entry (position + 1) rest build

def indexChain (state : NodeState) : List ChainIndexEntry → IndexBuild → Res ε IndexBuild
  | [], build => .ok build
  | entry :: rest, build =>
    match state.blocks.get entry.blockHash with
    | none => indexChain state rest build
    | some block => do
      let build ← indexBlock entry 0 block.transactions build
      indexChain state rest build

def indexMempool : List (Txid × Transaction) → IndexBuild → Res ε IndexBuild
  | [], build => .ok build
  | (txid, transaction) :: rest, build => do
    let build ← build.index ⟨txid, transaction, none, none, none, .mempool, none, none⟩
    indexMempool rest build

end IndexBuild

/-- `none` when the walk along the best chain does not end. -/
def buildTransactionIndex (state : NodeState) :
    Option (Res ε (List IndexedTransaction × List TransactionKeyEdge)) :=
  state.chain.bestChainEntries.map fun entries => do
    let build ← IndexBuild.indexChain state entries IndexBuild.new
    let build ← IndexBuild.indexMempool state.mempool.iter build
    return (build.transactions, build.edges)

end Model

namespace IndexBuild

/-- The rows so far have distinct txids, all of them seen. -/
structure Distinct (build : IndexBuild) : Prop where
  nodup : (build.transactions.map IndexedTransaction.txid).Nodup
  seen : ∀ indexed ∈ build.transactions, build.seenTxids.containsKey indexed.txid = true

theorem new_distinct : new.Distinct where
  nodup := List.nodup_nil
  seen := by simp [new]

variable [Crypto] {ε : Type}

theorem Distinct.index {build : IndexBuild} (hb : build.Distinct) (indexed : IndexedTransaction)
    (hf : indexed.transaction.Fits true) :
    ∃ build', (build.index indexed : Res ε IndexBuild) = .ok build' ∧ build'.Distinct := by
  rw [IndexBuild.index]
  by_cases hseen : build.seenTxids.containsKey indexed.txid = true
  · exact ⟨build, if_pos hseen, hb⟩
  rw [if_neg hseen, appendTransactionKeyEdges, keyEdges, rememberOutputs, Transaction.txid_eq,
    if_pos hf]
  refine ⟨_, rfl, ?_, ?_⟩
  · rw [List.map_append, List.nodup_append]
    refine ⟨hb.nodup, List.nodup_singleton _, ?_⟩
    intro txid ht txid' ht' heq
    obtain ⟨old, hold, rfl⟩ := List.mem_map.mp ht
    obtain rfl : txid' = indexed.txid := by simpa using ht'
    exact hseen (heq ▸ hb.seen old hold)
  · intro other ho
    rw [HashMap.containsKey_eq_true, HashMap.get_insert]
    by_cases heq : other.txid = indexed.txid
    · exact ⟨(), if_pos heq⟩
    · rcases List.mem_append.mp ho with ho | ho
      · rw [if_neg heq]
        exact (HashMap.containsKey_eq_true _ _).mp (hb.seen other ho)
      · obtain rfl : other = indexed := by simpa using ho
        exact absurd rfl heq

theorem Distinct.indexBlock {build : IndexBuild} (hb : build.Distinct) (entry : ChainIndexEntry)
    (position : Nat) (txs : List Transaction) (hf : ∀ tx ∈ txs, tx.Fits true) :
    ∃ build', (indexBlock entry position txs build : Res ε IndexBuild) = .ok build' ∧
      build'.Distinct := by
  induction txs generalizing build position with
  | nil => exact ⟨build, rfl, hb⟩
  | cons tx rest ih =>
    obtain ⟨hft, hfr⟩ := List.forall_mem_cons.mp hf
    obtain ⟨build₁, heq, hb₁⟩ := hb.index (ε := ε) ⟨tx.id, tx, some entry.blockHash,
      some entry.height, some (UInt32.ofNat position), .confirmed, none, none⟩ hft
    obtain ⟨build₂, heq₂, hb₂⟩ := ih hb₁ (position + 1) hfr
    refine ⟨build₂, ?_, hb₂⟩
    rw [IndexBuild.indexBlock, Transaction.txid_eq, if_pos hft, Res.ok_bind, heq, Res.ok_bind, heq₂]

theorem Distinct.indexChain {build : IndexBuild} (hb : build.Distinct) (state : NodeState)
    (entries : List ChainIndexEntry)
    (hf : ∀ h block, state.blocks.get h = some block → ∀ tx ∈ block.transactions, tx.Fits true) :
    ∃ build', (indexChain state entries build : Res ε IndexBuild) = .ok build' ∧
      build'.Distinct := by
  induction entries generalizing build with
  | nil => exact ⟨build, rfl, hb⟩
  | cons entry rest ih =>
    rw [IndexBuild.indexChain]
    cases hblock : state.blocks.get entry.blockHash with
    | none => exact ih hb
    | some block =>
      obtain ⟨build₁, heq, hb₁⟩ := hb.indexBlock (ε := ε) entry 0 block.transactions
        (hf _ block hblock)
      obtain ⟨build₂, heq₂, hb₂⟩ := ih hb₁
      exact ⟨build₂, by simp only [heq, Res.ok_bind, heq₂], hb₂⟩

theorem Distinct.indexMempool {build : IndexBuild} (hb : build.Distinct)
    (entries : List (Txid × Transaction)) (hf : ∀ entry ∈ entries, entry.2.Fits true) :
    ∃ build', (indexMempool entries build : Res ε IndexBuild) = .ok build' ∧
      build'.Distinct := by
  induction entries generalizing build with
  | nil => exact ⟨build, rfl, hb⟩
  | cons entry rest ih =>
    obtain ⟨txid, tx⟩ := entry
    obtain ⟨hft, hfr⟩ := List.forall_mem_cons.mp hf
    obtain ⟨build₁, heq, hb₁⟩ := hb.index (ε := ε)
      ⟨txid, tx, none, none, none, .mempool, none, none⟩ hft
    obtain ⟨build₂, heq₂, hb₂⟩ := ih hb₁ hfr
    refine ⟨build₂, ?_, hb₂⟩
    rw [IndexBuild.indexMempool, heq, Res.ok_bind, heq₂]

end IndexBuild

/-- In every state the node can be in, the index is built and its rows have distinct txids. -/
theorem NodeState.Sound.buildTransactionIndex_ok [Crypto] {ε : Type} {s : NodeState}
    (hs : s.Sound) :
    ∃ transactions edges,
      (buildTransactionIndex s : Option (Res ε _)) = some (.ok (transactions, edges)) ∧
      (transactions.map IndexedTransaction.txid).Nodup := by
  obtain ⟨log, hi⟩ := hs.index
  obtain ⟨entries, hentries, -⟩ := hi.bestChainEntries_eq
  have hblocks : ∀ h block, s.blocks.get h = some block →
      ∀ tx ∈ block.transactions, tx.Fits true := by
    intro h block hb tx ht
    obtain ⟨e, he⟩ := (hs.stored h).mp ⟨block, hb⟩
    obtain ⟨-, coinbase, rest, hok⟩ :=
      (validateBlock_eq_ok block).mp (hs.entryOf h block e hb he).1
    exact hok.fits tx ht
  have hpool : ∀ entry ∈ s.mempool.iter, entry.2.Fits true := fun entry he =>
    (hs.pool.fits _ _ ((HashMap.mem_iter _ _ _).mp he)).1
  obtain ⟨build₁, heq₁, hb₁⟩ := IndexBuild.new_distinct.indexChain (ε := ε) s entries hblocks
  obtain ⟨build₂, heq₂, hb₂⟩ := hb₁.indexMempool (ε := ε) s.mempool.iter hpool
  refine ⟨build₂.transactions, build₂.edges, ?_, hb₂.nodup⟩
  rw [buildTransactionIndex, hentries, Option.map_some, heq₁, Res.ok_bind, heq₂]
  rfl

end Wobble
