import Wobble.Ledger.UtxoSet

namespace Wobble

open Rust Codec

def blockSubsidy : UInt64 := 50

/-- A 256-bit threshold, big-endian. -/
structure PowTarget where
  bytes : Bytes32
  deriving DecidableEq

namespace PowTarget

/-- 32 zero bytes with `src` copied in at `offset`. -/
def place (offset : Nat) (src : Bytes) (h : offset + src.length ≤ 32) : Bytes32 :=
  ⟨List.replicate offset 0 ++ src ++ List.replicate (32 - offset - src.length) 0, by
    simp only [List.length_append, List.length_replicate]
    omega⟩

def mantissaBytes (mantissa : UInt32) : Bytes :=
  [((mantissa >>> 16) &&& 0xff).toUInt8, ((mantissa >>> 8) &&& 0xff).toUInt8,
    (mantissa &&& 0xff).toUInt8]

def fromCompact (bits : UInt32) : Option PowTarget :=
  let exponent := (bits >>> 24).toNat
  let mantissa := bits &&& 0x007fffff
  let isNegative := (bits &&& 0x00800000) != 0
  if isNegative || mantissa == 0 then none
  else if exponent ≤ 3 then
    let value := mantissa >>> UInt32.ofNat (8 * (3 - exponent))
    some ⟨place 28 (toLeBytes 4 value.toNat).reverse (by simp)⟩
  else if 32 < exponent then none
  else
    let offset := 32 - exponent
    if h : offset + 3 > 32 then none
    else some ⟨place offset (mantissaBytes mantissa) (by simp [mantissaBytes]; omega)⟩

def isMetBy (target : PowTarget) (hash : BlockHash) : Bool :=
  order hash.bytes.toList ≤ order target.bytes.toList

def u128Max : Nat := 2^128 - 1

def work (target : PowTarget) : Nat :=
  let leading := ofBeBytes (target.bytes.toList.take 16)
  let trailing := ofBeBytes (target.bytes.toList.drop 16)
  let denominator := if leading = 0 then 1 else min (leading + 1) u128Max
  let baseWork := u128Max / denominator
  if leading = 0 ∧ trailing ≠ u128Max then baseWork - trailing / 2 else baseWork

end PowTarget

inductive ConsensusError where
  | emptyBlock
  | badMerkleRoot
  | firstTransactionNotCoinbase
  | multipleCoinbaseTransactions
  | coinbaseRewardTooLarge (allowed actual : UInt64)
  | invalidPowTarget
  | insufficientProofOfWork
  | transaction (e : ValidationError)
  deriving DecidableEq

section Model

variable [Crypto]

def validateHeaderPow (block : Block) : Res ConsensusError Unit := do
  let target ← Res.okOr .invalidPowTarget (PowTarget.fromCompact block.header.bits)
  if !target.isMetBy block.header.blockHash then .error (.err .insufficientProofOfWork)
  else .ok ()

/-- The checks of `validate_block` after the proof of work. -/
def validateBody (block : Block) : Res ConsensusError Unit :=
  match block.transactions with
  | [] => .error (.err .emptyBlock)
  | first :: rest =>
    if !first.isCoinbase then .error (.err .firstTransactionNotCoinbase)
    else if rest.any Transaction.isCoinbase then .error (.err .multipleCoinbaseTransactions)
    else do
    let merkleRoot ← block.merkleRoot
    if block.header.merkleRoot ≠ merkleRoot then .error (.err .badMerkleRoot) else .ok ()

def validateBlock (block : Block) : Res ConsensusError Unit := do
  validateHeaderPow block
  validateBody block

def sumTransactionOutputs (tx : Transaction) : Res ValidationError UInt64 :=
  sumValues 0 tx.outputs

/-- The loop of `apply_block` over the transactions after the coinbase. -/
def applyTransactions (height : Nat) :
    List Transaction → UtxoSet → UInt64 → Res ConsensusError (UtxoSet × UInt64)
  | [], candidate, totalFees => .ok (candidate, totalFees)
  | tx :: rest, candidate, totalFees => do
    let fee ← (candidate.transactionFee tx).mapErr .transaction
    let totalFees ← Res.okOr (.transaction .inputValueOverflow) (checkedAdd totalFees fee)
    let candidate ← (candidate.applyTransaction tx height).mapErr .transaction
    applyTransactions height rest candidate totalFees

/-- `apply_block` after its call of `validate_block`. The set passed in is replaced only at
the very end. -/
def applyBody (utxos : UtxoSet) (block : Block) (height : Nat) : Res ConsensusError UtxoSet :=
  match block.transactions with
  | [] => .error (.panic "range start index 1 out of range for slice of length 0")
  | coinbase :: rest => do
    let (candidate, totalFees) ← applyTransactions height rest utxos 0
    let allowedReward ← Res.okOr (.transaction .inputValueOverflow)
      (checkedAdd blockSubsidy totalFees)
    let actualReward ← (sumTransactionOutputs coinbase).mapErr .transaction
    if allowedReward < actualReward then
      .error (.err (.coinbaseRewardTooLarge allowedReward actualReward))
    else (candidate.applyTransaction coinbase height).mapErr .transaction

def applyBlock (utxos : UtxoSet) (block : Block) (height : Nat) : Res ConsensusError UtxoSet := do
  validateBlock block
  applyBody utxos block height

end Model

section Validation

variable [Crypto]

/-- The header hash meets the target that `bits` encodes. -/
def Block.PowMet (block : Block) : Prop :=
  ∃ target, PowTarget.fromCompact block.header.bits = some target ∧
    target.isMetBy block.header.blockHash = true

/-- One coinbase, in front, and a header that carries the merkle root of the list. -/
structure Block.BodyOk (block : Block) (coinbase : Transaction) (rest : List Transaction) :
    Prop where
  transactions : block.transactions = coinbase :: rest
  coinbase : coinbase.inputs = []
  others : ∀ tx ∈ rest, tx.inputs ≠ []
  fits : ∀ tx ∈ block.transactions, tx.Fits true
  root : block.header.merkleRoot = merkleRootOf block.transactions

theorem validateHeaderPow_eq_ok (block : Block) :
    validateHeaderPow block = .ok () ↔ block.PowMet := by
  simp only [validateHeaderPow, Res.bind_eq_ok, Res.okOr_eq_ok, Block.PowMet]
  refine exists_congr fun target => and_congr_right fun _ => ?_
  cases target.isMetBy block.header.blockHash <;> simp

theorem validateBody_eq_ok (block : Block) :
    validateBody block = .ok () ↔ ∃ coinbase rest, block.BodyOk coinbase rest := by
  unfold validateBody
  cases ht : block.transactions with
  | nil =>
    simp only [reduceCtorEq, false_iff, not_exists]
    intro c r h
    have := h.transactions
    rw [ht] at this
    cases this
  | cons first rest =>
    simp only [Block.merkleRoot_eq]
    constructor
    · intro h
      split_ifs at h with h1 h2 h3
      · have hc : first.inputs = [] := first.isCoinbase_iff.mp (by simpa using h1)
        obtain ⟨root, hr, h⟩ := (Res.bind_eq_ok _ _ _).mp h
        obtain rfl := Except.ok.inj hr
        split_ifs at h with h4
        refine ⟨first, rest, ht, hc, fun tx htx hi => h2 ?_, h3, by simpa using h4⟩
        exact List.any_eq_true.mpr ⟨tx, htx, tx.isCoinbase_iff.mpr hi⟩
      · simp at h
    · rintro ⟨c, r, ⟨htr, hc, ho, hf, hr⟩⟩
      obtain ⟨rfl, rfl⟩ := List.cons.inj (ht.symm.trans htr)
      have h1 : first.isCoinbase = true := first.isCoinbase_iff.mpr hc
      have h2 : rest.any Transaction.isCoinbase = false := by
        rw [List.any_eq_false]
        exact fun tx htx h => ho tx htx (tx.isCoinbase_iff.mp h)
      simp [h1, h2, if_pos hf, hr]

theorem validateBlock_eq_ok (block : Block) :
    validateBlock block = .ok () ↔
      block.PowMet ∧ ∃ coinbase rest, block.BodyOk coinbase rest := by
  rw [validateBlock, Res.then_eq_ok, ← validateBody_eq_ok, ← validateHeaderPow_eq_ok]

end Validation

section Application

variable [Crypto]

namespace UtxoSet

/-- The set after a list of transactions, applied in order. -/
def afterAll (height : Nat) (utxos : UtxoSet) (txs : List Transaction) : UtxoSet :=
  txs.foldl (fun utxos tx => utxos.after tx height) utxos

/-- Each transaction is valid where it is applied. -/
def AllValid (height : Nat) : UtxoSet → List Transaction → Prop
  | _, [] => True
  | utxos, tx :: rest =>
    utxos.Valid tx ∧ tx.Fits true ∧ AllValid height (utxos.after tx height) rest

/-- The fees of a list of transactions, each on the set it is applied to. -/
def feesOf (height : Nat) : UtxoSet → List Transaction → Nat
  | _, [] => 0
  | utxos, tx :: rest => utxos.feeOf tx + feesOf height (utxos.after tx height) rest

end UtxoSet

open UtxoSet

theorem applyTransactions_eq_ok (height : Nat) (txs : List Transaction) (utxos utxos' : UtxoSet)
    (fees fees' : UInt64) :
    applyTransactions height txs utxos fees = .ok (utxos', fees') ↔
      AllValid height utxos txs ∧ utxos' = afterAll height utxos txs ∧
      fees'.toNat = fees.toNat + feesOf height utxos txs := by
  induction txs generalizing utxos fees with
  | nil => simp [applyTransactions, AllValid, afterAll, feesOf, ← UInt64.toNat_inj, eq_comm]
  | cons tx rest ih =>
    simp only [applyTransactions, Res.bind_eq_ok, Res.mapErr_eq_ok, transactionFee_eq_ok,
      Res.okOr_eq_ok, checkedAdd_eq_some, applyTransaction_eq_ok, ih, AllValid, feesOf]
    constructor
    · rintro ⟨fee, ⟨hv, hfee⟩, total, ht, U, ⟨-, hf, rfl⟩, ha, hu, hs⟩
      exact ⟨⟨hv, hf, ha⟩, hu, by omega⟩
    · rintro ⟨⟨hv, hf, ha⟩, hu, hs⟩
      have hlt := fees'.toNat_lt
      have hfee : (UInt64.ofNat (utxos.feeOf tx)).toNat = utxos.feeOf tx :=
        UInt64.toNat_ofNat_of_lt' (by rw [UInt64.size]; omega)
      have hsum : (UInt64.ofNat (fees.toNat + utxos.feeOf tx)).toNat =
          fees.toNat + utxos.feeOf tx :=
        UInt64.toNat_ofNat_of_lt' (by rw [UInt64.size]; omega)
      exact ⟨_, ⟨hv, hfee⟩, _, by rw [hsum, hfee], _, ⟨hv, hf, rfl⟩, ha, hu, by omega⟩

/-- What an accepted block does to the set: the transactions after the coinbase in order,
then the coinbase, which pays out at most the subsidy and their fees. -/
structure BlockApplied (utxos : UtxoSet) (height : Nat) (coinbase : Transaction)
    (rest : List Transaction) (utxos' : UtxoSet) : Prop where
  valid : AllValid height utxos rest
  bounded : blockSubsidy.toNat + feesOf height utxos rest < 2^64
  reward : coinbase.outputTotal ≤ blockSubsidy.toNat + feesOf height utxos rest
  coinbaseValid : (afterAll height utxos rest).Valid coinbase
  coinbaseFits : coinbase.Fits true
  result : utxos' = (afterAll height utxos rest).after coinbase height

theorem applyBody_eq_ok (utxos utxos' : UtxoSet) (block : Block) (height : Nat) :
    applyBody utxos block height = .ok utxos' ↔
      ∃ coinbase rest, block.transactions = coinbase :: rest ∧
        BlockApplied utxos height coinbase rest utxos' := by
  unfold applyBody
  cases ht : block.transactions with
  | nil => simp
  | cons c rest =>
    simp only [Res.bind_eq_ok, Prod.exists, applyTransactions_eq_ok, Res.okOr_eq_ok,
      checkedAdd_eq_some, Res.mapErr_eq_ok, sumTransactionOutputs, sumValues_eq_ok,
      List.cons.injEq]
    constructor
    · rintro ⟨U, fees, ⟨ha, rfl, hfees⟩, allowed, hall, actual, hact, h⟩
      split_ifs at h with hlt
      rw [Res.mapErr_eq_ok, applyTransaction_eq_ok] at h
      obtain ⟨hv, hf, rfl⟩ := h
      have hle : actual.toNat ≤ allowed.toNat :=
        Nat.le_of_not_lt fun h => hlt (UInt64.lt_iff_toNat_lt.mpr h)
      have hb := allowed.toNat_lt
      simp only [UInt64.toNat_zero, zero_add] at hfees hact
      exact ⟨c, rest, ⟨rfl, rfl⟩, ha, by omega, by
        rw [Transaction.outputTotal, ← hact]; omega, hv, hf, rfl⟩
    · rintro ⟨c', rest', ⟨rfl, rfl⟩, ⟨ha, hb, hr, hv, hf, rfl⟩⟩
      have hfees : (UInt64.ofNat (feesOf height utxos rest)).toNat = feesOf height utxos rest :=
        UInt64.toNat_ofNat_of_lt' (by rw [UInt64.size]; omega)
      have hall := UInt64.toNat_ofNat_of_lt' (n := blockSubsidy.toNat + feesOf height utxos rest)
        (by rw [UInt64.size]; omega)
      have hact := UInt64.toNat_ofNat_of_lt' (n := c.outputTotal) (by rw [UInt64.size]; omega)
      refine ⟨_, _, ⟨ha, rfl, by rw [hfees]; simp⟩, _, by rw [hall, hfees], _,
        by rw [hact]; simp [Transaction.outputTotal], ?_⟩
      rw [if_neg (by rw [UInt64.lt_iff_toNat_lt, hall, hact]; omega), Res.mapErr_eq_ok,
        applyTransaction_eq_ok]
      exact ⟨hv, hf, rfl⟩

theorem applyBlock_eq_ok (utxos utxos' : UtxoSet) (block : Block) (height : Nat) :
    applyBlock utxos block height = .ok utxos' ↔
      validateBlock block = .ok () ∧ applyBody utxos block height = .ok utxos' := by
  rw [applyBlock, Res.then_eq_ok]

end Application

end Wobble
