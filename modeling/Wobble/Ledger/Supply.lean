import Wobble.Ledger.Consensus

namespace Wobble

open Rust

namespace UtxoSet

variable [Crypto]

theorem after_totalValue_le (utxos : UtxoSet) (tx : Transaction) (height : Nat)
    (hv : utxos.Valid tx) :
    (utxos.after tx height).totalValue + utxos.inputTotal tx ≤
      utxos.totalValue + tx.outputTotal := by
  have hrem := HashMap.total_removeAll (fun u : Utxo => u.output.value.toNat) utxos tx.spends
    hv.nodup hv.held
  have hins := HashMap.total_insertAll_le (fun u : Utxo => u.output.value.toNat)
    (utxos.removeAll tx.spends) (tx.created height)
  rw [tx.created_values] at hins
  change _ + utxos.inputTotal tx = utxos.totalValue at hrem
  change (utxos.after tx height).totalValue ≤ _ at hins
  omega

/-- What is not paid out of the inputs is the fee. -/
theorem after_add_fee_le (utxos : UtxoSet) (tx : Transaction) (height : Nat)
    (hv : utxos.Valid tx) (hi : tx.inputs ≠ []) :
    (utxos.after tx height).totalValue + utxos.feeOf tx ≤ utxos.totalValue := by
  have hle := utxos.after_totalValue_le tx height hv
  have hcov := (hv.spends.resolve_left hi).covered
  rw [feeOf]
  omega

theorem afterAll_add_fees_le (height : Nat) (txs : List Transaction) (utxos : UtxoSet)
    (hv : AllValid height utxos txs) (hi : ∀ tx ∈ txs, tx.inputs ≠ []) :
    (afterAll height utxos txs).totalValue + feesOf height utxos txs ≤ utxos.totalValue := by
  induction txs generalizing utxos with
  | nil => exact Nat.le_refl _
  | cons tx rest ih =>
    obtain ⟨hvt, -, hvr⟩ := hv
    obtain ⟨hit, hir⟩ := List.forall_mem_cons.mp hi
    have hstep := utxos.after_add_fee_le tx height hvt hit
    have hrest := ih (utxos.after tx height) hvr hir
    change (afterAll height (utxos.after tx height) rest).totalValue +
      (utxos.feeOf tx + feesOf height (utxos.after tx height) rest) ≤ _
    omega

end UtxoSet

open UtxoSet

section Blocks

variable [Crypto]

/-- A block adds at most the subsidy to what is held. -/
theorem applyBlock_totalValue_le (utxos utxos' : UtxoSet) (block : Block) (height : Nat)
    (h : applyBlock utxos block height = .ok utxos') :
    utxos'.totalValue ≤ utxos.totalValue + blockSubsidy.toNat := by
  obtain ⟨hv, hb⟩ := (applyBlock_eq_ok _ _ _ _).mp h
  obtain ⟨-, coinbase, rest, hok⟩ := (validateBlock_eq_ok block).mp hv
  obtain ⟨coinbase', rest', htxs, happ⟩ := (applyBody_eq_ok _ _ _ _).mp hb
  obtain ⟨rfl, rfl⟩ := List.cons.inj (hok.transactions.symm.trans htxs)
  have hrest := afterAll_add_fees_le height rest utxos happ.valid hok.others
  have hcb := (afterAll height utxos rest).after_totalValue_le coinbase height happ.coinbaseValid
  have hreward := happ.reward
  rw [happ.result]
  omega

end Blocks

namespace UtxoSet

theorem insertOutputs_ne_err {ε : Type} (txid : Txid) (height : Nat) (isCoinbase : Bool)
    (vout : Nat) (outputs : List TxOut) (utxos : UtxoSet) (e : ε) :
    insertOutputs txid height isCoinbase vout outputs utxos ≠ .error (.err e) := by
  induction outputs generalizing vout utxos with
  | nil =>
    intro h
    cases h
  | cons output rest ih =>
    intro h
    rw [insertOutputs] at h
    split_ifs at h
    · exact ih _ _ h
    · cases h

variable [Crypto]

/-- The running total never exceeds what the set holds. -/
theorem resolveInputs_ne_overflow (utxos : UtxoSet) (digest : Bytes32) (inputs : List TxIn)
    (seen : List OutPoint) (total : UInt64) (hb : utxos.totalValue < 2^64) (hn : seen.Nodup)
    (hs : ∀ o ∈ seen, ∃ u, utxos.get o = some u)
    (ht : total.toNat = (seen.map utxos.valueAt).sum) :
    utxos.resolveInputs digest inputs seen total ≠ .error (.err .inputValueOverflow) := by
  induction inputs generalizing seen total with
  | nil =>
    intro h
    cases h
  | cons input rest ih =>
    intro h
    simp only [resolveInputs] at h
    by_cases hseen : input.previousOutput ∈ seen
    · rw [if_pos hseen] at h
      cases h
    rw [if_neg hseen] at h
    simp only [Res.bind_eq_error, Res.okOr_eq_error, Res.okOr_eq_ok] at h
    rcases h with ⟨-, h⟩ | ⟨utxo, hu, ⟨-, h⟩ | ⟨key, -, ⟨-, h⟩ | ⟨sig, -, h⟩⟩⟩
    · cases h
    · cases h
    · cases h
    split_ifs at h with hsig
    · cases h
    have hn' : (input.previousOutput :: seen).Nodup := List.nodup_cons.mpr ⟨hseen, hn⟩
    have hs' : ∀ o ∈ input.previousOutput :: seen, ∃ u, utxos.get o = some u :=
      List.forall_mem_cons.mpr ⟨⟨utxo, hu⟩, hs⟩
    have hval : utxos.valueAt input.previousOutput = utxo.output.value.toNat := by
      simp [valueAt, hu]
    have hle := HashMap.sum_distinct_le_total (fun u : Utxo => u.output.value.toNat) utxos _
      hn' hs'
    change ((input.previousOutput :: seen).map utxos.valueAt).sum ≤ utxos.totalValue at hle
    rw [List.map_cons, List.sum_cons, hval, ← ht] at hle
    have hlt : total.toNat + utxo.output.value.toNat < 2^64 := by omega
    have hadd : checkedAdd total utxo.output.value = some (total + utxo.output.value) := by
      rw [checkedAdd_eq_some, toNat_add_of_lt _ _ hlt]
    rw [hadd] at h
    refine ih (input.previousOutput :: seen) (total + utxo.output.value) hn' hs' ?_ h
    rw [toNat_add_of_lt _ _ hlt, List.map_cons, List.sum_cons, hval, ht, Nat.add_comm]

theorem validateTransactionInner_ne_overflow (utxos : UtxoSet) (tx : Transaction)
    (hb : utxos.totalValue < 2^64) :
    utxos.validateTransactionInner tx ≠ .error (.err .inputValueOverflow) := by
  intro h
  rw [validateTransactionInner] at h
  by_cases ho : tx.outputs.isEmpty = true
  · rw [if_pos ho] at h
    cases h
  rw [if_neg ho] at h
  rcases (Res.bind_eq_error _ _ _).mp h with h | ⟨out, -, h⟩
  · cases sumValues_eq_error _ _ _ h
  by_cases hc : tx.isCoinbase = true
  · rw [if_pos hc] at h
    cases h
  rw [if_neg hc, Transaction.signingDigest_eq] at h
  rcases (Res.bind_eq_error _ _ _).mp h with h | ⟨digest, -, h⟩
  · split_ifs at h
    cases h
  rcases (Res.bind_eq_error _ _ _).mp h with h | ⟨value, -, h⟩
  · exact utxos.resolveInputs_ne_overflow digest tx.inputs [] 0 hb List.nodup_nil (by simp)
      (by simp) h
  split_ifs at h
  cases h

theorem transactionFee_ne_overflow (utxos : UtxoSet) (tx : Transaction)
    (hb : utxos.totalValue < 2^64) :
    utxos.transactionFee tx ≠ .error (.err .inputValueOverflow) := by
  intro h
  rcases (Res.bind_eq_error _ _ _).mp h with h | ⟨r, -, h⟩
  · exact utxos.validateTransactionInner_ne_overflow tx hb h
  · cases h

theorem applyTransaction_ne_overflow (utxos : UtxoSet) (tx : Transaction) (height : Nat)
    (hb : utxos.totalValue < 2^64) :
    utxos.applyTransaction tx height ≠ .error (.err .inputValueOverflow) := by
  intro h
  rcases (Res.bind_eq_error _ _ _).mp h with h | ⟨r, -, h⟩
  · exact utxos.validateTransactionInner_ne_overflow tx hb h
  rcases (Res.bind_eq_error _ _ _).mp h with h | ⟨txid, -, h⟩
  · rw [Transaction.txid_eq] at h
    split_ifs at h
    cases h
  · exact insertOutputs_ne_err _ _ _ _ _ _ _ h

end UtxoSet

section BlockSums

variable [Crypto]

/-- The fees collected so far and what is still held stay below the bound together. -/
theorem applyTransactions_ne_overflow (height : Nat) (txs : List Transaction) (utxos : UtxoSet)
    (fees : UInt64) (hi : ∀ tx ∈ txs, tx.inputs ≠ [])
    (hb : fees.toNat + utxos.totalValue < 2^64) :
    applyTransactions height txs utxos fees ≠
      .error (.err (.transaction .inputValueOverflow)) := by
  induction txs generalizing utxos fees with
  | nil =>
    intro h
    cases h
  | cons tx rest ih =>
    intro h
    obtain ⟨hit, hir⟩ := List.forall_mem_cons.mp hi
    have hlt : utxos.totalValue < 2^64 := by omega
    rw [applyTransactions] at h
    rcases (Res.bind_eq_error _ _ _).mp h with h | ⟨fee, hfee, h⟩
    · obtain ⟨e, h, he⟩ := (Res.mapErr_eq_err _ _ _).mp h
      obtain rfl := ConsensusError.transaction.inj he
      exact utxos.transactionFee_ne_overflow tx hlt h
    rw [Res.mapErr_eq_ok, transactionFee_eq_ok] at hfee
    obtain ⟨hv, hfee⟩ := hfee
    have hstep := utxos.after_add_fee_le tx height hv hit
    have hsum : fees.toNat + fee.toNat < 2^64 := by omega
    have hadd : checkedAdd fees fee = some (fees + fee) := by
      rw [checkedAdd_eq_some, toNat_add_of_lt _ _ hsum]
    rw [hadd, Res.okOr_some, Res.ok_bind] at h
    rcases (Res.bind_eq_error _ _ _).mp h with h | ⟨candidate, happ, h⟩
    · obtain ⟨e, h, he⟩ := (Res.mapErr_eq_err _ _ _).mp h
      obtain rfl := ConsensusError.transaction.inj he
      exact utxos.applyTransaction_ne_overflow tx height hlt h
    rw [Res.mapErr_eq_ok, applyTransaction_eq_ok] at happ
    obtain ⟨-, -, rfl⟩ := happ
    refine ih (utxos.after tx height) (fees + fee) hir ?_ h
    rw [toNat_add_of_lt _ _ hsum]
    omega

theorem validateBlock_ne_transaction (block : Block) (e : ValidationError) :
    validateBlock block ≠ .error (.err (.transaction e)) := by
  intro h
  rcases (Res.bind_eq_error _ _ _).mp h with h | ⟨-, -, h⟩
  · rcases (Res.bind_eq_error _ _ _).mp h with h | ⟨target, -, h⟩
    · cases ((Res.okOr_eq_error _ _ _).mp h).2
    · split_ifs at h
      cases h
  · rw [validateBody] at h
    split at h
    · cases h
    · split_ifs at h with hc ho
      · cases h
      · cases h
      · rcases (Res.bind_eq_error _ _ _).mp h with h | ⟨root, -, h⟩
        · rw [Block.merkleRoot_eq] at h
          split_ifs at h
          cases h
        · split_ifs at h
          cases h

/-- With room for one more subsidy, no sum of values in `apply_block` overflows. -/
theorem applyBlock_ne_overflow (utxos : UtxoSet) (block : Block) (height : Nat)
    (hb : blockSubsidy.toNat + utxos.totalValue < 2^64) :
    applyBlock utxos block height ≠ .error (.err (.transaction .inputValueOverflow)) := by
  intro h
  rcases (Res.bind_eq_error _ _ _).mp h with h | ⟨u, hv, h⟩
  · exact validateBlock_ne_transaction block _ h
  obtain ⟨-, coinbase, rest, hok⟩ := (validateBlock_eq_ok block).mp hv
  have hlt : utxos.totalValue < 2^64 := by omega
  rw [applyBody, hok.transactions] at h
  rcases (Res.bind_eq_error _ _ _).mp h with h | ⟨⟨candidate, fees⟩, happ, h⟩
  · exact applyTransactions_ne_overflow height rest utxos 0 hok.others (by simpa using hlt) h
  obtain ⟨hvalid, rfl, hfees⟩ := (applyTransactions_eq_ok _ _ _ _ _ _).mp happ
  have hrest := afterAll_add_fees_le height rest utxos hvalid hok.others
  rw [UInt64.toNat_zero, Nat.zero_add] at hfees
  have hsum : blockSubsidy.toNat + fees.toNat < 2^64 := by omega
  have hadd : checkedAdd blockSubsidy fees = some (blockSubsidy + fees) := by
    rw [checkedAdd_eq_some, toNat_add_of_lt _ _ hsum]
  dsimp only at h
  rw [hadd, Res.okOr_some, Res.ok_bind] at h
  rcases (Res.bind_eq_error _ _ _).mp h with h | ⟨actual, -, h⟩
  · obtain ⟨e, h, he⟩ := (Res.mapErr_eq_err _ _ _).mp h
    cases sumValues_eq_error _ _ _ h
    cases he
  split_ifs at h with hreward
  · cases h
  obtain ⟨e, h, he⟩ := (Res.mapErr_eq_err _ _ _).mp h
  obtain rfl := ConsensusError.transaction.inj he
  exact applyTransaction_ne_overflow _ coinbase height (by omega) h

end BlockSums

end Wobble
