import Wobble.Node.Runs
import Wobble.Node.Selection

namespace Wobble

open Rust

namespace NodeState

section Cap

variable [Crypto]

/-- The height of a block below the given parent. -/
def heightAbove (s : NodeState) : Option BlockHash → Option Nat
  | none => some 0
  | some p => (s.chain.get p).map fun e => e.height + 1

/-- Each block adds one subsidy at most to its parent's view. -/
theorem Sound.view_totalValue_le {s : NodeState} (hs : s.Sound) (h : BlockHash)
    (e : ChainIndexEntry) (u : UtxoSet) (he : s.chain.get h = some e)
    (hu : s.utxoSnapshots.get h = some u) :
    u.totalValue ≤ blockSubsidy.toNat * (e.height + 1) := by
  refine hs.view_induct (fun n u => u.totalValue ≤ blockSubsidy.toNat * n) ?_ ?_ e.height h e u
    he rfl hu
  · rw [UtxoSet.totalValue_new]
    exact Nat.zero_le _
  · intro h e b v u _ _ hv ha
    have hstep := applyBlock_totalValue_le v u b e.height ha
    rw [Nat.mul_add_one]
    omega

theorem Sound.parentView_totalValue_le {s : NodeState} (hs : s.Sound)
    (parent : Option BlockHash) (height : Nat) (v : UtxoSet)
    (hp : s.parentView parent = .ok v) (hh : s.heightAbove parent = some height) :
    v.totalValue ≤ blockSubsidy.toNat * height := by
  rcases (s.parentView_eq_ok _ _).mp hp with ⟨rfl, rfl⟩ | ⟨p, rfl, hv⟩
  · rw [UtxoSet.totalValue_new]
    exact Nat.zero_le _
  · obtain ⟨e, he, rfl⟩ := Option.map_eq_some_iff.mp hh
    exact hs.view_totalValue_le p e v he hv

variable [Profile]

/-- The outputs locked to a key, as `balance_for_key` filters them. -/
def ownedValues (s : NodeState) (owner : VerifyingKey) : List UInt64 :=
  (s.activeUtxos.iter.filter fun entry =>
    entry.2.output.lockingData == (verifyingKeyBytes owner).toList).map
      fun entry => entry.2.output.value

omit [Profile] in
theorem ownedValues_sum_le (s : NodeState) (owner : VerifyingKey) :
    ((s.ownedValues owner).map UInt64.toNat).sum ≤ s.activeUtxos.totalValue := by
  rw [ownedValues, List.map_map, UtxoSet.totalValue, HashMap.total_eq_iter]
  exact (List.filter_sublist.map _).sum_le_sum fun _ _ => Nat.zero_le _

/-- No sum of values over the active set leaves `u64`. -/
structure ActiveSumsFit (s : NodeState) : Prop where
  fee : ∀ tx, s.activeUtxos.transactionFee tx ≠ .error (.err .inputValueOverflow)
  totalFees : ∀ maxCount pending ids,
    (s.mempool.collectValid s.activeUtxos maxCount : Res NodeStateError _) = .ok (pending, ids) →
      ∃ total, sumFees s.activeUtxos 0 pending = .ok total ∧
        total.toNat = (pending.map s.activeUtxos.feeOf).sum
  balance : ∀ owner, ∃ v, (s.balanceForKey owner : Res NodeStateError UInt64) = .ok v ∧
    v.toNat = ((s.ownedValues owner).map UInt64.toNat).sum

theorem Sound.activeSumsFit {s : NodeState} (hs : s.Sound)
    (hb : s.activeUtxos.totalValue < 2^64) : s.ActiveSumsFit where
  fee tx := s.activeUtxos.transactionFee_ne_overflow tx hb
  totalFees maxCount pending ids hsel :=
    sumFees_collected s.mempool s.activeUtxos hs.pool maxCount pending ids hsel hb
  balance owner := by
    have hle := s.ownedValues_sum_le owner
    obtain ⟨v, hv, hsum⟩ := foldlM_addU64 (ε := NodeStateError) (s.ownedValues owner) 0 (by
      rw [UInt64.toNat_zero]
      omega)
    exact ⟨v, hv, by rw [hsum, UInt64.toNat_zero, Nat.zero_add]⟩

/-- Supply never exceeds one subsidy for each block of the branch, so that the sums over it
stay in `u64` as long as this bound does. -/
theorem supply_capped (s : NodeState) (hr : s.Reachable) :
    (∀ h e u, s.chain.get h = some e → s.utxoSnapshots.get h = some u →
      u.totalValue ≤ blockSubsidy.toNat * (e.height + 1) ∧
      (blockSubsidy.toNat * (e.height + 1) < 2^64 →
        ∀ tx, u.transactionFee tx ≠ .error (.err .inputValueOverflow))) ∧
    ((s.activeUtxos = HashMap.new ∧ s.ActiveSumsFit) ∨
      ∃ h e, s.chain.get h = some e ∧ s.utxoSnapshots.get h = some s.activeUtxos ∧
        s.activeUtxos.totalValue ≤ blockSubsidy.toNat * (e.height + 1) ∧
        (blockSubsidy.toNat * (e.height + 1) < 2^64 → s.ActiveSumsFit)) ∧
    (∀ parent height v block, s.parentView parent = .ok v →
      s.heightAbove parent = some height → blockSubsidy.toNat * (height + 1) < 2^64 →
      applyBlock v block height ≠ .error (.err (.transaction .inputValueOverflow))) := by
  have hs := hr.sound
  refine ⟨?_, ?_, ?_⟩
  · intro h e u he hu
    have hle := hs.view_totalValue_le h e u he hu
    exact ⟨hle, fun hlt tx => u.transactionFee_ne_overflow tx (hle.trans_lt hlt)⟩
  · rcases hs.active with hnew | ⟨h, hu⟩
    · refine .inl ⟨hnew, hs.activeSumsFit ?_⟩
      rw [hnew, UtxoSet.totalValue_new]
      exact Nat.two_pow_pos 64
    · obtain ⟨e, b, v, he, -⟩ := hs.views h _ hu
      have hle := hs.view_totalValue_le h e _ he hu
      exact .inr ⟨h, e, he, hu, hle, fun hlt => hs.activeSumsFit (hle.trans_lt hlt)⟩
  · intro parent height v block hp hh hlt
    have hle := hs.parentView_totalValue_le parent height v hp hh
    apply applyBlock_ne_overflow
    rw [Nat.mul_add] at hlt
    omega

end Cap

section SampleCap

attribute [local instance] sampleCrypto sampleProfile

theorem sampleState_supply :
    (∀ h e u, sampleState.chain.get h = some e → sampleState.utxoSnapshots.get h = some u →
      u.totalValue ≤ blockSubsidy.toNat * (e.height + 1) ∧
      (blockSubsidy.toNat * (e.height + 1) < 2^64 →
        ∀ tx, u.transactionFee tx ≠ .error (.err .inputValueOverflow))) ∧
    ((sampleState.activeUtxos = HashMap.new ∧ sampleState.ActiveSumsFit) ∨
      ∃ h e, sampleState.chain.get h = some e ∧
        sampleState.utxoSnapshots.get h = some sampleState.activeUtxos ∧
        sampleState.activeUtxos.totalValue ≤ blockSubsidy.toNat * (e.height + 1) ∧
        (blockSubsidy.toNat * (e.height + 1) < 2^64 → sampleState.ActiveSumsFit)) ∧
    (∀ parent height v block, sampleState.parentView parent = .ok v →
      sampleState.heightAbove parent = some height →
      blockSubsidy.toNat * (height + 1) < 2^64 →
      applyBlock v block height ≠ .error (.err (.transaction .inputValueOverflow))) :=
  supply_capped sampleState sampleState_okReachable.reachable

end SampleCap

end NodeState

end Wobble
