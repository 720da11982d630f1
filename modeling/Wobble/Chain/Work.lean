import Wobble.Chain.Tree
import Wobble.Ledger.CompactTarget

namespace Wobble

open Rust Codec

namespace PowTarget

/-- The two halves `work` reads are the quotient and the remainder by 2^128. -/
theorem value_halves (target : PowTarget) :
    ofBeBytes (target.bytes.toList.take 16) = target.value / 2^128 ∧
      ofBeBytes (target.bytes.toList.drop 16) = target.value % 2^128 := by
  have hlow := ofBeBytes_lt (target.bytes.toList.drop 16)
  have hsplit := ofBeBytes_append (target.bytes.toList.take 16) (target.bytes.toList.drop 16)
  rw [List.take_append_drop] at hsplit
  rw [List.length_drop, target.bytes.toList_length] at hlow hsplit
  change target.value = _ at hsplit
  norm_num at hlow hsplit ⊢
  omega

theorem work_eq_sub (target : PowTarget) (h : target.value < 2^128 - 1) :
    target.work = u128Max - target.value / 2 := by
  obtain ⟨hhigh, hlow⟩ := target.value_halves
  have hzero : target.value / 2^128 = 0 := Nat.div_eq_of_lt (by omega)
  have hmod : target.value % 2^128 = target.value := Nat.mod_eq_of_lt (by omega)
  rw [work, hhigh, hlow, hzero, hmod]
  rw [if_pos rfl, Nat.div_one, if_pos ⟨rfl, by unfold u128Max; omega⟩]

theorem work_eq_div (target : PowTarget) (h : 2^128 ≤ target.value) :
    target.work = u128Max / min (target.value / 2^128 + 1) u128Max := by
  obtain ⟨hhigh, -⟩ := target.value_halves
  have hpos : target.value / 2^128 ≠ 0 := by omega
  rw [work, hhigh]
  rw [if_neg hpos, if_neg fun hz => hpos hz.1]

theorem work_low_ge (target : PowTarget) (h : target.value < 2^128 - 1) :
    2^127 ≤ target.work := by
  rw [target.work_eq_sub h]
  unfold u128Max
  omega

theorem work_high_lt (target : PowTarget) (h : 2^128 ≤ target.value) : target.work < 2^127 := by
  rw [target.work_eq_div h]
  have htwo : 2 ≤ min (target.value / 2^128 + 1) u128Max := by
    unfold u128Max
    omega
  have hle := Nat.div_le_div_left (a := u128Max) htwo (by decide)
  have hhalf : u128Max / 2 < 2^127 := by decide
  omega

/-- Away from the value that is left out, a smaller target counts for at least as much. -/
theorem work_antitone {target target' : PowTarget} (h : target.value ≠ 2^128 - 1)
    (h' : target'.value ≠ 2^128 - 1) (hle : target.value ≤ target'.value) :
    target'.work ≤ target.work := by
  rcases Nat.lt_or_ge target'.value (2^128) with hlow' | hhigh'
  · rw [target.work_eq_sub (by omega), target'.work_eq_sub (by omega)]
    omega
  rcases Nat.lt_or_ge target.value (2^128) with hlow | hhigh
  · have hge := target.work_low_ge (by omega)
    have hlt := target'.work_high_lt hhigh'
    omega
  · rw [target.work_eq_div hhigh, target'.work_eq_div hhigh']
    refine Nat.div_le_div_left ?_ ?_
    · exact min_le_min_right _ (Nat.succ_le_succ (Nat.div_le_div_right hle))
    · exact lt_min (Nat.succ_pos _) (by decide)

/-- A compact number either has 23 bits or ends in a zero byte. -/
theorem compactValue_ne (bits : UInt32) : compactValue bits ≠ 2^128 - 1 := by
  have hlt := mantissa_lt bits
  unfold compactValue
  generalize (bits &&& 0x7fffff).toNat = mantissa at hlt
  rcases Nat.lt_or_ge 3 (bits >>> 24).toNat with hbig | hsmall
  · obtain ⟨k, hk⟩ := Nat.exists_eq_add_of_lt hbig
    have hpow : mantissa * 256 ^ (bits >>> 24).toNat = mantissa * 256 ^ k * 256 * 256 ^ 3 := by
      rw [hk]
      ring
    rw [hpow, Nat.mul_div_cancel _ (by decide)]
    omega
  · have hpow := Nat.pow_le_pow_right (by decide : 0 < 256) hsmall
    have hle : mantissa * 256 ^ (bits >>> 24).toNat / 256 ^ 3 ≤ mantissa := by
      refine Nat.div_le_of_le_mul ?_
      rw [Nat.mul_comm]
      exact Nat.mul_le_mul_right _ hpow
    omega

end PowTarget

namespace ChainIndex

/-- A child always has more work than its parent. -/
theorem Indexes.work_lt {index : ChainIndex} {log : List ChainIndexEntry} (hi : index.Indexes log)
    (h : BlockHash) (e : ChainIndexEntry) (he : index.get h = some e) (parent : ChainIndexEntry)
    (hp : e.parent.bind index.get = some parent) :
    parent.cumulativeWork < e.cumulativeWork := by
  obtain ⟨hash, hpar, hget⟩ := Option.bind_eq_some_iff.mp hp
  obtain ⟨p, hmem, hkey, hbelow⟩ :=
    hi.grown.below_of_parent e ((hi.get h e).mp he).1 hash hpar
  obtain rfl : p = parent := by
    have hsome := hi.get_mem p hmem
    rw [show p.blockHash = hash from hkey, hget] at hsome
    exact (Option.some.inj hsome).symm
  exact hbelow.work

end ChainIndex

section Antitone

variable [Crypto]

/-- A block's work is positive and antitone in its target, so the cumulative work of an index grows
along every branch. -/
theorem work_orders_targets :
    (∀ (bits : UInt32) (target : PowTarget), PowTarget.fromCompact bits = some target →
      1 ≤ target.work) ∧
    (∀ (bits bits' : UInt32) (target target' : PowTarget),
      PowTarget.fromCompact bits = some target → PowTarget.fromCompact bits' = some target' →
      ofBeBytes target.bytes.toList ≤ ofBeBytes target'.bytes.toList →
      target'.work ≤ target.work) ∧
    ∀ (blocks : List Block) (h : BlockHash) (e : ChainIndexEntry),
      (ChainIndex.insertRun blocks).1.get h = some e →
      ∃ branch, GrowingTree.Path entryView (ChainIndex.insertRun blocks).1.get (some h)
          branch ∧
        branch.length = e.height + 1 ∧
        branch.Pairwise fun a b => a.cumulativeWork < b.cumulativeWork := by
  refine ⟨fun _ target _ => target.work_pos, fun bits bits' target target' h h' hle => ?_,
    fun blocks h e he => ?_⟩
  · have hv := PowTarget.value_fromCompact h
    have hv' := PowTarget.value_fromCompact h'
    refine PowTarget.work_antitone ?_ ?_ hle
    · exact hv ▸ PowTarget.compactValue_ne bits
    · exact hv' ▸ PowTarget.compactValue_ne bits'
  · have hi := (ChainIndex.insertRun_recorded blocks).indexes
    obtain ⟨branch, hpath, hlen⟩ := hi.exists_path h e he
    exact ⟨branch, hpath, hlen, hpath.work_increasing hi.work_lt⟩

end Antitone

end Wobble
