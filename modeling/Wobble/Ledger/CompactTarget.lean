import Wobble.Ledger.Consensus

namespace Codec

theorem ofBeBytes_append (a b : List UInt8) :
    ofBeBytes (a ++ b) = ofBeBytes a * 256 ^ b.length + ofBeBytes b := by
  induction b using List.reverseRecOn with
  | nil => simp [ofBeBytes]
  | append_singleton b x ih =>
    have hsnoc : ∀ l : List UInt8, ofBeBytes (l ++ [x]) = ofBeBytes l * 256 + x.toNat := by
      intro l
      rw [ofBeBytes, List.foldl_append]
      rfl
    rw [← List.append_assoc, hsnoc, hsnoc, ih, List.length_append, List.length_singleton, pow_succ]
    ring

theorem ofBeBytes_cons (x : UInt8) (b : List UInt8) :
    ofBeBytes (x :: b) = x.toNat * 256 ^ b.length + ofBeBytes b := by
  have h := ofBeBytes_append [x] b
  simpa [ofBeBytes] using h

theorem ofBeBytes_zeros (n : Nat) : ofBeBytes (List.replicate n 0) = 0 := by
  induction n with
  | zero => rfl
  | succ n ih =>
    rw [List.replicate_succ, ofBeBytes_cons, ih]
    simp

theorem ofBeBytes_reverse_toLeBytes (width n : Nat) (h : n < 256 ^ width) :
    ofBeBytes (toLeBytes width n).reverse = n := by
  induction width generalizing n with
  | zero =>
    obtain rfl : n = 0 := by simpa using h
    rfl
  | succ width ih =>
    have hq : n / 256 < 256 ^ width := by
      rw [pow_succ] at h
      omega
    have hlast : ofBeBytes [UInt8.ofNat n] = n % 256 := by
      rw [ofBeBytes_cons]
      simp [ofBeBytes]
    rw [toLeBytes, List.reverse_cons, ofBeBytes_append, ih _ hq, hlast, List.length_singleton]
    omega

/-- Strings of one length compare as the integers they stand for. -/
theorem order_lt_iff (a b : List UInt8) (hl : a.length = b.length) :
    order a < order b ↔ ofBeBytes a < ofBeBytes b := by
  induction a generalizing b with
  | nil =>
    obtain rfl : b = [] := List.eq_nil_of_length_eq_zero hl.symm
    simp [order, ofBeBytes]
  | cons x a ih =>
    cases b with
    | nil => cases hl
    | cons y b =>
      have hl : a.length = b.length := Nat.succ.inj hl
      have ha := ofBeBytes_lt a
      have hb := ofBeBytes_lt b
      rw [ofBeBytes_cons, ofBeBytes_cons]
      change x.toNat :: order a < y.toNat :: order b ↔ _
      rw [List.cons_lt_cons_iff, ih b hl]
      rw [hl] at ha ⊢
      generalize 256 ^ b.length = m at ha hb
      generalize x.toNat = i
      generalize y.toNat = j
      rcases Nat.lt_trichotomy i j with h | rfl | h
      · have hm := Nat.mul_le_mul_right m (Nat.succ_le_of_lt h)
        rw [Nat.succ_mul] at hm
        omega
      · omega
      · have hm := Nat.mul_le_mul_right m (Nat.succ_le_of_lt h)
        rw [Nat.succ_mul] at hm
        omega

theorem order_le_iff (a b : List UInt8) (hl : a.length = b.length) :
    order a ≤ order b ↔ ofBeBytes a ≤ ofBeBytes b := by
  rw [← not_lt, ← not_lt, order_lt_iff b a hl.symm]

end Codec

namespace Wobble

open Rust Codec

namespace PowTarget

/-- The 256-bit integer. -/
def value (target : PowTarget) : Nat := ofBeBytes target.bytes.toList

theorem value_place (offset : Nat) (src : Bytes) (h : offset + src.length ≤ 32) :
    value ⟨place offset src h⟩ = ofBeBytes src * 256 ^ (32 - offset - src.length) := by
  change ofBeBytes (List.replicate offset 0 ++ src ++
    List.replicate (32 - offset - src.length) 0) = _
  rw [ofBeBytes_append, ofBeBytes_append, ofBeBytes_zeros, ofBeBytes_zeros, List.length_replicate]
  simp

theorem isMetBy_iff (target : PowTarget) (hash : BlockHash) :
    target.isMetBy hash = true ↔ ofBeBytes hash.bytes.toList ≤ target.value := by
  rw [isMetBy, decide_eq_true_iff]
  refine order_le_iff _ _ ?_
  rw [hash.bytes.toList_length, target.bytes.toList_length]

theorem ofBeBytes_mantissaBytes (mantissa : UInt32) (h : mantissa.toNat < 2^24) :
    ofBeBytes (mantissaBytes mantissa) = mantissa.toNat := by
  have hbyte : ∀ x : UInt32, ((x &&& 0xff).toUInt8).toNat = x.toNat % 256 := by
    intro x
    rw [UInt32.toNat_toUInt8, UInt32.toNat_and]
    change (x.toNat &&& (2^8 - 1)) % 2^8 = _
    rw [Nat.and_two_pow_sub_one_eq_mod]
    omega
  rw [mantissaBytes, ofBeBytes_cons, ofBeBytes_cons, ofBeBytes_cons, hbyte, hbyte, hbyte,
    UInt32.toNat_shiftRight, UInt32.toNat_shiftRight]
  simp [Nat.shiftRight_eq_div_pow, ofBeBytes]
  omega

/-- `mantissa * 256^(exponent - 3)`, rounded down. -/
def compactValue (bits : UInt32) : Nat :=
  (bits &&& 0x7fffff).toNat * 256 ^ (bits >>> 24).toNat / 256 ^ 3

theorem mantissa_lt (bits : UInt32) : (bits &&& 0x7fffff).toNat < 2^23 := by
  rw [UInt32.toNat_and]
  exact Nat.and_lt_two_pow _ (by decide)

/-- A small exponent shifts the mantissa right. -/
theorem value_of_exponent_le (bits : UInt32) (h : (bits >>> 24).toNat ≤ 3) :
    value ⟨place 28 (toLeBytes 4 ((bits &&& 0x7fffff) >>>
      UInt32.ofNat (8 * (3 - (bits >>> 24).toNat))).toNat).reverse (by simp)⟩ =
      compactValue bits := by
  have hlt := mantissa_lt bits
  rw [value_place, ofBeBytes_reverse_toLeBytes _ _ (UInt32.toNat_lt _), UInt32.toNat_shiftRight,
    compactValue]
  generalize (bits &&& 0x7fffff).toNat = m at hlt
  generalize (bits >>> 24).toNat = e at h
  simp only [Nat.shiftRight_eq_div_pow, List.length_reverse, toLeBytes_length]
  interval_cases e <;> simp <;> omega

/-- A large exponent puts the mantissa in front of zeros. -/
theorem value_of_exponent_gt (bits : UInt32) (h : 3 < (bits >>> 24).toNat)
    (h' : (bits >>> 24).toNat ≤ 32)
    (hfit : 32 - (bits >>> 24).toNat + (mantissaBytes (bits &&& 0x7fffff)).length ≤ 32) :
    value ⟨place (32 - (bits >>> 24).toNat) (mantissaBytes (bits &&& 0x7fffff)) hfit⟩ =
      compactValue bits := by
  have hlt := mantissa_lt bits
  rw [value_place, ofBeBytes_mantissaBytes _ (by omega), compactValue]
  change _ * 256 ^ (32 - (32 - (bits >>> 24).toNat) - 3) = _
  generalize (bits &&& 0x7fffff).toNat = m
  obtain ⟨k, hk⟩ := Nat.exists_eq_add_of_lt h
  have hpow : 32 - (32 - (bits >>> 24).toNat) - 3 = k + 1 := by omega
  rw [hpow, hk, Nat.add_assoc, pow_add 256 3, Nat.mul_left_comm,
    Nat.mul_div_cancel_left _ (by norm_num)]

/-- No sign, a mantissa, and an exponent that stays within 256 bits. -/
structure Compact (bits : UInt32) : Prop where
  positive : bits &&& 0x800000 = 0
  mantissa : 0 < bits &&& 0x7fffff
  exponent : bits >>> 24 ≤ 32

theorem fromCompact_spec (bits : UInt32) :
    match fromCompact bits with
    | none => ¬ Compact bits
    | some target => Compact bits ∧ target.value = compactValue bits := by
  have hexp : bits >>> 24 ≤ 32 ↔ (bits >>> 24).toNat ≤ 32 := UInt32.le_iff_toNat_le
  simp only [fromCompact]
  by_cases hbad : ((bits &&& 0x800000 != 0) || bits &&& 0x7fffff == 0) = true
  · rw [if_pos hbad]
    intro hc
    have hm := hc.mantissa
    simp only [hc.positive, bne_self_eq_false, Bool.false_or, beq_iff_eq] at hbad
    rw [hbad] at hm
    exact absurd hm (by decide)
  rw [if_neg hbad]
  obtain ⟨hpos, hmantissa⟩ : bits &&& 0x800000 = 0 ∧ bits &&& 0x7fffff ≠ 0 := by simpa using hbad
  have hm : 0 < bits &&& 0x7fffff := UInt32.pos_iff_ne_zero.mpr hmantissa
  by_cases hsmall : (bits >>> 24).toNat ≤ 3
  · rw [if_pos hsmall]
    exact ⟨⟨hpos, hm, hexp.mpr (hsmall.trans (by decide))⟩, value_of_exponent_le bits hsmall⟩
  rw [if_neg hsmall]
  by_cases hlarge : 32 < (bits >>> 24).toNat
  · rw [if_pos hlarge]
    exact fun hc => absurd (hexp.mp hc.exponent) (Nat.not_le.mpr hlarge)
  rw [if_neg hlarge, dif_neg (by omega)]
  exact ⟨⟨hpos, hm, hexp.mpr (by omega)⟩, value_of_exponent_gt bits (by omega) (by omega) _⟩

theorem fromCompact_isSome_iff (bits : UInt32) :
    (∃ target, fromCompact bits = some target) ↔ Compact bits := by
  have hspec := fromCompact_spec bits
  cases h : fromCompact bits with
  | none =>
    rw [h] at hspec
    exact ⟨fun hex => (nomatch hex), fun hc => absurd hc hspec⟩
  | some target =>
    rw [h] at hspec
    exact ⟨fun _ => hspec.1, fun _ => ⟨target, rfl⟩⟩

theorem value_fromCompact {bits : UInt32} {target : PowTarget}
    (h : fromCompact bits = some target) : target.value = compactValue bits := by
  have hspec := fromCompact_spec bits
  rw [h] at hspec
  exact hspec.2

/-- Compact targets mean what they say, and a header is accepted if its hash is at most the number
its `bits` stand for. -/
theorem compact_exact [Crypto] :
    (∀ bits : UInt32, (∃ target, fromCompact bits = some target) ↔
      bits &&& 0x800000 = 0 ∧ 0 < bits &&& 0x7fffff ∧ bits >>> 24 ≤ 32) ∧
    (∀ (bits : UInt32) (target : PowTarget), fromCompact bits = some target →
      ofBeBytes target.bytes.toList =
        (bits &&& 0x7fffff).toNat * 256 ^ (bits >>> 24).toNat / 256 ^ 3) ∧
    ∀ block : Block, validateHeaderPow block = .ok () ↔
      (∃ target, fromCompact block.header.bits = some target) ∧
        ofBeBytes block.header.blockHash.bytes.toList ≤
          (block.header.bits &&& 0x7fffff).toNat * 256 ^ (block.header.bits >>> 24).toNat /
            256 ^ 3 := by
  refine ⟨fun bits => ?_, fun bits target h => value_fromCompact h, fun block => ?_⟩
  · rw [fromCompact_isSome_iff]
    exact ⟨fun hc => ⟨hc.positive, hc.mantissa, hc.exponent⟩, fun h => ⟨h.1, h.2.1, h.2.2⟩⟩
  rw [validateHeaderPow_eq_ok]
  constructor
  · intro h
    obtain ⟨target, hbits, hmet⟩ := h
    refine ⟨⟨target, hbits⟩, ?_⟩
    rw [isMetBy_iff, value_fromCompact hbits] at hmet
    exact hmet
  · intro h
    obtain ⟨⟨target, hbits⟩, hle⟩ := h
    refine ⟨target, hbits, ?_⟩
    rw [isMetBy_iff, value_fromCompact hbits]
    exact hle

end PowTarget

end Wobble
