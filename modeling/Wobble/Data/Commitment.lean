import Wobble.Node.Runs

namespace Wobble

open Rust Codec

namespace Transaction

/-- Agreement on all a signature is made over: only the unlocking data may differ. -/
structure SameSpend (s t : Transaction) : Prop where
  version : s.version = t.version
  outpoints : s.inputs.map TxIn.previousOutput = t.inputs.map TxIn.previousOutput
  outputs : s.outputs = t.outputs
  lockTime : s.lockTime = t.lockTime

theorem encoding_false_iff (s t : Transaction) (hs : s.Fits false) (ht : t.Fits false) :
    s.encoding false = t.encoding false ↔ s.SameSpend t := by
  constructor
  · intro h
    obtain ⟨hv, hi, ho, hl⟩ := encoding_fields false s t hs ht h
    have hout := congrArg (List.map Prod.fst) hi
    rw [List.map_map, List.map_map] at hout
    exact ⟨hv, hout, ho, hl⟩
  · intro h
    -- without unlocking data an input is written from its outpoint alone
    have hin : ∀ tx : Transaction, tx.inputs.flatMap (TxIn.encoding false) =
        (tx.inputs.map TxIn.previousOutput).flatMap fun p => TxIn.encoding false ⟨p, []⟩ := by
      intro tx
      rw [List.flatMap_map]
      rfl
    have hlen : s.inputs.length = t.inputs.length := by
      simpa using congrArg List.length h.outpoints
    rw [encoding, encoding, hin, hin, h.version, h.outpoints, h.outputs, h.lockTime, hlen]

end Transaction

section Commitment

variable {ε : Type} [Crypto]

/-- Two encoders that produced different bytes with one digest. -/
def Collide (x y : Res ε Bytes) : Prop :=
  ∃ a b, x = .ok a ∧ y = .ok b ∧ a ≠ b ∧ doubleSha256 a = doubleSha256 b

/-- Transactions whose lengths fit are told apart by their encodings, and by their hashes up to a
collision of those encodings. -/
theorem transaction_commitment (s t : Transaction) (hs : s.Fits true) (ht : t.Fits true) :
    ((s.encode : Res ε Bytes) = t.encode → s = t) ∧
    ((s.encodeWithUnlockingData false : Res ε Bytes) = t.encodeWithUnlockingData false ↔
      s.SameSpend t) ∧
    ((s.txid : Res ε Txid) = t.txid → s = t ∨ Collide (ε := ε) s.encode t.encode) ∧
    ((s.signingDigest : Res ε Bytes32) = t.signingDigest →
      s.SameSpend t ∨
        Collide (ε := ε) (s.encodeWithUnlockingData false) (t.encodeWithUnlockingData false)) := by
  have hs' := s.fits_false hs
  have ht' := t.fits_false ht
  have hsigned := s.encoding_false_iff t hs' ht'
  unfold Transaction.encode Collide
  rw [s.txid_eq, t.txid_eq, s.signingDigest_eq, t.signingDigest_eq]
  simp only [Transaction.encodeWithUnlockingData_eq, if_pos hs, if_pos ht, if_pos hs', if_pos ht',
    Except.ok.injEq]
  refine ⟨s.encoding_inj t hs ht, hsigned, fun h => ?_, fun h => ?_⟩
  · by_cases he : s.encoding true = t.encoding true
    · exact .inl (s.encoding_inj t hs ht he)
    · exact .inr ⟨_, _, rfl, rfl, he, congrArg Txid.bytes h⟩
  · by_cases he : s.encoding false = t.encoding false
    · exact .inl (hsigned.mp he)
    · exact .inr ⟨_, _, rfl, rfl, he, h⟩

end Commitment

section Stripped

open NodeState

attribute [local instance] sampleCrypto

def strippedPayment : Transaction :=
  { samplePayment with inputs := samplePayment.inputs.map fun input =>
      { input with unlockingData := [] } }

/-- Stripping a signature changes the encoding but not what is signed. -/
theorem strippedPayment_commitment : samplePayment.Fits true ∧ strippedPayment.Fits true ∧
    samplePayment.SameSpend strippedPayment ∧
    (samplePayment.encode : Res Empty Bytes) ≠ strippedPayment.encode := by
  have hs : samplePayment.Fits true := by decide +kernel
  have ht : strippedPayment.Fits true := by decide +kernel
  obtain ⟨hinj, hsigned, -, -⟩ :=
    transaction_commitment (ε := Empty) samplePayment strippedPayment hs ht
  refine ⟨hs, ht, hsigned.mp rfl, fun he => ?_⟩
  have hne : samplePayment ≠ strippedPayment := by decide +kernel
  exact hne (hinj he)

end Stripped

end Wobble
