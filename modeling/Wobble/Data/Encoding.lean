import Wobble.Data.Types

namespace Wobble

open Rust Codec

/-- The message of the only panic an encoder can raise. -/
def tooLong : String := "length exceeds u32"

def TxIn.visibleData (includeUnlockingData : Bool) (input : TxIn) : Bytes :=
  if includeUnlockingData then input.unlockingData else []

def TxIn.encoding (includeUnlockingData : Bool) (input : TxIn) : Bytes :=
  input.previousOutput.txid.bytes.toList ++ toLeBytes 4 input.previousOutput.vout.toNat ++
    (toLeBytes 4 (input.visibleData includeUnlockingData).length ++
      input.visibleData includeUnlockingData)

def TxOut.encoding (output : TxOut) : Bytes :=
  toLeBytes 8 output.value.toNat ++
    (toLeBytes 4 output.lockingData.length ++ output.lockingData)

namespace Transaction

/-- Every length written by the encoder fits in `u32`. -/
def Fits (includeUnlockingData : Bool) (tx : Transaction) : Prop :=
  tx.inputs.length < 2^32 ∧
    (∀ input ∈ tx.inputs, (input.visibleData includeUnlockingData).length < 2^32) ∧
    tx.outputs.length < 2^32 ∧ ∀ output ∈ tx.outputs, output.lockingData.length < 2^32

instance (includeUnlockingData : Bool) (tx : Transaction) :
    Decidable (tx.Fits includeUnlockingData) := by
  unfold Fits
  infer_instance

/-- The bytes the encoder produces when it does not panic. -/
def encoding (includeUnlockingData : Bool) (tx : Transaction) : Bytes :=
  toLeBytes 4 tx.version.toNat ++ (toLeBytes 4 tx.inputs.length ++
    (tx.inputs.flatMap (TxIn.encoding includeUnlockingData) ++
      (toLeBytes 4 tx.outputs.length ++
        (tx.outputs.flatMap TxOut.encoding ++ toLeBytes 4 tx.lockTime.toNat))))

theorem fits_false (tx : Transaction) (h : tx.Fits true) : tx.Fits false :=
  ⟨h.1, fun input _ => by simp [TxIn.visibleData], h.2.2⟩

end Transaction

section

variable {ε : Type}

/-- Guards with one failure, passed in turn, make one guard. -/
private theorem guard_bind {α β : Type} {P Q : Prop} [Decidable P] [Decidable Q]
    (e : Fault ε) (a : α) (b : β) (f : α → Res ε β)
    (h : f a = if Q then .ok b else .error e) :
    ((if P then .ok a else .error e : Res ε α) >>= f) = if P ∧ Q then .ok b else .error e := by
  by_cases hP : P
  · simp [hP, h]
  · simp [hP]

theorem encodeBytes_eq (data : Bytes) : (encodeBytes data : Res ε Bytes) =
    if data.length < 2^32 then .ok (toLeBytes 4 data.length ++ data)
    else .error (.panic tooLong) := by
  unfold encodeBytes encodeLen
  split_ifs <;> rfl

theorem TxIn.encode_eq (includeUnlockingData : Bool) (input : TxIn) :
    (input.encode includeUnlockingData : Res ε Bytes) =
      if (input.visibleData includeUnlockingData).length < 2^32
      then .ok (input.encoding includeUnlockingData) else .error (.panic tooLong) := by
  change (encodeBytes (input.visibleData includeUnlockingData) >>= _) = _
  rw [encodeBytes_eq]
  split_ifs <;> rfl

theorem TxOut.encode_eq (output : TxOut) : (output.encode : Res ε Bytes) =
    if output.lockingData.length < 2^32 then .ok output.encoding
    else .error (.panic tooLong) := by
  change (encodeBytes output.lockingData >>= _) = _
  rw [encodeBytes_eq]
  split_ifs <;> rfl

theorem Transaction.encodeWithUnlockingData_eq (tx : Transaction) (includeUnlockingData : Bool) :
    (tx.encodeWithUnlockingData includeUnlockingData : Res ε Bytes) =
      if tx.Fits includeUnlockingData then .ok (tx.encoding includeUnlockingData)
      else .error (.panic tooLong) := by
  have hi := encodeAll_eq (ε := ε) (TxIn.encode includeUnlockingData)
    (TxIn.encoding includeUnlockingData) _ tooLong (TxIn.encode_eq includeUnlockingData) tx.inputs
  have ho := encodeAll_eq (ε := ε) TxOut.encode TxOut.encoding _ tooLong TxOut.encode_eq
    tx.outputs
  unfold encodeWithUnlockingData encodeLen
  rw [hi, ho]
  refine guard_bind _ _ _ _ (guard_bind _ _ _ _ (guard_bind _ _ _ _ ?_))
  split_ifs <;> rfl

end

theorem TxIn.reads (includeUnlockingData : Bool) :
    Reads (fun input : TxIn => (input.visibleData includeUnlockingData).length < 2^32)
      (TxIn.encoding includeUnlockingData)
      (fun input => (input.previousOutput, input.visibleData includeUnlockingData)) := by
  rintro ⟨⟨⟨t⟩, v⟩, d⟩ ⟨⟨⟨t'⟩, v'⟩, d'⟩ x y ha hb h
  simp only [TxIn.encoding, List.append_assoc] at h
  obtain ⟨ht, h⟩ := List.append_inj h (by rw [t.toList_length, t'.toList_length])
  obtain ⟨hv, h⟩ := reads_le 4 _ _ _ _ v.toNat_lt v'.toNat_lt h
  rw [← List.append_assoc, ← List.append_assoc] at h
  obtain ⟨hd, hx⟩ := reads_counted _ _ _ _ ha hb h
  obtain rfl := List.Vector.toList_injective ht
  obtain rfl := UInt32.toNat_inj.mp hv
  exact ⟨Prod.ext rfl hd, hx⟩

theorem TxOut.reads :
    Reads (fun output : TxOut => output.lockingData.length < 2^32) TxOut.encoding id := by
  rintro ⟨v, d⟩ ⟨v', d'⟩ x y ha hb h
  simp only [TxOut.encoding, List.append_assoc] at h
  obtain ⟨hv, h⟩ := reads_le 8 _ _ _ _ v.toNat_lt v'.toNat_lt h
  rw [← List.append_assoc, ← List.append_assoc] at h
  obtain ⟨hd, hx⟩ := reads_counted _ _ _ _ ha hb h
  obtain rfl := UInt64.toNat_inj.mp hv
  obtain rfl : d = d' := hd
  exact ⟨rfl, hx⟩

/-- The bytes fix everything the encoder was shown. -/
theorem Transaction.encoding_fields (includeUnlockingData : Bool) (s t : Transaction)
    (hs : s.Fits includeUnlockingData) (ht : t.Fits includeUnlockingData)
    (h : s.encoding includeUnlockingData = t.encoding includeUnlockingData) :
    s.version = t.version ∧
    s.inputs.map (fun i => (i.previousOutput, i.visibleData includeUnlockingData)) =
      t.inputs.map (fun i => (i.previousOutput, i.visibleData includeUnlockingData)) ∧
    s.outputs = t.outputs ∧ s.lockTime = t.lockTime := by
  obtain ⟨hs1, hs2, hs3, hs4⟩ := hs
  obtain ⟨ht1, ht2, ht3, ht4⟩ := ht
  simp only [encoding] at h
  obtain ⟨hv, h⟩ := reads_le 4 _ _ _ _ s.version.toNat_lt t.version.toNat_lt h
  obtain ⟨hi, h⟩ := reads_le 4 _ _ _ _ (by norm_num; omega) (by norm_num; omega) h
  obtain ⟨his, h⟩ := (TxIn.reads includeUnlockingData).list _ _ _ _ hi hs2 ht2 h
  obtain ⟨ho, h⟩ := reads_le 4 _ _ _ _ (by norm_num; omega) (by norm_num; omega) h
  obtain ⟨hos, h⟩ := TxOut.reads.list _ _ _ _ ho hs4 ht4 h
  have hl := toLeBytes_inj 4 _ _ s.lockTime.toNat_lt t.lockTime.toNat_lt h
  exact ⟨UInt32.toNat_inj.mp hv, his, by simpa using hos, UInt32.toNat_inj.mp hl⟩

theorem Transaction.encoding_inj (s t : Transaction) (hs : s.Fits true) (ht : t.Fits true)
    (h : s.encoding true = t.encoding true) : s = t := by
  obtain ⟨hv, hi, ho, hl⟩ := encoding_fields true s t hs ht h
  have hm : Function.Injective
      (fun i : TxIn => (i.previousOutput, i.visibleData true)) := by
    rintro ⟨p, d⟩ ⟨p', d'⟩ he
    simpa [TxIn.visibleData] using he
  have hin : s.inputs = t.inputs := List.map_injective_iff.mpr hm hi
  cases s
  cases t
  simp_all

section Identifiers

variable {ε : Type} [Crypto]

/-- The txid of a transaction whose encoding does not panic. -/
def Transaction.id (tx : Transaction) : Txid := Txid.fromData (tx.encoding true)

def Transaction.digest (tx : Transaction) : Bytes32 := doubleSha256 (tx.encoding false)

theorem Transaction.txid_eq (tx : Transaction) : (tx.txid : Res ε Txid) =
    if tx.Fits true then .ok tx.id else .error (.panic tooLong) := by
  unfold txid encode
  rw [encodeWithUnlockingData_eq]
  split_ifs <;> rfl

theorem Transaction.signingDigest_eq (tx : Transaction) :
    (tx.signingDigest : Res ε Bytes32) =
      if tx.Fits false then .ok tx.digest else .error (.panic tooLong) := by
  unfold signingDigest
  rw [encodeWithUnlockingData_eq]
  split_ifs <;> rfl

theorem Transaction.txid_eq_ok (tx : Transaction) (txid : Txid) :
    (tx.txid : Res ε Txid) = .ok txid ↔ tx.Fits true ∧ tx.id = txid := by
  rw [txid_eq]
  split_ifs with h <;> simp [h]

theorem txidLevel_eq (txs : List Transaction) : (txidLevel txs : Res ε (List Bytes32)) =
    if ∀ tx ∈ txs, tx.Fits true then .ok (txs.map fun tx => tx.id.bytes)
    else .error (.panic tooLong) := by
  induction txs with
  | nil => simp [txidLevel]
  | cons tx txs ih =>
    rw [txidLevel, Transaction.txid_eq, ih]
    by_cases ht : tx.Fits true
    · by_cases hs : ∀ t ∈ txs, t.Fits true
      · rw [if_pos ht, if_pos hs, if_pos (List.forall_mem_cons.mpr ⟨ht, hs⟩)]
        rfl
      · rw [if_pos ht, if_neg hs, if_neg fun h => hs (List.forall_mem_cons.mp h).2]
        rfl
    · rw [if_neg ht, if_neg fun h => ht (List.forall_mem_cons.mp h).1]
      rfl

/-- The merkle root of transactions whose encodings do not panic. -/
def merkleRootOf (txs : List Transaction) : Bytes32 :=
  if txs.isEmpty then doubleSha256 []
  else (Merkle.reduce merkleNode txs.length (txs.map fun tx => tx.id.bytes)).headD zeroBytes

theorem Block.merkleRoot_eq (block : Block) : (block.merkleRoot : Res ε Bytes32) =
    if ∀ tx ∈ block.transactions, tx.Fits true then .ok (merkleRootOf block.transactions)
    else .error (.panic tooLong) := by
  unfold merkleRoot merkleRootOf
  rw [txidLevel_eq]
  split_ifs with hf he
  · obtain hn := List.isEmpty_iff.mp he
    simp [hn]
  · have hn : block.transactions ≠ [] := fun h => he (List.isEmpty_iff.mpr h)
    have hl := Merkle.reduce_length merkleNode block.transactions.length
      (block.transactions.map fun tx => tx.id.bytes) (by simpa using hn) (by simp)
    obtain ⟨r, hr⟩ := List.length_eq_one_iff.mp hl
    simp [hn, hr]
  · rfl

end Identifiers

end Wobble
