import Wobble.Framework.HashMap
import Wobble.Data.Encoding

namespace Wobble

open Rust

inductive ValidationError where
  | emptyOutputs
  | missingInput (outpoint : OutPoint)
  | duplicateInput (outpoint : OutPoint)
  | invalidLockingData (outpoint : OutPoint)
  | invalidUnlockingData (outpoint : OutPoint)
  | signatureMismatch (outpoint : OutPoint)
  | outputValueOverflow
  | inputValueOverflow
  | overspend (inputValue outputValue : UInt64)
  deriving DecidableEq

/-- The current unspent transaction outputs. -/
abbrev UtxoSet := HashMap OutPoint Utxo

structure ValidationResult where
  spentInputs : List OutPoint
  fee : UInt64
  deriving DecidableEq

/-- The accumulating loop of `sum_outputs` and `sum_transaction_outputs`. -/
def sumValues (total : UInt64) : List TxOut → Res ValidationError UInt64
  | [] => .ok total
  | output :: rest => do
    let total ← Res.okOr .outputValueOverflow (checkedAdd total output.value)
    sumValues total rest

def sumOutputs (outputs : List TxOut) : Res ValidationError UInt64 := sumValues 0 outputs

theorem Transaction.isCoinbase_iff (tx : Transaction) :
    tx.isCoinbase = true ↔ tx.inputs = [] := List.isEmpty_iff

def Transaction.spends (tx : Transaction) : List OutPoint := tx.inputs.map TxIn.previousOutput

namespace UtxoSet

variable [Crypto]

/-- The loop over the inputs: each is resolved once, its signature checked and its value
added up. -/
def resolveInputs (utxos : UtxoSet) (signingDigest : Bytes32) :
    List TxIn → List OutPoint → UInt64 → Res ValidationError UInt64
  | [], _, inputValue => .ok inputValue
  | input :: rest, seenInputs, inputValue =>
    let outpoint := input.previousOutput
    if outpoint ∈ seenInputs then .error (.err (.duplicateInput outpoint)) else do
    let utxo ← Res.okOr (.missingInput outpoint) (utxos.get outpoint)
    let verifyingKey ← Res.okOr (.invalidLockingData outpoint)
      (parseVerifyingKey utxo.output.lockingData)
    let signature ← Res.okOr (.invalidUnlockingData outpoint)
      (parseSignature input.unlockingData)
    if !verifyMessage signature verifyingKey signingDigest.toList then
      .error (.err (.signatureMismatch outpoint)) else do
    let inputValue ← Res.okOr .inputValueOverflow (checkedAdd inputValue utxo.output.value)
    resolveInputs utxos signingDigest rest (outpoint :: seenInputs) inputValue

def validateTransactionInner (utxos : UtxoSet) (tx : Transaction) :
    Res ValidationError ValidationResult :=
  if tx.outputs.isEmpty then .error (.err .emptyOutputs) else do
  let outputValue ← sumOutputs tx.outputs
  if tx.isCoinbase then .ok ⟨[], 0⟩ else do
  let signingDigest ← tx.signingDigest
  let inputValue ← utxos.resolveInputs signingDigest tx.inputs [] 0
  if inputValue < outputValue then .error (.err (.overspend inputValue outputValue)) else
  .ok ⟨tx.spends, inputValue - outputValue⟩

def validateTransaction (utxos : UtxoSet) (tx : Transaction) : Res ValidationError Unit := do
  let _ ← utxos.validateTransactionInner tx
  return ()

def transactionFee (utxos : UtxoSet) (tx : Transaction) : Res ValidationError UInt64 := do
  let validation ← utxos.validateTransactionInner tx
  return validation.fee

omit [Crypto] in
/-- The loop over the enumerated outputs, from index `vout` on. -/
def insertOutputs {ε : Type} (txid : Txid) (height : Nat) (isCoinbase : Bool) :
    Nat → List TxOut → UtxoSet → Res ε UtxoSet
  | _, [], utxos => .ok utxos
  | vout, output :: rest, utxos =>
    if vout < 2^32 then
      let outpoint : OutPoint := ⟨txid, UInt32.ofNat vout⟩
      insertOutputs txid height isCoinbase (vout + 1) rest
        (utxos.insert outpoint ⟨outpoint, output, height, isCoinbase⟩)
    else .error (.panic "output index exceeds u32")

/-- All checks come before the first write, so the result of a failed call is the set the
caller still holds. -/
def applyTransaction (utxos : UtxoSet) (tx : Transaction) (height : Nat) :
    Res ValidationError UtxoSet := do
  let validation ← utxos.validateTransactionInner tx
  let utxos := if !tx.isCoinbase then utxos.removeAll validation.spentInputs else utxos
  let txid ← tx.txid
  insertOutputs txid height tx.isCoinbase 0 tx.outputs utxos

end UtxoSet

def Transaction.outputTotal (tx : Transaction) : Nat :=
  (tx.outputs.map fun output => output.value.toNat).sum

theorem sumValues_eq_ok (outputs : List TxOut) (total value : UInt64) :
    sumValues total outputs = .ok value ↔
      value.toNat = total.toNat + (outputs.map fun output => output.value.toNat).sum := by
  induction outputs generalizing total with
  | nil => simp [sumValues, ← UInt64.toNat_inj, eq_comm]
  | cons output rest ih =>
    simp only [sumValues, Res.bind_eq_ok, Res.okOr_eq_ok, checkedAdd_eq_some, ih, List.map_cons,
      List.sum_cons]
    constructor
    · rintro ⟨t, ht, hv⟩
      omega
    · intro hv
      have hlt := value.toNat_lt
      have hs : total.toNat + output.value.toNat < 2^64 := by omega
      exact ⟨total + output.value, toNat_add_of_lt _ _ hs, by
        rw [toNat_add_of_lt _ _ hs]; omega⟩

theorem sumValues_eq_error (outputs : List TxOut) (total : UInt64) (e : Fault ValidationError)
    (h : sumValues total outputs = .error e) : e = .err .outputValueOverflow := by
  induction outputs generalizing total with
  | nil => simp [sumValues] at h
  | cons output rest ih =>
    simp only [sumValues, Res.bind_eq_error, Res.okOr_eq_error] at h
    rcases h with ⟨_, h⟩ | ⟨t, _, h⟩
    · exact h
    · exact ih t h

theorem sumOutputs_eq_ok (tx : Transaction) (value : UInt64) :
    sumOutputs tx.outputs = .ok value ↔ value.toNat = tx.outputTotal := by
  rw [sumOutputs, sumValues_eq_ok]
  simp [Transaction.outputTotal]

namespace UtxoSet

/-- The value held at an outpoint, zero where nothing is held. -/
def valueAt (utxos : UtxoSet) (outpoint : OutPoint) : Nat :=
  (utxos.get outpoint).elim 0 fun utxo => utxo.output.value.toNat

def totalValue (utxos : UtxoSet) : Nat := utxos.total fun utxo => utxo.output.value.toNat

@[simp] theorem totalValue_new : UtxoSet.totalValue HashMap.new = 0 :=
  HashMap.total_new _

def inputTotal (utxos : UtxoSet) (tx : Transaction) : Nat := (tx.spends.map utxos.valueAt).sum

/-- Inputs minus outputs, as a natural. -/
def feeOf (utxos : UtxoSet) (tx : Transaction) : Nat := utxos.inputTotal tx - tx.outputTotal

variable [Crypto]

/-- The outpoint is held, and the unlocking data is a signature of `digest` under the key
that locks it. -/
def Authorizes (utxos : UtxoSet) (digest : Bytes32) (input : TxIn) : Prop :=
  ∃ utxo key signature, utxos.get input.previousOutput = some utxo ∧
    parseVerifyingKey utxo.output.lockingData = some key ∧
    parseSignature input.unlockingData = some signature ∧
    verifyMessage signature key digest.toList = true

/-- The rules for spending: distinct held outpoints, each authorized, worth at least what
is paid out. -/
structure Spendable (utxos : UtxoSet) (tx : Transaction) : Prop where
  fits : tx.Fits false
  distinct : tx.spends.Nodup
  authorized : ∀ input ∈ tx.inputs, utxos.Authorizes tx.digest input
  bounded : utxos.inputTotal tx < 2^64
  covered : tx.outputTotal ≤ utxos.inputTotal tx

/-- The transactions validation accepts. -/
structure Valid (utxos : UtxoSet) (tx : Transaction) : Prop where
  outputs : tx.outputs ≠ []
  bounded : tx.outputTotal < 2^64
  spends : tx.inputs = [] ∨ utxos.Spendable tx

theorem Valid.held {utxos : UtxoSet} {tx : Transaction} (hv : utxos.Valid tx) (o : OutPoint)
    (ho : o ∈ tx.spends) : ∃ u, utxos.get o = some u := by
  obtain ⟨input, hi, rfl⟩ := List.mem_map.mp ho
  rcases hv.spends with hnil | hs
  · rw [hnil] at hi
    cases hi
  · obtain ⟨u, _, _, hu, -⟩ := hs.authorized input hi
    exact ⟨u, hu⟩

theorem Valid.nodup {utxos : UtxoSet} {tx : Transaction} (hv : utxos.Valid tx) :
    tx.spends.Nodup := by
  rcases hv.spends with hnil | hs
  · simp [Transaction.spends, hnil]
  · exact hs.distinct

theorem resolveInputs_eq_ok (utxos : UtxoSet) (digest : Bytes32) (inputs : List TxIn)
    (seen : List OutPoint) (total value : UInt64) :
    utxos.resolveInputs digest inputs seen total = .ok value ↔
      (inputs.map TxIn.previousOutput).Nodup ∧
      (∀ input ∈ inputs, input.previousOutput ∉ seen) ∧
      (∀ input ∈ inputs, utxos.Authorizes digest input) ∧
      value.toNat = total.toNat +
        (inputs.map fun input => utxos.valueAt input.previousOutput).sum := by
  induction inputs generalizing seen total with
  | nil => simp [resolveInputs, ← UInt64.toNat_inj, eq_comm]
  | cons input rest ih =>
    rw [resolveInputs]
    by_cases hs : input.previousOutput ∈ seen
    · simp [hs]
    simp only [hs, if_false, Res.bind_eq_ok, Res.okOr_eq_ok, List.map_cons, List.nodup_cons,
      List.forall_mem_cons, not_false_eq_true, true_and, List.sum_cons]
    constructor
    · rintro ⟨utxo, hu, key, hk, sig, hg, h⟩
      split_ifs at h with hv
      obtain ⟨t, ht, h⟩ := (Res.bind_eq_ok _ _ _).mp h
      rw [Res.okOr_eq_ok, checkedAdd_eq_some] at ht
      obtain ⟨hn, hd, ha, he⟩ := (ih _ _).mp h
      have hval : utxos.valueAt input.previousOutput = utxo.output.value.toNat := by
        simp [valueAt, hu]
      refine ⟨⟨?_, hn⟩, fun i hi hm => hd i hi (by simp [hm]),
        ⟨⟨utxo, key, sig, hu, hk, hg, by simpa using hv⟩, ha⟩, by omega⟩
      intro hm
      obtain ⟨i, hi, hp⟩ := List.mem_map.mp hm
      exact hd i hi (by simp [hp])
    · rintro ⟨⟨hm, hn⟩, hd, ⟨⟨utxo, key, sig, hu, hk, hg, hv⟩, ha⟩, he⟩
      have hval : utxos.valueAt input.previousOutput = utxo.output.value.toNat := by
        simp [valueAt, hu]
      have hlt := value.toNat_lt
      have hb : total.toNat + utxo.output.value.toNat < 2^64 := by omega
      refine ⟨utxo, hu, key, hk, sig, hg, ?_⟩
      rw [if_neg (by simp [hv]), Res.bind_eq_ok]
      refine ⟨total + utxo.output.value, ?_, (ih _ _).mpr ⟨hn, ?_, ha, ?_⟩⟩
      · rw [Res.okOr_eq_ok, checkedAdd_eq_some, toNat_add_of_lt _ _ hb]
      · intro i hi hs
        rcases List.mem_cons.mp hs with hp | hs
        · exact hm (hp ▸ List.mem_map_of_mem hi)
        · exact hd i hi hs
      · rw [toNat_add_of_lt _ _ hb]
        omega

theorem validateTransactionInner_eq_ok (utxos : UtxoSet) (tx : Transaction)
    (r : ValidationResult) :
    utxos.validateTransactionInner tx = .ok r ↔
      utxos.Valid tx ∧ r.spentInputs = tx.spends ∧ r.fee.toNat = utxos.feeOf tx := by
  have hsum : (tx.inputs.map fun input => utxos.valueAt input.previousOutput).sum =
      utxos.inputTotal tx := by
    simp [inputTotal, Transaction.spends, Function.comp_def]
  rw [validateTransactionInner]
  by_cases ho : tx.outputs = []
  · simp only [ho, List.isEmpty_nil, if_true, reduceCtorEq, false_iff]
    exact fun h => h.1.outputs ho
  simp only [List.isEmpty_iff, ho, if_false, Res.bind_eq_ok, sumOutputs_eq_ok]
  constructor
  · rintro ⟨out, hout, h⟩
    have hb : tx.outputTotal < 2^64 := hout ▸ out.toNat_lt
    split_ifs at h with hc
    · obtain rfl := Except.ok.inj h
      have hi := tx.isCoinbase_iff.mp hc
      exact ⟨⟨ho, hb, .inl hi⟩, by simp [Transaction.spends, hi],
        by simp [feeOf, inputTotal, Transaction.spends, hi]⟩
    · simp only [Res.bind_eq_ok, Transaction.signingDigest_eq] at h
      obtain ⟨d, hd, v, hv, h⟩ := h
      split_ifs at hd with hf
      obtain rfl := Except.ok.inj hd
      split_ifs at h with hlt
      obtain rfl := Except.ok.inj h
      obtain ⟨hn, -, ha, he⟩ := (resolveInputs_eq_ok _ _ _ _ _ _).mp hv
      rw [hsum, UInt64.toNat_zero, zero_add] at he
      have hle : out.toNat ≤ v.toNat := Nat.le_of_not_lt fun h => hlt (UInt64.lt_iff_toNat_lt.mpr h)
      refine ⟨⟨ho, hb, .inr ⟨hf, hn, ha, he ▸ v.toNat_lt, by omega⟩⟩, rfl, ?_⟩
      change (v - out).toNat = _
      rw [UInt64.toNat_sub_of_le _ _ (UInt64.le_iff_toNat_le.mpr hle), feeOf, he, hout]
  · rintro ⟨⟨-, hb, hs⟩, hr, hfee⟩
    refine ⟨UInt64.ofNat tx.outputTotal, UInt64.toNat_ofNat_of_lt' hb, ?_⟩
    by_cases hi : tx.inputs = []
    · have hz : r.fee = 0 := by
        rw [← UInt64.toNat_inj, hfee]
        simp [feeOf, inputTotal, Transaction.spends, hi]
      have hr' : r.spentInputs = [] := by rw [hr]; simp [Transaction.spends, hi]
      rw [if_pos (tx.isCoinbase_iff.mpr hi)]
      cases r
      simp_all
    · obtain ⟨hf, hn, ha, hib, hle⟩ := hs.resolve_left hi
      have hc : tx.isCoinbase ≠ true := fun h => hi (tx.isCoinbase_iff.mp h)
      have hv := UInt64.toNat_ofNat_of_lt' hib
      have hout := UInt64.toNat_ofNat_of_lt' hb
      rw [if_neg hc, Transaction.signingDigest_eq, if_pos hf, Res.ok_bind, Res.bind_eq_ok]
      refine ⟨UInt64.ofNat (utxos.inputTotal tx), (resolveInputs_eq_ok _ _ _ _ _ _).mpr
        ⟨hn, by simp, ha, ?_⟩, ?_⟩
      · rw [hsum, hv, UInt64.toNat_zero, zero_add]
      · have hle' : UInt64.ofNat tx.outputTotal ≤ UInt64.ofNat (utxos.inputTotal tx) := by
          rw [UInt64.le_iff_toNat_le, hv, hout]
          exact hle
        have hfe : UInt64.ofNat (utxos.inputTotal tx) - UInt64.ofNat tx.outputTotal = r.fee := by
          rw [← UInt64.toNat_inj, UInt64.toNat_sub_of_le _ _ hle', hv, hout, hfee, feeOf]
        rw [if_neg (UInt64.not_lt.mpr hle'), hfe, ← hr]

theorem feeOf_lt (utxos : UtxoSet) (tx : Transaction) (hv : utxos.Valid tx) :
    utxos.feeOf tx < 2^64 := by
  rcases hv.spends with hi | hs
  · simp [feeOf, inputTotal, Transaction.spends, hi]
  · exact (Nat.sub_le _ _).trans_lt hs.bounded

theorem validateTransaction_eq_ok (utxos : UtxoSet) (tx : Transaction) :
    utxos.validateTransaction tx = .ok () ↔ utxos.Valid tx := by
  simp only [validateTransaction, Res.bind_eq_ok, Res.pure_eq_ok,
    validateTransactionInner_eq_ok, and_true]
  constructor
  · rintro ⟨r, hv, -⟩
    exact hv
  · intro hv
    exact ⟨⟨tx.spends, UInt64.ofNat (utxos.feeOf tx)⟩, hv, rfl,
      UInt64.toNat_ofNat_of_lt' (utxos.feeOf_lt tx hv)⟩

theorem resolveInputs_returned (utxos : UtxoSet) (digest : Bytes32) (inputs : List TxIn)
    (seen : List OutPoint) (total : UInt64) :
    Res.Returned (utxos.resolveInputs digest inputs seen total) := by
  induction inputs generalizing seen total with
  | nil =>
    intro m h
    cases h
  | cons input rest ih =>
    intro m h
    simp only [resolveInputs] at h
    split_ifs at h with hs
    · cases h
    simp only [Res.bind_eq_error, Res.okOr_eq_error] at h
    rcases h with ⟨-, h⟩ | ⟨utxo, -, ⟨-, h⟩ | ⟨key, -, ⟨-, h⟩ | ⟨sig, -, h⟩⟩⟩
    · cases h
    · cases h
    · cases h
    split_ifs at h with hv
    · cases h
    simp only [Res.bind_eq_error, Res.okOr_eq_error] at h
    rcases h with ⟨-, h⟩ | ⟨t, -, h⟩
    · cases h
    · exact ih _ _ m h

/-- Validation panics only in the encoder, on a length of 2^32 or more. -/
theorem validateTransactionInner_returned (utxos : UtxoSet) (tx : Transaction)
    (hf : tx.Fits false) : Res.Returned (utxos.validateTransactionInner tx) := by
  intro m h
  rw [validateTransactionInner] at h
  by_cases ho : tx.outputs.isEmpty = true
  · rw [if_pos ho] at h
    cases h
  rw [if_neg ho] at h
  rcases (Res.bind_eq_error _ _ _).mp h with h | ⟨out, -, h⟩
  · cases sumValues_eq_error _ _ _ h
  by_cases hc : tx.isCoinbase = true
  · rw [if_pos hc] at h
    cases h
  rw [if_neg hc] at h
  rw [Transaction.signingDigest_eq, if_pos hf, Res.ok_bind] at h
  rcases (Res.bind_eq_error _ _ _).mp h with h | ⟨v, -, h⟩
  · exact utxos.resolveInputs_returned _ _ _ _ m h
  split_ifs at h
  cases h

theorem validateTransaction_isOk {ε : Type} (utxos : UtxoSet) (tx : Transaction)
    (hf : tx.Fits false) [Decidable (utxos.Valid tx)] :
    (Res.isOk (utxos.validateTransaction tx) : Res ε Bool) = .ok (decide (utxos.Valid tx)) := by
  have hok := utxos.validateTransaction_eq_ok tx
  rcases h : utxos.validateTransaction tx with (e | m) | u
  · have hnv : ¬ utxos.Valid tx := fun hv => by simp [hok.mpr hv] at h
    simp [hnv]
  · rcases (Res.bind_eq_error _ _ _).mp h with h | ⟨r, -, h⟩
    · exact absurd h (utxos.validateTransactionInner_returned tx hf m)
    · cases h
  · simp [hok.mp h]

theorem transactionFee_eq_ok (utxos : UtxoSet) (tx : Transaction) (fee : UInt64) :
    utxos.transactionFee tx = .ok fee ↔ utxos.Valid tx ∧ fee.toNat = utxos.feeOf tx := by
  simp only [transactionFee, Res.bind_eq_ok, Res.pure_eq_ok, validateTransactionInner_eq_ok,
    Except.ok.injEq]
  constructor
  · rintro ⟨r, ⟨hv, -, hf⟩, rfl⟩
    exact ⟨hv, hf⟩
  · rintro ⟨hv, hf⟩
    exact ⟨⟨tx.spends, fee⟩, ⟨hv, rfl, hf⟩, rfl⟩

end UtxoSet

/-- The records for a list of outputs whose first has index `vout`. -/
def createdFrom (txid : Txid) (height : Nat) (isCoinbase : Bool) :
    Nat → List TxOut → List (OutPoint × Utxo)
  | _, [] => []
  | vout, output :: rest =>
    (⟨txid, UInt32.ofNat vout⟩, ⟨⟨txid, UInt32.ofNat vout⟩, output, height, isCoinbase⟩) ::
      createdFrom txid height isCoinbase (vout + 1) rest

theorem mem_createdFrom (txid : Txid) (height : Nat) (isCoinbase : Bool) (vout : Nat)
    (outputs : List TxOut) (o : OutPoint) (u : Utxo) :
    (o, u) ∈ createdFrom txid height isCoinbase vout outputs ↔
      ∃ i output, outputs[i]? = some output ∧ o = ⟨txid, UInt32.ofNat (vout + i)⟩ ∧
        u = ⟨o, output, height, isCoinbase⟩ := by
  induction outputs generalizing vout with
  | nil => simp [createdFrom]
  | cons output rest ih =>
    rw [createdFrom, List.mem_cons, ih]
    constructor
    · rintro (h | ⟨i, out, hi, ho, hu⟩)
      · obtain ⟨rfl, rfl⟩ := Prod.mk.inj h
        exact ⟨0, output, by simp⟩
      · exact ⟨i + 1, out, by simpa using hi, by rw [ho]; congr 2; omega, hu⟩
    · rintro ⟨i, out, hi, ho, hu⟩
      cases i with
      | zero =>
        obtain rfl : output = out := by simpa using hi
        exact .inl (by rw [hu, ho]; simp)
      | succ i =>
        exact .inr ⟨i, out, by simpa using hi, by rw [ho]; congr 2; omega, hu⟩

theorem createdFrom_keys_nodup (txid : Txid) (height : Nat) (isCoinbase : Bool) (vout : Nat)
    (outputs : List TxOut) (h : vout + outputs.length ≤ 2^32) :
    ((createdFrom txid height isCoinbase vout outputs).map Prod.fst).Nodup := by
  induction outputs generalizing vout with
  | nil => simp [createdFrom]
  | cons output rest ih =>
    simp only [List.length_cons] at h
    rw [createdFrom, List.map_cons, List.nodup_cons]
    refine ⟨fun hm => ?_, ih (vout + 1) (by omega)⟩
    obtain ⟨⟨o, u⟩, hou, ho⟩ := List.mem_map.mp hm
    obtain ⟨i, out, hi, he, -⟩ := (mem_createdFrom _ _ _ _ _ _ _).mp hou
    have hlt : i < rest.length := (List.getElem?_eq_some_iff.mp hi).1
    have hv : UInt32.ofNat (vout + 1 + i) = UInt32.ofNat vout :=
      (congrArg OutPoint.vout (he.symm.trans ho) :)
    have hn := congrArg UInt32.toNat hv
    rw [UInt32.toNat_ofNat_of_lt' (by rw [UInt32.size]; omega),
      UInt32.toNat_ofNat_of_lt' (by rw [UInt32.size]; omega)] at hn
    omega

theorem insertOutputs_eq {ε : Type} (txid : Txid) (height : Nat) (isCoinbase : Bool)
    (vout : Nat) (outputs : List TxOut) (utxos : UtxoSet) (h : vout + outputs.length ≤ 2^32) :
    (UtxoSet.insertOutputs txid height isCoinbase vout outputs utxos : Res ε UtxoSet) =
      .ok (utxos.insertAll (createdFrom txid height isCoinbase vout outputs)) := by
  induction outputs generalizing vout utxos with
  | nil => rfl
  | cons output rest ih =>
    simp only [List.length_cons] at h
    rw [UtxoSet.insertOutputs, if_pos (by omega), ih _ _ (by omega)]
    rfl

section Apply

variable [Crypto]

/-- The records a transaction leaves behind in a block at `height`. -/
def Transaction.created (tx : Transaction) (height : Nat) : List (OutPoint × Utxo) :=
  createdFrom tx.id height tx.isCoinbase 0 tx.outputs

theorem Transaction.mem_created (tx : Transaction) (height : Nat) (hf : tx.Fits true)
    (o : OutPoint) (u : Utxo) :
    (o, u) ∈ tx.created height ↔ o.txid = tx.id ∧
      ∃ output, tx.outputs[o.vout.toNat]? = some output ∧
        u = ⟨o, output, height, tx.isCoinbase⟩ := by
  rw [created, mem_createdFrom]
  constructor
  · rintro ⟨i, output, hi, rfl, hu⟩
    have hlt : i < tx.outputs.length := (List.getElem?_eq_some_iff.mp hi).1
    have hfit := hf.2.2.1
    refine ⟨rfl, output, ?_, hu⟩
    rw [zero_add, UInt32.toNat_ofNat_of_lt' (by rw [UInt32.size]; omega)]
    exact hi
  · rintro ⟨ht, output, hi, hu⟩
    refine ⟨o.vout.toNat, output, hi, ?_, hu⟩
    rw [zero_add, ← ht, UInt32.ofNat_toNat]

theorem Transaction.created_keys_nodup (tx : Transaction) (height : Nat) (hf : tx.Fits true) :
    ((tx.created height).map Prod.fst).Nodup :=
  createdFrom_keys_nodup _ _ _ _ _ (by have := hf.2.2.1; omega)

theorem Transaction.created_outputs (tx : Transaction) (height : Nat) :
    (tx.created height).map (fun kv => kv.2.output) = tx.outputs := by
  have hg : ∀ (outputs : List TxOut) (vout : Nat),
      (createdFrom tx.id height tx.isCoinbase vout outputs).map (fun kv => kv.2.output) =
        outputs := by
    intro outputs
    induction outputs with
    | nil => intro _; rfl
    | cons output rest ih => intro vout; simp [createdFrom, ih]
  exact hg tx.outputs 0

theorem Transaction.created_values (tx : Transaction) (height : Nat) :
    ((tx.created height).map fun kv => kv.2.output.value.toNat).sum = tx.outputTotal := by
  rw [outputTotal]
  conv_rhs => rw [← tx.created_outputs height, List.map_map]
  rfl

/-- Spent outpoints leave, created ones come in. -/
def UtxoSet.after (utxos : UtxoSet) (tx : Transaction) (height : Nat) : UtxoSet :=
  (utxos.removeAll tx.spends).insertAll (tx.created height)

theorem UtxoSet.applyTransaction_eq_ok (utxos utxos' : UtxoSet) (tx : Transaction)
    (height : Nat) :
    utxos.applyTransaction tx height = .ok utxos' ↔
      utxos.Valid tx ∧ tx.Fits true ∧ utxos' = utxos.after tx height := by
  have hrem : ∀ r : ValidationResult, r.spentInputs = tx.spends →
      (if !tx.isCoinbase then utxos.removeAll r.spentInputs else utxos) =
        utxos.removeAll tx.spends := by
    intro r hr
    cases hc : tx.isCoinbase with
    | false => simp [hr]
    | true => simp [Transaction.spends, tx.isCoinbase_iff.mp hc, HashMap.removeAll]
  have hins : ∀ U : UtxoSet, tx.Fits true →
      (insertOutputs tx.id height tx.isCoinbase 0 tx.outputs U : Res ValidationError UtxoSet) =
        .ok (U.insertAll (tx.created height)) := fun U hf =>
    insertOutputs_eq _ _ _ _ _ _ (by have := hf.2.2.1; omega)
  simp only [applyTransaction, Res.bind_eq_ok, validateTransactionInner_eq_ok,
    Transaction.txid_eq_ok]
  constructor
  · rintro ⟨r, ⟨hv, hr, -⟩, txid, ⟨hf, rfl⟩, h⟩
    rw [hrem r hr, hins _ hf] at h
    exact ⟨hv, hf, (Except.ok.inj h).symm⟩
  · rintro ⟨hv, hf, rfl⟩
    obtain ⟨r, hr⟩ := (Res.bind_eq_ok _ _ _).mp ((validateTransaction_eq_ok utxos tx).mpr hv)
    have hr' := (validateTransactionInner_eq_ok utxos tx r).mp hr.1
    exact ⟨r, hr', tx.id, ⟨hf, rfl⟩, by rw [hrem r hr'.2.1, hins _ hf]; rfl⟩

end Apply

end Wobble
