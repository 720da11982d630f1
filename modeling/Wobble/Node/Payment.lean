import Wobble.Node.Runs

namespace Wobble

open Rust

section Cover

variable {α β : Type} (weight : α → Nat) (amount : Nat)

/-- Takes from the list until `amount` is covered, with `total` covered already. The check comes
after each taking. -/
def cover : Nat → List α → List α
  | _, [] => []
  | total, x :: rest =>
    x :: if amount ≤ total + weight x then [] else cover (total + weight x) rest

theorem cover_map (f : β → α) (total : Nat) (l : List β) :
    cover weight amount total (l.map f) = (cover (weight ∘ f) amount total l).map f := by
  induction l generalizing total with
  | nil => rfl
  | cons x rest ih =>
    rw [List.map_cons, cover, cover, List.map_cons, ih]
    simp only [Function.comp_apply]
    split_ifs <;> rfl

theorem cover_isPrefix (total : Nat) (l : List α) : (cover weight amount total l) <+: l := by
  induction l generalizing total with
  | nil => exact List.prefix_rfl
  | cons x rest ih =>
    rw [cover, List.prefix_cons_inj]
    split_ifs
    · exact List.nil_prefix
    · exact ih _

theorem cover_eq_nil (total : Nat) (l : List α) : cover weight amount total l = [] ↔ l = [] := by
  cases l <;> simp [cover]

/-- Whatever the whole list covers, the part taken covers. -/
theorem le_cover_sum (total : Nat) (l : List α) (h : amount ≤ total + (l.map weight).sum) :
    amount ≤ total + ((cover weight amount total l).map weight).sum := by
  induction l generalizing total with
  | nil => exact h
  | cons x rest ih =>
    rw [cover]
    rw [List.map_cons, List.sum_cons] at h ⊢
    split_ifs with hx
    · rw [List.map_nil, List.sum_nil]
      exact hx
    · have hrest := ih (total + weight x) (by omega)
      omega

theorem cover_eq_self (total : Nat) (l : List α) (h : total + (l.map weight).sum < amount) :
    cover weight amount total l = l := by
  induction l generalizing total with
  | nil => rfl
  | cons x rest ih =>
    rw [List.map_cons, List.sum_cons] at h
    rw [cover, if_neg (by omega), ih _ (by omega)]

/-- No shorter part of the list that takes anything covers the amount. -/
theorem cover_length_le (total : Nat) (l shorter : List α) (hp : shorter <+: l)
    (hne : shorter ≠ []) (h : amount ≤ total + (shorter.map weight).sum) :
    (cover weight amount total l).length ≤ shorter.length := by
  induction l generalizing total shorter with
  | nil => exact Nat.zero_le _
  | cons x rest ih =>
    obtain ⟨y, shorter, rfl⟩ := List.exists_cons_of_ne_nil hne
    obtain ⟨rfl, hrest⟩ := List.cons_prefix_cons.mp hp
    rw [List.map_cons, List.sum_cons] at h
    rw [cover, List.length_cons, List.length_cons]
    split_ifs with hx
    · simp
    · have hne' : shorter ≠ [] := by
        rintro rfl
        exact hx (by simpa using h)
      have hlen := ih (total + weight y) shorter hrest hne' (by omega)
      omega

end Cover

section Payment

variable [Crypto]

/-- The locking data of outputs a signing key can spend. -/
def lockOf (key : SigningKey) : Bytes := (verifyingKeyBytes (Crypto.verifyingKey key)).toList

def coinValue (entry : OutPoint × Utxo) : Nat := entry.2.output.value.toNat

/-- The outputs locked to any of the keys, in the order of their outpoints. -/
def UtxoSet.lockedTo (utxos : UtxoSet) (keys : List SigningKey) : List (OutPoint × Utxo) :=
  utxos.iter.filter fun entry => (keys.map lockOf).contains entry.2.output.lockingData

/-- The first of the keys that spends an output. -/
def signer (keys : List SigningKey) (utxo : Utxo) : Option SigningKey :=
  keys.find? fun key => lockOf key == utxo.output.lockingData

/-- Those of the entries that the keys can spend, each with its key. -/
def signable (keys : List SigningKey) (entries : List (OutPoint × Utxo)) :
    List ((OutPoint × Utxo) × SigningKey) :=
  entries.filterMap fun entry => (signer keys entry.2).map fun key => (entry, key)

theorem signable_map_fst (keys : List SigningKey) (entries : List (OutPoint × Utxo)) :
    (signable keys entries).map Prod.fst =
      entries.filter fun entry => (keys.map lockOf).contains entry.2.output.lockingData := by
  induction entries with
  | nil => rfl
  | cons entry rest ih =>
    have hfound : (signer keys entry.2).isSome =
        (keys.map lockOf).contains entry.2.output.lockingData := by
      rw [Bool.eq_iff_iff, signer, List.find?_isSome, List.contains_iff_mem, List.mem_map]
      simp only [beq_iff_eq]
    rw [signable, List.filterMap_cons, List.filter_cons, ← hfound, ← ih]
    cases signer keys entry.2 <;> rfl

theorem lockedTo_sum_le (utxos : UtxoSet) (keys : List SigningKey) :
    ((utxos.lockedTo keys).map coinValue).sum ≤ utxos.totalValue := by
  rw [UtxoSet.totalValue, HashMap.total_eq_iter]
  exact (List.filter_sublist.map coinValue).sum_le_sum fun _ _ => Nat.zero_le _

/-- The loop takes outputs of the senders until the amount is covered. -/
theorem selectInputs_eq (utxos : UtxoSet) (keys : List SigningKey) (amount : UInt64)
    (entries : List (OutPoint × Utxo)) (hget : ∀ entry ∈ entries, utxos.get entry.1 = some entry.2)
    (selected : List (OutPoint × SigningKey)) (total : UInt64)
    (hb : total.toNat + ((signable keys entries).map fun c => coinValue c.1).sum < 2^64) :
    selectInputs utxos (keys.map fun key => (lockOf key, key)) amount (entries.map Prod.fst)
        selected total =
      (selected ++ (cover (fun c => coinValue c.1) amount.toNat total.toNat
          (signable keys entries)).map (fun c => (c.1.1, c.2)),
        UInt64.ofNat (total.toNat + ((cover (fun c => coinValue c.1) amount.toNat total.toNat
          (signable keys entries)).map fun c => coinValue c.1).sum)) := by
  induction entries generalizing selected total with
  | nil => simp [selectInputs, signable, cover]
  | cons entry rest ih =>
    obtain ⟨hentry, hrest⟩ := List.forall_mem_cons.mp hget
    have hfind : ((keys.map fun key => (lockOf key, key)).find? fun sender =>
        sender.1 == entry.2.output.lockingData) =
          (signer keys entry.2).map fun key => (lockOf key, key) := by
      rw [List.find?_map]
      rfl
    rw [List.map_cons, selectInputs, hentry]
    dsimp only
    rw [hfind]
    cases hs : signer keys entry.2 with
    | none =>
      have hskip : signable keys (entry :: rest) = signable keys rest := by
        rw [signable, List.filterMap_cons, hs]
        rfl
      rw [hskip] at hb ⊢
      exact ih hrest selected total hb
    | some key =>
      have htake : signable keys (entry :: rest) = (entry, key) :: signable keys rest := by
        rw [signable, List.filterMap_cons, hs]
        rfl
      rw [htake] at hb ⊢
      rw [List.map_cons, List.sum_cons] at hb
      change total.toNat + (coinValue entry + _) < _ at hb
      have hadd : total.toNat + coinValue entry < 2^64 := by omega
      have hval : (saturatingAdd total entry.2.output.value).toNat =
          total.toNat + coinValue entry := by
        rw [coinValue] at hadd ⊢
        rw [saturatingAdd, if_pos hadd, toNat_add_of_lt _ _ hadd]
      rw [Option.map_some, cover]
      dsimp only
      by_cases hle : amount ≤ saturatingAdd total entry.2.output.value
      · have hle' := UInt64.le_iff_toNat_le.mp hle
        rw [hval] at hle'
        rw [if_pos hle, if_pos hle']
        simp [← hval]
      · have hle' := fun h => hle (UInt64.le_iff_toNat_le.mpr (hval.symm ▸ h))
        rw [if_neg hle, if_neg hle', ih hrest _ _ (by rw [hval]; omega), hval]
        simp [Nat.add_assoc]

/-- What the transaction pays: the amount, and the change if there is any. -/
def paymentOutputs (change recipient : VerifyingKey) (amount total : UInt64) : List TxOut :=
  ⟨amount, (verifyingKeyBytes recipient).toList⟩ ::
    if 0 < total - amount then [⟨total - amount, (verifyingKeyBytes change).toList⟩] else []

def unsignedPayment (chosen : List ((OutPoint × Utxo) × SigningKey)) (outputs : List TxOut)
    (uniqueness : UInt32) : Transaction :=
  ⟨1, chosen.map fun c => ⟨c.1.1, []⟩, outputs, uniqueness⟩

/-- The signatures are on the digest of the transaction without them. -/
def signedPayment (chosen : List ((OutPoint × Utxo) × SigningKey)) (outputs : List TxOut)
    (uniqueness : UInt32) : Transaction :=
  { unsignedPayment chosen outputs uniqueness with
    inputs := chosen.map fun c =>
      ⟨c.1.1, (signMessage c.2 (unsignedPayment chosen outputs uniqueness).digest.toList).toList⟩ }

theorem signedPayment_spends (chosen : List ((OutPoint × Utxo) × SigningKey))
    (outputs : List TxOut) (uniqueness : UInt32) :
    (signedPayment chosen outputs uniqueness).spends = chosen.map fun c => c.1.1 := by
  simp [signedPayment, Transaction.spends]

/-- Signing does not change what was signed. -/
theorem signedPayment_digest (chosen : List ((OutPoint × Utxo) × SigningKey))
    (outputs : List TxOut) (uniqueness : UInt32) :
    (signedPayment chosen outputs uniqueness).digest =
      (unsignedPayment chosen outputs uniqueness).digest := by
  simp [Transaction.digest, Transaction.encoding, signedPayment, unsignedPayment, List.flatMap_map,
    TxIn.encoding, TxIn.visibleData]

theorem paymentOutputs_fit (change recipient : VerifyingKey) (amount total : UInt64) :
    (paymentOutputs change recipient amount total).length < 2^32 ∧
      ∀ output ∈ paymentOutputs change recipient amount total, output.lockingData.length < 2^32 := by
  unfold paymentOutputs
  split_ifs <;> simp

theorem unsignedPayment_fits (chosen : List ((OutPoint × Utxo) × SigningKey))
    (change recipient : VerifyingKey) (amount total : UInt64) (uniqueness : UInt32) :
    (unsignedPayment chosen (paymentOutputs change recipient amount total) uniqueness).Fits false ↔
      chosen.length < 2^32 := by
  have hout := paymentOutputs_fit change recipient amount total
  simp only [Transaction.Fits, unsignedPayment, List.length_map, TxIn.visibleData, hout.1, true_and]
  exact and_iff_left ⟨by simp, hout.2⟩

variable (utxos : UtxoSet) (keys : List SigningKey) (change recipient : VerifyingKey)
  (amount : UInt64) (uniqueness : UInt32)

/-- The outputs a payment of the amount spends, with the keys that sign for them. -/
def chosenCoins : List ((OutPoint × Utxo) × SigningKey) :=
  cover (fun c => coinValue c.1) amount.toNat 0 (signable keys utxos.iter)

def chosenTotal : Nat := ((chosenCoins utxos keys amount).map fun c => coinValue c.1).sum

theorem chosenCoins_fst : (chosenCoins utxos keys amount).map Prod.fst =
    cover coinValue amount.toNat 0 (utxos.lockedTo keys) := by
  rw [UtxoSet.lockedTo, ← signable_map_fst, cover_map]
  rfl

theorem chosenTotal_eq : chosenTotal utxos keys amount =
    ((cover coinValue amount.toNat 0 (utxos.lockedTo keys)).map coinValue).sum := by
  rw [← chosenCoins_fst, List.map_map]
  rfl

theorem chosenTotal_le : chosenTotal utxos keys amount ≤
    ((utxos.lockedTo keys).map coinValue).sum := by
  rw [chosenTotal_eq]
  exact ((cover_isPrefix _ _ _ _).sublist.map coinValue).sum_le_sum fun _ _ => Nat.zero_le _

theorem buildPaymentTransaction_eq (hb : utxos.totalValue < 2^64) :
    buildPaymentTransaction utxos keys change recipient amount uniqueness =
      if chosenTotal utxos keys amount < amount.toNat then
        .error (.err (.insufficientFunds amount (UInt64.ofNat (chosenTotal utxos keys amount))))
      else if (chosenCoins utxos keys amount).length < 2^32 then
        .ok (signedPayment (chosenCoins utxos keys amount) (paymentOutputs change recipient amount
          (UInt64.ofNat (chosenTotal utxos keys amount))) uniqueness)
      else .error (.panic tooLong) := by
  have hle := lockedTo_sum_le utxos keys
  have hsum : ((signable keys utxos.iter).map fun c => coinValue c.1).sum =
      ((utxos.lockedTo keys).map coinValue).sum := by
    rw [UtxoSet.lockedTo, ← signable_map_fst, List.map_map]
    rfl
  have hnat : (UInt64.ofNat (chosenTotal utxos keys amount)).toNat =
      chosenTotal utxos keys amount :=
    UInt64.toNat_ofNat_of_lt' (((chosenTotal_le utxos keys amount).trans hle).trans_lt hb)
  have hsel := selectInputs_eq utxos keys amount utxos.iter
    (fun entry he => (HashMap.mem_iter utxos entry.1 entry.2).mp he) [] 0 (by
      rw [UInt64.toNat_zero, Nat.zero_add, hsum]
      exact hle.trans_lt hb)
  rw [UInt64.toNat_zero, Nat.zero_add, List.nil_append] at hsel
  have hsel' : selectInputs utxos (keys.map fun key =>
      ((verifyingKeyBytes (Crypto.verifyingKey key)).toList, key)) amount (utxos.iter.map Prod.fst)
        [] 0 = ((chosenCoins utxos keys amount).map (fun c => (c.1.1, c.2)),
          UInt64.ofNat (chosenTotal utxos keys amount)) := hsel
  have hdigest := (unsignedPayment (chosenCoins utxos keys amount) (paymentOutputs change recipient
    amount (UInt64.ofNat (chosenTotal utxos keys amount))) uniqueness).signingDigest_eq
      (ε := NodeStateError)
  unfold buildPaymentTransaction
  dsimp only
  rw [hsel']
  dsimp only
  by_cases hlow : chosenTotal utxos keys amount < amount.toNat
  · rw [if_pos hlow, if_pos (UInt64.lt_iff_toNat_lt.mpr (hnat.symm ▸ hlow))]
  rw [if_neg hlow, if_neg fun h => hlow (hnat ▸ UInt64.lt_iff_toNat_lt.mp h)]
  simp only [List.map_map, Function.comp_def]
  change ((unsignedPayment _ (paymentOutputs change recipient amount _) uniqueness).signingDigest
    >>= _) = _
  rw [hdigest]
  simp only [unsignedPayment_fits]
  by_cases hn : (chosenCoins utxos keys amount).length < 2^32
  · rw [if_pos hn, if_pos hn]
    rfl
  · rw [if_neg hn, if_neg hn]
    rfl

/-- A part of the list that covers the amount, and no shorter one than has to be. The code takes
one output even for an amount of zero, if there is one. -/
structure ShortestCover (coins : List (OutPoint × Utxo)) (amount : Nat)
    (chosen : List (OutPoint × Utxo)) : Prop where
  isPrefix : chosen <+: coins
  covers : amount ≤ (chosen.map coinValue).sum
  shortest : ∀ shorter, shorter <+: coins → shorter ≠ [] →
    amount ≤ (shorter.map coinValue).sum → chosen.length ≤ shorter.length
  nonempty : coins ≠ [] → chosen ≠ []

/-- The transaction moves the amount from the chosen outputs to the recipient, the rest to the
change key, and the node accepts it. -/
structure IsPayment (chosen : List (OutPoint × Utxo)) (tx : Transaction) : Prop where
  spends : tx.spends = chosen.map Prod.fst
  distinct : tx.spends.Nodup
  outputs : ∃ rest, tx.outputs = ⟨amount, (verifyingKeyBytes recipient).toList⟩ :: rest ∧
    (rest = [] ∨ ∃ value, rest = [⟨value, (verifyingKeyBytes change).toList⟩])
  balanced : tx.outputTotal = utxos.inputTotal tx
  lockTime : tx.lockTime = uniqueness
  accepted : utxos.validateTransaction tx = .ok ()

section Chosen

variable {utxos keys amount}

theorem mem_signable {entries : List (OutPoint × Utxo)} {c : (OutPoint × Utxo) × SigningKey}
    (h : c ∈ signable keys entries) :
    c.1 ∈ entries ∧ c.2 ∈ keys ∧ lockOf c.2 = c.1.2.output.lockingData := by
  obtain ⟨entry, he, hs⟩ := List.mem_filterMap.mp h
  obtain ⟨key, hkey, rfl⟩ := Option.map_eq_some_iff.mp hs
  have hlock := List.find?_some hkey
  exact ⟨he, List.mem_of_find?_eq_some hkey, eq_of_beq hlock⟩

theorem mem_chosenCoins {c : (OutPoint × Utxo) × SigningKey}
    (h : c ∈ chosenCoins utxos keys amount) :
    utxos.get c.1.1 = some c.1.2 ∧ c.2 ∈ keys ∧ lockOf c.2 = c.1.2.output.lockingData := by
  obtain ⟨he, hkey⟩ := mem_signable ((cover_isPrefix _ _ _ _).subset h)
  exact ⟨(HashMap.mem_iter utxos c.1.1 c.1.2).mp he, hkey⟩

theorem chosenCoins_shortestCover
    (h : amount.toNat ≤ ((utxos.lockedTo keys).map coinValue).sum) :
    ShortestCover (utxos.lockedTo keys) amount.toNat
      ((chosenCoins utxos keys amount).map Prod.fst) := by
  rw [chosenCoins_fst]
  constructor
  · exact cover_isPrefix _ _ _ _
  · have hle := le_cover_sum coinValue amount.toNat 0 (utxos.lockedTo keys) (by omega)
    omega
  · intro shorter hp hne hcovers
    exact cover_length_le _ _ 0 _ shorter hp hne (by omega)
  · intro hne hnil
    exact hne ((cover_eq_nil _ _ _ _).mp hnil)

theorem chosenCoins_nodup (utxos : UtxoSet) (keys : List SigningKey) (amount : UInt64) :
    ((chosenCoins utxos keys amount).map fun c => c.1.1).Nodup := by
  have hsub : ((chosenCoins utxos keys amount).map fun c => c.1.1).Sublist
      (utxos.iter.map Prod.fst) := by
    have hlocked := ((cover_isPrefix coinValue amount.toNat 0 (utxos.lockedTo keys)).sublist.trans
      List.filter_sublist).map Prod.fst
    rwa [← chosenCoins_fst, List.map_map] at hlocked
  exact (HashMap.iter_keys_nodup utxos).sublist hsub

end Chosen

variable {utxos keys change recipient amount uniqueness}

theorem paymentOutputs_total {total : UInt64} (h : amount ≤ total) :
    ((paymentOutputs change recipient amount total).map fun output => output.value.toNat).sum =
      total.toNat := by
  have hle := UInt64.le_iff_toNat_le.mp h
  have hsub : (total - amount).toNat = total.toNat - amount.toNat := UInt64.toNat_sub_of_le _ _ h
  unfold paymentOutputs
  split_ifs with hpos
  · simp only [List.map_cons, List.map_nil, List.sum_cons, List.sum_nil, hsub]
    omega
  · have hzero : ¬ 0 < (total - amount).toNat := fun h => hpos (UInt64.lt_iff_toNat_lt.mpr h)
    simp only [List.map_cons, List.map_nil, List.sum_cons, List.sum_nil]
    omega

theorem signedPayment_inputTotal (utxos : UtxoSet) (keys : List SigningKey) (amount : UInt64)
    (uniqueness : UInt32) (outputs : List TxOut) :
    utxos.inputTotal (signedPayment (chosenCoins utxos keys amount) outputs uniqueness) =
      chosenTotal utxos keys amount := by
  rw [UtxoSet.inputTotal, signedPayment_spends, List.map_map, chosenTotal]
  congr 1
  refine List.map_congr_left fun c hc => ?_
  simp [UtxoSet.valueAt, (mem_chosenCoins hc).1, coinValue]

theorem signedPayment_authorized (outputs : List TxOut)
    (hparse : ∀ key ∈ keys, Crypto.keyFromBytes (Crypto.keyToBytes (Crypto.verifyingKey key)) =
      some (Crypto.verifyingKey key))
    (hverify : ∀ key ∈ keys, ∀ message,
      Crypto.verify (Crypto.verifyingKey key) message (Crypto.sign key message) = true)
    (input : TxIn)
    (hi : input ∈ (signedPayment (chosenCoins utxos keys amount) outputs uniqueness).inputs) :
    utxos.Authorizes (signedPayment (chosenCoins utxos keys amount) outputs uniqueness).digest
      input := by
  obtain ⟨c, hc, rfl⟩ := List.mem_map.mp hi
  obtain ⟨hget, hkey, hlock⟩ := mem_chosenCoins hc
  refine ⟨c.1.2, Crypto.verifyingKey c.2, signMessage c.2 (unsignedPayment
    (chosenCoins utxos keys amount) outputs uniqueness).digest.toList, hget, ?_, ?_, ?_⟩
  · rw [← hlock, lockOf, parseVerifyingKey, dif_pos (List.Vector.toList_length _)]
    exact hparse c.2 hkey
  · rw [parseSignature, dif_pos (List.Vector.toList_length _)]
    rfl
  · rw [signedPayment_digest]
    exact hverify c.2 hkey _

section Result

variable (utxos keys amount)

theorem toNat_chosenTotal (hb : utxos.totalValue < 2^64) :
    (UInt64.ofNat (chosenTotal utxos keys amount)).toNat =
    chosenTotal utxos keys amount :=
  UInt64.toNat_ofNat_of_lt' (((chosenTotal_le utxos keys amount).trans
    (lockedTo_sum_le utxos keys)).trans_lt hb)

/-- What is chosen covers the amount exactly when all the senders own does. -/
theorem le_chosenTotal_iff : amount.toNat ≤ chosenTotal utxos keys amount ↔
    amount.toNat ≤ ((utxos.lockedTo keys).map coinValue).sum := by
  refine ⟨fun h => h.trans (chosenTotal_le utxos keys amount), fun h => ?_⟩
  have hle := (chosenCoins_shortestCover h).covers
  rwa [chosenCoins_fst, ← chosenTotal_eq] at hle

theorem chosenTotal_of_short (h : ((utxos.lockedTo keys).map coinValue).sum < amount.toNat) :
    chosenTotal utxos keys amount = ((utxos.lockedTo keys).map coinValue).sum := by
  rw [chosenTotal_eq, cover_eq_self _ _ _ _ (by omega)]

variable {utxos keys amount}

theorem insufficientFunds_iff (hb : utxos.totalValue < 2^64) (requested available : UInt64) :
    buildPaymentTransaction utxos keys change recipient amount uniqueness =
        .error (.err (.insufficientFunds requested available)) ↔
      ((utxos.lockedTo keys).map coinValue).sum < amount.toNat ∧ requested = amount ∧
        available.toNat = ((utxos.lockedTo keys).map coinValue).sum := by
  have hiff := (le_chosenTotal_iff utxos keys amount).not
  rw [not_le, not_le] at hiff
  rw [buildPaymentTransaction_eq utxos keys change recipient amount uniqueness hb, ← hiff]
  by_cases hlow : chosenTotal utxos keys amount < amount.toNat
  · have hshort := chosenTotal_of_short utxos keys amount (hiff.mp hlow)
    have hnat := toNat_chosenTotal utxos keys amount hb
    rw [if_pos hlow, ← hshort]
    constructor
    · intro h
      cases h
      exact ⟨hlow, rfl, hnat⟩
    · intro h
      obtain ⟨-, rfl, havailable⟩ := h
      rw [UInt64.toNat_inj.mp (havailable.trans hnat.symm)]
  · rw [if_neg hlow]
    split_ifs <;> simp [hlow]

theorem signedPayment_isPayment (hb : utxos.totalValue < 2^64)
    (hparse : ∀ key ∈ keys, Crypto.keyFromBytes (Crypto.keyToBytes (Crypto.verifyingKey key)) =
      some (Crypto.verifyingKey key))
    (hverify : ∀ key ∈ keys, ∀ message,
      Crypto.verify (Crypto.verifyingKey key) message (Crypto.sign key message) = true)
    (h : amount.toNat ≤ chosenTotal utxos keys amount)
    (hn : (chosenCoins utxos keys amount).length < 2^32) :
    IsPayment utxos change recipient amount uniqueness
      ((chosenCoins utxos keys amount).map Prod.fst)
      (signedPayment (chosenCoins utxos keys amount) (paymentOutputs change recipient amount
        (UInt64.ofNat (chosenTotal utxos keys amount))) uniqueness) := by
  have hnat := toNat_chosenTotal utxos keys amount hb
  set total := UInt64.ofNat (chosenTotal utxos keys amount)
  have hout : (signedPayment (chosenCoins utxos keys amount) (paymentOutputs change recipient
      amount total) uniqueness).outputTotal = total.toNat :=
    paymentOutputs_total (UInt64.le_iff_toNat_le.mpr (hnat.symm ▸ h))
  have hin := signedPayment_inputTotal utxos keys amount uniqueness
    (paymentOutputs change recipient amount total)
  have hspends := signedPayment_spends (chosenCoins utxos keys amount)
    (paymentOutputs change recipient amount total) uniqueness
  have hnodup := hspends ▸ chosenCoins_nodup utxos keys amount
  have hfits : (signedPayment (chosenCoins utxos keys amount) (paymentOutputs change recipient
      amount total) uniqueness).Fits false := by
    obtain ⟨-, -, hout⟩ := (unsignedPayment_fits (chosenCoins utxos keys amount) change recipient
      amount total uniqueness).mpr hn
    refine ⟨?_, ?_, hout⟩
    · simpa [signedPayment] using hn
    · simp [TxIn.visibleData]
  refine ⟨?_, hnodup, ?_, by rw [hout, hin, hnat], rfl, ?_⟩
  · rw [hspends, List.map_map]
    rfl
  · refine ⟨_, rfl, ?_⟩
    split_ifs
    · exact .inr ⟨_, rfl⟩
    · exact .inl rfl
  · rw [UtxoSet.validateTransaction_eq_ok]
    refine ⟨List.cons_ne_nil _ _, hout ▸ total.toNat_lt, .inr ⟨hfits, hnodup, ?_, ?_, ?_⟩⟩
    · exact signedPayment_authorized _ hparse hverify
    · rw [hin, ← hnat]
      exact total.toNat_lt
    · rw [hout, hin, hnat]

end Result

/-- Payments are what they should be: refused exactly when the senders own too little, and
otherwise a balanced transaction the node accepts, unless it has more inputs than can be encoded. -/
theorem payment_correct (utxos : UtxoSet) (hb : utxos.totalValue < 2^64) (keys : List SigningKey)
    (change recipient : VerifyingKey) (amount : UInt64) (uniqueness : UInt32)
    (hparse : ∀ key ∈ keys, Crypto.keyFromBytes (Crypto.keyToBytes (Crypto.verifyingKey key)) =
      some (Crypto.verifyingKey key))
    (hverify : ∀ key ∈ keys, ∀ message,
      Crypto.verify (Crypto.verifyingKey key) message (Crypto.sign key message) = true) :
    (∀ requested available,
      buildPaymentTransaction utxos keys change recipient amount uniqueness =
          .error (.err (.insufficientFunds requested available)) ↔
        ((utxos.lockedTo keys).map coinValue).sum < amount.toNat ∧ requested = amount ∧
          available.toNat = ((utxos.lockedTo keys).map coinValue).sum) ∧
    (amount.toNat ≤ ((utxos.lockedTo keys).map coinValue).sum →
      ∃ chosen, ShortestCover (utxos.lockedTo keys) amount.toNat chosen ∧
        if chosen.length < 2^32 then
          ∃ tx, buildPaymentTransaction utxos keys change recipient amount uniqueness = .ok tx ∧
            IsPayment utxos change recipient amount uniqueness chosen tx
        else ∃ m, buildPaymentTransaction utxos keys change recipient amount uniqueness =
          .error (.panic m)) := by
  refine ⟨fun requested available => insufficientFunds_iff hb requested available, fun h => ?_⟩
  have henough := (le_chosenTotal_iff utxos keys amount).mpr h
  refine ⟨_, chosenCoins_shortestCover h, ?_⟩
  rw [buildPaymentTransaction_eq utxos keys change recipient amount uniqueness hb,
    if_neg (not_lt.mpr henough), List.length_map]
  split_ifs with hn
  · exact ⟨_, rfl, signedPayment_isPayment hb hparse hverify henough hn⟩
  · exact ⟨tooLong, rfl⟩

end Payment

section WalletPayment

open NodeState

def otherKey : Nat := 0xfd1724385aa0c75b64fb78cd602fa1d991fdebf76b13c58ed702eac835e9f618

def rewardPoint : OutPoint :=
  ⟨⟨beBytes 32 0x639f69e4b1a9bbee84fc32c158ee4886bf2787c3d7f87231b9f23f16ac09fc70⟩, 0⟩

/-- An output of the sample payment. -/
def paidPoint (vout : UInt32) : OutPoint :=
  ⟨⟨beBytes 32 0xe61b9b7a4bfa2fecceaaf80383fe94be4e0d48ca1f79515ff1e5591be079b09d⟩, vout⟩

def rewardCoin : OutPoint × Utxo := (rewardPoint, ⟨rewardPoint, ⟨55, sampleLock⟩, 1, true⟩)

def paidCoin (vout : UInt32) (value : UInt64) : OutPoint × Utxo :=
  (paidPoint vout, ⟨paidPoint vout, ⟨value, sampleLock⟩, 1, false⟩)

/-- The body of a payment from the sample chain, before it is signed. -/
def unsignedBody (spent : List OutPoint) (amount change : UInt64) (uniqueness : UInt32) :
    Transaction :=
  ⟨1, spent.map (⟨·, []⟩), [⟨amount, (beBytes 32 otherKey).toList⟩, ⟨change, sampleLock⟩], uniqueness⟩

def walletDigests : List Digest := [
  ⟨(unsignedBody [rewardPoint, paidPoint 0] 70 15 3).encoding false,
    0x1e00f8dccd7f10a473bdba67960645048e9b00f282d03c7a220bf6b647e9ab35,
    0x0d576e497e35398fc86a9deecc15ba07266e0c59174b97c09d80297c7e8eabcf⟩,
  ⟨(unsignedBody [rewardPoint] 0 55 0).encoding false,
    0x90d030062f8849df57169513d19c4362d51974952bb5e88ce8cee2bd9068cbd6,
    0x10f2beb444e7de414faf8fb31eda76694f50751b3debfc0f633c14973ed5454e⟩]

def walletSignatures : List Signed := [
  ⟨sampleKey, 0x0d576e497e35398fc86a9deecc15ba07266e0c59174b97c09d80297c7e8eabcf,
    0x6ed63cc0be656139baacfcb0fa4707a28cd6127e62f7cccb9107febc765b6d89 * 2^256 +
      0x9413b3fdb3bdc35013ade21f7096c42a08ccb088fd541d63c961c7b59b3d0b07⟩,
  ⟨sampleKey, 0x10f2beb444e7de414faf8fb31eda76694f50751b3debfc0f633c14973ed5454e,
    0xc6e3a98f6a56c2ab8a81ad347ef69ca563dfe0c3fbb648e276f2c82f20d4156f * 2^256 +
      0xd82a153a3335abadf16beb86dfd313bc611553d1c404c7e0ccf325649253c708⟩]

@[reducible] def walletCrypto : Crypto :=
  completedCrypto (sampleDigests ++ walletDigests) (sampleSignatures ++ walletSignatures)

attribute [local instance] walletCrypto

theorem sampleState_lockedTo : sampleState.activeUtxos.lockedTo [sampleKey] =
    [rewardCoin, paidCoin 0 30, paidCoin 1 15] := by decide +kernel

/-- Two of the three outputs of the key are spent, and 15 goes back to it. -/
theorem sampleState_pays :
    ∃ tx, buildPaymentTransaction sampleState.activeUtxos [sampleKey] sampleKey otherKey 70 3 =
        .ok tx ∧
      IsPayment sampleState.activeUtxos sampleKey otherKey 70 3 [rewardCoin, paidCoin 0 30] tx ∧
      tx.outputs = [⟨70, (beBytes 32 otherKey).toList⟩, ⟨15, sampleLock⟩] := by
  have hverify : ∀ key ∈ [sampleKey], ∀ message,
      Crypto.verify (Crypto.verifyingKey key) message (Crypto.sign key message) = true := by
    intro key _ message
    exact beq_self_eq_true _
  have hparse : ∀ key ∈ [sampleKey], Crypto.keyFromBytes (Crypto.keyToBytes
      (Crypto.verifyingKey key)) = some (Crypto.verifyingKey key) := by
    intro key hkey
    rw [List.mem_singleton.mp hkey]
    rfl
  obtain ⟨chosen, hcover, hresult⟩ := (payment_correct sampleState.activeUtxos (by decide +kernel)
    [sampleKey] sampleKey otherKey 70 3 hparse hverify).2 (by decide +kernel)
  rw [sampleState_lockedTo] at hcover
  have hlen : chosen.length ≤ 2 := hcover.shortest [rewardCoin, paidCoin 0 30]
    ⟨[paidCoin 1 15], rfl⟩ (List.cons_ne_nil _ _) (by decide)
  have hchosen : chosen = [rewardCoin, paidCoin 0 30] := by
    have htake := List.prefix_iff_eq_take.mp hcover.isPrefix
    have hcovers := hcover.covers
    interval_cases hn : chosen.length
    · rw [htake] at hcovers
      exact absurd hcovers (by decide)
    · rw [htake] at hcovers
      exact absurd hcovers (by decide)
    · exact htake
  rw [hchosen, if_pos (by decide)] at hresult
  obtain ⟨tx, htx, hpayment⟩ := hresult
  refine ⟨tx, htx, hpayment, ?_⟩
  have houtputs : (buildPaymentTransaction sampleState.activeUtxos [sampleKey] sampleKey otherKey 70
      3).map Transaction.outputs = .ok [⟨70, (beBytes 32 otherKey).toList⟩, ⟨15, sampleLock⟩] := by
    decide +kernel
  rw [htx] at houtputs
  exact Except.ok.inj houtputs

/-- To pay nothing an output is spent all the same, though nothing had to be. -/
theorem zeroPayment_spends :
    sampleState.activeUtxos.totalValue < 2^64 ∧
      (buildPaymentTransaction sampleState.activeUtxos [sampleKey] sampleKey otherKey 0 0).map
        Transaction.spends = .ok [rewardPoint] ∧
      [] <+: sampleState.activeUtxos.lockedTo [sampleKey] ∧
      (0 : UInt64).toNat ≤ (([] : List (OutPoint × Utxo)).map coinValue).sum := by
  refine ⟨by decide +kernel, by decide +kernel, List.nil_prefix, by decide⟩

end WalletPayment

end Wobble
