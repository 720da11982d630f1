import Wobble.Ledger.Consensus

namespace Wobble

open Rust

/-- `apply_block` takes the coinbase last. -/
def applicationOrder : List Transaction → List Transaction
  | [] => []
  | coinbase :: rest => rest ++ [coinbase]

theorem applicationOrder_perm (txs : List Transaction) : (applicationOrder txs).Perm txs := by
  cases txs with
  | nil => exact .nil
  | cons coinbase rest => exact List.perm_append_singleton coinbase rest

variable [Crypto]

/-- The input carries a signature of `tx` under the key that locks the output. -/
def SignedFor (output : TxOut) (tx : Transaction) (input : TxIn) : Prop :=
  ∃ key signature digest, parseVerifyingKey output.lockingData = some key ∧
    parseSignature input.unlockingData = some signature ∧
    (tx.signingDigest : Res ValidationError Bytes32) = .ok digest ∧
    verifyMessage signature key digest.toList = true

/-- An applied block is a coinbase without inputs and transactions with some. -/
theorem applyBlock_split (utxos utxos' : UtxoSet) (block : Block) (height : Nat)
    (h : applyBlock utxos block height = .ok utxos') :
    ∃ coinbase rest, block.transactions = coinbase :: rest ∧ coinbase.spends = [] ∧
      (∀ tx ∈ rest, ¬tx.isCoinbase) ∧ BlockApplied utxos height coinbase rest utxos' := by
  obtain ⟨hvalid, hbody⟩ := (applyBlock_eq_ok _ _ _ _).mp h
  obtain ⟨coinbase, rest, htxs, happ⟩ := (applyBody_eq_ok _ _ _ _).mp hbody
  obtain ⟨-, coinbase', rest', hok⟩ := (validateBlock_eq_ok block).mp hvalid
  obtain ⟨rfl, rfl⟩ := List.cons.inj (htxs.symm.trans hok.transactions)
  refine ⟨coinbase, rest, htxs, ?_, ?_, happ⟩
  · rw [Transaction.spends, hok.coinbase, List.map_nil]
  · intro tx ht hc
    exact hok.others tx ht ((Transaction.isCoinbase_iff tx).mp hc)

/-- What is left of a block when all that can fail is known not to: its transactions, applied
in order. -/
theorem applyBlock_eq_afterAll (utxos utxos' : UtxoSet) (block : Block) (height : Nat)
    (h : applyBlock utxos block height = .ok utxos') :
    utxos' = utxos.afterAll height (applicationOrder block.transactions) ∧
      ∀ tx ∈ applicationOrder block.transactions, tx.Fits true := by
  obtain ⟨hvalid, hbody⟩ := (applyBlock_eq_ok _ _ _ _).mp h
  obtain ⟨coinbase, rest, htxs, happ⟩ := (applyBody_eq_ok _ _ _ _).mp hbody
  obtain ⟨-, coinbase', rest', hok⟩ := (validateBlock_eq_ok block).mp hvalid
  refine ⟨?_, fun tx ht => hok.fits tx ((applicationOrder_perm _).mem_iff.mp ht)⟩
  rw [happ.result, htxs, applicationOrder, UtxoSet.afterAll, UtxoSet.afterAll, List.foldl_append]
  rfl

namespace UtxoSet

/-- What one transaction does to a single outpoint: it is created, spent, or left as it was. -/
theorem get_after (utxos : UtxoSet) (tx : Transaction) (height : Nat) (o : OutPoint) :
    (∃ x, (o, x) ∈ tx.created height ∧ (utxos.after tx height).get o = some x) ∨
      (utxos.after tx height).get o = if o ∈ tx.spends then none else utxos.get o := by
  have hcases := HashMap.get_insertAll_cases (utxos.removeAll tx.spends) (tx.created height) o
  rw [HashMap.get_removeAll] at hcases
  exact hcases.symm

/-- Every record sits under its own outpoint. -/
def Keyed (utxos : UtxoSet) : Prop := ∀ o x, utxos.get o = some x → x.outpoint = o

theorem Keyed.afterAll (height : Nat) (txs : List Transaction) (utxos : UtxoSet)
    (hk : utxos.Keyed) (hf : ∀ tx ∈ txs, tx.Fits true) : (utxos.afterAll height txs).Keyed := by
  induction txs generalizing utxos with
  | nil => exact hk
  | cons tx rest ih =>
    obtain ⟨hft, hfr⟩ := List.forall_mem_cons.mp hf
    refine ih (utxos.after tx height) ?_ hfr
    intro o x hx
    rcases utxos.get_after tx height o with ⟨y, hy, hget⟩ | hget
    · obtain rfl : y = x := Option.some.inj (hget.symm.trans hx)
      obtain ⟨-, output, -, rfl⟩ := (tx.mem_created height hft o y).mp hy
      rfl
    · rw [hget] at hx
      split_ifs at hx
      exact hk o x hx

theorem get_after_ne_none (utxos : UtxoSet) (tx : Transaction) (height : Nat) (o : OutPoint)
    (hs : o ∉ tx.spends) (h : utxos.get o ≠ none) : (utxos.after tx height).get o ≠ none := by
  rcases utxos.get_after tx height o with ⟨x, -, hx⟩ | hx
  · rw [hx]
    exact Option.some_ne_none x
  · rwa [hx, if_neg hs]

/-- An outpoint that is gone at the end has been spent. -/
theorem spent_of_afterAll_none (height : Nat) (txs : List Transaction) (utxos : UtxoSet)
    (o : OutPoint) (h : utxos.get o ≠ none) (hn : (utxos.afterAll height txs).get o = none) :
    ∃ tx ∈ txs, o ∈ tx.spends := by
  induction txs generalizing utxos with
  | nil => exact absurd hn h
  | cons tx rest ih =>
    by_cases hs : o ∈ tx.spends
    · exact ⟨tx, List.mem_cons_self, hs⟩
    · obtain ⟨t, ht, hst⟩ := ih (utxos.after tx height)
        (utxos.get_after_ne_none tx height o hs h) hn
      exact ⟨t, List.mem_cons_of_mem _ ht, hst⟩

/-- What an applied block takes is spent by one of its transactions other than the coinbase. -/
theorem spent_of_applied {utxos utxos' : UtxoSet} {height : Nat} {coinbase : Transaction}
    {rest : List Transaction} (happ : BlockApplied utxos height coinbase rest utxos')
    (hfirst : coinbase.spends = []) (o : OutPoint) (x : Utxo) (hx : utxos.get o = some x)
    (hn : utxos'.get o = none) : ∃ tx ∈ rest, o ∈ tx.spends := by
  refine spent_of_afterAll_none height rest utxos o (by rw [hx]; exact Option.some_ne_none x) ?_
  by_contra hsome
  refine get_after_ne_none _ coinbase height o ?_ hsome (happ.result ▸ hn)
  rw [hfirst]
  exact List.not_mem_nil

theorem Valid.signedFor {utxos : UtxoSet} {tx : Transaction} (hv : utxos.Valid tx)
    (input : TxIn) (hi : input ∈ tx.inputs) :
    ∃ x, utxos.get input.previousOutput = some x ∧ SignedFor x.output tx input := by
  rcases hv.spends with hnil | hs
  · rw [hnil] at hi
    cases hi
  · obtain ⟨x, key, signature, hx, hkey, hsig, hver⟩ := hs.authorized input hi
    refine ⟨x, hx, key, signature, tx.digest, hkey, hsig, ?_, hver⟩
    rw [Transaction.signingDigest_eq, if_pos hs.fits]

/-- Every spend of an outpoint is signed for the output held there: the one of the start, or
one that a transaction on the way has put in its place. -/
theorem signedFor_of_allValid (height : Nat) (txs : List Transaction) (utxos : UtxoSet)
    (o : OutPoint) (P : TxOut → Prop) (hv : AllValid height utxos txs)
    (hstart : ∀ x, utxos.get o = some x → P x.output)
    (hnew : ∀ tx ∈ txs, ∀ output, tx.id = o.txid →
      tx.outputs[o.vout.toNat]? = some output → P output)
    (tx : Transaction) (ht : tx ∈ txs) (input : TxIn) (hi : input ∈ tx.inputs)
    (ho : input.previousOutput = o) : ∃ output, P output ∧ SignedFor output tx input := by
  induction txs generalizing utxos with
  | nil => cases ht
  | cons t rest ih =>
    obtain ⟨hvalid, hfits, hrest⟩ := hv
    rcases List.mem_cons.mp ht with rfl | ht
    · obtain ⟨x, hx, hsigned⟩ := hvalid.signedFor input hi
      exact ⟨x.output, hstart x (ho ▸ hx), hsigned⟩
    · refine ih (utxos.after t height) hrest ?_
        (fun tx htx => hnew tx (List.mem_cons_of_mem _ htx)) ht
      intro x hx
      rcases utxos.get_after t height o with ⟨y, hy, hget⟩ | hget
      · obtain rfl : y = x := Option.some.inj (hget.symm.trans hx)
        obtain ⟨hid, output, hout, rfl⟩ := (t.mem_created height hfits o y).mp hy
        exact hnew t List.mem_cons_self output hid.symm hout
      · rw [hget] at hx
        split_ifs at hx
        exact hstart x hx

theorem nodup_of_allValid (height : Nat) (txs : List Transaction) (utxos : UtxoSet)
    (hv : AllValid height utxos txs) (tx : Transaction) (ht : tx ∈ txs) : tx.spends.Nodup := by
  induction txs generalizing utxos with
  | nil => cases ht
  | cons t rest ih =>
    obtain ⟨hvalid, -, hrest⟩ := hv
    rcases List.mem_cons.mp ht with rfl | ht
    · exact hvalid.nodup
    · exact ih (utxos.after t height) hrest ht

/-- Where no transaction creates the outpoint anew, it is spent at most once. -/
theorem count_spends_le_one (height : Nat) (txs : List Transaction) (utxos : UtxoSet)
    (o : OutPoint) (hv : AllValid height utxos txs) (hid : ∀ tx ∈ txs, tx.id ≠ o.txid) :
    (txs.flatMap Transaction.spends).count o ≤ if utxos.get o = none then 0 else 1 := by
  induction txs generalizing utxos with
  | nil => exact Nat.zero_le _
  | cons tx rest ih =>
    obtain ⟨hvalid, hfits, hrest⟩ := hv
    obtain ⟨hidt, hidr⟩ := List.forall_mem_cons.mp hid
    have hle := ih (utxos.after tx height) hrest hidr
    have hget : (utxos.after tx height).get o =
        if o ∈ tx.spends then none else utxos.get o := by
      rcases utxos.get_after tx height o with ⟨y, hy, -⟩ | hget
      · exact absurd ((tx.mem_created height hfits o y).mp hy).1.symm hidt
      · exact hget
    rw [List.flatMap_cons, List.count_append]
    by_cases hs : o ∈ tx.spends
    · obtain ⟨x, hx⟩ := hvalid.held o hs
      rw [hget, if_pos hs, if_pos rfl] at hle
      have hone := List.nodup_iff_count_le_one.mp hvalid.nodup o
      rw [hx, if_neg (Option.some_ne_none x)]
      omega
    · rw [hget, if_neg hs] at hle
      rw [List.count_eq_zero.mpr hs, Nat.zero_add]
      exact hle

end UtxoSet

end Wobble
