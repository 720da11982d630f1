import Wobble.Ledger.Spending

namespace Wobble

open Rust

namespace UtxoSet

variable [Crypto]

/-- The two sets hold the same output at `o`, or both hold none. Heights may differ. -/
def SameOutput (utxos utxos' : UtxoSet) (o : OutPoint) : Prop :=
  (utxos.get o).map Utxo.output = (utxos'.get o).map Utxo.output

omit [Crypto] in
theorem valueAt_eq (utxos : UtxoSet) (o : OutPoint) :
    utxos.valueAt o = ((utxos.get o).map Utxo.output).elim 0 fun output => output.value.toNat := by
  rw [valueAt]
  cases utxos.get o <;> rfl

omit [Crypto] in
theorem SameOutput.get {utxos utxos' : UtxoSet} {o : OutPoint} {x : Utxo}
    (h : SameOutput utxos utxos' o) (hx : utxos'.get o = some x) :
    ∃ y, utxos.get o = some y ∧ y.output = x.output := by
  rw [SameOutput, hx, Option.map_some] at h
  exact Option.map_eq_some_iff.mp h

omit [Crypto] in
theorem inputTotal_congr (utxos utxos' : UtxoSet) (tx : Transaction)
    (h : ∀ o ∈ tx.spends, SameOutput utxos utxos' o) :
    utxos.inputTotal tx = utxos'.inputTotal tx := by
  have hvalue : ∀ o ∈ tx.spends, utxos.valueAt o = utxos'.valueAt o := by
    intro o ho
    rw [valueAt_eq, valueAt_eq, h o ho]
  rw [inputTotal, inputTotal, List.map_congr_left hvalue]

omit [Crypto] in
theorem feeOf_congr (utxos utxos' : UtxoSet) (tx : Transaction)
    (h : ∀ o ∈ tx.spends, SameOutput utxos utxos' o) : utxos.feeOf tx = utxos'.feeOf tx := by
  rw [feeOf, feeOf, inputTotal_congr utxos utxos' tx h]

/-- Validity looks at nothing but the outputs that are spent. -/
theorem Valid.congr {utxos utxos' : UtxoSet} {tx : Transaction} (hv : utxos'.Valid tx)
    (h : ∀ o ∈ tx.spends, SameOutput utxos utxos' o) : utxos.Valid tx := by
  refine ⟨hv.outputs, hv.bounded, hv.spends.imp_right fun hs => ?_⟩
  have htotal := inputTotal_congr utxos utxos' tx h
  refine ⟨hs.fits, hs.distinct, ?_, htotal ▸ hs.bounded, htotal ▸ hs.covered⟩
  intro input hi
  obtain ⟨x, key, signature, hx, hkey, hsig, hver⟩ := hs.authorized input hi
  obtain ⟨y, hy, hout⟩ := (h _ (List.mem_map_of_mem hi)).get hx
  exact ⟨y, key, signature, hy, hout ▸ hkey, hsig, hver⟩

/-- What the transactions put in place of an output of the set is that output again. -/
def Repeats (utxos : UtxoSet) (txs : List Transaction) : Prop :=
  ∀ tx ∈ txs, ∀ o x output, utxos.get o = some x → tx.id = o.txid →
    tx.outputs[o.vout.toNat]? = some output → output = x.output

theorem Repeats.sublist {utxos : UtxoSet} {txs txs' : List Transaction}
    (h : Repeats utxos txs) (hsub : txs'.Sublist txs) : Repeats utxos txs' :=
  fun tx ht => h tx (hsub.subset ht)

/-- A coin of the set stays where another transaction is applied, but for its height. -/
theorem SameOutput.after {utxos candidate : UtxoSet} {o : OutPoint}
    (h : SameOutput candidate utxos o) (x : Utxo) (hx : utxos.get o = some x) (height : Nat)
    (tx : Transaction) (hf : tx.Fits true) (hrep : Repeats utxos [tx]) (hno : o ∉ tx.spends) :
    SameOutput (candidate.after tx height) utxos o := by
  rcases candidate.get_after tx height o with ⟨y, hy, hget⟩ | hget
  · obtain ⟨hid, output, hout, rfl⟩ := (tx.mem_created height hf o y).mp hy
    have heq := hrep tx List.mem_cons_self o x output hx hid.symm hout
    rw [SameOutput, hget, hx, Option.map_some, Option.map_some, heq]
  · rw [SameOutput, hget, if_neg hno]
    exact h

theorem SameOutput.afterAll {utxos candidate : UtxoSet} {o : OutPoint}
    (h : SameOutput candidate utxos o) (x : Utxo) (hx : utxos.get o = some x) (height : Nat)
    (txs : List Transaction) (hf : ∀ tx ∈ txs, tx.Fits true) (hrep : Repeats utxos txs)
    (hno : o ∉ txs.flatMap Transaction.spends) :
    SameOutput (candidate.afterAll height txs) utxos o := by
  induction txs generalizing candidate with
  | nil => exact h
  | cons tx rest ih =>
    obtain ⟨hft, hfr⟩ := List.forall_mem_cons.mp hf
    rw [List.flatMap_cons, List.mem_append, not_or] at hno
    have hone := h.after x hx height tx hft (hrep.sublist (by simp)) hno.1
    exact ih hone hfr (hrep.sublist (List.sublist_cons_self tx rest)) hno.2

/-- Transactions that are valid on a set, and of which no two spend the same, are valid one
after the other, whatever the height. Their fees are those they have on the set. -/
theorem allValid_of_disjoint (height : Nat) (txs : List Transaction) (utxos candidate : UtxoSet)
    (hv : ∀ tx ∈ txs, utxos.Valid tx ∧ tx.Fits true)
    (hnodup : (txs.flatMap Transaction.spends).Nodup) (hrep : Repeats utxos txs)
    (hsame : ∀ o ∈ txs.flatMap Transaction.spends, SameOutput candidate utxos o) :
    AllValid height candidate txs ∧
      feesOf height candidate txs = (txs.map utxos.feeOf).sum := by
  induction txs generalizing candidate with
  | nil => exact ⟨trivial, rfl⟩
  | cons tx rest ih =>
    rw [List.flatMap_cons] at hnodup hsame
    obtain ⟨⟨hvalid, hfits⟩, hvrest⟩ := List.forall_mem_cons.mp hv
    obtain ⟨-, hnrest, hdisj⟩ := List.nodup_append.mp hnodup
    have htx : ∀ o ∈ tx.spends, SameOutput candidate utxos o :=
      fun o ho => hsame o (List.mem_append_left _ ho)
    -- the rest finds what it spends where it was
    have hafter : ∀ o ∈ rest.flatMap Transaction.spends,
        SameOutput (candidate.after tx height) utxos o := by
      intro o ho
      obtain ⟨t, ht, hot⟩ := List.mem_flatMap.mp ho
      obtain ⟨x, hx⟩ := (hvrest t ht).1.held o hot
      exact (hsame o (List.mem_append_right _ ho)).after x hx height tx hfits
        (hrep.sublist (by simp)) fun ho' => hdisj o ho' o ho rfl
    obtain ⟨hall, hfees⟩ := ih (candidate.after tx height) hvrest hnrest
      (hrep.sublist (List.sublist_cons_self tx rest)) hafter
    refine ⟨⟨hvalid.congr htx, hfits, hall⟩, ?_⟩
    rw [feesOf, hfees, feeOf_congr candidate utxos tx htx, List.map_cons, List.sum_cons]

end UtxoSet

end Wobble
