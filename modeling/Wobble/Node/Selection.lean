import Wobble.Ledger.Independent
import Wobble.Ledger.Supply
import Wobble.Node.NodeState

namespace Wobble

open Rust

namespace Mempool

variable [Crypto]

theorem collectFrom_sublist {ε : Type} (entries selected : List (Txid × Transaction))
    (candidate : UtxoSet) (room : Nat)
    (h : (collectFrom entries candidate room : Res ε _) = .ok selected) :
    selected.Sublist entries := by
  induction entries generalizing selected candidate room with
  | nil =>
    cases h
    exact .slnil
  | cons entry rest ih =>
    rw [collectFrom] at h
    by_cases hr : room = 0
    · rw [if_pos hr] at h
      cases h
      exact List.nil_sublist _
    rw [if_neg hr] at h
    rcases happ : candidate.applyTransaction entry.2 0 with (e | m) | candidate'
    · rw [happ] at h
      exact (ih selected candidate room h).cons entry
    · rw [happ] at h
      cases h
    · rw [happ] at h
      obtain ⟨more, hmore, h⟩ := (Res.bind_eq_ok _ _ _).mp h
      cases h
      exact (ih more candidate' (room - 1) hmore).cons_cons entry

/-- If every entry applies in its turn, the selection is the first `room` of them. -/
theorem collectFrom_eq_take {ε : Type} (entries : List (Txid × Transaction))
    (candidate : UtxoSet) (room : Nat)
    (hv : UtxoSet.AllValid 0 candidate (entries.map Prod.snd)) :
    (collectFrom entries candidate room : Res ε _) = .ok (entries.take room) := by
  induction entries generalizing candidate room with
  | nil => simp [collectFrom]
  | cons entry rest ih =>
    rw [collectFrom]
    cases room with
    | zero => simp
    | succ room =>
      obtain ⟨hvalid, hfits, hrest⟩ := hv
      have happ := (candidate.applyTransaction_eq_ok _ entry.2 0).mpr ⟨hvalid, hfits, rfl⟩
      rw [if_neg (Nat.succ_ne_zero room), happ, Nat.add_sub_cancel]
      change (collectFrom rest _ room >>= _) = _
      rw [ih _ room hrest]
      rfl

namespace Consistent

variable {pool : Mempool} {utxos : UtxoSet}

/-- Together, pending transactions spend each outpoint at most once. -/
theorem spends_nodup (hc : pool.Consistent utxos) (selected : List (Txid × Transaction))
    (hsub : selected.Sublist pool.iter) : (selected.flatMap fun entry => entry.2.spends).Nodup := by
  have hkeys : (selected.map Prod.fst).Nodup :=
    (HashMap.iter_keys_nodup pool).sublist (hsub.map _)
  have hget : ∀ entry ∈ selected, pool.get entry.1 = some entry.2 := fun entry he =>
    (HashMap.mem_iter pool entry.1 entry.2).mp (hsub.subset he)
  rw [List.nodup_flatMap]
  constructor
  · intro entry he
    have hv := (utxos.validateTransaction_eq_ok _).mp (hc.valid _ _ (hget entry he))
    exact hv.nodup
  · rw [List.Nodup, List.pairwise_map] at hkeys
    refine hkeys.imp_of_mem ?_
    intro entry entry' he he' hne o ho ho'
    have hno := hc.disjoint _ _ _ _ (hget entry he) (hget entry' he') hne
    have hyes := (transactionsConflict_eq_true entry.2 entry'.2).mpr ⟨o, ho, ho'⟩
    rw [hno] at hyes
    cases hyes

/-- Pending transactions apply one after the other, in whatever order. -/
theorem allValid (hc : pool.Consistent utxos) (hids : utxos.Repeats (pool.iter.map Prod.snd))
    (height : Nat) (selected : List (Txid × Transaction)) (hsub : selected.Sublist pool.iter) :
    UtxoSet.AllValid height utxos (selected.map Prod.snd) ∧
      UtxoSet.feesOf height utxos (selected.map Prod.snd) =
        ((selected.map Prod.snd).map utxos.feeOf).sum := by
  refine UtxoSet.allValid_of_disjoint height _ utxos utxos ?_ ?_ (hids.sublist (hsub.map _))
    fun o _ => rfl
  · intro tx ht
    obtain ⟨entry, he, rfl⟩ := List.mem_map.mp ht
    have hget := (HashMap.mem_iter pool entry.1 entry.2).mp (hsub.subset he)
    exact ⟨(utxos.validateTransaction_eq_ok _).mp (hc.valid _ _ hget), (hc.fits _ _ hget).1⟩
  · rw [List.flatMap_map]
    exact hc.spends_nodup selected hsub

/-- `collect_valid` leaves none of the first ones out. -/
theorem collectValid_eq {ε : Type} (hc : pool.Consistent utxos)
    (hids : utxos.Repeats (pool.iter.map Prod.snd)) (maxCount : Nat) :
    (pool.collectValid utxos maxCount : Res ε _) =
      .ok ((pool.iter.take maxCount).map Prod.snd, (pool.iter.take maxCount).map Prod.fst) := by
  have hall := (hc.allValid hids 0 pool.iter (List.Sublist.refl _)).1
  rw [Mempool.collectValid, Mempool.collectFrom_eq_take _ _ _ hall]
  rfl

/-- The fees of pending transactions come out of what the set holds. -/
theorem fees_le_total (hc : pool.Consistent utxos) (selected : List (Txid × Transaction))
    (hsub : selected.Sublist pool.iter) :
    (selected.map fun entry => utxos.feeOf entry.2).sum ≤ utxos.totalValue := by
  have hnodup := hc.spends_nodup selected hsub
  have hheld : ∀ o ∈ selected.flatMap fun entry => entry.2.spends,
      ∃ u, utxos.get o = some u := by
    intro o ho
    obtain ⟨entry, he, ho⟩ := List.mem_flatMap.mp ho
    have hget := (HashMap.mem_iter pool entry.1 entry.2).mp (hsub.subset he)
    exact ((utxos.validateTransaction_eq_ok _).mp (hc.valid _ _ hget)).held o ho
  have hle := HashMap.sum_distinct_le_total (fun u : Utxo => u.output.value.toNat) utxos _
    hnodup hheld
  have hsum : ((selected.flatMap fun entry => entry.2.spends).map utxos.valueAt).sum =
      (selected.map fun entry => utxos.inputTotal entry.2).sum := by
    rw [List.map_flatMap, List.flatMap, List.sum_flatten, List.map_map]
    rfl
  calc (selected.map fun entry => utxos.feeOf entry.2).sum
      ≤ (selected.map fun entry => utxos.inputTotal entry.2).sum :=
        List.sum_le_sum fun entry _ => Nat.sub_le _ _
    _ = ((selected.flatMap fun entry => entry.2.spends).map utxos.valueAt).sum := hsum.symm
    _ ≤ utxos.totalValue := hle

end Consistent

end Mempool

namespace NodeState

variable [Crypto]

theorem sumFees_eq_ok (utxos : UtxoSet) (txs : List Transaction) (total total' : UInt64) :
    sumFees utxos total txs = .ok total' ↔
      (∀ tx ∈ txs, utxos.Valid tx) ∧
        total'.toNat = total.toNat + (txs.map utxos.feeOf).sum := by
  induction txs generalizing total with
  | nil => simp [sumFees, ← UInt64.toNat_inj, eq_comm]
  | cons tx rest ih =>
    simp only [sumFees, Res.bind_eq_ok, UtxoSet.transactionFee_eq_ok, Res.okOr_eq_ok,
      checkedAdd_eq_some, ih, List.forall_mem_cons, List.map_cons, List.sum_cons]
    constructor
    · intro h
      obtain ⟨fee, ⟨hv, hfee⟩, sum, hsum, hrest, htotal⟩ := h
      exact ⟨⟨hv, hrest⟩, by omega⟩
    · intro h
      obtain ⟨⟨hv, hrest⟩, htotal⟩ := h
      have hlt := total'.toNat_lt
      have hfee : (UInt64.ofNat (utxos.feeOf tx)).toNat = utxos.feeOf tx :=
        UInt64.toNat_ofNat_of_lt' (utxos.feeOf_lt tx hv)
      have hsum : (UInt64.ofNat (total.toNat + utxos.feeOf tx)).toNat =
          total.toNat + utxos.feeOf tx :=
        UInt64.toNat_ofNat_of_lt' (by rw [UInt64.size]; omega)
      exact ⟨_, ⟨hv, hfee⟩, _, by rw [hsum, hfee], hrest, by omega⟩

/-- The fees of what `collect_valid` selects have a sum, if the set holds less than 2^64. -/
theorem sumFees_collected (pool : Mempool) (utxos : UtxoSet) (hc : pool.Consistent utxos)
    (maxCount : Nat) (pending : List Transaction) (ids : List Txid)
    (hsel : (pool.collectValid utxos maxCount : Res NodeStateError _) = .ok (pending, ids))
    (hb : utxos.totalValue < 2^64) :
    ∃ total, sumFees utxos 0 pending = .ok total ∧
      total.toNat = (pending.map utxos.feeOf).sum := by
  obtain ⟨selected, hcol, hsel⟩ := (Res.bind_eq_ok _ _ _).mp hsel
  have hsub := Mempool.collectFrom_sublist _ _ _ _ hcol
  cases hsel
  have hle := hc.fees_le_total selected hsub
  have hmap : ((selected.map Prod.snd).map utxos.feeOf).sum =
      (selected.map fun entry => utxos.feeOf entry.2).sum := by
    rw [List.map_map]
    rfl
  have hnat := UInt64.toNat_ofNat_of_lt' (hle.trans_lt hb)
  refine ⟨_, (sumFees_eq_ok _ _ _ _).mpr ⟨?_, ?_⟩, hnat.trans hmap.symm⟩
  · intro tx htx
    obtain ⟨entry, he, rfl⟩ := List.mem_map.mp htx
    have hget := (HashMap.mem_iter pool entry.1 entry.2).mp (hsub.subset he)
    exact (utxos.validateTransaction_eq_ok _).mp (hc.valid _ _ hget)
  · rw [hnat, hmap, UInt64.toNat_zero, Nat.zero_add]

theorem selectPending_eq_ok [Profile] (s : NodeState) (subsidy : UInt64) (maxTransactions : Nat)
    (pending : List Transaction) (ids : List Txid) (reward : UInt64) :
    s.selectPending subsidy maxTransactions = .ok (pending, ids, reward) ↔
      s.mempool.collectValid s.activeUtxos maxTransactions =
        (.ok (pending, ids) : Res NodeStateError _) ∧
      ∃ fees, sumFees s.activeUtxos 0 pending = .ok fees ∧
        (addU64 subsidy fees : Res NodeStateError UInt64) = .ok reward := by
  rw [selectPending, Res.bind_eq_ok]
  constructor
  · intro h
    obtain ⟨⟨pending', ids'⟩, hcol, h⟩ := h
    obtain ⟨fees, hfees, h⟩ := (Res.bind_eq_ok _ _ _).mp h
    obtain ⟨reward', hreward, h⟩ := (Res.bind_eq_ok _ _ _).mp h
    cases h
    exact ⟨hcol, fees, (Res.mapErr_eq_ok _ _ _).mp hfees, hreward⟩
  · intro h
    obtain ⟨hcol, fees, hfees, hreward⟩ := h
    refine ⟨(pending, ids), hcol, ?_⟩
    change ((sumFees s.activeUtxos 0 pending).mapErr _ >>= _) = _
    rw [hfees, Res.mapErr_ok, Res.ok_bind, hreward]
    rfl

end NodeState

end Wobble
