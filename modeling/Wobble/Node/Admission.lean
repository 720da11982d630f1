import Wobble.Node.Ownership
import Wobble.Node.Selection

namespace Wobble

open Rust

theorem sameInputSet_eq_true (left right : Transaction) (hl : left.spends.Nodup)
    (hr : right.spends.Nodup) :
    sameInputSet left right = true ↔ ∀ o, o ∈ left.spends ↔ o ∈ right.spends := by
  have hspec : sameInputSet left right = true ↔
      left.spends.length = right.spends.length ∧ left.spends ⊆ right.spends := by
    simp only [sameInputSet, Bool.and_eq_true, beq_iff_eq, List.all_eq_true, List.any_eq_true,
      Transaction.spends, List.length_map, List.subset_def, List.mem_map,
      forall_exists_index, and_imp, forall_apply_eq_imp_iff₂]
  rw [hspec]
  constructor
  · intro h
    -- as many distinct inputs as the other has, all among them, are all of them
    exact fun o => ((hl.subperm h.2).perm_of_length_le h.1.ge).mem_iff
  · intro h
    exact ⟨((List.perm_ext_iff_of_nodup hl hr).mpr h).length_eq, fun o ho => (h o).mp ho⟩

namespace Mempool

theorem conflictsAreReplaceable_eq_true (pool : Mempool) (tx : Transaction) (txids : List Txid) :
    pool.conflictsAreReplaceable tx txids = .ok true ↔
      ∀ txid ∈ txids, ∃ pending, pool.get txid = some pending ∧ sameInputSet tx pending = true := by
  induction txids with
  | nil => simp [conflictsAreReplaceable]
  | cons txid rest ih =>
    rw [conflictsAreReplaceable, List.forall_mem_cons]
    cases hg : pool.get txid with
    | none => simp [Res.expect]
    | some pending =>
      rw [Res.expect_some, Res.ok_bind]
      by_cases hs : sameInputSet tx pending = true
      · rw [if_pos hs, ih]
        simp [hs]
      · rw [if_neg hs]
        simp [hs]

/-- No pending transaction spends what this one spends. -/
def SharesNone (pool : Mempool) (tx : Transaction) : Prop :=
  ∀ id pending, pool.get id = some pending → ∀ o ∈ tx.spends, o ∉ pending.spends

theorem conflictingTransactions_eq_nil_iff (pool : Mempool) (tx : Transaction) :
    pool.conflictingTransactions tx = [] ↔ pool.SharesNone tx := by
  simp only [conflictingTransactions_eq_nil, SharesNone, ← Bool.not_eq_true,
    transactionsConflict_eq_true, not_exists, not_and]

/-- `old` is the only pending transaction that shares an input with the new one, and has the same
set of inputs. -/
structure Replaceable (pool : Mempool) (tx : Transaction) (id : Txid) (old : Transaction) :
    Prop where
  held : pool.get id = some old
  shares : ∃ o ∈ tx.spends, o ∈ old.spends
  only : ∀ id' pending, pool.get id' = some pending →
    (∃ o ∈ tx.spends, o ∈ pending.spends) → id' = id
  same : ∀ o, o ∈ tx.spends ↔ o ∈ old.spends

theorem Replaceable.conflictingTransactions {pool : Mempool} {tx old : Transaction}
    {id : Txid} (h : pool.Replaceable tx id old) : pool.conflictingTransactions tx = [id] := by
  refine List.perm_singleton.mp ((List.perm_ext_iff_of_nodup
    (pool.conflictingTransactions_nodup tx) (List.nodup_singleton id)).mpr fun id' => ?_)
  rw [mem_conflictingTransactions, List.mem_singleton]
  constructor
  · intro hid
    obtain ⟨pending, hget, hconf⟩ := hid
    exact h.only id' pending hget ((transactionsConflict_eq_true tx pending).mp hconf)
  · rintro rfl
    exact ⟨old, h.held, (transactionsConflict_eq_true tx old).mpr h.shares⟩

theorem removeAll_toList (pool : Mempool) (gone : Option Txid) :
    pool.removeAll gone.toList = gone.elim pool pool.remove := by
  cases gone <;> rfl

variable [Crypto]

/-- `submit` as the source has it, on a pool it changes step by step. -/
def submitInPlace (pool : Mempool) (utxos : UtxoSet) (tx : Transaction) :
    Mempool × Res MempoolError Txid :=
  match tx.txid with
  | .error e => (pool, .error e)
  | .ok txid =>
    if pool.containsKey txid then (pool, .error (.err (.duplicateTransaction txid))) else
    match (utxos.transactionFee tx).mapErr .invalidTransaction with
    | .error e => (pool, .error e)
    | .ok replacementFee =>
      let conflictingIds := pool.conflictingTransactions tx
      match pool.checkReplacement utxos tx replacementFee conflictingIds with
      | .error e => (pool, .error e)
      | .ok () =>
        match pool.capacityEvictionCandidate utxos conflictingIds with
        | .error e => (pool, .error e)
        | .ok none =>
          let pool : Mempool := pool.removeMany conflictingIds
          let pool : Mempool := pool.insert txid tx
          (pool, .ok txid)
        | .ok (some (evictedTxid, evictedFee)) =>
          if replacementFee ≤ evictedFee then
            (pool, .error (.err (.capacityFeeTooLow evictedFee replacementFee)))
          else
            let pool : Mempool := pool.remove evictedTxid
            let pool : Mempool := pool.removeMany conflictingIds
            let pool : Mempool := pool.insert txid tx
            (pool, .ok txid)

theorem submitInPlace_eq (pool : Mempool) (utxos : UtxoSet) (tx : Transaction) :
    pool.submitInPlace utxos tx =
      match pool.submit utxos tx with
      | .ok (pool', txid) => (pool', .ok txid)
      | .error e => (pool, .error e) := by
  rw [submitInPlace, submit]
  cases (tx.txid : Res MempoolError Txid) with
  | error e => rfl
  | ok txid =>
    rw [Res.ok_bind]
    dsimp only
    by_cases hk : pool.containsKey txid = true
    · rw [if_pos hk, if_pos hk]
    rw [if_neg hk, if_neg hk]
    cases (utxos.transactionFee tx).mapErr MempoolError.invalidTransaction with
    | error e => rfl
    | ok fee =>
      rw [Res.ok_bind]
      dsimp only
      cases pool.checkReplacement utxos tx fee (pool.conflictingTransactions tx) with
      | error e => rfl
      | ok _ =>
        rw [Res.ok_bind]
        cases pool.capacityEvictionCandidate utxos (pool.conflictingTransactions tx) with
        | error e => rfl
        | ok displaced =>
          rw [Res.ok_bind]
          cases displaced with
          | none => rfl
          | some evicted =>
            dsimp only
            by_cases hlow : fee ≤ evicted.2
            · rw [if_pos hlow, if_pos hlow]
              rfl
            · rw [if_neg hlow, if_neg hlow]
              rfl

theorem submitInPlace_ok_iff (pool pool' : Mempool) (utxos : UtxoSet) (tx : Transaction)
    (txid : Txid) :
    pool.submitInPlace utxos tx = (pool', .ok txid) ↔
      pool.submit utxos tx = .ok (pool', txid) := by
  rw [submitInPlace_eq]
  cases pool.submit utxos tx with
  | error e => simp
  | ok r => simp [Prod.ext_iff]

/-- `id` is the pending entry with the least fee, and the least id among those with that fee. -/
structure Lowest (pool : Mempool) (utxos : UtxoSet) (id : Txid) (low : UInt64) : Prop where
  held : ∃ pending, pool.get id = some pending ∧ utxos.transactionFee pending = .ok low
  least : ∀ id' pending' fee', pool.get id' = some pending' →
    utxos.transactionFee pending' = .ok fee' → toLex (low.toNat, id) ≤ toLex (fee'.toNat, id')

/-- When a valid transaction with this fee is admitted, and whom it displaces. -/
inductive Admission (pool : Mempool) (utxos : UtxoSet) (tx : Transaction) (fee : UInt64) :
    Option Txid → Prop
  | room (hnone : pool.SharesNone tx) (hroom : pool.len < maxMempoolTransactions) :
      Admission pool utxos tx fee none
  | evicts (id : Txid) (low : UInt64) (hnone : pool.SharesNone tx)
      (hfull : pool.len = maxMempoolTransactions) (hlow : pool.Lowest utxos id low)
      (hfee : low < fee) : Admission pool utxos tx fee (some id)
  | replaces (id : Txid) (old : Transaction) (oldFee : UInt64) (hold : pool.Replaceable tx id old)
      (holdFee : utxos.transactionFee old = .ok oldFee) (hfee : oldFee < fee) :
      Admission pool utxos tx fee (some id)

variable {pool : Mempool} {utxos : UtxoSet}

/-- All conflicts are replaceable only if there is one, since pending transactions share nothing
among themselves. -/
theorem Consistent.replaceable_of_conflicts (hc : pool.Consistent utxos) {tx : Transaction}
    (hnodup : tx.spends.Nodup) (hne : pool.conflictingTransactions tx ≠ [])
    (hall : pool.conflictsAreReplaceable tx (pool.conflictingTransactions tx) = .ok true) :
    ∃ id old, pool.Replaceable tx id old := by
  have hsame : ∀ id pending, pool.get id = some pending →
      id ∈ pool.conflictingTransactions tx → ∀ o, o ∈ tx.spends ↔ o ∈ pending.spends := by
    intro id pending hget hid
    obtain ⟨pending', hget', hs⟩ := (conflictsAreReplaceable_eq_true pool tx _).mp hall id hid
    obtain rfl := Option.some.inj (hget.symm.trans hget')
    exact (sameInputSet_eq_true tx pending hnodup
      ((utxos.validateTransaction_eq_ok pending).mp (hc.valid id pending hget)).nodup).mp hs
  obtain ⟨id, hid⟩ := List.exists_mem_of_ne_nil _ hne
  obtain ⟨old, hold, hconf⟩ := (mem_conflictingTransactions pool tx id).mp hid
  obtain ⟨o, ho, ho'⟩ := (transactionsConflict_eq_true tx old).mp hconf
  refine ⟨id, old, hold, ⟨o, ho, ho'⟩, ?_, hsame id old hold hid⟩
  intro id' other hother hshare
  by_contra hne
  have hid' := (mem_conflictingTransactions pool tx id').mpr
    ⟨other, hother, (transactionsConflict_eq_true tx other).mpr hshare⟩
  have hboth : transactionsConflict other old = true :=
    (transactionsConflict_eq_true other old).mpr ⟨o, (hsame id' other hother hid' o).mp ho, ho'⟩
  rw [hc.disjoint id' other id old hother hold hne] at hboth
  cases hboth

/-- A transaction with conflicts passes exactly when it outbids the one it replaces. -/
theorem Consistent.checkReplacement_eq_ok (hc : pool.Consistent utxos) {tx : Transaction}
    (hnodup : tx.spends.Nodup) (fee : UInt64) :
    pool.checkReplacement utxos tx fee (pool.conflictingTransactions tx) = .ok () ↔
      pool.SharesNone tx ∨ ∃ id old oldFee, pool.Replaceable tx id old ∧
        utxos.transactionFee old = .ok oldFee ∧ oldFee < fee := by
  -- against one replaceable conflict only the fee is left to compare
  have hone : ∀ id old, pool.Replaceable tx id old →
      (pool.checkReplacement utxos tx fee [id] = .ok () ↔
        UInt64.ofNat (utxos.feeOf old) < fee) := by
    intro id old h
    have hall : pool.conflictsAreReplaceable tx [id] = .ok true := by
      rw [conflictsAreReplaceable_eq_true, List.forall_mem_singleton]
      exact ⟨old, h.held, (sameInputSet_eq_true tx old hnodup
        ((utxos.validateTransaction_eq_ok old).mp (hc.valid id old h.held)).nodup).mpr h.same⟩
    simp only [checkReplacement, List.isEmpty_cons, Bool.false_eq_true, if_false, hall, Res.ok_bind,
      Bool.not_true, Res.mapAll, h.held, Res.expect_some, hc.pendingFee_eq id old h.held,
      Res.pure_eq_ok, List.max?_singleton]
    split_ifs with hle
    · simpa using hle
    · simpa using hle
  by_cases hnone : pool.conflictingTransactions tx = []
  · rw [hnone]
    exact iff_of_true rfl (.inl ((conflictingTransactions_eq_nil_iff pool tx).mp hnone))
  have hsome : ¬ pool.SharesNone tx := fun h =>
    hnone ((conflictingTransactions_eq_nil_iff pool tx).mpr h)
  constructor
  · intro h
    have hcheck := h
    rw [checkReplacement, if_neg (fun he => hnone (List.isEmpty_iff.mp he))] at h
    obtain ⟨replaceable, hall, h⟩ := (Res.bind_eq_ok _ _ _).mp h
    cases replaceable with
    | false =>
      obtain ⟨o, -, h⟩ := (Res.bind_eq_ok _ _ _).mp h
      cases h
    | true =>
      obtain ⟨id, old, hold⟩ := hc.replaceable_of_conflicts hnodup hnone hall
      rw [hold.conflictingTransactions, hone id old hold] at hcheck
      exact .inr ⟨id, old, _, hold, hc.transactionFee_eq hold.held, hcheck⟩
  · intro h
    obtain hshares | ⟨id, old, oldFee, hold, holdFee, hfee⟩ := h
    · exact absurd hshares hsome
    · rw [hc.transactionFee_eq hold.held] at holdFee
      obtain rfl := Except.ok.inj holdFee
      rw [hold.conflictingTransactions, hone id old hold]
      exact hfee

theorem Lowest.unique {id id' : Txid} {low low' : UInt64} (h : pool.Lowest utxos id low)
    (h' : pool.Lowest utxos id' low') : (id, low) = (id', low') := by
  obtain ⟨pending, hget, hfee⟩ := h.held
  obtain ⟨pending', hget', hfee'⟩ := h'.held
  have heq := le_antisymm (h.least id' pending' low' hget' hfee')
    (h'.least id pending low hget hfee)
  obtain ⟨hlow, rfl⟩ := Prod.ext_iff.mp (toLex.injective heq)
  rw [UInt64.toNat_inj.mp hlow]

/-- A full pool gives up the lowest of its entries. -/
theorem Consistent.capacityEvictionCandidate_full (hc : pool.Consistent utxos)
    (hfull : pool.len = maxMempoolTransactions) :
    ∃ id low, pool.capacityEvictionCandidate utxos [] = .ok (some (id, low)) ∧
      pool.Lowest utxos id low := by
  have hmem : ∀ id fee, (id, fee) ∈ feesWithout pool utxos [] ↔
      ∃ tx, pool.get id = some tx ∧ utxos.transactionFee tx = .ok fee := by
    intro id fee
    simp only [feesWithout, List.contains_nil, Bool.not_false, List.filter_true, List.mem_map,
      Prod.exists, HashMap.mem_iter, Prod.mk.injEq]
    constructor
    · intro h
      obtain ⟨id', tx, hget, rfl, rfl⟩ := h
      exact ⟨tx, hget, hc.transactionFee_eq hget⟩
    · intro h
      obtain ⟨tx, hget, hfee⟩ := h
      rw [hc.transactionFee_eq hget] at hfee
      exact ⟨id, tx, hget, rfl, Except.ok.inj hfee⟩
  rw [hc.capacityEvictionCandidate_eq, if_neg (by simp [hfull])]
  cases hmin : (feesWithout pool utxos []).argmin fun candidate =>
      toLex (candidate.2.toNat, candidate.1) with
  | none =>
    have hlen := congrArg List.length (List.argmin_eq_none.mp hmin)
    simp [feesWithout, HashMap.iter_length, hfull, maxMempoolTransactions] at hlen
  | some evicted =>
    refine ⟨evicted.1, evicted.2, rfl, (hmem _ _).mp (List.argmin_mem hmin), ?_⟩
    intro id' pending' fee' hget' hfee'
    have hmem' := (hmem id' fee').mpr ⟨pending', hget', hfee'⟩
    have hle := List.not_lt_of_mem_argmin hmem' hmin
    exact not_lt.mp hle

/-- One conflicting entry makes the room its replacement needs. -/
theorem Consistent.capacityEvictionCandidate_one (hc : pool.Consistent utxos) (id : Txid) :
    pool.capacityEvictionCandidate utxos [id] = .ok none := by
  have hb := hc.bounded
  have hpos : 0 < maxMempoolTransactions := by decide
  rw [hc.capacityEvictionCandidate_eq, List.length_singleton, if_pos (by omega)]

theorem Consistent.capacityEvictionCandidate_room (hc : pool.Consistent utxos)
    (hroom : pool.len < maxMempoolTransactions) :
    pool.capacityEvictionCandidate utxos [] = .ok none := by
  rw [hc.capacityEvictionCandidate_eq, List.length_nil, Nat.sub_zero, if_pos hroom]

theorem Admission.checks {tx : Transaction} {fee : UInt64} {gone : Option Txid}
    (h : Admission pool utxos tx fee gone) (hc : pool.Consistent utxos)
    (hnodup : tx.spends.Nodup) :
    pool.checkReplacement utxos tx fee (pool.conflictingTransactions tx) = .ok () ∧
      ∃ displaced,
        pool.capacityEvictionCandidate utxos (pool.conflictingTransactions tx) = .ok displaced ∧
        (∀ evicted, displaced = some evicted → evicted.2 < fee) ∧
        pool.displacedBy tx displaced = gone.toList := by
  have hnil := (conflictingTransactions_eq_nil_iff pool tx).mpr
  rw [hc.checkReplacement_eq_ok hnodup]
  cases h with
  | room hnone hroom =>
    refine ⟨.inl hnone, none, ?_, fun _ he => (nomatch he), ?_⟩
    · rw [hnil hnone, hc.capacityEvictionCandidate_room hroom]
    · rw [displacedBy, hnil hnone]
      rfl
  | evicts id low hnone hfull hlow hfee =>
    obtain ⟨id', low', hd, hlow'⟩ := hc.capacityEvictionCandidate_full hfull
    obtain ⟨rfl, rfl⟩ := Prod.ext_iff.mp (hlow.unique hlow')
    refine ⟨.inl hnone, some (id, low), ?_, ?_, ?_⟩
    · rw [hnil hnone, hd]
    · intro evicted he
      obtain rfl := Option.some.inj he
      exact hfee
    · rw [displacedBy, hnil hnone]
      rfl
  | replaces id old oldFee hold holdFee hfee =>
    refine ⟨.inr ⟨id, old, oldFee, hold, holdFee, hfee⟩, none, ?_, fun _ he => (nomatch he), ?_⟩
    · rw [hold.conflictingTransactions, hc.capacityEvictionCandidate_one id]
    · rw [displacedBy, hold.conflictingTransactions]
      rfl

theorem Consistent.admission_of_checks (hc : pool.Consistent utxos) {tx : Transaction}
    (hnodup : tx.spends.Nodup) {fee : UInt64} {displaced : Option (Txid × UInt64)}
    (hcheck : pool.checkReplacement utxos tx fee (pool.conflictingTransactions tx) = .ok ())
    (hd : pool.capacityEvictionCandidate utxos (pool.conflictingTransactions tx) = .ok displaced)
    (hhigh : ∀ evicted, displaced = some evicted → evicted.2 < fee) :
    ∃ gone, Admission pool utxos tx fee gone ∧
      pool.displacedBy tx displaced = gone.toList := by
  obtain hnone | ⟨id, old, oldFee, hold, holdFee, hfee⟩ :=
    (hc.checkReplacement_eq_ok hnodup fee).mp hcheck
  · have hnil := (conflictingTransactions_eq_nil_iff pool tx).mpr hnone
    rw [hnil] at hd
    refine ⟨displaced.map Prod.fst, ?_, by rw [displacedBy, hnil, List.append_nil]⟩
    by_cases hroom : pool.len < maxMempoolTransactions
    · obtain rfl := Except.ok.inj (hd.symm.trans (hc.capacityEvictionCandidate_room hroom))
      exact .room hnone hroom
    · have hfull := hc.bounded.antisymm (not_lt.mp hroom)
      obtain ⟨id, low, hd', hlow⟩ := hc.capacityEvictionCandidate_full hfull
      obtain rfl := Except.ok.inj (hd.symm.trans hd')
      exact .evicts id low hnone hfull hlow (hhigh _ rfl)
  · rw [hold.conflictingTransactions, hc.capacityEvictionCandidate_one id] at hd
    obtain rfl := Except.ok.inj hd
    refine ⟨some id, .replaces id old oldFee hold holdFee hfee, ?_⟩
    rw [displacedBy, hold.conflictingTransactions]
    rfl

/-- `submit` admits what the policy admits, displaces what the policy says, and leaves the pool
alone when it refuses. -/
theorem submit_policy (pool : Mempool) (utxos : UtxoSet) (hc : pool.Consistent utxos)
    (tx : Transaction) :
    (∀ pool' txid, pool.submitInPlace utxos tx = (pool', .ok txid) ↔
      (tx.txid : Res MempoolError Txid) = .ok txid ∧ pool.get txid = none ∧
      ∃ fee gone, utxos.transactionFee tx = .ok fee ∧ Admission pool utxos tx fee gone ∧
        pool' = (gone.elim pool pool.remove).insert txid tx) ∧
    ∀ pool' e, pool.submitInPlace utxos tx = (pool', .error e) → pool' = pool := by
  constructor
  · intro pool' txid
    rw [submitInPlace_ok_iff, submit_eq_ok_iff]
    refine and_congr_right fun _ => and_congr_right fun _ => exists_congr fun fee => ?_
    constructor
    · intro h
      obtain ⟨displaced, hfee, hcheck, hd, hhigh, rfl⟩ := h
      have hnodup := ((utxos.transactionFee_eq_ok tx fee).mp hfee).1.nodup
      obtain ⟨gone, hadm, hgone⟩ := hc.admission_of_checks hnodup hcheck hd hhigh
      exact ⟨gone, hfee, hadm, by rw [hgone, removeAll_toList]⟩
    · intro h
      obtain ⟨gone, hfee, hadm, rfl⟩ := h
      have hnodup := ((utxos.transactionFee_eq_ok tx fee).mp hfee).1.nodup
      obtain ⟨hcheck, displaced, hd, hhigh, hgone⟩ := hadm.checks hc hnodup
      exact ⟨displaced, hfee, hcheck, hd, hhigh, by rw [hgone, removeAll_toList]⟩
  · intro pool' e h
    rw [submitInPlace_eq] at h
    cases hs : pool.submit utxos tx with
    | error e' =>
      rw [hs] at h
      exact (congrArg Prod.fst h).symm
    | ok r =>
      rw [hs] at h
      cases (Prod.ext_iff.mp h).2

/-- The transaction applies after those before it, with the fee it has on the set alone. -/
def AppliesInTurn (utxos : UtxoSet) (height : Nat) (before : List Transaction)
    (tx : Transaction) : Prop :=
  ∃ candidate candidate' fee,
    before.foldlM (fun utxos tx => utxos.applyTransaction tx height) utxos = .ok candidate ∧
    candidate.applyTransaction tx height = .ok candidate' ∧
    candidate.transactionFee tx = .ok fee ∧ utxos.transactionFee tx = .ok fee

theorem foldlM_applyTransaction (height : Nat) (utxos : UtxoSet) (txs : List Transaction)
    (hv : UtxoSet.AllValid height utxos txs) :
    txs.foldlM (fun utxos tx => utxos.applyTransaction tx height) utxos =
      .ok (utxos.afterAll height txs) := by
  induction txs generalizing utxos with
  | nil => rfl
  | cons tx rest ih =>
    obtain ⟨hvalid, hfits, hrest⟩ := hv
    have happ := (utxos.applyTransaction_eq_ok _ tx height).mpr ⟨hvalid, hfits, rfl⟩
    rw [List.foldlM_cons, happ, Res.ok_bind, ih _ hrest]
    rfl

theorem Consistent.appliesInTurn {pool : Mempool} {utxos : UtxoSet} (hc : pool.Consistent utxos)
    (hids : utxos.Repeats (pool.iter.map Prod.snd)) (height : Nat)
    (before : List (Txid × Transaction)) (entry : Txid × Transaction)
    (hsub : (before ++ [entry]).Sublist pool.iter) :
    AppliesInTurn utxos height (before.map Prod.snd) entry.2 := by
  have hbefore := (List.sublist_append_left before [entry]).trans hsub
  have hmem := hsub.subset (List.mem_append_right before List.mem_cons_self)
  have hget := (HashMap.mem_iter pool entry.1 entry.2).mp hmem
  have hvalid := (utxos.validateTransaction_eq_ok _).mp (hc.valid _ _ hget)
  have hfits := (hc.fits _ _ hget).1
  have hnodup := hc.spends_nodup _ hsub
  rw [List.flatMap_append, List.flatMap_singleton, List.nodup_append] at hnodup
  -- the coins it spends are where they were
  have hsame : ∀ o ∈ entry.2.spends,
      UtxoSet.SameOutput (utxos.afterAll height (before.map Prod.snd)) utxos o := by
    intro o ho
    obtain ⟨x, hx⟩ := hvalid.held o ho
    have hself : UtxoSet.SameOutput utxos utxos o := rfl
    refine hself.afterAll x hx height _ ?_ (hids.sublist (hbefore.map _)) ?_
    · intro tx ht
      obtain ⟨other, hother, rfl⟩ := List.mem_map.mp ht
      exact (hc.fits _ _ ((HashMap.mem_iter pool _ _).mp (hbefore.subset hother))).1
    · rw [List.flatMap_map]
      exact fun ho' => hnodup.2.2 o ho' o ho rfl
  have hvalid' := hvalid.congr hsame
  have hfee := UInt64.toNat_ofNat_of_lt' (utxos.feeOf_lt entry.2 hvalid)
  refine ⟨_, _, UInt64.ofNat (utxos.feeOf entry.2),
    foldlM_applyTransaction height utxos _ (hc.allValid hids height before hbefore).1,
    (UtxoSet.applyTransaction_eq_ok _ _ entry.2 height).mpr ⟨hvalid', hfits, rfl⟩, ?_, ?_⟩
  · rw [UtxoSet.transactionFee_eq_ok, hfee, UtxoSet.feeOf_congr _ utxos entry.2 hsame]
    exact ⟨hvalid', rfl⟩
  · rw [UtxoSet.transactionFee_eq_ok, hfee]
    exact ⟨hvalid, rfl⟩

/-- `collect_valid` returns the first pending transactions in ascending order of their ids, and
each of them applies after the others, with the fee it has on the set alone. An output of the set
under the id of a pending transaction is taken to be that transaction's. -/
theorem collectValid_first {ε : Type} (pool : Mempool) (utxos : UtxoSet)
    (hc : pool.Consistent utxos) (hids : utxos.Repeats (pool.iter.map Prod.snd))
    (maxCount : Nat) :
    ∃ txs, (pool.collectValid utxos maxCount : Res ε _) =
        .ok (txs, (pool.keys.sort (· ≤ ·)).take maxCount) ∧
      List.Forall₂ (fun id tx => pool.get id = some tx)
        ((pool.keys.sort (· ≤ ·)).take maxCount) txs ∧
      txs.length = min maxCount pool.len ∧
      ∀ height before tx after, txs = before ++ tx :: after →
        AppliesInTurn utxos height before tx := by
  have hkeys : (pool.keys.sort (· ≤ ·)).take maxCount =
      (pool.iter.take maxCount).map Prod.fst := by rw [List.map_take, HashMap.iter_keys]
  refine ⟨(pool.iter.take maxCount).map Prod.snd, ?_, ?_, ?_, ?_⟩
  · rw [hkeys, hc.collectValid_eq hids]
  · rw [hkeys, List.forall₂_map_left_iff, List.forall₂_map_right_iff, List.forall₂_same]
    intro entry he
    exact (HashMap.mem_iter pool entry.1 entry.2).mp (List.mem_of_mem_take he)
  · rw [List.length_map, List.length_take, HashMap.iter_length]
  · intro height before tx after hsplit
    obtain ⟨before', rest, hsplit', rfl, hrest⟩ := List.map_eq_append_iff.mp hsplit
    obtain ⟨entry, after', rfl, rfl, -⟩ := List.map_eq_cons_iff.mp hrest
    refine hc.appliesInTurn hids height before' entry ?_
    refine List.Sublist.trans ?_ (List.take_sublist maxCount pool.iter)
    rw [hsplit']
    simp

end Mempool

namespace NodeState

section SampleAdmission

attribute [local instance] takeCrypto sampleProfile

/-- Of three pending transactions the one that spends the same output for a smaller fee makes room. -/
theorem secondTake_policy :
    takePending.mempool.len = 3 ∧ ∃ pool',
    takePending.mempool.submitInPlace takePending.activeUtxos secondTake =
      (pool', .ok secondTake.id) ∧
    takePending.mempool.get secondTake.id = none ∧
    ∃ fee gone, takePending.activeUtxos.transactionFee secondTake = .ok fee ∧
      takePending.mempool.Admission takePending.activeUtxos secondTake fee gone ∧
      pool' = (gone.elim takePending.mempool takePending.mempool.remove).insert secondTake.id
        secondTake ∧
      pool'.get firstTake.id = none ∧ pool'.get samplePending.id = some samplePending ∧
      pool'.get changeTake.id = some changeTake := by
  have hc := takePending_okReachable.reachable.sound.pool
  have hrun : takePending.mempool.submitInPlace takePending.activeUtxos secondTake =
      ((takePending.submitTransaction secondTake).1.mempool, .ok secondTake.id) := by decide +kernel
  obtain ⟨-, hnone, fee, gone, hfee, hadm, hpool⟩ :=
    ((Mempool.submit_policy takePending.mempool takePending.activeUtxos hc secondTake).1 _ _).mp hrun
  exact ⟨by decide +kernel, _, hrun, hnone, fee, gone, hfee, hadm, hpool, by decide +kernel,
    by decide +kernel, by decide +kernel⟩

/-- Of three pending transactions the two with the smaller ids are selected, and the second applies
after the first. -/
theorem takePending_first :
    takePending.mempool.len = 3 ∧
    (takePending.mempool.collectValid takePending.activeUtxos 2 : Res NodeStateError _) =
      .ok ([firstTake, changeTake], [firstTake.id, changeTake.id]) ∧
    Mempool.AppliesInTurn takePending.activeUtxos 2 [firstTake] changeTake := by
  have hids : ∀ o x, takePending.activeUtxos.get o = some x →
      ∀ tx ∈ takePending.mempool.iter.map Prod.snd, tx.id ≠ o.txid :=
    (HashMap.forall_get_iff _).mpr (by decide +kernel)
  have hrepeats : takePending.activeUtxos.Repeats (takePending.mempool.iter.map Prod.snd) := by
    intro tx ht o x output hx hid
    exact absurd hid (hids o x hx tx ht)
  obtain ⟨txs, hok, -, -, hturn⟩ := Mempool.collectValid_first (ε := NodeStateError)
    takePending.mempool takePending.activeUtxos takePending_okReachable.reachable.sound.pool
    hrepeats 2
  have hrun : (takePending.mempool.collectValid takePending.activeUtxos 2 : Res NodeStateError _) =
      .ok ([firstTake, changeTake], [firstTake.id, changeTake.id]) := by decide +kernel
  have htxs : txs = [firstTake, changeTake] := congrArg Prod.fst (Except.ok.inj (hok.symm.trans hrun))
  exact ⟨by decide +kernel, hrun, hturn 2 [firstTake] changeTake [] htxs⟩

end SampleAdmission

end NodeState

end Wobble
