import Wobble.Node.Mempool

namespace Wobble

open Rust

theorem transactionsConflict_eq_true (left right : Transaction) :
    transactionsConflict left right = true ↔ ∃ o, o ∈ left.spends ∧ o ∈ right.spends := by
  simp only [transactionsConflict, List.any_eq_true, beq_iff_eq, Transaction.spends, List.mem_map]
  constructor
  · intro h
    obtain ⟨l, hl, r, hr, h⟩ := h
    exact ⟨l.previousOutput, ⟨l, hl, rfl⟩, ⟨r, hr, h⟩⟩
  · intro h
    obtain ⟨o, ⟨l, hl, hlo⟩, ⟨r, hr, hro⟩⟩ := h
    exact ⟨l, hl, r, hr, hro.trans hlo.symm⟩

theorem transactionsConflict_comm (left right : Transaction) :
    transactionsConflict left right = transactionsConflict right left := by
  rw [Bool.eq_iff_iff, transactionsConflict_eq_true, transactionsConflict_eq_true]
  exact exists_congr fun o => and_comm

/-- If two transactions conflict, the first has an input that the second spends too. -/
theorem firstConflictingInput_of_conflict (pool : Mempool) (tx pending : Transaction)
    (txid : Txid) (hp : pool.get txid = some pending)
    (hc : transactionsConflict tx pending = true) :
    ∃ o, firstConflictingInput tx pool = some o := by
  rw [transactionsConflict, List.any_eq_true] at hc
  obtain ⟨input, hi, hc⟩ := hc
  have hmem : (txid, pending) ∈ pool.iter := (HashMap.mem_iter pool txid pending).mpr hp
  have hfound : ((tx.inputs.find? fun input => pool.iter.any fun other =>
      other.2.inputs.any fun spent => spent.previousOutput == input.previousOutput)).isSome := by
    rw [List.find?_isSome]
    exact ⟨input, hi, List.any_eq_true.mpr ⟨_, hmem, hc⟩⟩
  obtain ⟨found, hfound⟩ := Option.isSome_iff_exists.mp hfound
  exact ⟨found.previousOutput, by rw [firstConflictingInput, hfound, Option.map_some]⟩

namespace Mempool

theorem mem_conflictingTransactions (pool : Mempool) (tx : Transaction) (txid : Txid) :
    txid ∈ pool.conflictingTransactions tx ↔
      ∃ pending, pool.get txid = some pending ∧ transactionsConflict tx pending = true := by
  simp [conflictingTransactions, HashMap.mem_iter]

theorem conflictingTransactions_eq_nil (pool : Mempool) (tx : Transaction) :
    pool.conflictingTransactions tx = [] ↔
      ∀ txid pending, pool.get txid = some pending → transactionsConflict tx pending = false := by
  rw [List.eq_nil_iff_forall_not_mem]
  simp only [mem_conflictingTransactions, not_exists, not_and, Bool.not_eq_true]

theorem conflictingTransactions_nodup (pool : Mempool) (tx : Transaction) :
    (pool.conflictingTransactions tx).Nodup :=
  (HashMap.iter_keys_nodup pool).sublist (List.filter_sublist.map _)

theorem conflictsAreReplaceable_ok (pool : Mempool) (tx : Transaction) (txids : List Txid)
    (h : ∀ txid ∈ txids, ∃ pending, pool.get txid = some pending) :
    ∃ b, pool.conflictsAreReplaceable tx txids = .ok b := by
  induction txids with
  | nil => exact ⟨true, rfl⟩
  | cons txid rest ih =>
    obtain ⟨pending, hp⟩ := h txid List.mem_cons_self
    obtain ⟨b, hb⟩ := ih fun t ht => h t (List.mem_cons_of_mem _ ht)
    rw [conflictsAreReplaceable, hp, Res.expect_some, Res.ok_bind]
    by_cases hs : sameInputSet tx pending = true
    · exact ⟨b, by rw [if_pos hs, hb]⟩
    · exact ⟨false, if_neg hs⟩

variable [Crypto]

theorem capacityEvictionCandidate_cases {pool : Mempool} {utxos : UtxoSet} {ids : List Txid}
    {displaced : Option (Txid × UInt64)}
    (h : pool.capacityEvictionCandidate utxos ids = .ok displaced) :
    (displaced = none → pool.len - ids.length < maxMempoolTransactions) ∧
      ∀ evicted, displaced = some evicted → ∃ tx, pool.get evicted.1 = some tx := by
  rw [capacityEvictionCandidate] at h
  by_cases hs : pool.len - ids.length < maxMempoolTransactions
  · rw [if_pos hs] at h
    obtain rfl := Except.ok.inj h
    exact ⟨fun _ => hs, fun _ he => nomatch he⟩
  rw [if_neg hs] at h
  obtain ⟨fees, hfees, h⟩ := (Res.bind_eq_ok _ _ _).mp h
  obtain rfl := Except.ok.inj h
  constructor
  · -- every entry is among the conflicting ones, so no survivors are counted
    intro hnone
    rw [List.argmin_eq_none.mp hnone, Res.mapAll_eq_ok, List.forall₂_nil_right_iff] at hfees
    have hsub : pool.keys ⊆ ids.toFinset := by
      intro txid ht
      obtain ⟨tx, hg⟩ := (HashMap.mem_keys pool txid).mp ht
      have hnot := List.filter_eq_nil_iff.mp hfees (txid, tx) ((HashMap.mem_iter _ _ _).mpr hg)
      simpa using hnot
    have hlen : pool.len ≤ ids.length :=
      (Finset.card_le_card hsub).trans (List.toFinset_card_le ids)
    have hpos : 0 < maxMempoolTransactions := by decide
    omega
  · intro evicted hsome
    obtain ⟨entry, he, hfee⟩ := Res.mem_of_mapAll hfees evicted (List.argmin_mem hsome)
    obtain ⟨fee, -, hfee⟩ := (Res.bind_eq_ok _ _ _).mp hfee
    obtain rfl := Except.ok.inj hfee
    exact ⟨entry.2, (HashMap.mem_iter pool entry.1 entry.2).mp (List.mem_of_mem_filter he)⟩

/-- The entries an admission takes out: the one it evicts and those it replaces. -/
def displacedBy (pool : Mempool) (tx : Transaction) (displaced : Option (Txid × UInt64)) :
    List Txid :=
  (displaced.map Prod.fst).toList ++ pool.conflictingTransactions tx

/-- The steps of an admission. -/
theorem submit_eq_ok_iff (pool pool' : Mempool) (utxos : UtxoSet) (tx : Transaction)
    (txid : Txid) :
    pool.submit utxos tx = .ok (pool', txid) ↔
      (tx.txid : Res MempoolError Txid) = .ok txid ∧ pool.get txid = none ∧
      ∃ fee displaced, utxos.transactionFee tx = .ok fee ∧
        pool.checkReplacement utxos tx fee (pool.conflictingTransactions tx) = .ok () ∧
        pool.capacityEvictionCandidate utxos (pool.conflictingTransactions tx) = .ok displaced ∧
        (∀ evicted, displaced = some evicted → evicted.2 < fee) ∧
        pool' = (pool.removeAll (pool.displacedBy tx displaced)).insert txid tx := by
  rw [submit]
  constructor
  · intro h
    obtain ⟨id, hid, h⟩ := (Res.bind_eq_ok _ _ _).mp h
    by_cases hk : pool.containsKey id = true
    · rw [if_pos hk] at h
      cases h
    rw [if_neg hk] at h
    have hfresh : pool.get id = none :=
      (HashMap.containsKey_eq_false pool id).mp (Bool.eq_false_of_not_eq_true hk)
    obtain ⟨fee, hfee, h⟩ := (Res.bind_eq_ok _ _ _).mp h
    rw [Res.mapErr_eq_ok] at hfee
    obtain ⟨hcheck, h⟩ := (Res.then_eq_ok _ _ _).mp h
    obtain ⟨displaced, hd, h⟩ := (Res.bind_eq_ok _ _ _).mp h
    cases displaced with
    | none =>
      cases h
      exact ⟨hid, hfresh, fee, none, hfee, hcheck, hd, fun _ he => (nomatch he), rfl⟩
    | some evicted =>
      dsimp only at h
      split_ifs at h with hlow
      · cases h
      cases h
      refine ⟨hid, hfresh, fee, some evicted, hfee, hcheck, hd, ?_, rfl⟩
      intro other he
      obtain rfl := Option.some.inj he
      exact UInt64.not_le.mp hlow
  · intro h
    obtain ⟨hid, hfresh, fee, displaced, hfee, hcheck, hd, hhigh, rfl⟩ := h
    have hk : ¬ pool.containsKey txid = true := by
      rw [(HashMap.containsKey_eq_false pool txid).mpr hfresh]
      exact Bool.false_ne_true
    rw [hid, Res.ok_bind, if_neg hk, hfee, Res.mapErr_ok, Res.ok_bind]
    dsimp only
    rw [hcheck, Res.ok_bind, hd, Res.ok_bind]
    cases displaced with
    | none => rfl
    | some evicted =>
      dsimp only
      rw [if_neg (UInt64.not_le.mpr (hhigh evicted rfl))]
      rfl

theorem submit_cases {pool pool' : Mempool} {utxos : UtxoSet} {tx : Transaction} {txid : Txid}
    (h : pool.submit utxos tx = .ok (pool', txid)) :
    tx.Fits true ∧ txid = tx.id ∧ pool.get tx.id = none ∧ utxos.Valid tx ∧ ∃ displaced,
      pool.capacityEvictionCandidate utxos (pool.conflictingTransactions tx) = .ok displaced ∧
      pool' = (pool.removeAll (pool.displacedBy tx displaced)).insert tx.id tx := by
  obtain ⟨hid, hfresh, fee, displaced, hfee, -, hd, -, hpool⟩ :=
    (submit_eq_ok_iff pool pool' utxos tx txid).mp h
  obtain ⟨hf, rfl⟩ := (Transaction.txid_eq_ok tx txid).mp hid
  exact ⟨hf, rfl, hfresh, ((utxos.transactionFee_eq_ok tx fee).mp hfee).1, displaced, hd, hpool⟩

/-- The pool invariant, relative to the set transactions are judged against. -/
structure Consistent (pool : Mempool) (utxos : UtxoSet) : Prop where
  keyed : ∀ txid tx, pool.get txid = some tx → (tx.txid : Res MempoolError Txid) = .ok txid
  valid : ∀ txid tx, pool.get txid = some tx → utxos.validateTransaction tx = .ok ()
  disjoint : ∀ txid tx txid' tx', pool.get txid = some tx → pool.get txid' = some tx' →
    txid ≠ txid' → transactionsConflict tx tx' = false
  bounded : pool.len ≤ maxMempoolTransactions

theorem new_consistent (utxos : UtxoSet) : Consistent HashMap.new utxos where
  keyed := by simp
  valid := by simp
  disjoint := by simp
  bounded := by simp

namespace Consistent

variable {pool : Mempool} {utxos : UtxoSet}

theorem fits (hc : pool.Consistent utxos) (txid : Txid) (tx : Transaction)
    (h : pool.get txid = some tx) : tx.Fits true ∧ tx.id = txid :=
  (Transaction.txid_eq_ok tx txid).mp (hc.keyed txid tx h)

/-- A smaller pool whose transactions stay valid is consistent. -/
theorem sub (hc : pool.Consistent utxos) (pool' : Mempool) (utxos' : UtxoSet)
    (hsub : ∀ txid tx, pool'.get txid = some tx → pool.get txid = some tx)
    (hv : ∀ txid tx, pool'.get txid = some tx → utxos'.validateTransaction tx = .ok ()) :
    pool'.Consistent utxos' where
  keyed txid tx h := hc.keyed txid tx (hsub txid tx h)
  valid := hv
  disjoint txid tx txid' tx' h h' :=
    hc.disjoint txid tx txid' tx' (hsub txid tx h) (hsub txid' tx' h')
  bounded := (HashMap.len_le_of_sub pool pool' hsub).trans hc.bounded

theorem removeMany (hc : pool.Consistent utxos) (txids : List Txid) :
    (pool.removeMany txids).Consistent utxos := by
  have hsub : ∀ txid tx, (pool.removeMany txids).get txid = some tx →
      pool.get txid = some tx := by
    intro txid tx h
    rw [Mempool.removeMany, HashMap.get_removeAll] at h
    split_ifs at h
    exact h
  exact hc.sub _ _ hsub fun txid tx h => hc.valid txid tx (hsub txid tx h)

/-- One more entry, if there is room for it and it spends nothing the others spend. -/
theorem insert (hc : pool.Consistent utxos) (tx : Transaction) (hf : tx.Fits true)
    (hv : utxos.validateTransaction tx = .ok ()) (hroom : pool.len < maxMempoolTransactions)
    (hn : pool.get tx.id = none)
    (hd : ∀ txid pending, pool.get txid = some pending →
      transactionsConflict tx pending = false) :
    Consistent (pool.insert tx.id tx) utxos := by
  have hcases : ∀ txid pending, (pool.insert tx.id tx).get txid = some pending →
      (txid = tx.id ∧ pending = tx) ∨ pool.get txid = some pending := by
    intro txid pending h
    rw [HashMap.get_insert] at h
    split_ifs at h with he
    · exact .inl ⟨he, (Option.some.inj h).symm⟩
    · exact .inr h
  constructor
  · intro txid pending h
    rcases hcases txid pending h with ⟨rfl, rfl⟩ | h
    · exact (Transaction.txid_eq_ok _ _).mpr ⟨hf, rfl⟩
    · exact hc.keyed txid pending h
  · intro txid pending h
    rcases hcases txid pending h with ⟨rfl, rfl⟩ | h
    · exact hv
    · exact hc.valid txid pending h
  · intro txid pending txid' pending' h h' hne
    rcases hcases txid pending h with ⟨ht, hp⟩ | hp
    · rcases hcases txid' pending' h' with ⟨ht', hp'⟩ | hp'
      · exact absurd (ht.trans ht'.symm) hne
      · rw [hp]
        exact hd txid' pending' hp'
    · rcases hcases txid' pending' h' with ⟨ht', hp'⟩ | hp'
      · rw [hp', transactionsConflict_comm]
        exact hd txid pending hp
      · exact hc.disjoint txid pending txid' pending' hp hp' hne
  · rw [HashMap.len_insert_of_get_none pool tx.id tx hn]
    exact hroom

/-- A pending transaction has a fee. -/
theorem transactionFee_eq (hc : pool.Consistent utxos) {id : Txid} {tx : Transaction}
    (h : pool.get id = some tx) :
    utxos.transactionFee tx = .ok (UInt64.ofNat (utxos.feeOf tx)) := by
  have hv := (utxos.validateTransaction_eq_ok tx).mp (hc.valid id tx h)
  exact (utxos.transactionFee_eq_ok tx _).mpr
    ⟨hv, UInt64.toNat_ofNat_of_lt' (utxos.feeOf_lt tx hv)⟩

theorem pendingFee_eq (hc : pool.Consistent utxos) (txid : Txid) (tx : Transaction)
    (h : pool.get txid = some tx) :
    pendingFee utxos tx = .ok (UInt64.ofNat (utxos.feeOf tx)) := by
  rw [pendingFee, hc.transactionFee_eq h, Res.expectOk_ok]

theorem checkReplacement_returned (hc : pool.Consistent utxos) (tx : Transaction)
    (fee : UInt64) :
    Res.Returned (pool.checkReplacement utxos tx fee (pool.conflictingTransactions tx)) := by
  have hmem := mem_conflictingTransactions pool tx
  set ids := pool.conflictingTransactions tx
  intro m h
  rw [checkReplacement] at h
  by_cases he : ids.isEmpty = true
  · rw [if_pos he] at h
    cases h
  rw [if_neg he] at h
  have hget : ∀ txid ∈ ids, ∃ pending, pool.get txid = some pending := by
    intro txid ht
    obtain ⟨pending, hp, -⟩ := (hmem txid).mp ht
    exact ⟨pending, hp⟩
  obtain ⟨b, hb⟩ := conflictsAreReplaceable_ok pool tx ids hget
  rw [hb, Res.ok_bind] at h
  obtain ⟨txid, ht⟩ := List.exists_mem_of_ne_nil ids fun hn => he (List.isEmpty_iff.mpr hn)
  obtain ⟨pending, hp, hconf⟩ := (hmem txid).mp ht
  cases b with
  | false =>
    obtain ⟨o, ho⟩ := firstConflictingInput_of_conflict pool tx pending txid hp hconf
    rw [ho] at h
    cases h
  | true =>
    have hfees := Res.mapAll_eq (fun existingTxid => do
      let pending ← Res.expect "conflicting transaction must exist" (pool.get existingTxid)
      pendingFee utxos pending)
      (fun t => UInt64.ofNat ((pool.get t).elim 0 utxos.feeOf)) ids (by
        intro t ht
        obtain ⟨pending, hp⟩ := hget t ht
        rw [hp, Res.expect_some, Res.ok_bind, hc.pendingFee_eq t pending hp, Option.elim_some])
    rw [hfees] at h
    cases hm : (ids.map fun t => UInt64.ofNat ((pool.get t).elim 0 utxos.feeOf)).max? with
    | none =>
      rw [List.max?_eq_none_iff, List.map_eq_nil_iff] at hm
      exact he (List.isEmpty_iff.mpr hm)
    | some top =>
      simp only [Bool.not_true, Bool.false_eq_true, if_false, Res.ok_bind, hm,
        Res.expect_some] at h
      split_ifs at h
      cases h

/-- The pending entries with their fees, without some. -/
def feesWithout (pool : Mempool) (utxos : UtxoSet) (ids : List Txid) : List (Txid × UInt64) :=
  (pool.iter.filter fun entry => !ids.contains entry.1).map fun entry =>
    (entry.1, UInt64.ofNat (utxos.feeOf entry.2))

theorem capacityEvictionCandidate_eq (hc : pool.Consistent utxos) (ids : List Txid) :
    pool.capacityEvictionCandidate utxos ids =
      .ok (if pool.len - ids.length < maxMempoolTransactions then none
        else (feesWithout pool utxos ids).argmin fun candidate =>
          toLex (candidate.2.toNat, candidate.1)) := by
  rw [capacityEvictionCandidate]
  split_ifs with hs
  · rfl
  have hfees := Res.mapAll_eq (fun entry : Txid × Transaction => do
      let fee ← pendingFee utxos entry.2
      (.ok (entry.1, fee) : Res MempoolError (Txid × UInt64)))
    (fun entry => (entry.1, UInt64.ofNat (utxos.feeOf entry.2)))
    (pool.iter.filter fun entry => !ids.contains entry.1) (by
      intro entry he
      have hget := (HashMap.mem_iter pool entry.1 entry.2).mp (List.mem_of_mem_filter he)
      rw [hc.pendingFee_eq entry.1 entry.2 hget, Res.ok_bind])
  rw [hfees, Res.ok_bind]
  rfl

/-- Someone is evicted only from a full pool, and never one of the conflicting entries. -/
theorem capacityEvictionCandidate_ok (hc : pool.Consistent utxos) (ids : List Txid) :
    ∃ displaced, pool.capacityEvictionCandidate utxos ids = .ok displaced ∧
      match displaced with
      | none => pool.len - ids.length < maxMempoolTransactions
      | some (txid, _) => ∃ tx, pool.get txid = some tx := by
  have hok := hc.capacityEvictionCandidate_eq ids
  obtain ⟨hroom, hgone⟩ := capacityEvictionCandidate_cases hok
  refine ⟨_, hok, ?_⟩
  generalize (if pool.len - ids.length < maxMempoolTransactions then none
    else (feesWithout pool utxos ids).argmin fun candidate =>
      toLex (candidate.2.toNat, candidate.1)) = displaced at hroom hgone
  cases displaced with
  | none => exact hroom rfl
  | some evicted => exact hgone evicted rfl

/-- What an admission does: some entries leave, all that conflict with the newcomer among
them, and the newcomer comes in. -/
structure Admitted (pool : Mempool) (utxos : UtxoSet) (tx : Transaction) (gone : List Txid) :
    Prop where
  fits : tx.Fits true
  fresh : pool.get tx.id = none
  valid : utxos.Valid tx
  conflicts : ∀ txid ∈ pool.conflictingTransactions tx, txid ∈ gone
  room : (pool.removeAll gone).len < maxMempoolTransactions

theorem submit_eq_ok (hc : pool.Consistent utxos) (tx : Transaction) (pool' : Mempool)
    (txid : Txid) (h : pool.submit utxos tx = .ok (pool', txid)) :
    txid = tx.id ∧ ∃ gone, Admitted pool utxos tx gone ∧
      pool' = (pool.removeAll gone).insert tx.id tx := by
  obtain ⟨hf, hid, hfresh, hvalid, displaced, hd, hpool⟩ := submit_cases h
  obtain ⟨hnone, hsome⟩ := capacityEvictionCandidate_cases hd
  refine ⟨hid, pool.displacedBy tx displaced,
    ⟨hf, hfresh, hvalid, fun _ ht => List.mem_append_right _ ht, ?_⟩, hpool⟩
  cases displaced with
  | none =>
    have hlen := pool.len_removeAll _ (pool.conflictingTransactions_nodup tx) fun t ht => (by
      obtain ⟨pending, hp, -⟩ := (mem_conflictingTransactions pool tx t).mp ht
      exact ⟨pending, hp⟩)
    have hroom := hnone rfl
    change (pool.removeAll (pool.conflictingTransactions tx)).len < _
    omega
  | some evicted =>
    obtain ⟨old, hold⟩ := hsome evicted rfl
    have hrem := pool.len_remove_of_get evicted.1 old hold
    have hle : ((pool.remove evicted.1).removeAll (pool.conflictingTransactions tx)).len ≤
        (pool.remove evicted.1).len := by
      apply HashMap.len_le_of_sub
      intro t v ht
      rw [HashMap.get_removeAll] at ht
      split_ifs at ht
      exact ht
    have hb := hc.bounded
    change ((pool.remove evicted.1).removeAll (pool.conflictingTransactions tx)).len < _
    omega

theorem submit (hc : pool.Consistent utxos) (tx : Transaction) (pool' : Mempool) (txid : Txid)
    (h : pool.submit utxos tx = .ok (pool', txid)) : pool'.Consistent utxos := by
  obtain ⟨-, gone, ha, rfl⟩ := hc.submit_eq_ok tx pool' txid h
  have hrest := hc.removeMany gone
  refine hrest.insert tx ha.fits ((utxos.validateTransaction_eq_ok tx).mpr ha.valid) ha.room ?_ ?_
  · rw [Mempool.removeMany, HashMap.get_removeAll, ha.fresh, ite_self]
  · intro t pending ht
    rw [Mempool.removeMany, HashMap.get_removeAll] at ht
    split_ifs at ht with hg
    by_contra hconf
    exact hg (ha.conflicts t ((mem_conflictingTransactions pool tx t).mpr
      ⟨pending, ht, Bool.eq_true_of_not_eq_false hconf⟩))

/-- The only panic of `submit` is the encoder's, on the transaction submitted. -/
theorem submit_panic (hc : pool.Consistent utxos) (tx : Transaction) (m : String)
    (h : pool.submit utxos tx = .error (.panic m)) :
    (tx.txid : Res MempoolError Txid) = .error (.panic m) := by
  rw [Mempool.submit] at h
  rcases (Res.bind_eq_error _ _ _).mp h with h | ⟨id, hid, h⟩
  · exact h
  exfalso
  obtain ⟨hf, rfl⟩ := (Transaction.txid_eq_ok tx id).mp hid
  by_cases hk : pool.containsKey tx.id = true
  · rw [if_pos hk] at h
    cases h
  rw [if_neg hk] at h
  rcases (Res.bind_eq_error _ _ _).mp h with h | ⟨fee, -, h⟩
  · rw [Res.mapErr_eq_panic, UtxoSet.transactionFee] at h
    rcases (Res.bind_eq_error _ _ _).mp h with h | ⟨r, -, h⟩
    · exact utxos.validateTransactionInner_returned tx (tx.fits_false hf) m h
    · cases h
  rcases (Res.bind_eq_error _ _ _).mp h with h | ⟨-, -, h⟩
  · exact hc.checkReplacement_returned tx fee m h
  obtain ⟨displaced, hd, -⟩ := hc.capacityEvictionCandidate_ok (pool.conflictingTransactions tx)
  rw [hd, Res.ok_bind] at h
  cases displaced with
  | none => cases h
  | some evicted =>
    dsimp only at h
    split_ifs at h <;> cases h

theorem pruneInvalid {ε : Type} (hc : pool.Consistent utxos) (utxos' : UtxoSet) :
    ∃ pool', (pool.pruneInvalid utxos' : Res ε Mempool) = .ok pool' ∧
      pool'.Consistent utxos' ∧
      ∀ txid tx, pool'.get txid = some tx ↔ pool.get txid = some tx ∧ utxos'.Valid tx := by
  classical
  obtain ⟨pool', hok, hget⟩ := HashMap.retain_spec (ε := ε) pool
    (fun _ tx => Res.isOk (utxos'.validateTransaction tx))
    (fun _ tx => decide (utxos'.Valid tx)) (by
      intro txid tx h
      exact utxos'.validateTransaction_isOk tx (tx.fits_false (hc.fits txid tx h).1))
  have hiff : ∀ txid tx, pool'.get txid = some tx ↔
      pool.get txid = some tx ∧ utxos'.Valid tx := by
    intro txid tx
    rw [hget, Option.filter_eq_some_iff, decide_eq_true_eq]
  refine ⟨pool', hok, hc.sub pool' utxos' (fun txid tx h => ((hiff txid tx).mp h).1) ?_, hiff⟩
  intro txid tx h
  exact (utxos'.validateTransaction_eq_ok tx).mpr ((hiff txid tx).mp h).2

end Consistent

end Mempool

end Wobble
