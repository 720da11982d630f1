import Wobble.Node.Payment
import Wobble.Store.HistoryQuery
import Wobble.Wallet.Keyring

namespace Wobble

open Rust SpendLog

/-- The loop variables of `format_wallet_transaction_line`. -/
structure WalletEffect where
  sent : UInt64
  received : UInt64
  deriving DecidableEq

namespace WalletEffect

def add (walletKeys : List Bytes) (effect : WalletEffect) (edge : TransactionKeyEdge) :
    WalletEffect :=
  if !walletKeys.any fun key => key == edge.keyData then effect
  else match edge.keyRole with
    | .input => { effect with sent := saturatingAdd effect.sent (edge.value.getD 0) }
    | .output => { effect with received := saturatingAdd effect.received (edge.value.getD 0) }

def net (effect : WalletEffect) : Int := effect.received.toNat - effect.sent.toNat

end WalletEffect

def walletEffect (walletKeys : List Bytes) (edges : List TransactionKeyEdge) : WalletEffect :=
  edges.foldl (WalletEffect.add walletKeys) ⟨0, 0⟩

/-- `{:+}`. -/
def formatSigned (value : Int) : String :=
  if value < 0 then "-" ++ toString value.natAbs else "+" ++ toString value.natAbs

def formatPosition (transaction : IndexedTransaction) : String :=
  match transaction.status with
  | .confirmed => "confirmed height=" ++ toString (transaction.blockHeight.getD 0) ++
      " pos=" ++ toString (transaction.positionInBlock.getD 0).toNat
  | .mempool => "mempool"

/-- The line for a transaction with the given amounts. -/
def historyLine (transaction : IndexedTransaction) (effect : WalletEffect) : Text :=
  ⟨(formatPosition transaction ++ " txid=").toUTF8.toList ++ transaction.txid.toString ++
    (" sent=" ++ toString effect.sent.toNat ++ " received=" ++ toString effect.received.toNat ++
      " net=" ++ formatSigned effect.net).toUTF8.toList⟩

def formatWalletTransactionLine (transaction : IndexedTransaction) (walletKeys : List Bytes)
    (edges : List TransactionKeyEdge) : Text :=
  historyLine transaction (walletEffect walletKeys edges)

section Commands

variable [Crypto]

/-- The locking data of the wallet's keys. -/
def Wallet.locks (wallet : Wallet SigningKey) : List Bytes :=
  wallet.keys.map fun key => lockOf key.signingKey

def walletTransactionLines (store : SqliteStore) (wallet : Wallet SigningKey) :
    Res SqliteStoreError (List Text) := do
  let transactions ← store.loadTransactionsForKeys wallet.locks
  Res.mapAll (fun transaction => do
    let edges ← store.loadTransactionKeyEdges transaction.txid
    return formatWalletTransactionLine transaction wallet.locks edges) transactions

/-- What `balance` prints. -/
structure BalanceReport where
  defaultKey : Text
  balances : List (Text × UInt64)
  total : UInt64

/-- The unchecked `sum()` over the coins with this locking data. -/
def UtxoSet.balance [Profile] {ε : Type} (utxos : UtxoSet) (ownerBytes : Bytes) : Res ε UInt64 :=
  ((utxos.iter.filter fun entry => entry.2.output.lockingData == ownerBytes).map
    fun entry => entry.2.output.value).foldlM addU64 0

def runBalance [Profile] (store : SqliteStore) (wallet : Wallet SigningKey) :
    Res SqliteStoreError BalanceReport := do
  let utxos ← store.loadActiveUtxos
  let balances ← Res.mapAll (fun key => do
    let balance ← utxos.balance (lockOf key.signingKey)
    return (key.name, balance)) wallet.keys
  return ⟨wallet.defaultKey, balances, (balances.map Prod.snd).foldl saturatingAdd 0⟩

end Commands

/-- Sums are additive in what they sum. -/
theorem sum_map_eq_add {α : Type} (l : List α) (f g h : α → Nat)
    (hsplit : ∀ a ∈ l, f a = g a + h a) : (l.map f).sum = (l.map g).sum + (l.map h).sum := by
  rw [← List.sum_map_add]
  exact congrArg List.sum (List.map_congr_left hsplit)

theorem sum_map_sub {α : Type} (l : List α) (f g : α → Nat) :
    (l.map fun a => (f a : Int) - g a).sum = (l.map f).sum - (l.map g).sum := by
  induction l with
  | nil => rfl
  | cons a l ih =>
    simp only [List.map_cons, List.sum_cons, ih]
    omega

/-- What a filter leaves out may be added again if it is zero. -/
theorem sum_map_filter {α : Type} (l : List α) (p : α → Bool) (f : α → Int)
    (h : ∀ a ∈ l, p a = false → f a = 0) : ((l.filter p).map f).sum = (l.map f).sum := by
  induction l with
  | nil => rfl
  | cons a l ih =>
    obtain ⟨ha, hl⟩ := List.forall_mem_cons.mp h
    cases hp : p a with
    | true => simp [hp, ih hl]
    | false => simp [hp, ha hp, ih hl]

/-- What an output is worth to some keys. -/
def TxOut.worthTo (keys : List Bytes) (output : TxOut) : Nat :=
  if keys.contains output.lockingData then output.value.toNat else 0

theorem TxOut.worthTo_le (keys : List Bytes) (output : TxOut) :
    output.worthTo keys ≤ output.value.toNat := by
  unfold worthTo
  split_ifs
  · exact le_rfl
  · exact Nat.zero_le _

theorem TxOut.worthTo_nil (output : TxOut) : output.worthTo [] = 0 := by
  simp [worthTo]

theorem TxOut.worthTo_cons (key : Bytes) (keys : List Bytes) (hnew : key ∉ keys)
    (output : TxOut) : output.worthTo (key :: keys) = output.worth key + output.worthTo keys := by
  unfold worthTo worth
  by_cases hkey : output.lockingData = key
  · simp [hkey, hnew]
  · simp [hkey]

/-- The values of the edges some keys have in a role. -/
def ownSum (role : TransactionKeyRole) (keys : List Bytes) (edges : List TransactionKeyEdge) : Nat :=
  (edges.map fun edge =>
    if edge.keyRole = role ∧ keys.contains edge.keyData then (edge.value.getD 0).toNat else 0).sum

theorem ownSum_nil (role : TransactionKeyRole) (edges : List TransactionKeyEdge) :
    ownSum role [] edges = 0 := by
  simp [ownSum]

theorem ownSum_cons (role : TransactionKeyRole) (key : Bytes) (keys : List Bytes)
    (hnew : key ∉ keys) (edges : List TransactionKeyEdge) :
    ownSum role (key :: keys) edges = keySum role key edges + ownSum role keys edges := by
  apply sum_map_eq_add
  intro edge _
  by_cases hkey : edge.keyData = key
  · simp [hkey, hnew]
  · simp [hkey]

theorem ownSum_perm (role : TransactionKeyRole) (keys : List Bytes)
    {edges edges' : List TransactionKeyEdge} (h : edges.Perm edges') :
    ownSum role keys edges = ownSum role keys edges' :=
  (h.map _).sum_eq

/-- The loop adds up the two roles, each cut off at the largest value. -/
theorem WalletEffect.foldl_add (walletKeys : List Bytes) (edges : List TransactionKeyEdge)
    (effect : WalletEffect) :
    (edges.foldl (WalletEffect.add walletKeys) effect).sent.toNat =
        min (effect.sent.toNat + ownSum .input walletKeys edges) (2^64 - 1) ∧
      (edges.foldl (WalletEffect.add walletKeys) effect).received.toNat =
        min (effect.received.toNat + ownSum .output walletKeys edges) (2^64 - 1) := by
  induction edges generalizing effect with
  | nil =>
    have hsent := effect.sent.toNat_lt
    have hreceived := effect.received.toNat_lt
    simp only [List.foldl_nil, ownSum, List.map_nil, List.sum_nil]
    omega
  | cons edge rest ih =>
    obtain ⟨hsent, hreceived⟩ := ih (effect.add walletKeys edge)
    have hany : (walletKeys.any fun key => key == edge.keyData) =
        walletKeys.contains edge.keyData := by
      simp [List.any_beq']
    rw [List.foldl_cons, hsent, hreceived]
    unfold ownSum WalletEffect.add
    rw [hany, List.map_cons, List.map_cons, List.sum_cons, List.sum_cons]
    cases hmem : walletKeys.contains edge.keyData with
    | false => simp
    | true =>
      cases hrole : edge.keyRole with
      | input =>
        have hadd := toNat_saturatingAdd effect.sent (edge.value.getD 0)
        simp only [Bool.not_true, Bool.false_eq_true, if_false, hadd, reduceCtorEq, and_true,
          if_true]
        omega
      | output =>
        have hadd := toNat_saturatingAdd effect.received (edge.value.getD 0)
        simp only [Bool.not_true, Bool.false_eq_true, if_false, hadd, reduceCtorEq, and_true,
          if_true]
        omega

theorem walletEffect_eq (walletKeys : List Bytes) (edges : List TransactionKeyEdge)
    (hsent : ownSum .input walletKeys edges < 2^64)
    (hreceived : ownSum .output walletKeys edges < 2^64) :
    (walletEffect walletKeys edges).sent.toNat = ownSum .input walletKeys edges ∧
      (walletEffect walletKeys edges).received.toNat = ownSum .output walletKeys edges := by
  obtain ⟨h, h'⟩ := WalletEffect.foldl_add walletKeys edges ⟨0, 0⟩
  rw [walletEffect, h, h']
  simp only [UInt64.toNat_zero]
  omega

/-- What a transaction pays to some keys. -/
def Transaction.paidTo (keys : List Bytes) (tx : Transaction) : Nat :=
  (tx.outputs.map fun output => output.worthTo keys).sum

theorem Transaction.paidTo_nil (tx : Transaction) : tx.paidTo [] = 0 := by
  simp [paidTo, TxOut.worthTo_nil]

theorem Transaction.paidTo_cons (key : Bytes) (keys : List Bytes) (hnew : key ∉ keys)
    (tx : Transaction) :
    tx.paidTo (key :: keys) = (tx.outputs.map (TxOut.worth key)).sum + tx.paidTo keys := by
  apply sum_map_eq_add
  intro output _
  exact output.worthTo_cons key keys hnew

theorem Transaction.paidTo_le (keys : List Bytes) (tx : Transaction) :
    tx.paidTo keys ≤ tx.outputTotal := by
  apply List.sum_le_sum
  intro output _
  exact output.worthTo_le keys

theorem UtxoSet.total_worthTo_cons (utxos : UtxoSet) (key : Bytes) (keys : List Bytes)
    (hnew : key ∉ keys) :
    (utxos.total fun x => x.output.worthTo (key :: keys)) =
      (utxos.total fun x => x.output.worth key) + utxos.total fun x => x.output.worthTo keys := by
  rw [HashMap.total_eq_iter, HashMap.total_eq_iter, HashMap.total_eq_iter]
  apply sum_map_eq_add
  intro entry _
  exact entry.2.output.worthTo_cons key keys hnew

theorem UtxoSet.total_worthTo (utxos : UtxoSet) (keys : List Bytes) (hkeys : keys.Nodup) :
    (utxos.total fun x => x.output.worthTo keys) =
      (keys.map fun key => utxos.total fun x => x.output.worth key).sum := by
  induction keys with
  | nil =>
    rw [HashMap.total_eq_iter]
    simp [TxOut.worthTo_nil]
  | cons key keys ih =>
    obtain ⟨hnew, hkeys⟩ := List.nodup_cons.mp hkeys
    rw [utxos.total_worthTo_cons key keys hnew, ih hkeys, List.map_cons, List.sum_cons]

theorem UtxoSet.total_worthTo_le (utxos : UtxoSet) (keys : List Bytes) :
    (utxos.total fun x => x.output.worthTo keys) ≤ utxos.totalValue := by
  rw [UtxoSet.totalValue, HashMap.total_eq_iter, HashMap.total_eq_iter]
  apply List.sum_le_sum
  intro entry _
  exact entry.2.output.worthTo_le keys

section Chain

variable [Crypto]

/-- What a transaction spends of some keys, by the outputs of the chain. -/
def Transaction.spentFrom (chain : List Transaction) (keys : List Bytes) (tx : Transaction) : Nat :=
  (tx.spends.map fun o => (outputAt chain o).elim 0 (TxOut.worthTo keys)).sum

theorem Transaction.spentFrom_nil (chain : List Transaction) (tx : Transaction) :
    tx.spentFrom chain [] = 0 := by
  refine List.sum_eq_zero ?_
  intro n hn
  obtain ⟨o, -, rfl⟩ := List.mem_map.mp hn
  cases outputAt chain o with
  | none => rfl
  | some output => exact output.worthTo_nil

theorem Transaction.spentFrom_cons (chain : List Transaction) (key : Bytes) (keys : List Bytes)
    (hnew : key ∉ keys) (tx : Transaction) :
    tx.spentFrom chain (key :: keys) =
      (tx.spends.map fun o => (outputAt chain o).elim 0 (TxOut.worth key)).sum +
        tx.spentFrom chain keys := by
  apply sum_map_eq_add
  intro o _
  cases outputAt chain o with
  | none => rfl
  | some output => exact output.worthTo_cons key keys hnew

/-- The edges of a transaction tell what it pays to the keys and what it spends of them. -/
theorem ownSum_edgesOf (chain : List Transaction) (keys : List Bytes) (hn : keys.Nodup)
    (tx : Transaction) :
    ownSum .input keys (edgesOf (outputAt chain) tx) = tx.spentFrom chain keys ∧
      ownSum .output keys (edgesOf (outputAt chain) tx) = tx.paidTo keys := by
  induction keys with
  | nil =>
    rw [ownSum_nil, ownSum_nil, tx.spentFrom_nil, tx.paidTo_nil]
    exact ⟨rfl, rfl⟩
  | cons key keys ih =>
    obtain ⟨hnew, hn⟩ := List.nodup_cons.mp hn
    obtain ⟨hinput, houtput⟩ := ih hn
    rw [ownSum_cons _ _ _ hnew, ownSum_cons _ _ _ hnew, keySum_input, keySum_output, hinput,
      houtput, tx.spentFrom_cons chain key keys hnew, tx.paidTo_cons key keys hnew]
    exact ⟨rfl, rfl⟩

/-- What some keys own after a chain is what it paid to them less what it spent of them. -/
theorem chain_worthTo (keys : List Bytes) (hkeys : keys.Nodup) (bs : List Block) (u : UtxoSet)
    (h : applyChain bs = .ok u)
    (hd : ((bs.flatMap Block.transactions).map Transaction.id).Nodup) :
    (u.total fun x => x.output.worthTo keys) +
        ((bs.flatMap Block.transactions).map
          (Transaction.spentFrom (bs.flatMap Block.transactions) keys)).sum =
      ((bs.flatMap Block.transactions).map (Transaction.paidTo keys)).sum := by
  induction keys with
  | nil =>
    have htotal : (u.total fun x => x.output.worthTo []) = 0 := by
      rw [HashMap.total_eq_iter]
      simp [TxOut.worthTo_nil]
    rw [htotal, funext (Transaction.spentFrom_nil _), funext Transaction.paidTo_nil]
    simp
  | cons key keys ih =>
    obtain ⟨hnew, hkeys⟩ := List.nodup_cons.mp hkeys
    have hrest := ih hkeys
    have hone := chain_worth key bs u h hd
    rw [keySum_flatMap, keySum_flatMap] at hone
    simp only [keySum_input, keySum_output] at hone
    have htotal := u.total_worthTo_cons key keys hnew
    have hspent := sum_map_eq_add (bs.flatMap Block.transactions) _ _ _ fun tx _ =>
      tx.spentFrom_cons (bs.flatMap Block.transactions) key keys hnew
    have hpaid := sum_map_eq_add (bs.flatMap Block.transactions) _ _ _ fun tx _ =>
      tx.paidTo_cons key keys hnew
    omega

/-- Each transaction is valid on what the ones before it leave. -/
def ValidFrom : UtxoSet → List (Nat × Transaction) → Prop
  | _, [] => True
  | utxos, p :: rest => utxos.Valid p.2 ∧ ValidFrom (utxos.after p.2 p.1) rest

theorem validFrom_append (utxos : UtxoSet) (txs txs' : List (Nat × Transaction)) :
    ValidFrom utxos (txs ++ txs') ↔
      ValidFrom utxos txs ∧ ValidFrom (applyAll utxos (logOf txs)) txs' := by
  induction txs generalizing utxos with
  | nil => simp [ValidFrom, applyAll, logOf]
  | cons p rest ih =>
    rw [List.cons_append, ValidFrom, ValidFrom, ih, and_assoc]
    rfl

theorem validFrom_of_allValid (height : Nat) (utxos : UtxoSet) (txs : List Transaction)
    (h : UtxoSet.AllValid height utxos txs) : ValidFrom utxos (txs.map (Prod.mk height)) := by
  induction txs generalizing utxos with
  | nil => trivial
  | cons tx rest ih =>
    obtain ⟨hvalid, -, hrest⟩ := h
    exact ⟨hvalid, ih _ hrest⟩

theorem validFrom_of_applyBlock (height : Nat) (utxos utxos' : UtxoSet) (block : Block)
    (h : applyBlock utxos block height = .ok utxos') :
    ValidFrom utxos ((applicationOrder block.transactions).map (Prod.mk height)) := by
  obtain ⟨coinbase, rest, htxs, happ⟩ :=
    (applyBody_eq_ok _ _ _ _).mp ((applyBlock_eq_ok _ _ _ _).mp h).2
  have hlast := (applicable_of_allValid height utxos rest happ.valid).2
  rw [htxs, applicationOrder, List.map_append, validFrom_append, hlast]
  exact ⟨validFrom_of_allValid height utxos rest happ.valid, happ.coinbaseValid, trivial⟩

theorem validFrom_of_applyFrom (height : Nat) (utxos utxos' : UtxoSet) (bs : List Block)
    (h : applyFrom height utxos bs = .ok utxos') : ValidFrom utxos (placed height bs) := by
  induction bs generalizing height utxos with
  | nil => trivial
  | cons b bs ih =>
    obtain ⟨u, hb, h⟩ := (Res.bind_eq_ok _ _ _).mp h
    have happlied := (applicable_of_applyBlock height utxos u b hb).2
    rw [placed, validFrom_append, happlied]
    exact ⟨validFrom_of_applyBlock height utxos u b hb, ih (height + 1) u h⟩

/-- The chain has the coins of the set among its outputs. -/
def Resolves (chain : List Transaction) (utxos : UtxoSet) : Prop :=
  ∀ o x, utxos.get o = some x → outputAt chain o = some x.output

/-- Each transaction of a chain is valid on a set of earlier outputs of the chain. -/
theorem chain_valid (bs : List Block) (u : UtxoSet) (h : applyChain bs = .ok u)
    (hd : ((bs.flatMap Block.transactions).map Transaction.id).Nodup) (tx : Transaction)
    (ht : tx ∈ bs.flatMap Block.transactions) :
    ∃ v : UtxoSet, v.Valid tx ∧ Resolves (bs.flatMap Block.transactions) v := by
  obtain ⟨happ, -, hval⟩ := applicable_of_applyFrom 0 HashMap.new u bs h
  have hfits := fits_of_valid bs hval
  have hnodup := created_nodup (placed 0 bs) hfits (ids_nodup bs (by rwa [← List.map_flatMap]))
  have hperm := placed_perm 0 bs
  obtain ⟨⟨height, tx'⟩, hp, rfl⟩ := List.mem_map.mp (hperm.mem_iff.mpr ht)
  obtain ⟨before, after, hsplit⟩ := List.append_of_mem hp
  have hvalid := validFrom_of_applyFrom 0 HashMap.new u bs h
  rw [hsplit, validFrom_append] at hvalid
  refine ⟨applyAll HashMap.new (logOf before), hvalid.2.1, ?_⟩
  intro o x hx
  have hlog : logOf (placed 0 bs) = logOf before ++ logOf ((height, tx') :: after) := by
    rw [hsplit, logOf, List.map_append]
    rfl
  rw [hlog, applicable_append] at happ
  have hsub : (created (logOf before)).Sublist (created (logOf (placed 0 bs))) := by
    rw [hlog, created, created, List.flatMap_append]
    exact List.sublist_append_left _ _
  have hheld := (accounts _ happ.1 (hnodup.sublist (hsub.map _))).held o x
  obtain ⟨⟨height', creator⟩, hmem, hid, output, hout, rfl⟩ :=
    (mem_created_logOf _ hfits o x).mp (hsub.subset (hheld.mp hx).1)
  have hcreator : creator ∈ bs.flatMap Block.transactions :=
    hperm.mem_iff.mp (List.mem_map_of_mem hmem)
  rw [outputAt_of_mem _ hd creator hcreator o hid, hout]

theorem Resolves.spentFrom_le {chain : List Transaction} {utxos : UtxoSet}
    (hr : Resolves chain utxos) (keys : List Bytes) (tx : Transaction)
    (hheld : ∀ o ∈ tx.spends, ∃ x, utxos.get o = some x) :
    tx.spentFrom chain keys ≤ utxos.inputTotal tx := by
  apply List.sum_le_sum
  intro o ho
  obtain ⟨x, hx⟩ := hheld o ho
  rw [hr o x hx, UtxoSet.valueAt, hx]
  exact x.output.worthTo_le keys

/-- No amount of a valid transaction leaves `u64`. -/
theorem Resolves.amounts_lt {chain : List Transaction} {utxos : UtxoSet}
    (hr : Resolves chain utxos) (keys : List Bytes) (tx : Transaction) (hv : utxos.Valid tx) :
    tx.spentFrom chain keys < 2^64 ∧ tx.paidTo keys < 2^64 := by
  have hspent := hr.spentFrom_le keys tx hv.held
  have hpaid := tx.paidTo_le keys
  have hbound := hv.bounded
  constructor
  · rcases hv.spends with hnil | hs
    · have hspends : tx.spends = [] := by rw [Transaction.spends, hnil, List.map_nil]
      rw [Transaction.spentFrom, hspends]
      exact Nat.two_pow_pos 64
    · exact hspent.trans_lt hs.bounded
  · omega

/-- A transaction that does not involve the keys moves nothing of theirs. -/
theorem Transaction.amounts_of_not_involves (chain : List Transaction) (keys : List Bytes)
    (tx : Transaction) (h : tx.involves chain keys = false) :
    tx.spentFrom chain keys = 0 ∧ tx.paidTo keys = 0 := by
  simp only [involves, Bool.or_eq_false_iff, List.any_eq_false, decide_eq_true_eq] at h
  constructor
  · apply List.sum_eq_zero
    intro n hn
    obtain ⟨o, ho, rfl⟩ := List.mem_map.mp hn
    have hspent := h.2 o ho
    cases hout : outputAt chain o with
    | none => rfl
    | some output =>
      have hnot : output.lockingData ∉ keys := by simpa [hout] using hspent
      simp [TxOut.worthTo, hnot]
  · apply List.sum_eq_zero
    intro n hn
    obtain ⟨output, ho, rfl⟩ := List.mem_map.mp hn
    simp [TxOut.worthTo, h.1 output ho]

namespace NodeState

variable {s : NodeState} {entries : List ChainIndexEntry}

theorem filter_confirmed (s : NodeState) (entries : List ChainIndexEntry) :
    ((s.chainItems entries ++ s.freshItems entries).filter fun row =>
      decide (row.status = .confirmed)) = s.chainItems entries := by
  rw [List.filter_append, List.filter_eq_self.mpr, List.filter_eq_nil_iff.mpr, List.append_nil]
  · intro row hrow
    simp [s.freshItems_status entries row hrow]
  · intro row hrow
    simpa using s.chainItems_status entries row hrow

section Index

variable (hc : s.Complete) (hes : s.chain.bestChainEntries = some entries)
  (hn : ((s.transactionsOn entries).map Transaction.id).Nodup)

include hc hes hn

theorem Complete.rowed_valid (tx : Transaction) (ht : tx ∈ s.rowed entries) :
    ∃ v : UtxoSet, v.Valid tx ∧ Resolves (s.transactionsOn entries) v := by
  have hchain := hc.applyChain_best hes
  rcases List.mem_append.mp ht with ht | ht
  · exact chain_valid _ _ hchain hn tx ht
  · obtain ⟨item, hi, rfl⟩ := List.mem_map.mp ht
    have hget := (hc.sound.freshItems_get item hi).1
    have hvalid := hc.sound.pool.valid _ _ hget
    refine ⟨s.activeUtxos, (s.activeUtxos.validateTransaction_eq_ok _).mp hvalid, ?_⟩
    intro o x hx
    obtain ⟨creator, hb, hid, hout⟩ := coin_created _ _ hchain hn o x hx
    rw [outputAt_of_mem _ hn creator hb o hid, hout]

/-- The figures of a line are what the transaction spends of the keys and what it pays them. -/
theorem Complete.walletEffect_row (keys : List Bytes) (hkeys : keys.Nodup)
    (row : IndexedTransaction) (hrow : row ∈ s.chainItems entries ++ s.freshItems entries)
    (edges : List TransactionKeyEdge)
    (hedges : edges.Perm (((s.rowed entries).flatMap
      (edgesOf (outputAt (s.transactionsOn entries)))).filter fun edge =>
        decide (edge.txid = row.txid))) :
    (walletEffect keys edges).sent.toNat =
        row.transaction.spentFrom (s.transactionsOn entries) keys ∧
      (walletEffect keys edges).received.toNat = row.transaction.paidTo keys := by
  have hs := hc.sound
  have hrowed := row_mem_rowed row hrow
  rw [← hs.row_id row hrow, filter_flatMap_txid _ _ (hs.rowed_ids hn) _ hrowed] at hedges
  obtain ⟨v, hvalid, hresolves⟩ := hc.rowed_valid hes hn _ hrowed
  obtain ⟨hspent, hpaid⟩ := hresolves.amounts_lt keys row.transaction hvalid
  obtain ⟨hinput, houtput⟩ :=
    ownSum_edgesOf (s.transactionsOn entries) keys hkeys row.transaction
  have hsent := ownSum_perm .input keys hedges
  have hreceived := ownSum_perm .output keys hedges
  obtain ⟨h, h'⟩ := walletEffect_eq keys edges (by omega) (by omega)
  omega

/-- The net amounts of the confirmed rows add up to the coins of the keys. -/
theorem Complete.confirmed_net (keys : List Bytes) (hkeys : keys.Nodup)
    (rows : List IndexedTransaction)
    (hrows : rows.Perm ((s.chainItems entries ++ s.freshItems entries).filter fun row =>
      row.transaction.involves (s.transactionsOn entries) keys)) :
    ((rows.filter fun row => decide (row.status = .confirmed)).map fun row =>
        (row.transaction.paidTo keys : Int) -
          row.transaction.spentFrom (s.transactionsOn entries) keys).sum =
      s.activeUtxos.total fun x => x.output.worthTo keys := by
  have hconfirmed : (rows.filter fun row => decide (row.status = .confirmed)).Perm
      ((s.chainItems entries).filter fun row =>
        row.transaction.involves (s.transactionsOn entries) keys) := by
    refine (hrows.filter _).trans (.of_eq ?_)
    rw [List.filter_comm, s.filter_confirmed]
  have hchain : (s.activeUtxos.total fun x => x.output.worthTo keys) +
      ((s.transactionsOn entries).map
        (Transaction.spentFrom (s.transactionsOn entries) keys)).sum =
      ((s.transactionsOn entries).map (Transaction.paidTo keys)).sum :=
    chain_worthTo keys hkeys _ _ (hc.applyChain_best hes) hn
  have hsum : ∀ f : Transaction → Nat,
      ((s.chainItems entries).map fun row => f row.transaction).sum =
        ((s.transactionsOn entries).map f).sum := by
    intro f
    rw [← chainItems_transaction, List.map_map]
    rfl
  rw [(hconfirmed.map _).sum_eq, sum_map_filter, sum_map_sub]
  · have hpaid := hsum (Transaction.paidTo keys)
    have hspent := hsum (Transaction.spentFrom (s.transactionsOn entries) keys)
    omega
  · intro row _ hnot
    obtain ⟨hspent, hpaid⟩ := row.transaction.amounts_of_not_involves _ keys hnot
    rw [hspent, hpaid]
    rfl

end Index

theorem Sound.loadActiveUtxos_eq (hs : s.Sound) (store : SqliteStore) (hstore : store.Holds s) :
    store.loadActiveUtxos = .ok s.activeUtxos := by
  obtain ⟨items, edges, hbuilt, hnodup⟩ := hs.buildTransactionIndex_ok (ε := SqliteStoreError)
  have hsame := (SqliteStore.holds_iff hs store items edges hbuilt hnodup).mp hstore
  obtain ⟨found, hread, heq⟩ :=
    (SqliteStore.activeUtxos_roundTrip s.activeUtxos (SqliteStore.active_keyed hs)).2
  have htable : store.activeUtxos =
      HashMap.new.insertAll (s.activeUtxos.iter.map SqliteStore.utxoRow) := hsame.activeUtxos
  rw [SqliteStore.loadActiveUtxos, htable, hread, Res.ok_bind, heq]
  rfl

/-- What `balance` prints adds up to the coins of the wallet. -/
theorem Sound.runBalance_eq [Profile] (hs : s.Sound) (hsupply : s.activeUtxos.totalValue < 2^64)
    (store : SqliteStore) (hstore : store.Holds s) (wallet : Wallet SigningKey)
    (hkeys : wallet.locks.Nodup) :
    ∃ report, runBalance store wallet = .ok report ∧
      report.total.toNat = s.activeUtxos.total fun x => x.output.worthTo wallet.locks := by
  have hbalance : ∀ key : WalletKey SigningKey, ∃ v,
      (s.activeUtxos.balance (lockOf key.signingKey) : Res SqliteStoreError UInt64) = .ok v ∧
        v.toNat = s.activeUtxos.total fun x => x.output.worth (lockOf key.signingKey) := by
    intro key
    have hle := s.ownedValues_sum_le (Crypto.verifyingKey key.signingKey)
    obtain ⟨v, hv, hsum⟩ := foldlM_addU64 (ε := SqliteStoreError)
      (s.ownedValues (Crypto.verifyingKey key.signingKey)) 0 (by
        rw [UInt64.toNat_zero]
        omega)
    refine ⟨v, hv, ?_⟩
    rw [hsum, UInt64.toNat_zero, Nat.zero_add, ownedValues_sum]
    rfl
  choose balance hok hvalue using hbalance
  have hmap := Res.mapAll_eq (fun key : WalletKey SigningKey => do
      let balance ← (s.activeUtxos.balance (lockOf key.signingKey) : Res SqliteStoreError UInt64)
      return (key.name, balance))
    (fun key => (key.name, balance key)) wallet.keys (by
      intro key _
      rw [hok key]
      rfl)
  have hle := s.activeUtxos.total_worthTo_le wallet.locks
  have htotal := toNat_foldl_saturatingAdd (wallet.keys.map balance) 0
  have hsum : ((wallet.keys.map balance).map UInt64.toNat).sum =
      s.activeUtxos.total fun x => x.output.worthTo wallet.locks := by
    rw [s.activeUtxos.total_worthTo _ hkeys, Wallet.locks, List.map_map, List.map_map]
    exact congrArg List.sum (List.map_congr_left fun key _ => hvalue key)
  rw [hsum, UInt64.toNat_zero] at htotal
  refine ⟨⟨wallet.defaultKey, wallet.keys.map fun key => (key.name, balance key),
    (wallet.keys.map balance).foldl saturatingAdd 0⟩, ?_, ?_⟩
  · rw [runBalance, hs.loadActiveUtxos_eq store hstore, Res.ok_bind, hmap, Res.ok_bind,
      Res.pure_eq_ok, List.map_map]
    rfl
  · dsimp only
    omega

/-- The two commands agree. The history has a line for each transaction of the best chain that
involves a key of the wallet, in the order of the chain, and then for each such pending one; every
line has the amounts of its transaction, without saturation; and the net amounts of the confirmed
lines add up to the total of the balance, if no key is in the wallet twice and the supply fits
`u64`. -/
theorem history_reconciles [Profile] (s : NodeState) (hr : s.OkReachable)
    (entries : List ChainIndexEntry) (hes : s.chain.bestChainEntries = some entries)
    (hfit : s.HistoryFits entries) (hsupply : s.activeUtxos.totalValue < 2^64)
    (store : SqliteStore) (hstore : store.Holds s)
    (wallet : Wallet SigningKey) (hkeys : wallet.locks.Nodup) :
    ∃ (history : List (IndexedTransaction × WalletEffect)) (report : BalanceReport),
      walletTransactionLines store wallet = .ok (history.map fun p => historyLine p.1 p.2) ∧
      history.map Prod.fst = ((s.chainItems entries).filter fun row =>
          row.transaction.involves (s.transactionsOn entries) wallet.locks) ++
        Sql.orderBy (fun row => row.txid.text) ((s.freshItems entries).filter fun row =>
          row.transaction.involves (s.transactionsOn entries) wallet.locks) ∧
      (∀ p ∈ history,
        p.2.sent.toNat = p.1.transaction.spentFrom (s.transactionsOn entries) wallet.locks ∧
          p.2.received.toNat = p.1.transaction.paidTo wallet.locks) ∧
      runBalance store wallet = .ok report ∧
      (report.total.toNat : Int) = ((history.filter fun p =>
        decide (p.1.status = .confirmed)).map fun p => p.2.net).sum := by
  have hc := hr.complete
  have hi := hc.holds_indexes hes hfit.ids store hstore
  choose found hload hperm using hi.loadTransactionKeyEdges_eq
  obtain ⟨report, hreport, htotal⟩ :=
    hc.sound.runBalance_eq hsupply store hstore wallet hkeys
  set rows := Sql.orderBy SqliteStore.historyOrder
    ((s.chainItems entries ++ s.freshItems entries).filter fun row =>
      row.transaction.involves (s.transactionsOn entries) wallet.locks) with hrows
  have hrowsPerm := Sql.orderBy_perm SqliteStore.historyOrder
    ((s.chainItems entries ++ s.freshItems entries).filter fun row =>
      row.transaction.involves (s.transactionsOn entries) wallet.locks)
  have hquery : store.loadTransactionsForKeys wallet.locks = .ok rows := by
    rw [hi.loadTransactionsForKeys_eq, List.filter_congr (hc.touches_eq hfit.ids wallet.locks)]
  have heffect : ∀ row ∈ rows,
      (walletEffect wallet.locks (found row.txid)).sent.toNat =
          row.transaction.spentFrom (s.transactionsOn entries) wallet.locks ∧
        (walletEffect wallet.locks (found row.txid)).received.toNat =
          row.transaction.paidTo wallet.locks := by
    intro row hrow
    have hmem := List.mem_of_mem_filter (hrowsPerm.mem_iff.mp hrow)
    exact hc.walletEffect_row hes hfit.ids _ hkeys row hmem _ (hperm row.txid)
  refine ⟨rows.map fun row => (row, walletEffect wallet.locks (found row.txid)), report, ?_, ?_,
    ?_, hreport, ?_⟩
  · rw [walletTransactionLines, hquery, Res.ok_bind, List.map_map]
    apply Res.mapAll_eq
    intro row _
    rw [hload]
    rfl
  · rw [List.map_map, ← hc.sound.orderBy_history hes hfit store _ hi]
    exact List.map_id rows
  · intro p hp
    obtain ⟨row, hrow, rfl⟩ := List.mem_map.mp hp
    exact heffect row hrow
  · rw [htotal, ← hc.confirmed_net hes hfit.ids wallet.locks hkeys rows hrowsPerm, List.filter_map,
      List.map_map]
    congr 1
    apply List.map_congr_left
    intro row hrow
    obtain ⟨hsent, hreceived⟩ := heffect row (List.mem_of_mem_filter hrow)
    simp only [Function.comp_apply, WalletEffect.net, hsent, hreceived]

end NodeState

end Chain

section SampleWallet

open NodeState

attribute [local instance] NodeState.sampleCrypto NodeState.sampleProfile

/-- A wallet of two keys, the second of which has no coin. -/
def sampleWallet : Wallet SigningKey :=
  ⟨defaultKeyName, [⟨defaultKeyName, sampleKey⟩, ⟨⟨[98]⟩, otherKey⟩]⟩

theorem sampleWallet_reconciles :
    ∃ (history : List (IndexedTransaction × WalletEffect)) (report : BalanceReport),
      walletTransactionLines (savedStore sampleState) sampleWallet =
        .ok (history.map fun p => historyLine p.1 p.2) ∧
      history.map (fun p => p.1.transaction) =
        [sampleCoinbase, sampleReward, samplePayment, samplePending] ∧
      (∀ p ∈ history,
        p.2.sent.toNat =
            p.1.transaction.spentFrom (sampleState.transactionsOn sampleEntries)
              sampleWallet.locks ∧
          p.2.received.toNat = p.1.transaction.paidTo sampleWallet.locks) ∧
      runBalance (savedStore sampleState) sampleWallet = .ok report ∧
      (report.total.toNat : Int) = ((history.filter fun p =>
        decide (p.1.status = .confirmed)).map fun p => p.2.net).sum := by
  obtain ⟨history, report, hlines, hrows, hamounts, hreport, htotal⟩ :=
    history_reconciles sampleState sampleState_okReachable sampleEntries sampleEntries_eq
      (historyFits_of_eq_true _ _ (by decide +kernel)) (by decide +kernel) (savedStore sampleState)
      (savedStore_holds sampleState_okReachable.complete.sound) sampleWallet (by decide +kernel)
  refine ⟨history, report, hlines, ?_, hamounts, hreport, htotal⟩
  have htransactions := congrArg (List.map IndexedTransaction.transaction) hrows
  rw [List.map_map] at htransactions
  refine htransactions.trans ?_
  decide +kernel

end SampleWallet

end Wobble
