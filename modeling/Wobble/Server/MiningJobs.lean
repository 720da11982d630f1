import Wobble.Node.CoinFrame
import Wobble.Server.BlockRelay
import Wobble.Server.Offers

namespace Wobble

open Rust Io

section Jobs

variable [Crypto]

namespace Mempool

/-- `collect_valid` skips what fails; it only passes on panics. -/
theorem collectFrom_ne_err {ε : Type} (entries : List (Txid × Transaction)) (candidate : UtxoSet)
    (room : Nat) (e : ε) :
    (collectFrom entries candidate room : Res ε _) ≠ .error (.err e) := by
  induction entries generalizing candidate room with
  | nil =>
    intro h
    cases h
  | cons entry rest ih =>
    rw [collectFrom]
    by_cases hroom : room = 0
    · rw [if_pos hroom]
      intro h
      cases h
    rw [if_neg hroom]
    rcases candidate.applyTransaction entry.2 0 with (e | m) | next
    · exact ih candidate room
    · intro h
      cases h
    · intro h
      change (collectFrom rest next (room - 1) >>= _) = _ at h
      rcases hrest : (collectFrom rest next (room - 1) : Res ε _) with (e' | m) | selected
      · rw [hrest] at h
        cases h
        exact ih next (room - 1) hrest
      all_goals
        rw [hrest] at h
        cases h

theorem collectValid_ne_err {ε : Type} (pool : Mempool) (utxos : UtxoSet) (maxCount : Nat) (e : ε) :
    (pool.collectValid utxos maxCount : Res ε _) ≠ .error (.err e) := by
  intro h
  rw [collectValid] at h
  rcases hcol : (collectFrom pool.iter utxos maxCount : Res ε _) with (e' | m) | selected
  · exact collectFrom_ne_err _ _ _ e' hcol
  all_goals
    rw [hcol] at h
    cases h

end Mempool

/-- The command is what the state asks for: a candidate on the best tip with what `collect_valid`
selects, or nothing if nothing is selected. -/
inductive MinerCommand.Derived (state : NodeState) (maxTransactions : Nat) : MinerCommand → Prop
  | submit (generation : UInt64) (candidate : Block) (coinbase : Transaction)
      (pending : List Transaction) (ids : List Txid)
      (hsel : (state.mempool.collectValid state.activeUtxos maxTransactions :
        Res NodeStateError _) = .ok (pending, ids))
      (hprev : candidate.header.prevBlockhash = state.chain.bestTip.getD BlockHash.default)
      (hcoinbase : coinbase.isCoinbase = true)
      (htxs : candidate.transactions = coinbase :: pending) :
      Derived state maxTransactions (.submit generation candidate)
  | cancel (generation : UInt64) (ids : List Txid)
      (hsel : (state.mempool.collectValid state.activeUtxos maxTransactions :
        Res NodeStateError _) = .ok ([], ids)) :
      Derived state maxTransactions (.cancel generation)

/-- Everything `build_mining_candidate` can return. -/
theorem buildMiningCandidate_cases [Profile] {s : NodeState} (hs : s.Sound) (config : MiningConfig)
    {key : VerifyingKey}
    (hkey : parseVerifyingKey (verifyingKeyBytes config.minerVerifyingKey).toList = some key)
    (hcap : s.activeUtxos.totalValue < 2^64) :
    (∃ m, (buildMiningCandidate s (some config)).2 = .error (.panic m)) ∨
    (∃ ids, (s.mempool.collectValid s.activeUtxos config.maxTransactions :
        Res NodeStateError _) = .ok ([], ids) ∧
      (buildMiningCandidate s (some config)).2 = .ok none) ∨
    ∃ pending ids coinbase candidate,
      (s.mempool.collectValid s.activeUtxos config.maxTransactions : Res NodeStateError _) =
        .ok (pending, ids) ∧
      (buildMiningCandidate s (some config)).2 = .ok (some candidate) ∧
      candidate.header.prevBlockhash = s.chain.bestTip.getD BlockHash.default ∧
      coinbase.isCoinbase = true ∧ candidate.transactions = coinbase :: pending := by
  rw [buildMiningCandidate]
  by_cases hempty : s.mempool.isEmpty = true
  · rw [if_pos hempty]
    have hiter : s.mempool.iter = [] := by
      have hlen := s.mempool.iter_length
      rw [beq_iff_eq.mp hempty] at hlen
      exact List.eq_nil_of_length_eq_zero hlen
    refine .inr (.inl ⟨[], ?_, rfl⟩)
    rw [Mempool.collectValid, hiter]
    rfl
  rw [if_neg hempty]
  change (∃ m, (s.mempool.collectValid s.activeUtxos config.maxTransactions >>= _) = _) ∨
    (∃ ids, _ ∧ (s.mempool.collectValid s.activeUtxos config.maxTransactions >>= _) = _) ∨
    ∃ pending ids coinbase candidate, _ ∧
      (s.mempool.collectValid s.activeUtxos config.maxTransactions >>= _) = _ ∧ _
  rcases hcol : (s.mempool.collectValid s.activeUtxos config.maxTransactions : Res NodeStateError _)
    with (e | m) | ⟨pending, ids⟩
  · exact absurd hcol (s.mempool.collectValid_ne_err _ _ e)
  · exact .inl ⟨m, rfl⟩
  rw [Res.ok_bind]
  cases pending with
  | nil => exact .inr (.inl ⟨ids, rfl, rfl⟩)
  | cons tx rest =>
    obtain ⟨fees, hfees, -⟩ := NodeState.sumFees_collected _ _ hs.pool _ _ _ hcol hcap
    simp only [List.isEmpty_cons, Bool.false_eq_true, if_false, hfees, MiningConfig.nextRequest,
      hkey]
    have hfits : ∀ t ∈ tx :: rest, t.Fits true := by
      obtain ⟨selected, hsub, -, hpending, -⟩ := Mempool.collectValid_entries hcol
      intro t ht
      rw [hpending] at ht
      obtain ⟨entry, he, rfl⟩ := List.mem_map.mp ht
      exact (hs.mem_pool entry.2 (List.mem_map.mpr ⟨entry, hsub.subset he, rfl⟩)).2.2
    rcases hreward : (addU64 blockSubsidy fees : Res NodeStateError UInt64) with (e | m) | reward
    · unfold addU64 at hreward
      split_ifs at hreward
      cases hreward
    · exact .inl ⟨m, rfl⟩
    · rw [Res.ok_bind, buildCandidate_eq _ _ _ _ _ _ hfits]
      exact .inr (.inr ⟨_, ids, _, _, rfl, rfl, rfl, rfl, rfl⟩)

/-- The state grows, and the miner is only sent commands. -/
structure Onward (live live' : Live) : Prop where
  grows : live.server.state.Grows live'.server.state
  policy : live'.server.miningPolicy = live.server.miningPolicy
  sends : Server.Sends live.server.miner live'.server.miner

theorem Onward.of_eq {live live' : Live} (hs : live.server.state.Grows live'.server.state)
    (hmining : live'.server.mining = live.server.mining)
    (hminer : live'.server.miner = live.server.miner) : Onward live live' := by
  refine ⟨hs, ?_, ?_⟩
  · rw [Server.miningPolicy, Server.miningPolicy, hmining]
  · rw [hminer]
    exact .refl _

instance : IsPreorder Live Onward where
  refl _ := .of_eq (.refl _) rfl rfl
  trans _ _ _ h h' := ⟨h.grows.trans h'.grows, h'.policy.trans h.policy, h.sends.trans h'.sends⟩

theorem SameButPeers.onward {live live' : Live} (h : SameButPeers live live') : Onward live live' :=
  .of_eq (h.state ▸ .refl _) h.mining h.miner

theorem EventFrame.onward : EventFrame Onward where
  quiet _ _ h := h.1.onward
  requests _ _ _ := .of_eq (.refl _) rfl rfl
  announces _ _ _ := .of_eq (.refl _) rfl rfl
  stores _ _ := .of_eq (.refl _) rfl rfl
  mines _ _ h := ⟨h.same.server.1 ▸ .refl _, h.policy, h.sends⟩
  bootstraps _ := .of_eq (.refl _) rfl rfl

theorem StateFrame.onward [Profile] : StateFrame Onward where
  announceTx live tx := .of_eq (live.server.state.announceTx_grows tx) rfl rfl
  acceptBlock live block := .of_eq (live.server.state.acceptBlock_grows block) rfl rfl
  minePending _ _ _ _ h := .of_eq (NodeState.minePending_grows h) rfl rfl

/-- The best tip and the set of pending transactions are as before. -/
def SameWork (live live' : Live) : Prop := live.server.state.SameWork live'.server.state

theorem SameWork.of_same {live live' : Live} (h : SameButPeers live live') : SameWork live live' := by
  rw [SameWork, h.state]
  exact ⟨rfl, rfl⟩

/-- Commands have been sent, and the last is derived from the state as it is now. -/
def Tasked (maxTransactions : Nat) (live live' : Live) : Prop :=
  ∃ miner miner' new command, live.server.miner = some miner ∧ live'.server.miner = some miner' ∧
    miner'.sent = miner.sent ++ new ++ [command] ∧
    command.Derived live'.server.state maxTransactions

def Renewed (maxTransactions : Nat) (live live' : Live) : Prop :=
  SameWork live live' ∨ Tasked maxTransactions live live'

/-- Mining is enabled, with this key and this bound. -/
structure Equipped (key : VerifyingKey) (maxTransactions : Nat) (live : Live) : Prop where
  policy : ∃ bits, live.server.miningPolicy = some (key, maxTransactions, bits)
  miner : ∃ miner, live.server.miner = some miner

theorem Equipped.onward {key : VerifyingKey} {maxTransactions : Nat} {live live' : Live}
    (he : Equipped key maxTransactions live) (h : Onward live live') :
    Equipped key maxTransactions live' := by
  obtain ⟨miner, hminer⟩ := he.miner
  refine ⟨he.policy.imp fun bits hbits => h.policy.trans hbits, ?_⟩
  have hsends := h.sends
  rw [hminer] at hsends
  obtain ⟨miner', -, hminer', -⟩ := hsends.of_some
  exact ⟨miner', hminer'⟩

theorem Tasked.of_onward {maxTransactions : Nat} {first live live' : Live}
    (ht : Tasked maxTransactions live live') (h : Onward first live)
    (hf : ∃ miner, first.server.miner = some miner) :
    Tasked maxTransactions first live' := by
  obtain ⟨miner, miner', new, command, hminer, hminer', hsent, hderived⟩ := ht
  obtain ⟨old, hold⟩ := hf
  have hsends := h.sends
  rw [hold] at hsends
  obtain ⟨_, more, heq, hmore⟩ := hsends.of_some
  obtain rfl := Option.some.inj (hminer.symm.trans heq)
  refine ⟨old, miner', more ++ new, command, hold, hminer', ?_, hderived⟩
  rw [hsent, hmore]
  simp only [List.append_assoc]

/-- What a command is derived from is as before, and no command has been sent. -/
structure Unworked (live live' : Live) : Prop where
  bestTip : live'.server.state.chain.bestTip = live.server.state.chain.bestTip
  activeUtxos : live'.server.state.activeUtxos = live.server.state.activeUtxos
  mempool : live'.server.state.mempool = live.server.state.mempool
  miner : live'.server.miner = live.server.miner

theorem Tasked.unworked {maxTransactions : Nat} {live middle live' : Live}
    (ht : Tasked maxTransactions live middle) (h : Unworked middle live') :
    Tasked maxTransactions live live' := by
  obtain ⟨miner, miner', new, command, hm, hm', hsent, hderived⟩ := ht
  refine ⟨miner, miner', new, command, hm, h.miner.trans hm', hsent, ?_⟩
  cases hderived with
  | submit generation candidate coinbase pending ids hsel hprev hcoinbase htxs =>
    refine .submit generation candidate coinbase pending ids ?_ ?_ hcoinbase htxs
    · rw [h.mempool, h.activeUtxos, hsel]
    · rw [h.bestTip, hprev]
  | cancel generation ids hsel =>
    refine .cancel generation ids ?_
    rw [h.mempool, h.activeUtxos, hsel]

namespace Server

variable [Profile] {w : World} {first live live' : Live} {key key' : VerifyingKey}
  {maxTransactions : Nat} {ε : Type}

/-- A refresh that returns has sent the command the state asks for. -/
theorem refreshMiningCandidate_tasks (hs : live.server.state.Sound)
    (he : Equipped key maxTransactions live)
    (hkey : parseVerifyingKey (verifyingKeyBytes key).toList = some key')
    (hcap : live.server.state.activeUtxos.totalValue < 2^64)
    (h : (refreshMiningCandidate : ServerIo ε Unit) w live = some (live', .ok ())) :
    Tasked maxTransactions live live' := by
  obtain ⟨bits, hpolicy⟩ := he.policy
  obtain ⟨miner, hminer⟩ := he.miner
  obtain ⟨config, hconfig, hsettings⟩ := Option.map_eq_some_iff.mp hpolicy
  cases hsettings
  rw [refreshMiningCandidate_apply, hconfig, Option.isNone_some, if_neg Bool.false_ne_true] at h
  rcases buildMiningCandidate_cases hs config hkey hcap with ⟨m, hbuild⟩ | ⟨ids, hsel, hbuild⟩ |
    ⟨pending, ids, coinbase, candidate, hsel, hbuild, hprev, hcoinbase, htxs⟩
  · rw [hbuild] at h
    cases h
  · rw [hbuild] at h
    cases h
    refine ⟨miner, miner.cancel, [], .cancel (miner.generation + 1), hminer, ?_, ?_,
      .cancel _ ids hsel⟩
    · exact congrArg (Option.map Miner.cancel) hminer
    · rw [List.append_nil]
      rfl
  · rw [hbuild] at h
    cases h
    refine ⟨miner, miner.submit candidate, [], .submit (miner.generation + 1) candidate, hminer, ?_,
      ?_, .submit _ candidate coinbase pending ids hsel hprev hcoinbase htxs⟩
    · exact congrArg (Option.map (Miner.submit · candidate)) hminer
    · rw [List.append_nil]
      rfl

omit [Profile] in
theorem onward_relays (live : Live) (message : WireMessage) (origin : Option PeerAddr) :
    Onward live (live.sends (.relay message origin)) := .of_eq (.refl _) rfl rfl

theorem spreadChange_same {relays : List WireMessage} {previousBestTip : Option BlockHash}
    {previousMempoolTxids : Finset Txid} {origin : Option PeerAddr} {r : Res ε Unit}
    (h : spreadChange relays previousBestTip previousMempoolTxids origin w live = some (live', r)) :
    live'.server.state = live.server.state ∧ (live.StoreReadable → live'.StoreReadable) := by
  rcases spreadChange_path h with ⟨hsame, -⟩ | ⟨told, hsame, hrefresh⟩
  · exact ⟨hsame.state, hsame.storeReadable⟩
  · obtain ⟨hstate, hstore⟩ := (maybeRefreshMining_keeps _ _ _ _ _ _ hrefresh).same.server
    refine ⟨hstate.trans hsame.state, fun hr store hs => ?_⟩
    rw [hstore] at hs
    exact hsame.storeReadable hr store hs

/-- The end of a call that has been made, where the disk takes what is to be saved: it is refused,
or what it leaves is saved and spread. -/
theorem Mutates.ends {message : WireMessage} {saveBlockHash : Option BlockHash}
    {before : NodeState} {relay : Option WireMessage} {origin : Option PeerAddr}
    {call : NodeState → Option (NodeState × Res PeerError (List WireMessage))}
    {r : Res ServerError (List WireMessage)} (hret : r.Returned)
    (hsaves : ∀ state replies, call live.server.state = some (state, .ok replies) →
      ∀ saved x, persist (saveSqlite state message saveBlockHash before.chain.bestTip
        (mempoolTxids before.mempool) replies) w (setState live state) = some (saved, x) →
      x = .ok () ∧ saved.server.state = state ∧ saved.StoreReadable)
    (h : Mutates w message saveBlockHash before relay origin call live live' r) :
    (∃ state fault, call live.server.state = some (state, .error fault) ∧
      live' = setState live state ∧ ∃ e, r = .error e) ∨
    ∃ state replies saved relays, call live.server.state = some (state, .ok replies) ∧
      r = .ok replies ∧ Onward (setState live state) saved ∧ saved.server.state = state ∧ saved.StoreReadable ∧
      (spreadChange relays before.chain.bestTip (mempoolTxids before.mempool) origin :
        ServerIo ServerError Unit) w saved = some (live', .ok ()) := by
  cases h with
  | rejected state fault hc =>
    refine .inl ⟨state, fault, hc, rfl, ?_⟩
    cases fault with
    | err e => exact ⟨_, rfl⟩
    | panic p => exact ⟨_, rfl⟩
  | finished state replies _ x hc hf =>
    have hx : x.Returned := by
      intro p hp
      rw [hp] at hret
      exact hret p rfl
    cases hf with
    | unsaved _ fault hp =>
      obtain ⟨hok, -⟩ := hsaves state replies hc _ _ hp
      cases hok
    | saved saved _ x hp hs =>
      obtain ⟨-, hstate, hr⟩ := hsaves state replies hc _ _ hp
      obtain ⟨u, rfl⟩ := (spreadChange_infallible _ _ _ _).ok_of_returned hs hx
      exact .inr ⟨state, replies, saved, _, hc, rfl, persist_keeps EventFrame.onward _ _ _ _ _ hp,
        hstate, hr, hs⟩

/-- Before an event: mining is enabled, the database can be read, and every block is below the
height. -/
structure Ready (key : VerifyingKey) (maxTransactions n : Nat) (live : Live) : Prop where
  sound : live.server.state.Sound
  equipped : Equipped key maxTransactions live
  readable : live.StoreReadable
  below : live.server.state.HeightsBelow n

section Handlers

variable {n : Nat} (hkey : parseVerifyingKey (verifyingKeyBytes key).toList = some key')

include hkey

theorem refresh_tasks (he : Equipped key maxTransactions first) (hon : Onward first live)
    (hs : live.server.state.Sound) (hn : live.server.state.HeightsBelow n)
    (hcap : blockSubsidy.toNat * n < 2^64)
    (h : (refreshMiningCandidate : ServerIo ε Unit) w live = some (live', .ok ())) :
    Tasked maxTransactions first live' := by
  refine Tasked.of_onward ?_ hon he.miner
  exact refreshMiningCandidate_tasks hs (he.onward hon) hkey
    ((hn.totalValue_le hs).trans_lt hcap) h

/-- The end of a handler that started from `first`. -/
theorem spreadChange_renews {relays : List WireMessage} {origin : Option PeerAddr}
    (he : Equipped key maxTransactions first) (hon : Onward first live)
    (hs : live.server.state.Sound) (hn : live.server.state.HeightsBelow n)
    (hcap : blockSubsidy.toNat * n < 2^64)
    (h : (spreadChange relays first.server.state.chain.bestTip
      (mempoolTxids first.server.state.mempool) origin : ServerIo ε Unit) w live =
        some (live', .ok ())) : Renewed maxTransactions first live' := by
  rcases spreadChange_path h with ⟨-, e, hr⟩ | ⟨told, hsame, hrefresh⟩
  · cases hr
  rw [maybeRefreshMining, self_bind] at hrefresh
  split at hrefresh
  next hwork =>
    cases hrefresh
    exact .inl hwork
  next =>
    have hs' : told.server.state.Sound := hsame.state ▸ hs
    have hn' : told.server.state.HeightsBelow n := hsame.state ▸ hn
    exact .inr (refresh_tasks hkey he (IsTrans.trans _ _ _ hon hsame.onward) hs' hn' hcap hrefresh)

omit hkey in
/-- A block that is mined is saved and spread like an announced one. -/
theorem minesPending_ends {request : MinePendingRequest} {origin : Option PeerAddr}
    {r : Res ServerError (List WireMessage)} (hw : w.Writes)
    (hready : Ready key maxTransactions n live) (hret : r.Returned)
    (h : MinesPending w request origin live live' r) :
    (∃ state fault, live.server.state.minePending request = some (state, .error fault) ∧
      live' = setState live state ∧ ∃ e, r = .error e) ∨
    ∃ replies saved relays,
      live.server.state.minePending request = some (saved.server.state, .ok replies) ∧
      r = .ok replies ∧ Onward live saved ∧ Ready key maxTransactions (n + 1) saved ∧
      (spreadChange relays live.server.state.chain.bestTip
        (mempoolTxids live.server.state.mempool) origin : ServerIo ServerError Unit) w saved =
          some (live', .ok ()) := by
  have hs := hready.sound
  have hends := Mutates.ends hret (fun state replies hc saved x hp => ?_) h
  · rcases hends with hrefused | ⟨state, replies, saved, relays, hc, hr', hsaved, rfl, hr, hspread⟩
    · exact .inl hrefused
    · have hon : Onward live saved := IsTrans.trans _ _ _
        (StateFrame.onward.minePending live request _ _ hc) hsaved
      refine .inr ⟨replies, saved, relays, hc, hr', hon,
        ⟨(hon.grows hs).sound, hready.equipped.onward hon, hr, ?_⟩, hspread⟩
      obtain ⟨block, ids, -, hstate, -⟩ := NodeState.minePending_ok hc
      refine (hready.below.acceptBlock hs block).of_chain ?_
      rw [hstate]
  · obtain ⟨block, ids, hok, rfl, rfl⟩ := NodeState.minePending_ok hc
    exact savesBlock_saved hw hs hready.readable _ hok ((hs.acceptBlock block).pool.removeMany ids)
      (.handled _ _ _ _ _ (fun tx h => by cases h) rfl) hp

theorem Starts.tasks (hw : w.Writes) (hready : Ready key maxTransactions n live)
    (hcap : blockSubsidy.toNat * (n + w.rounds) < 2^64)
    (h : Starts w live live' (.ok () : Res ε Unit)) : Tasked maxTransactions live live' := by
  cases h with
  | mines _ r hm =>
    exact refresh_tasks hkey hready.equipped (refl live) hready.sound
      (hready.below.mono (Nat.le_add_right n w.rounds)) hcap hm
  | synced synced _ r hsync hm =>
    have hon : Onward live synced := SyncsKnown.keeps
      (syncFrame_of_keeps EventFrame.onward StateFrame.onward live) hsync (refl live)
    have hbelow := hsync.heights hw hready.sound hready.readable hready.below
    exact refresh_tasks hkey hready.equipped
      (IsTrans.trans _ _ _ hon (EventFrame.onward.bootstraps synced)) (hon.grows hready.sound).sound
      hbelow hcap hm

end Handlers

section Hashes

variable {n : Nat} {H : Set BlockHeader} (hsha : Set.InjOn BlockHeader.blockHash H)
  (hzero : ∀ header ∈ H, header.blockHash ≠ BlockHash.default)
  (hkey : parseVerifyingKey (verifyingKeyBytes key).toList = some key') (hw : w.Writes)

include hsha hzero

/-- A mined block is the new tip. -/
theorem minePending_not_sameWork {s s' : NodeState} {request : MinePendingRequest}
    {replies : List WireMessage} (hs : s.Sound) (hH : headersMet s request ⊆ H)
    (h : s.minePending request = some (s', .ok replies)) : ¬ s.SameWork s' := by
  intro hwork
  obtain ⟨block, entries, coinbase, hblock, hnew, rfl⟩ :=
    minePending_new hs (hsha.mono hH) (fun header hheader => hzero header (hH hheader)) h
  have htip := hs.acceptBlock_on_tip block hblock.accepted hblock.prev hnew
  have hsame := hwork.1
  rw [hblock.state] at hsame
  obtain ⟨e, he⟩ := hs.tipIndexed _ (hsame.symm.trans htip)
  cases hnew.symm.trans he

include hkey hw

theorem Bootstraps.tasks {publicKey : Bytes} {start : UInt32} {offsets : List UInt32}
    {r : Res ServerError (Option BlockHash)} (hready : Ready key maxTransactions n live)
    (hcap : blockSubsidy.toNat * (n + offsets.length) < 2^64)
    (hsettles : live.server.state.SettlesBootstrap publicKey start offsets)
    (hH : bootstrapHeaders publicKey start offsets w live ⊆ H) (hret : r.Returned)
    (h : Bootstraps w publicKey start offsets live live' r) :
    Unworked live live' ∨ Tasked maxTransactions live live' := by
  induction h generalizing n with
  | nil live last => exact .inl ⟨rfl, rfl, rfl, rfl⟩
  | stopped offset rest live live' fault hm =>
    have hret' : Res.Returned (.error fault : Res ServerError (List WireMessage)) := by
      intro p hp
      cases hp
      exact hret p rfl
    rcases minesPending_ends hw hready hret' hm with ⟨state, fault', hc, rfl, -⟩ | ⟨_, _, _, _, hr, _⟩
    · -- a block that is refused here leaves what there is to mine
      have hwork := hsettles.1 state fault' hc
      rcases NodeState.minePending_error hc with rfl | ⟨block, fault'', rfl, hrefused⟩
      · exact .inl ⟨rfl, rfl, rfl, rfl⟩
      · obtain ⟨hutxos, hpool⟩ := hready.sound.acceptBlock_refused hrefused
        exact .inl ⟨hwork.1, hutxos, hpool, rfl⟩
    · cases hr
  | next offset rest live middle live' replies r hm hrest ih =>
    obtain ⟨hhead, htail⟩ := Set.union_subset_iff.mp hH
    have hmines := handlePeerMinePending_path hm
    rw [bootstrapRequest] at hm
    rw [hm] at htail
    rcases minesPending_ends hw hready (fun p hp => by cases hp) hmines with
      ⟨_, _, _, _, e, he⟩ | ⟨_, saved, relays, hc, -, hon, hready', hspread⟩
    · cases he
    have hcap' : blockSubsidy.toNat * (n + 1 + rest.length) < 2^64 := by
      rw [List.length_cons] at hcap
      rwa [Nat.add_assoc, Nat.add_comm 1]
    have hcap₁ : blockSubsidy.toNat * (n + 1) < 2^64 :=
      (Nat.mul_le_mul_left _ (Nat.le_add_right _ _)).trans_lt hcap'
    -- the miner has been told of the block that has just been mined
    obtain ⟨hstate, hreadable⟩ := spreadChange_same hspread
    have htold : Onward saved middle :=
      spreadChange_keeps EventFrame.onward onward_relays _ _ _ _ _ _ _ _ hspread
    have htasked : Tasked maxTransactions live middle := by
      refine (spreadChange_renews hkey hready.equipped hon hready'.sound hready'.below hcap₁
        hspread).resolve_left fun hwork => ?_
      refine minePending_not_sameWork hsha hzero hready.sound hhead hc ?_
      rw [← hstate]
      exact hwork
    have hmiddle : Ready key maxTransactions (n + 1) middle :=
      ⟨hstate ▸ hready'.sound, hready'.equipped.onward htold, hreadable hready'.readable,
        hstate ▸ hready'.below⟩
    have hsettles' : middle.server.state.SettlesBootstrap publicKey start rest := by
      rw [hstate]
      exact hsettles.2 _ _ hc
    rcases ih hmiddle hcap' hsettles' htail hret with hunworked | hlater
    · exact .inr (htasked.unworked hunworked)
    · exact .inr (hlater.of_onward (IsTrans.trans _ _ _ hon htold) hready.equipped.miner)

end Hashes

theorem handleEvent_onward {event : ServerEvent} {r : Res ε Outcome}
    (h : handleEvent event w live = some (live', r)) : Onward live live' := by
  have hframe := handlerFrame_of_keeps (w := w) EventFrame.onward StateFrame.onward onward_relays live
  refine (handleEvent_frame hframe event (fun _ _ => trivial) ?_ ?_).leaves (refl live) h
  · intro _ id _ hon
    exact IsTrans.trans _ _ _ hon (.of_eq (.refl _) rfl rfl)
  · intro _ id _ hon
    exact IsTrans.trans _ _ _ hon (.of_eq (.refl _) rfl rfl)

theorem Runs.equipped {H : Set BlockHeader} {options : ServerOptions} {config : MiningConfig}
    {miner : Miner} (hmining : options.mining = some config)
    (h : Runs H options (some miner) live) :
    Equipped config.minerVerifyingKey config.maxTransactions live := by
  induction h with
  | refl =>
    refine ⟨⟨config.bits, ?_⟩, miner, rfl⟩
    change options.mining.map _ = _
    rw [hmining]
    rfl
  | tail _ hstep ih =>
    obtain ⟨w, event, r, hevent, -⟩ := hstep
    exact ih.onward (handleEvent_onward hevent)

end Server

end Jobs

section StaleWork

open NodeState

attribute [local instance] sampleCrypto sampleProfile

/-- Every peer has the blocks of the node. -/
def nodeWorld (node : NodeState) : World :=
  { Server.obligingWorld fun hash => .ok (node.getBlock hash) with
    requestTip := fun _ _ _ => .ok node.tipSummary
    rounds := 3 }

def handled (node : NodeState) (event : ServerEvent) (live : Live) :
    Option (Live × Res ServerError Outcome) :=
  Server.handleEvent event (nodeWorld node) live

def after (node : NodeState) (event : ServerEvent) (live : Live) : Live :=
  ((handled node event live).map Prod.fst).getD live

def returns : Res ServerError Outcome → Bool
  | .ok _ => true
  | .error _ => false

end StaleWork

end Wobble
