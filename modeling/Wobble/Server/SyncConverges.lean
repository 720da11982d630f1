import Wobble.Node.Catchup
import Wobble.Server.SaveSuccess
import Wobble.Server.SyncWalk

namespace Wobble

open Rust Io GrowingTree NodeState

theorem NodeState.tipSummary_tip (state : NodeState) :
    state.tipSummary.tip = state.chain.bestTip := by
  rw [tipSummary]
  cases state.chain.bestTip <;> rfl

section Sync

variable [Crypto]

namespace Server

variable {w : World}

theorem acceptSyncedBlock_accepts (hw : w.Reliable) (live : Live) (hr : live.StoreReadable)
    (hs : live.server.state.Sound) (block : Block) (state : NodeState)
    (hn : live.server.state.getBlock block.header.blockHash = none)
    (ha : live.server.state.acceptBlock block = (state, .ok ())) :
    ∃ live', acceptSyncedBlock block live.server.state.chain.bestTip
        (mempoolTxids live.server.state.mempool) w live = some (live', .ok (some block)) ∧
      live'.server.state = state ∧ live'.StoreReadable := by
  obtain ⟨entry, b, u, acc, hhash⟩ := hs.accepted block (by rw [ha])
  have hpost := hs.acceptBlock block
  rw [ha] at acc hpost
  obtain ⟨commits, hplan, hcommits⟩ := SqliteStore.saveAcceptedBlockState_succeeds hpost acc
    live.server.state.chain.bestTip (mempoolTxids live.server.state.mempool)
  obtain ⟨live', hpersist, hstate, hr'⟩ :=
    persist_succeeds hw.disk commits hcommits (setState live state) hr
  rw [hhash] at hplan
  have haccept : mapErr SyncError.acceptBlock (onState fun state => state.acceptBlock block) w
      live = some (setState live state, .ok ()) := by
    rw [mapErr_eq_ok, onState_apply, ha]
  have hsave : mapErr SyncError.sqlitePersist (persist (saveAcceptedBlockState state
      block.header.blockHash live.server.state.chain.bestTip
      (mempoolTxids live.server.state.mempool))) w (setState live state) =
        some (live', .ok ()) := by
    rw [mapErr_eq_ok, hplan, hpersist]
  refine ⟨live', ?_, hstate, hr'⟩
  rw [acceptSyncedBlock, bind_of_ok (rfl : self w live = some (live, .ok live.server)), hn,
    Option.isSome_none, if_neg Bool.false_ne_true, bind_of_ok haccept]
  exact bind_of_ok hsave _

theorem acceptFetched_append {live live₁ live₂ : Live} {xs ys accepted more : List Block}
    (h : acceptFetched xs w live = some (live₁, .ok accepted))
    (h' : acceptFetched ys w live₁ = some (live₂, .ok more)) :
    acceptFetched (xs ++ ys) w live = some (live₂, .ok (accepted ++ more)) := by
  induction xs generalizing live accepted with
  | nil =>
    cases h
    exact h'
  | cons block rest ih =>
    obtain ⟨same, server, hself, h⟩ := (bind_eq_ok _ _ _ _ _ _).mp h
    cases hself
    obtain ⟨middle, head, hhead, h⟩ := (bind_eq_ok _ _ _ _ _ _).mp h
    obtain ⟨last, tail, htail, h⟩ := (bind_eq_ok _ _ _ _ _ _).mp h
    cases h
    rw [List.append_assoc]
    exact (bind_of_ok hhead _).trans (bind_of_ok (ih htail) _)

/-- The loop accepts every block it is given, and reaches the other node's view of the chain. -/
theorem acceptFetched_catchesUp (hw : w.Reliable) {theirs : NodeState} (live : Live)
    (hr : live.StoreReadable) (ho : live.server.state.Complete) (ht : theirs.Complete)
    (hk : Kindred live.server.state theirs) {start : Option BlockHash}
    {es : List ChainIndexEntry} (hp : Path entryView theirs.chain.get start es) :
    ∃ live', acceptFetched (lacking live.server.state theirs es) w live =
        some (live', .ok (lacking live.server.state theirs es)) ∧
      CaughtUp live.server.state theirs live'.server.state es ∧ live'.StoreReadable := by
  induction hp with
  | nil => exact ⟨live, rfl, caughtUp_nil ho, hr⟩
  | @snoc h e es he hes ih =>
    obtain ⟨now, heq, hcaught, hr'⟩ := ih
    obtain rfl := ht.sound.key h e he
    obtain ⟨b, hb, hhash, -⟩ := ht.sound.block_of_entry _ e he
    cases hknown : live.server.state.blocks.get e.blockHash with
    | some b' =>
      obtain ⟨x, hx⟩ := (ho.sound.stored _).mp ⟨b', hknown⟩
      rw [lacking_concat ht.sound es e he hb, hknown, Option.isNone_some,
        if_neg Bool.false_ne_true, List.append_nil]
      exact ⟨now, heq, hcaught.known hk ho ht hx he, hr'⟩
    | none =>
      have hn := ho.sound.unknown_of_block _ hknown
      obtain ⟨state, hacc, hcaught'⟩ := hcaught.step hk ho ht he hes hb hn
      have hunknown : now.server.state.getBlock b.header.blockHash = none := by
        rw [hhash]
        exact hcaught.complete.sound.block_of_unknown _ (hcaught.unknown ht.sound he hes hn)
      obtain ⟨live', hone, hstate, hr''⟩ := acceptSyncedBlock_accepts hw now hr'
        hcaught.complete.sound b state hunknown hacc
      have hlast : acceptFetched [b] w now = some (live', .ok [b]) := bind_of_ok hone _
      rw [lacking_concat_new ht.sound es e he hb hknown]
      exact ⟨live', acceptFetched_append heq hlast, hstate ▸ hcaught', hr''⟩

/-- The walk fetches exactly what is lacking of the chain it walks down. -/
theorem fetchMissing_lacking (hw : w.Reliable) {ours theirs : NodeState}
    (hans : w.AnswersBlocks fun hash => .ok (theirs.getBlock hash)) (ho : ours.Complete)
    (ht : theirs.Complete) (hk : Kindred ours theirs) (peer : PeerEndpoint)
    {start : Option BlockHash} {es : List ChainIndexEntry}
    (hp : Path entryView theirs.chain.get start es) (h : BlockHash) (hstart : start = some h)
    (live : Live) (hlive : live.server.state = ours) (rounds : Nat) (hrounds : es.length ≤ rounds) :
    ∃ live' missing, fetchMissing peer rounds h w live = some (live', .ok missing) ∧
      missing.reverse = lacking ours theirs es ∧ SameButPeers live live' := by
  -- the path is followed from its end, as the walk does
  induction hp generalizing h live rounds with
  | nil => cases hstart
  | @snoc hash e es he hes ih =>
    cases hstart
    have hpath : GrowingTree.Path entryView theirs.chain.get (some hash) (es ++ [e]) :=
      .snoc he hes
    obtain rfl := ht.sound.key hash e he
    obtain ⟨b, hb, hhash, -, hof⟩ := ht.sound.block_of_entry _ e he
    obtain ⟨work, -, -, hlink⟩ := hof.work
    rw [List.length_append, List.length_singleton] at hrounds
    obtain ⟨k, rfl⟩ : ∃ k, rounds = k + 1 := ⟨rounds - 1, by omega⟩
    have hround := fetchMissing_round hans peer k e.blockHash live
    generalize fetchMissing peer (k + 1) e.blockHash w live = result at hround
    cases hround with
    | known block hknown =>
      obtain ⟨x, hx⟩ := (ho.sound.stored _).mp ⟨block, hlive ▸ hknown⟩
      refine ⟨live, [], rfl, ?_, rfl⟩
      refine (hk.knows_path ho ht hpath fun h hh => ?_).symm
      cases hh
      exact ⟨x, hx⟩
    | failed live' fault hknown hq hbad => exact absurd (congrArg Except.ok hb) (hbad hw b)
    | last live' block hknown hq ha hdefault =>
      obtain rfl : b = block := Option.some.inj (hb.symm.trans (Except.ok.inj ha))
      refine ⟨live', [b], rfl, ?_, hq.1⟩
      rw [lacking_concat_new ht.sound es e he hb (hlive ▸ hknown)]
      -- only the root has a header that names the zero hash
      cases hparent : e.parent with
      | none =>
        rw [show entryView.parent e = none from hparent] at hes
        cases hes
        rfl
      | some p =>
        obtain ⟨-, hne⟩ := hk.parent_ne_default ht.sound hof hparent
        exact absurd hdefault hne
    | on live' block hknown hq ha hdefault =>
      obtain rfl : b = block := Option.some.inj (hb.symm.trans (Except.ok.inj ha))
      cases hparent : e.parent with
      | none =>
        rw [hparent] at hlink
        exact absurd hlink.1 hdefault
      | some p =>
        obtain ⟨hprev, -⟩ := hk.parent_ne_default ht.sound hof hparent
        rw [hprev]
        obtain ⟨live'', older, heq, holder, hsame⟩ :=
          ih p hparent live' (hq.1.state.trans hlive) k (by omega)
        refine ⟨live'', b :: older, bind_of_ok heq _, ?_, hsame.trans hq.1⟩
        rw [lacking_concat_new ht.sound es e he hb (hlive ▸ hknown), List.reverse_cons, holder]

/-- A tip that is known ends the sync at once; otherwise the walk runs back from it and the loop
forward to it. -/
theorem syncToAdvertisedTip_catchesUp (hw : w.Reliable) {theirs : NodeState}
    (hans : w.AnswersBlocks fun hash => .ok (theirs.getBlock hash)) (live : Live)
    (hr : live.StoreReadable) (ho : live.server.state.Complete) (ht : theirs.Complete)
    (hk : Kindred live.server.state theirs) (peer : PeerEndpoint) {es : List ChainIndexEntry}
    (hp : Path entryView theirs.chain.get theirs.chain.bestTip es)
    (hrounds : es.length ≤ w.rounds) :
    ∃ live', syncToAdvertisedTip peer theirs.tipSummary w live =
        some (live', .ok (lacking live.server.state theirs es)) ∧
      CaughtUp live.server.state theirs live'.server.state es := by
  rw [syncToAdvertisedTip, theirs.tipSummary_tip]
  -- if nothing is lacking the loop has nothing to do
  have hidle (hnone : lacking live.server.state theirs es = []) :
      CaughtUp live.server.state theirs live.server.state es := by
    obtain ⟨live', heq, hcaught, -⟩ := acceptFetched_catchesUp hw live hr ho ht hk hp
    rw [hnone] at heq
    cases heq
    exact hcaught
  cases htip : theirs.chain.bestTip with
  | none =>
    rw [htip] at hp
    cases hp
    exact ⟨live, rfl, hidle rfl⟩
  | some tip =>
    dsimp only
    rw [bind_of_ok (rfl : self w live = some (live, .ok live.server))]
    cases hget : live.server.state.getBlock tip with
    | some block =>
      obtain ⟨x, hx⟩ := (ho.sound.stored tip).mp ⟨block, hget⟩
      have hnone := hk.knows_path ho ht hp fun h hh => by
        obtain rfl := Option.some.inj (htip.symm.trans hh)
        exact ⟨x, hx⟩
      rw [hnone, Option.isSome_some, if_pos rfl]
      exact ⟨live, rfl, hidle hnone⟩
    | none =>
      obtain ⟨fetched, missing, hfetch, hmissing, hsame⟩ := fetchMissing_lacking hw hans ho ht hk
        peer hp tip htip live rfl w.rounds hrounds
      have hstate := hsame.state
      obtain ⟨live', haccept, hcaught, -⟩ := acceptFetched_catchesUp hw fetched
        (hsame.storeReadable hr) (hstate ▸ ho) ht (hstate ▸ hk) hp
      rw [hstate, ← hmissing] at haccept
      rw [hstate] at hcaught
      rw [Option.isSome_none, if_neg Bool.false_ne_true, ← hmissing]
      exact ⟨live', (bind_of_ok hfetch _).trans haccept, hcaught⟩

/-- Sync from an honest peer converges: it returns the blocks of the peer's best chain that the
node lacked, every parent before its child, and leaves the node with the peer's tip as the peer
has it, and with a best tip of at least the peer's work. `hzero` is an assumption on the hash
function: the zero hash stands for no parent. -/
theorem honest_sync_converges (live : Live) (theirs : NodeState) (peer : PeerEndpoint)
    (ho : live.server.state.OkReachable) (ht : theirs.OkReachable)
    (hgenesis : ∀ h e h' e', live.server.state.chain.get h = some e → e.parent = none →
      theirs.chain.get h' = some e' → e'.parent = none → h = h')
    (hblocks : ∀ h b b', live.server.state.blocks.get h = some b →
      theirs.blocks.get h = some b' → b = b')
    (hzero : ∀ h b, theirs.blocks.get h = some b → b.header.blockHash ≠ BlockHash.default)
    (hr : live.StoreReadable) :
    ∃ n chain, theirs.chain.bestChainEntries = some chain ∧
      ∀ w : World, w.Reliable → w.AnswersBlocks (fun hash => .ok (theirs.getBlock hash)) →
        n ≤ w.rounds → ∃ live',
          syncToAdvertisedTip peer theirs.tipSummary w live =
            some (live', .ok (lacking live.server.state theirs chain)) ∧
          (lacking live.server.state theirs chain).IsChain
            (fun parent child => child.header.prevBlockhash = parent.header.blockHash) ∧
          (∀ tip, theirs.chain.bestTip = some tip → ∃ entry block utxos,
            theirs.chain.get tip = some entry ∧ theirs.blocks.get tip = some block ∧
              theirs.utxoSnapshots.get tip = some utxos ∧
              live'.server.state.AgreeAt theirs tip) ∧
          ∀ work ∈ theirs.tipWork, ∃ work' ∈ live'.server.state.tipWork, work ≤ work' := by
  have ho := ho.complete
  have ht := ht.complete
  have hk : Kindred live.server.state theirs := ⟨hblocks, hgenesis, ht.sound.nonzero hzero⟩
  obtain ⟨log, hi⟩ := ht.sound.index
  obtain ⟨chain, hp, hchain⟩ := hi.bestChain_path
  refine ⟨chain.length, chain, hchain, fun w hw hans hrounds => ?_⟩
  obtain ⟨live', hsync, hcaught⟩ :=
    syncToAdvertisedTip_catchesUp hw hans live hr ho ht hk peer hp hrounds
  exact ⟨live', hsync, (hk.lacking_linked ho ht hp).1, hcaught.at_tip ht hp⟩

end Server

end Sync

section SampleSync

attribute [local instance] NodeState.sampleCrypto

/-- A node with nothing fetches genesis and the block on it, in this order. -/
theorem emptyServer_converges :
    ∃ w live', w.Reliable ∧
      w.AnswersBlocks (fun hash => .ok (sampleState.getBlock hash)) ∧
      Server.syncToAdvertisedTip onlyPeer sampleState.tipSummary w emptyServer =
        some (live', .ok [sampleGenesis, sampleBlock]) ∧
      live'.server.state.AgreeAt sampleState sampleBlock.header.blockHash := by
  have hgenesis : ∀ h e h' e', emptyServer.server.state.chain.get h = some e →
      e.parent = none → sampleState.chain.get h' = some e' → e'.parent = none → h = h' := by
    intro h e h' e' he
    cases he
  have hblocks : ∀ h b b', emptyServer.server.state.blocks.get h = some b →
      sampleState.blocks.get h = some b' → b = b' := by
    intro h b b' hb
    cases hb
  have hzero : ∀ h b, sampleState.blocks.get h = some b →
      b.header.blockHash ≠ BlockHash.default :=
    (HashMap.forall_get_iff _).mpr (by decide +kernel)
  have hr : emptyServer.StoreReadable := by
    intro store hs
    cases hs
  obtain ⟨n, chain, hchain, hall⟩ := Server.honest_sync_converges emptyServer sampleState onlyPeer
    .refl sampleState_okReachable hgenesis hblocks hzero hr
  let w := { Server.obligingWorld fun hash => .ok (sampleState.getBlock hash) with rounds := n }
  have hw : w.Reliable := ⟨fun _ _ hello => ⟨hello, rfl⟩, fun _ => rfl⟩
  obtain ⟨live', hsync, -, htip, -⟩ := hall w hw (fun _ _ _ _ => rfl) le_rfl
  have hlacking : (sampleState.chain.bestChainEntries.map
      (lacking emptyServer.server.state sampleState)) = some [sampleGenesis, sampleBlock] := by
    decide +kernel
  rw [hchain, Option.map_some] at hlacking
  rw [Option.some.inj hlacking] at hsync
  obtain ⟨entry, block, utxos, -, -, -, hagree⟩ :=
    htip sampleBlock.header.blockHash (by decide +kernel)
  exact ⟨w, live', hw, fun _ _ _ _ => rfl, hsync, hagree⟩

end SampleSync

end Wobble
