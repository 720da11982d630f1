import Wobble.Server.Gossip
import Wobble.Server.SyncWalk

namespace Wobble

open Rust Io

section Relaying

variable [Crypto]

namespace Server

variable {ε : Type}

variable {w : World} {live live' : Live}

theorem relayBestEffort_tells {message : WireMessage} {origin : Option PeerAddr} {r : Res ε Unit}
    (hk : ∀ block, message = .announceBlock block →
      live.server.state.Applied block.header.blockHash)
    (h : relayBestEffort message origin w live = some (live', r)) :
    Tells message.announcedHash.toList live live' := by
  have hsent := Tells.sends live (.relay message origin) fun m o block heq hm => by
    cases heq
    exact hk block hm
  have hrest : Tells [] _ live' := relayBestEffort_sends EventFrame.tells.toNetworkFrame h
  simpa [Effect.relayedHash] using hsent.trans hrest

theorem forEach_relay_tells (relays : List WireMessage) {origin : Option PeerAddr} {r : Res ε Unit}
    (hk : ∀ block, .announceBlock block ∈ relays →
      live.server.state.Applied block.header.blockHash)
    (h : forEach (relayBestEffort · origin) relays w live = some (live', r)) :
    Tells (relays.filterMap WireMessage.announcedHash) live live' := by
  induction relays generalizing live with
  | nil =>
    cases h
    exact .of_state rfl rfl
  | cons message rest ih =>
    have hlist : (message :: rest).filterMap WireMessage.announcedHash =
        message.announcedHash.toList ++ rest.filterMap WireMessage.announcedHash := by
      cases hm : message.announcedHash <;> simp [hm]
    have hfirst : ∀ block, message = .announceBlock block →
        live.server.state.Applied block.header.blockHash :=
      fun block hm => hk block (hm ▸ List.mem_cons_self)
    rw [hlist]
    rcases (bind_eq_some _ _ _ _ _ _).mp h with ⟨e, hfail, -⟩ | ⟨middle, u, hok, h⟩
    · exact (relayBestEffort_tells hfirst hfail).mono (List.sublist_append_left _ _)
    · have htells := relayBestEffort_tells hfirst hok
      refine htells.trans (ih (fun block hm => ?_) h)
      exact htells.applied _ (hk block (List.mem_cons_of_mem _ hm))

section Handlers

variable [Profile]

/-- Of what is spread, only the relays can be of blocks. -/
theorem spreadChange_tells {relays : List WireMessage} {previousBestTip : Option BlockHash}
    {previousMempoolTxids : Finset Txid} {origin : Option PeerAddr} {r : Res ε Unit}
    (hk : ∀ block, .announceBlock block ∈ relays →
      live.server.state.Applied block.header.blockHash)
    (h : spreadChange relays previousBestTip previousMempoolTxids origin w live = some (live', r)) :
    Tells (relays.filterMap WireMessage.announcedHash) live live' := by
  have htip : Keeps (Tells []) (do
      relayNewBestTipIfAdvanced previousBestTip origin
      maybeRefreshMining previousBestTip previousMempoolTxids : ServerIo ε Unit) := by
    refine keeps_bind (relayNewBestTipIfAdvanced_keeps EventFrame.tells.toNetworkFrame _ _ ?_)
      fun _ => keeps_of_remines EventFrame.tells (maybeRefreshMining_keeps _ _)
    intro live summary
    refine Tells.sends live (.relay (.announceTip summary) origin) fun _ _ _ heq hm => ?_
    cases heq
    cases hm
  rcases (bind_eq_some _ _ _ _ _ _).mp h with ⟨e, hfail, -⟩ | ⟨told, u, htold, h⟩
  · exact forEach_relay_tells relays hk hfail
  · have htotal := (forEach_relay_tells relays hk htold).trans (htip _ _ _ _ h)
    rw [List.append_nil] at htotal
    exact htotal

theorem Finishes.tells {plan : Option (List Commit)} {relays : List WireMessage}
    {before : NodeState} {origin : Option PeerAddr} {r : Res ServerError Unit}
    (hk : ∀ block, .announceBlock block ∈ relays →
      live.server.state.Applied block.header.blockHash)
    (h : Finishes w plan relays before origin live live' r) :
    Tells (relays.filterMap WireMessage.announcedHash) live live' := by
  cases h with
  | unsaved _ e hp =>
    exact (persist_keeps EventFrame.tells plan _ _ _ _ hp).mono (List.nil_sublist _)
  | saved saved _ r hp hs =>
    have hsaved := persist_keeps EventFrame.tells plan _ _ _ _ hp
    exact hsaved.trans (spreadChange_tells (fun block hm => hsaved.applied _ (hk block hm)) hs)

/-- The end of a handler that relays one block, unknown before and accepted now. -/
theorem Finishes.spreads_block {first : Live} {plan : Option (List Commit)} {block : Block}
    {before : NodeState} {origin : Option PeerAddr} {r : Res ServerError Unit}
    (hs : first.server.state.Sound) (hhush : Hush first live)
    (hnew : ¬ first.Knows block.header.blockHash)
    (happlied : live.server.state.Applied block.header.blockHash)
    (h : Finishes w plan [.announceBlock block] before origin live live' r) :
    Spreads first live' := by
  have htells := h.tells fun b hb => by
    cases List.mem_singleton.mp hb
    exact happlied
  refine hhush.spreads_of_tells hs htells (List.nodup_singleton _) fun hash hmem => ?_
  obtain rfl := List.mem_singleton.mp hmem
  exact ⟨hnew, happlied⟩

/-- The end of a handler that relays no block. -/
theorem Finishes.spreads_quiet {first : Live} {plan : Option (List Commit)}
    {relays : List WireMessage} {before : NodeState} {origin : Option PeerAddr}
    {r : Res ServerError Unit} (hs : first.server.state.Sound) (hhush : Hush first live)
    (hnone : ∀ block, .announceBlock block ∉ relays)
    (h : Finishes w plan relays before origin live live' r) : Spreads first live' := by
  have hhashes : relays.filterMap WireMessage.announcedHash = [] := by
    refine List.filterMap_eq_nil_iff.mpr fun message hm => ?_
    cases message with
    | announceBlock block => exact absurd hm (hnone block)
    | _ => rfl
  have htells := h.tells fun block hb => absurd hb (hnone block)
  rw [hhashes] at htells
  exact hhush.spreads_of_tells hs htells List.nodup_nil fun hash hmem => by cases hmem

/-- The block is accepted, after more or less, and relayed if it was unknown. -/
theorem announces_spreads {first : Live} {block : Block} {origin : Option PeerAddr}
    {r : Res ServerError (List WireMessage)} (hs : first.server.state.Sound)
    (hhush : Hush first live)
    (h : Announces w block first.server.state origin live live' r) : Spreads first live' := by
  have htaken : Hush first (setState live (live.server.state.acceptBlock block).1) :=
    IsTrans.trans _ _ _ hhush (StateFrame.hush.acceptBlock live block)
  cases h with
  | rejected state e hc =>
    obtain ⟨e', rfl, -⟩ := NodeState.announceBlock_eq_error (Option.some.inj hc)
    exact htaken.spreads hs
  | finished state replies _ r hc hf =>
    obtain ⟨rfl, rfl, hok⟩ := NodeState.announceBlock_eq_ok (Option.some.inj hc)
    have happlied := (hhush.grows hs).sound.acceptBlock_applied block hok
    cases hget : first.server.state.getBlock block.header.blockHash with
    | some known =>
      rw [relayOf, hget, Option.isSome_some, if_pos rfl] at hf
      exact hf.spreads_quiet hs htaken fun b hb => by cases hb
    | none =>
      rw [relayOf, hget, Option.isSome_none, if_neg Bool.false_ne_true] at hf
      refine hf.spreads_block hs htaken (fun hk => ?_) happlied
      obtain ⟨b, hb⟩ := hk
      cases hget.symm.trans hb

omit [Profile] in
theorem announceTx_replies {state state' : NodeState} {tx : Transaction}
    {replies : List WireMessage} (h : state.announceTx tx = (state', .ok replies)) :
    replies = [] := by
  rw [NodeState.announceTx] at h
  split at h
  · cases h
    rfl
  · cases h
    rfl
  · cases h
  · cases h

/-- A transaction is relayed and no block. -/
theorem TakesTx.spreads {tx : Transaction} {origin : Option PeerAddr}
    {r : Res ServerError (List WireMessage)} (hs : live.server.state.Sound)
    (h : TakesTx w tx origin live live' r) : Spreads live live' := by
  cases h with
  | unnamed e _ => exact (refl live : Hush live live).spreads hs
  | named relay _ r hrelay hm =>
    have htx : relay = none ∨ relay = some (.announceTx tx) := by
      obtain ⟨txid, -, h⟩ := (Res.bind_eq_ok _ _ _).mp hrelay
      cases h
      split
      · exact .inl rfl
      · exact .inr rfl
    have hcall := StateFrame.hush.announceTx live tx
    cases hm with
    | rejected state e hc =>
      rw [Option.some.inj hc] at hcall
      exact hcall.spreads hs
    | finished state replies _ r hc hf =>
      rw [Option.some.inj hc] at hcall
      obtain rfl := announceTx_replies (Option.some.inj hc)
      refine hf.spreads_quiet hs hcall fun block hb => ?_
      rcases htx with rfl | rfl <;> simp [relayMessageFromReplies] at hb

theorem TakesBlock.spreads {block : Block} {origin : Option PeerAddr}
    {r : Res ServerError (List WireMessage)} (hs : live.server.state.Sound)
    (h : TakesBlock w block origin live live' r) : Spreads live live' := by
  have hframe := syncFrame_of_keeps (w := w) EventFrame.hush StateFrame.hush live
  have htried : Hush live (setState live (live.server.state.acceptBlock block).1) :=
    StateFrame.hush.acceptBlock live block
  cases h with
  | direct _ r ha => exact announces_spreads hs (refl live) ha
  | panicked peer e _ m _ _ _ hsync => exact (hsync.keeps hframe htried).spreads hs
  -- the ancestors may be stored now, and the block with them
  | retried peer e synced _ result r _ _ _ hsync ha =>
    exact announces_spreads hs (hsync.keeps hframe htried) ha

/-- The headers that meet when a mining request is handled: the stored ones, and the one that may be
mined. -/
def headersMet (state : NodeState) (request : MinePendingRequest) : Set BlockHeader :=
  state.headers ∪ { header | ∃ key block, parseVerifyingKey request.minerPublicKey = some key ∧
    state.Mines request.reward key request.uniqueness request.bits request.maxTransactions block ∧
    block.header = header }

/-- A block that is mined is new. -/
theorem minePending_new {state state' : NodeState} {request : MinePendingRequest}
    {replies : List WireMessage} (hs : state.Sound)
    (hsha : Set.InjOn BlockHeader.blockHash (headersMet state request))
    (hzero : ∀ header ∈ headersMet state request, header.blockHash ≠ BlockHash.default)
    (h : state.minePending request = some (state', .ok replies)) :
    ∃ block entries coinbase, state.Mined state' block entries coinbase ∧
      state.chain.get block.header.blockHash = none ∧
      replies = [.minedBlock ⟨block.header.blockHash⟩] := by
  rcases NodeState.minePending_eq_some h with ⟨-, e, he⟩ | ⟨key, mined, hkey, hmined, hr⟩
  · cases he
  rcases hr with ⟨e, he⟩ | ⟨hash, rfl, hreplies⟩
  · cases he
  cases hreplies
  obtain ⟨block, entries, fees, reward, hblock, hmines, rfl, -⟩ := hs.mined hmined
  refine ⟨block, entries, _, hblock, hs.unknown_on_tip block hblock.prev ?_ ?_, rfl⟩
  · exact fun header hheader heq =>
      hsha (.inl hheader) (.inr ⟨key, block, hkey, hmines, rfl⟩) heq
  · exact fun header hheader => hzero header (.inl hheader)

theorem minesPending_spreads {request : MinePendingRequest} {origin : Option PeerAddr}
    {r : Res ServerError (List WireMessage)} (hs : live.server.state.Sound)
    (hsha : Set.InjOn BlockHeader.blockHash (headersMet live.server.state request))
    (hzero : ∀ header ∈ headersMet live.server.state request,
      header.blockHash ≠ BlockHash.default)
    (h : MinesPending w request origin live live' r) : Spreads live live' := by
  cases h with
  | rejected state e hc => exact (StateFrame.hush.minePending live request state _ hc).spreads hs
  | finished state replies _ r hc hf =>
    have hhush := StateFrame.hush.minePending live request state _ hc
    obtain ⟨block, entries, coinbase, hblock, hnew, rfl⟩ := minePending_new hs hsha hzero hc
    obtain ⟨entry, hl, -, hblocks⟩ := hs.acceptBlock_added block hblock.accepted hnew
    have hstored : state.getBlock block.header.blockHash = some block := by
      rw [NodeState.getBlock, hblock.state]
      change (live.server.state.acceptBlock block).1.blocks.get _ = _
      rw [hblocks, HashMap.get_insert, if_pos hl.blockHash.symm]
    have hrelay : (setState live state).server.relayMessageFromReplies
        [.minedBlock ⟨block.header.blockHash⟩] = some (.announceBlock block) := by
      simp [relayMessageFromReplies, setState, hstored]
    have happlied : state.Applied block.header.blockHash := by
      rw [NodeState.Applied, hblock.state]
      exact hs.acceptBlock_applied block hblock.accepted
    rw [Option.none_or, hrelay] at hf
    refine hf.spreads_block hs hhush (fun hk => ?_) happlied
    obtain ⟨e, he⟩ := (hs.stored _).mp hk
    cases hnew.symm.trans he

omit [Profile] in
/-- A block is returned only if it was unknown, and it is accepted then. -/
theorem SyncsBlock.new {block : Block} {accepted : Option Block} (hs : live.server.state.Sound)
    (h : SyncsBlock w block live live' (.ok accepted)) :
    ∀ b ∈ accepted, ¬ live.Knows b.header.blockHash ∧
      live'.server.state.Applied b.header.blockHash := by
  intro b hb
  generalize hr : (.ok accepted : Res SyncError (Option Block)) = r at h
  cases h with
  | known _ =>
    cases hr
    cases hb
  | rejected e _ _ => cases e <;> cases hr
  | accepted _ saved hn ha hp =>
    have hsaved := persist_keeps EventFrame.tells _ _ _ _ _ hp
    rcases saved with (e | m) | u
    · cases hr
    · cases hr
    · cases hr
      cases hb
      refine ⟨fun hk => ?_, hsaved.applied _ (hs.acceptBlock_applied block ha)⟩
      obtain ⟨known, hknown⟩ := hk
      cases hn.symm.trans hknown

/-- Blocks with distinct hashes that were unknown before and are accepted now. -/
structure Fetched (blocks : List Block) (live live' : Live) : Prop where
  distinct : (blocks.map fun b => b.header.blockHash).Nodup
  fresh : ∀ b ∈ blocks, ¬ live.Knows b.header.blockHash
  applied : ∀ b ∈ blocks, live'.server.state.Applied b.header.blockHash

omit [Profile] in
theorem Fetched.nil (live live' : Live) : Fetched [] live live' :=
  ⟨List.nodup_nil, fun _ hb => (nomatch hb), fun _ hb => (nomatch hb)⟩

omit [Profile] in
theorem Fetched.of_extends {blocks : List Block} {middle : Live} (h : Fetched blocks middle live')
    (hext : live.server.state.Extends middle.server.state) : Fetched blocks live live' :=
  ⟨h.distinct, fun b hb hk => h.fresh b hb (hk.imp fun _ hx => hext.stored _ _ hx), h.applied⟩

theorem SyncsBlocks.new {blocks accepted : List Block} (hs : live.server.state.Sound)
    (h : SyncsBlocks w blocks live live' (.ok accepted)) : Fetched accepted live live' := by
  generalize hr : (.ok accepted : Res SyncError (List Block)) = r at h
  induction h generalizing accepted with
  | nil live =>
    cases hr
    exact .nil _ _
  | stopped block rest live live' e _ => cases hr
  | next block rest live middle live' head r hblock hblocks ih =>
    rcases r with e | more
    · cases hr
    cases hr
    have hfirst := hblock.new hs
    have hgrows := (hblock.keeps (syncFrame_of_keeps EventFrame.hush StateFrame.hush live)
      (refl live)).grows hs
    have hrest := ih hgrows.sound rfl
    have hkept := (hblocks.keeps (syncFrame_of_keeps EventFrame.hush StateFrame.hush middle)
      (refl middle)).grows hgrows.sound
    refine ⟨?_, fun b hb => ?_, fun b hb => ?_⟩
    · rw [List.map_append]
      refine List.nodup_append.mpr ⟨?_, hrest.distinct, ?_⟩
      · cases head <;> simp
      · rintro hash hmem _ hmem' rfl
        obtain ⟨b, hb, rfl⟩ := List.mem_map.mp hmem
        obtain ⟨b', hb', heq⟩ := List.mem_map.mp hmem'
        have happlied := (hfirst b (Option.mem_toList.mp hb)).2
        exact hrest.fresh b' hb' (heq ▸ hgrows.sound.applied_stored happlied)
    · rcases List.mem_append.mp hb with hb | hb
      · exact (hfirst b (Option.mem_toList.mp hb)).1
      · exact (hrest.of_extends hgrows).fresh b hb
    · rcases List.mem_append.mp hb with hb | hb
      · exact hkept.applied _ (hfirst b (Option.mem_toList.mp hb)).2
      · exact hrest.applied b hb

theorem SyncsTo.new {peer : PeerEndpoint} {summary : TipSummary} {accepted : List Block}
    (hs : live.server.state.Sound) (h : SyncsTo w peer summary live live' (.ok accepted)) :
    Fetched accepted live live' := by
  cases h with
  | idle => exact .nil _ _
  | fetched tip fetched _ missing r _ hf hb =>
    -- fetching leaves the state alone
    have hstate := (fetchMissing_keeps .sameButPeers _ _ _ _ _ _ _ hf).state
    have hnew := hb.new (hstate ▸ hs)
    refine ⟨hnew.distinct, fun b hb hk => hnew.fresh b hb ?_, hnew.applied⟩
    rw [Live.Knows, hstate]
    exact hk

/-- The end of a tip sync relays the blocks it has fetched. -/
theorem SyncsTip.spreads {origin : PeerAddr} {summary : TipSummary} {r : Res ε Unit}
    (hs : live.server.state.Sound) (h : SyncsTip w origin summary live live' r) :
    Spreads live live' := by
  have hframe := syncFrame_of_keeps (w := w) EventFrame.hush StateFrame.hush live
  have hhinted : ∀ addr, Hush live (live.hinted addr summary) := fun addr =>
    marked_keeps hframe _ _ (hframe.touches live addr _ (fun _ => ⟨rfl, rfl⟩) (refl live))
  cases h with
  | idle => exact (refl live : Hush live live).spreads hs
  | panicked peer _ m hsync => exact (hsync.keeps hframe (hhinted _)).spreads hs
  | spread peer synced _ result r hsync hspread =>
    have hidle : Hush live (synced.marked peer.addr .idle) :=
      marked_keeps hframe _ _ (hsync.keeps hframe (hhinted _))
    have hfetched : Fetched (result.toOption.getD []) live (synced.marked peer.addr .idle) := by
      cases result with
      | error e => exact .nil _ _
      | ok blocks =>
        have hfirst := (hhinted peer.addr).grows hs
        have hnew := (hsync.new hfirst.sound).of_extends hfirst
        refine ⟨hnew.distinct, hnew.fresh, fun b hb => ?_⟩
        rw [(synced.marked_same peer.addr .idle).state]
        exact hnew.applied b hb
    have hk : ∀ block, .announceBlock block ∈ (result.toOption.getD []).map WireMessage.announceBlock →
        (synced.marked peer.addr .idle).server.state.Applied block.header.blockHash := by
      intro block hm
      obtain ⟨b, hb, heq⟩ := List.mem_map.mp hm
      cases heq
      exact hfetched.applied block hb
    have htells := spreadChange_tells hk hspread
    have hhashes : ((result.toOption.getD []).map WireMessage.announceBlock).filterMap
        WireMessage.announcedHash =
          (result.toOption.getD []).map fun b => b.header.blockHash := by
      rw [List.filterMap_map]
      exact congrFun List.filterMap_eq_map _
    rw [hhashes] at htells
    refine hidle.spreads_of_tells hs htells hfetched.distinct fun hash hmem => ?_
    obtain ⟨b, hb, rfl⟩ := List.mem_map.mp hmem
    exact ⟨hfetched.fresh b hb, hfetched.applied b hb⟩

/-- The headers that meet while a message is handled. Only for mining requests it matters that they
have different hashes. -/
def messageHeaders (state : NodeState) : WireMessage → Set BlockHeader
  | .minePending request => headersMet state request
  | _ => ∅

/-- The same for all mining requests of the bootstrap loop. -/
def bootstrapHeaders (publicKey : Bytes) (start : UInt32) :
    List UInt32 → World → Live → Set BlockHeader
  | [], _, _ => ∅
  | offset :: rest, w, live =>
    let request := ⟨blockSubsidy, publicKey, saturatingAdd32 start offset, 0x207fffff, 0⟩
    headersMet live.server.state request ∪
      match handlePeerMessage none (.minePending request) w live with
      | some (live', .ok _) => bootstrapHeaders publicKey start rest w live'
      | _ => ∅

def eventHeaders : ServerEvent → World → Live → Set BlockHeader
  | .peerMessage _ message, _, live => messageHeaders live.server.state message
  | .adminRequest (.bootstrap publicKey blocks), w, live =>
    bootstrapHeaders publicKey (startUniqueness live.server.state)
      ((List.range blocks.toNat).map UInt32.ofNat) w live
  | _, _, _ => ∅

section Hashes

variable {H : Set BlockHeader} (hsha : Set.InjOn BlockHeader.blockHash H)
  (hzero : ∀ header ∈ H, header.blockHash ≠ BlockHash.default)

include hsha hzero

theorem Hears.spreads {origin : Option PeerAddr} {message : WireMessage}
    {r : Res ServerError (List WireMessage)} (hs : live.server.state.Sound)
    (hH : messageHeaders live.server.state message ⊆ H)
    (h : Hears w origin live message live' r) : Spreads live live' := by
  have hnetwork := EventFrame.hush.toNetworkFrame
  cases h with
  | hello remoteHello _ x r hx => exact (recordInboundHello_keeps hnetwork _ _ _ _ _ hx).spreads hs
  | announceTip summary _ x r hx =>
    exact (recordInboundTip_keeps hnetwork _ _ _ _ _ _ hx).spreads hs
  | asks _ r _ => exact (refl live : Hush live live).spreads hs
  | announceTx tx _ r htx => exact htx.spreads hs
  | announceBlock block _ r hb => exact hb.spreads hs
  | minePending request _ r hm =>
    exact minesPending_spreads hs (hsha.mono hH) (fun header hheader => hzero header (hH hheader))
      hm

theorem Bootstraps.spreads {publicKey : Bytes} {start : UInt32} {offsets : List UInt32}
    {r : Res ServerError (Option BlockHash)} (hs : live.server.state.Sound)
    (hH : bootstrapHeaders publicKey start offsets w live ⊆ H)
    (h : Bootstraps w publicKey start offsets live live' r) : Spreads live live' := by
  have hmined : ∀ {offset : UInt32} {live middle : Live} {r : Res ServerError (List WireMessage)},
      live.server.state.Sound →
      headersMet live.server.state (bootstrapRequest publicKey start offset) ⊆ H →
      MinesPending w (bootstrapRequest publicKey start offset) none live middle r →
        Spreads live middle :=
    fun hs hhead hm => minesPending_spreads hs (hsha.mono hhead)
      (fun header hheader => hzero header (hhead hheader)) hm
  induction h with
  | nil live last => exact (refl live : Hush live live).spreads hs
  | stopped offset rest live live' e hm =>
    exact hmined hs (Set.union_subset_iff.mp hH).1 hm
  | next offset rest live middle live' replies r hm _ ih =>
    obtain ⟨hhead, hrest⟩ := Set.union_subset_iff.mp hH
    have hmiddle := hmined hs hhead (handlePeerMinePending_path hm)
    rw [bootstrapRequest] at hm
    rw [hm] at hrest
    exact hmiddle.trans (ih hmiddle.state.sound hrest)

theorem Administers.spreads {request : AdminRequest} {r : Res ε AdminResponse}
    (hs : live.server.state.Sound) (hH : eventHeaders (.adminRequest request) w live ⊆ H)
    (h : Administers w live request live' r) : Spreads live live' := by
  cases h with
  | answered _ r => exact (refl live : Hush live live).spreads hs
  | bootstrap publicKey blocks _ x r hb _ => exact hb.spreads hsha hzero hs hH
  | submitTransaction tx _ x r htx _ => exact htx.spreads hs

theorem handleEvent_spreads (event : ServerEvent) {r : Res ε Outcome}
    (hs : live.server.state.Sound) (hH : eventHeaders event w live ⊆ H)
    (h : handleEvent event w live = some (live', r)) : Spreads live live' := by
  have hframe := syncFrame_of_keeps (w := w) EventFrame.hush StateFrame.hush live
  have hrefresh : Keeps Hush (refreshMiningCandidate : ServerIo ε Unit) :=
    keeps_of_remines EventFrame.hush refreshMiningCandidate_keeps
  have hquiet : Hush live live := refl live
  have hpath := handleEvent_path h
  cases hpath with
  | bootstrap _ x r hstart _ =>
    cases hstart with
    | mines _ x hm => exact (hrefresh _ _ _ _ hm).spreads hs
    | unsynced _ e hsync => exact (hsync.keeps hframe hquiet).spreads hs
    | synced synced _ x hsync hm =>
      have hsynced : Hush live (started synced) :=
        IsTrans.trans _ _ _ (hsync.keeps hframe hquiet) (EventFrame.hush.bootstraps synced)
      exact (IsTrans.trans _ _ _ hsynced (hrefresh _ _ _ _ hm) : Hush live live').spreads hs
  | peerConnected id =>
    refine Hush.spreads (Tells.hush (.of_state ?_ ?_)) hs <;> rfl
  | peerDisconnected id =>
    refine Hush.spreads (Tells.hush (.of_state ?_ ?_)) hs <;> rfl
  | peerMessage origin message _ x r hm _ => exact hm.spreads hsha hzero hs hH
  | adminRequest request _ x r ha _ => exact ha.spreads hsha hzero hs hH
  | tipSync origin summary _ x r hsync _ => exact hsync.spreads hs
  | syncTick _ x r hsync => exact (hsync.keeps hframe hquiet).spreads hs
  | unticked r => exact hquiet.spreads hs
  | minedCandidate block _ x r _ hb _ => exact hb.spreads hs
  | stale block r => exact hquiet.spreads hs
  | stop => exact hquiet.spreads hs

end Hashes

end Handlers

section Runs

variable [Profile] {H : Set BlockHeader}

/-- One event is handled, in some world and with any end; `H` holds the headers that meet. -/
def Handles (H : Set BlockHeader) (live live' : Live) : Prop :=
  ∃ (w : World) (event : ServerEvent) (r : Res ServerError Outcome),
    handleEvent event w live = some (live', r) ∧ eventHeaders event w live ⊆ H

/-- The server has been started, with or without a miner, and has handled any number of events. -/
def Runs (H : Set BlockHeader) (options : ServerOptions) (miner : Option Miner) (live : Live) :
    Prop :=
  Relation.ReflTransGen (Handles H) (.start { Server.new options with miner := miner }) live

/-- Each relayed block has been relayed once and is one of the accepted ones. -/
structure Settled (live : Live) : Prop where
  sound : live.server.state.Sound
  once : (relayedHashes live.trace).Nodup
  applied : ∀ hash ∈ relayedHashes live.trace, live.server.state.Applied hash

omit [Profile] in
theorem Settled.spreads {live live' : Live} (hsettled : Settled live) (h : Spreads live live') :
    Settled live' := by
  obtain ⟨new, htrace, hnodup, hnew⟩ := h.trace
  refine ⟨h.state.sound, ?_, ?_⟩
  · rw [htrace, relayedHashes_append]
    refine List.nodup_append.mpr ⟨hsettled.once, hnodup, ?_⟩
    rintro hash hmem _ hmem' rfl
    exact (hnew hash hmem').1 (hsettled.sound.applied_stored (hsettled.applied hash hmem))
  · intro hash hmem
    rw [htrace, relayedHashes_append] at hmem
    rcases List.mem_append.mp hmem with hmem | hmem
    · exact h.state.applied hash (hsettled.applied hash hmem)
    · exact (hnew hash hmem).2

section Hashes

variable (hsha : Set.InjOn BlockHeader.blockHash H)
  (hzero : ∀ header ∈ H, header.blockHash ≠ BlockHash.default)

include hsha hzero

theorem Handles.spreads {live live' : Live} (hs : live.server.state.Sound)
    (h : Handles H live live') : Spreads live live' := by
  obtain ⟨w, event, r, hevent, hH⟩ := h
  exact handleEvent_spreads hsha hzero event hs hH hevent

theorem Runs.settled {options : ServerOptions} {miner : Option Miner} {live : Live}
    (hstate : options.state.Reachable) (h : Runs H options miner live) : Settled live := by
  induction h with
  | refl => exact ⟨hstate.sound, List.nodup_nil, fun hash hmem => (nomatch hmem)⟩
  | tail _ hstep ih => exact ih.spreads (hstep.spreads hsha hzero ih.sound)

end Hashes

/-- In a run whose headers have different hashes other than zero, no block is relayed twice. What
an event relays was unknown when the event began and has been accepted before it is relayed. -/
theorem blocks_relayed_once (options : ServerOptions) (miner : Option Miner)
    (hstate : options.state.Reachable) (H : Set BlockHeader)
    (hsha : Set.InjOn BlockHeader.blockHash H)
    (hzero : ∀ header ∈ H, header.blockHash ≠ BlockHash.default) (live live' : Live)
    (hrun : Runs H options miner live) (hevent : Handles H live live') :
    (relayedHashes live'.trace).Nodup ∧ Gossips live live' ∧
      ∃ new, live'.trace = live.trace ++ new ∧
        ∀ hash ∈ relayedHashes new, ¬ live.Knows hash ∧ live'.server.state.Applied hash := by
  have hsettled := hrun.settled hsha hzero hstate
  have hspreads := hevent.spreads hsha hzero hsettled.sound
  obtain ⟨new, htrace, -, hnew⟩ := hspreads.trace
  exact ⟨(hsettled.spreads hspreads).once, hspreads.steps, new, htrace, hnew⟩

end Runs

end Server

end Relaying

section TwiceAnnounced

open NodeState

attribute [local instance] sampleCrypto sampleProfile

def announceGenesis (live : Live) : Option (Live × Res ServerError Outcome) :=
  Server.handleEvent (.peerMessage none (.announceBlock sampleGenesis))
    Server.blocklessWorld live

/-- The server after genesis has been announced to it. -/
def genesisAnnounced (live : Live) : Live := ((announceGenesis live).map Prod.fst).getD live

def announcedOnce : Live := genesisAnnounced (.start (.new (plainOptions .new)))

theorem genesisAnnounced_handles (H : Set BlockHeader) (live : Live)
    (h : (announceGenesis live).isSome = true) : Server.Handles H live (genesisAnnounced live) := by
  obtain ⟨result, hresult⟩ := Option.isSome_iff_exists.mp h
  refine ⟨Server.blocklessWorld, .peerMessage none (.announceBlock sampleGenesis),
    result.2, ?_, Set.empty_subset H⟩
  rw [genesisAnnounced, hresult]
  exact hresult

/-- The second announcement is not relayed. -/
theorem genesis_relayed_once :
    let H : Set BlockHeader := {sampleGenesis.header, sampleBlock.header}
    Server.Runs H (plainOptions .new) none announcedOnce ∧
    Server.Handles H announcedOnce (genesisAnnounced announcedOnce) ∧
    (relayedHashes (genesisAnnounced announcedOnce).trace).Nodup ∧
    relayedHashes announcedOnce.trace = [sampleGenesis.header.blockHash] := by
  intro H
  have hfirst : Server.Handles H (.start (.new (plainOptions .new))) announcedOnce :=
    genesisAnnounced_handles H _ (by decide +kernel)
  have hsecond : Server.Handles H announcedOnce (genesisAnnounced announcedOnce) :=
    genesisAnnounced_handles H _ (by decide +kernel)
  have hne : sampleGenesis.header.blockHash ≠ sampleBlock.header.blockHash := by decide +kernel
  have hsha : Set.InjOn BlockHeader.blockHash H := by
    rintro a (rfl | rfl) b (rfl | rfl) heq
    · rfl
    · exact absurd heq hne
    · exact absurd heq.symm hne
    · rfl
  have hzero : ∀ header ∈ H, header.blockHash ≠ BlockHash.default := by
    rintro header (rfl | rfl)
    · decide +kernel
    · decide +kernel
  have honce := Server.blocks_relayed_once (plainOptions .new) none .refl H hsha hzero _ _
    (.single hfirst) hsecond
  exact ⟨.single hfirst, hsecond, honce.1, by decide +kernel⟩

end TwiceAnnounced

end Wobble
