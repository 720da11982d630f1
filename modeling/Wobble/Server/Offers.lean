import Wobble.Node.SupplyCap
import Wobble.Server.SaveSuccess

namespace Wobble

open Rust Io

variable [Crypto]

namespace NodeState

variable {s s' t : NodeState} {block : Block} {n : Nat}

/-- The best tip and the set of pending transactions are as before. -/
def SameWork (s s' : NodeState) : Prop :=
  s'.chain.bestTip = s.chain.bestTip ∧ mempoolTxids s'.mempool = mempoolTxids s.mempool

/-- A block that is refused leaves the coins and the pending transactions. -/
theorem Sound.acceptBlock_refused (hs : s.Sound) {fault : Fault NodeStateError}
    (herror : (s.acceptBlock block).2 = .error fault) :
    (s.acceptBlock block).1.activeUtxos = s.activeUtxos ∧
      (s.acceptBlock block).1.mempool = s.mempool := by
  have hacc := hs.acceptBlock_accepts block
  generalize s.acceptBlock block = result at hacc herror
  cases hacc with
  | rejected e => exact ⟨rfl, rfl⟩
  | unapplied entry t e hi hn he =>
    cases hi with
    | known hv hg => exact ⟨rfl, rfl⟩
    | added hv hg hl => exact ⟨rfl, rfl⟩
  | side entry t t' u hi hv ht => cases herror
  | tip entry t t' u pool hi hv ht hp => cases herror

/-- Every indexed block is below this height. -/
def HeightsBelow (s : NodeState) (n : Nat) : Prop := ∀ h e, s.chain.get h = some e → e.height < n

omit [Crypto] in
theorem HeightsBelow.mono {m : Nat} (h : s.HeightsBelow n) (hnm : n ≤ m) : s.HeightsBelow m :=
  fun hash e he => (h hash e he).trans_le hnm

omit [Crypto] in
theorem HeightsBelow.of_chain (h : s.HeightsBelow n) (hc : t.chain = s.chain) :
    t.HeightsBelow n := by
  intro hash e he
  rw [hc] at he
  exact h hash e he

theorem HeightsBelow.indexed {entry : ChainIndexEntry} (h : s.HeightsBelow n)
    (hi : s.Indexed block entry t) : t.HeightsBelow (n + 1) := by
  cases hi with
  | known hv hg => exact h.mono (Nat.le_succ n)
  | added hv hg hl =>
    intro hash e he
    have hentry : entry.height < n + 1 := by
      cases hl with
      | genesis work hempty hp hwork => exact Nat.succ_pos n
      | child parent work hp hwork hle => exact Nat.succ_lt_succ (h _ _ hp)
    change (s.chain.extend entry).get hash = some e at he
    rw [s.chain.get_extend] at he
    split_ifs at he
    · cases he
      exact hentry
    · exact (h hash e he).trans (Nat.lt_succ_self n)

theorem HeightsBelow.acceptBlock (hs : s.Sound) (h : s.HeightsBelow n) (block : Block) :
    (s.acceptBlock block).1.HeightsBelow (n + 1) := by
  have hacc := hs.acceptBlock_accepts block
  generalize s.acceptBlock block = result at hacc
  cases hacc with
  | rejected e => exact h.mono (Nat.le_succ n)
  | unapplied entry t e hi hn he => exact h.indexed hi
  | side entry t t' u hi hv ht => exact (h.indexed hi).of_chain hv.chain
  | tip entry t t' u pool hi hv ht hp => exact (h.indexed hi).of_chain hv.chain

theorem HeightsBelow.totalValue_le (hs : s.Sound) (h : s.HeightsBelow n) :
    s.activeUtxos.totalValue ≤ blockSubsidy.toNat * n := by
  rcases hs.active with hnew | ⟨hash, hu⟩
  · rw [hnew, UtxoSet.totalValue_new]
    exact Nat.zero_le _
  · obtain ⟨e, b, v, he, -⟩ := hs.views hash _ hu
    calc s.activeUtxos.totalValue ≤ blockSubsidy.toNat * (e.height + 1) :=
          hs.view_totalValue_le hash e _ he hu
      _ ≤ blockSubsidy.toNat * n := Nat.mul_le_mul_left _ (h hash e he)

/-- The forward loop of a sync: known blocks are passed over, and a refused one ends it. -/
def takeIn : List Block → NodeState → NodeState
  | [], s => s
  | block :: rest, s =>
    if (s.getBlock block.header.blockHash).isSome then takeIn rest s else
    match s.acceptBlock block with
    | (s', .ok ()) => takeIn rest s'
    | (s', .error _) => s'

theorem takeIn_known (rest : List Block)
    (h : (s.getBlock block.header.blockHash).isSome = true) :
    s.takeIn (block :: rest) = s.takeIn rest := by
  rw [takeIn, if_pos h]

theorem takeIn_ok (rest : List Block) (hn : s.getBlock block.header.blockHash = none)
    (h : (s.acceptBlock block).2 = .ok ()) :
    s.takeIn (block :: rest) = (s.acceptBlock block).1.takeIn rest := by
  rw [takeIn, hn, Option.isSome_none, if_neg Bool.false_ne_true]
  generalize s.acceptBlock block = result at h
  obtain ⟨t, r⟩ := result
  cases h
  rfl

theorem takeIn_error (rest : List Block) {fault : Fault NodeStateError}
    (hn : s.getBlock block.header.blockHash = none)
    (h : (s.acceptBlock block).2 = .error fault) :
    s.takeIn (block :: rest) = (s.acceptBlock block).1 := by
  rw [takeIn, hn, Option.isSome_none, if_neg Bool.false_ne_true]
  generalize s.acceptBlock block = result at h
  obtain ⟨t, r⟩ := result
  cases h
  rfl

theorem Sound.takeIn (hs : s.Sound) (blocks : List Block) (h : s.HeightsBelow n) :
    (s.takeIn blocks).Sound ∧ (s.takeIn blocks).HeightsBelow (n + blocks.length) := by
  induction blocks generalizing s n with
  | nil => exact ⟨hs, h⟩
  | cons block rest ih =>
    have hlen : n + (block :: rest).length = n + 1 + rest.length := by
      rw [List.length_cons]
      omega
    rw [hlen]
    cases hget : s.getBlock block.header.blockHash with
    | some known =>
      rw [takeIn_known rest (by rw [hget]; rfl)]
      exact ih hs (h.mono (Nat.le_succ n))
    | none =>
      have hnext := h.acceptBlock hs block
      cases hacc : (s.acceptBlock block).2 with
      | ok u =>
        rw [takeIn_ok rest hget hacc]
        exact ih (hs.acceptBlock block) hnext
      | error fault =>
        rw [takeIn_error rest hget hacc]
        exact ⟨hs.acceptBlock block, hnext.mono (Nat.le_add_right _ _)⟩

end NodeState

/-- The blocks a peer may answer to a sync that goes back from a hash, newest first. -/
inductive World.Brings (w : World) (addr : Text) (s : NodeState) : BlockHash → List Block → Prop where
  | known (hash : BlockHash) (hk : (s.getBlock hash).isSome = true) : Brings w addr s hash []
  | root (hash : BlockHash) (time : Nat) (session : PeerSession) (block : Block)
      (hb : w.requestBlock time session addr hash = .ok (some block))
      (hp : block.header.prevBlockhash = BlockHash.default) : Brings w addr s hash [block]
  | child (hash : BlockHash) (time : Nat) (session : PeerSession) (block : Block)
      (rest : List Block) (hb : w.requestBlock time session addr hash = .ok (some block))
      (hrest : Brings w addr s block.header.prevBlockhash rest) : Brings w addr s hash (block :: rest)

/-- The tips a peer may answer to a request for it. -/
def World.tips (w : World) (addr : Text) : Set BlockHash :=
  { tip | ∃ time session summary, w.requestTip time session addr = .ok summary ∧
    summary.tip = some tip }

/-- What a sync to one of the tips may make of a state. -/
inductive World.Syncs (w : World) (addr : Text) (tips : Set BlockHash) (s : NodeState) :
    NodeState → Prop where
  | idle : Syncs w addr tips s s
  | walked (tip : BlockHash) (missing : List Block) (htip : tip ∈ tips)
      (hb : w.Brings addr s tip missing) (hlen : missing.length ≤ w.rounds) :
      Syncs w addr tips s (s.takeIn missing.reverse)

theorem World.Syncs.sound {w : World} {addr : Text} {tips : Set BlockHash} {s s' : NodeState}
    {n : Nat} (h : w.Syncs addr tips s s') (hs : s.Sound) (hn : s.HeightsBelow n) :
    s'.Sound ∧ s'.HeightsBelow (n + w.rounds) := by
  cases h with
  | idle => exact ⟨hs, hn.mono (Nat.le_add_right _ _)⟩
  | walked tip missing htip hb hlen =>
    obtain ⟨hsound, hbelow⟩ := hs.takeIn missing.reverse hn
    rw [List.length_reverse] at hbelow
    exact ⟨hsound, hbelow.mono (Nat.add_le_add_left hlen n)⟩

theorem World.Syncs.mono {w : World} {addr : Text} {tips tips' : Set BlockHash} {s s' : NodeState}
    (h : w.Syncs addr tips s s') (ht : tips ⊆ tips') : w.Syncs addr tips' s s' := by
  cases h with
  | idle => exact .idle
  | walked tip missing htip hb hlen => exact .walked tip missing (ht htip) hb hlen

namespace Server

variable {w : World} {live live' : Live} {ε α : Type}

theorem requestFromPeer_answered {peer : PeerEndpoint}
    {request : World → Nat → PeerSession → Except RequestError α} {a : α}
    (h : requestFromPeer peer request w live = some (live', .ok a)) :
    ∃ time session, request w time session = .ok a := by
  obtain ⟨live₁, session, -, h⟩ := (bind_eq_ok _ _ _ _ _ _).mp h
  obtain ⟨live₂, answer, hanswer, h⟩ := (bind_eq_ok _ _ _ _ _ _).mp h
  cases hanswer
  dsimp only at h
  cases hfirst : request w live₁.clock session with
  | ok b =>
    rw [hfirst] at h
    cases h
    exact ⟨_, _, hfirst⟩
  | error e =>
    rw [hfirst] at h
    obtain ⟨live₃, u, -, h⟩ := (bind_eq_ok _ _ _ _ _ _).mp h
    obtain ⟨live₄, session', -, h⟩ := (bind_eq_ok _ _ _ _ _ _).mp h
    obtain ⟨live₅, answer, hanswer, h⟩ := (bind_eq_ok _ _ _ _ _ _).mp h
    cases hanswer
    dsimp only at h
    cases hsecond : request w live₄.clock session' with
    | ok b =>
      rw [hsecond] at h
      cases h
      exact ⟨_, _, hsecond⟩
    | error e' =>
      rw [hsecond] at h
      cases h

theorem requestTipFromPeer_answered {peer : PeerEndpoint} {summary : TipSummary}
    (h : requestTipFromPeer peer w live = some (live', .ok summary)) :
    ∃ time session, w.requestTip time session peer.addr = .ok summary := by
  obtain ⟨live₁, answer, hanswer, h⟩ := (bind_eq_ok _ _ _ _ _ _).mp h
  obtain ⟨live₂, server, -, h⟩ := (bind_eq_ok _ _ _ _ _ _).mp h
  obtain ⟨live₃, now, -, h⟩ := (bind_eq_ok _ _ _ _ _ _).mp h
  dsimp only at h
  have hsame : answer = summary := by
    split at h
    · obtain ⟨live₄, u, -, h⟩ := (bind_eq_ok _ _ _ _ _ _).mp h
      cases h
      rfl
    · obtain ⟨live₄, u, -, h⟩ := (bind_eq_ok _ _ _ _ _ _).mp h
      cases h
      rfl
  rw [hsame] at hanswer
  exact requestFromPeer_answered hanswer

theorem fetchMissing_brings {peer : PeerEndpoint} (rounds : Nat) {hash : BlockHash}
    {missing : List Block} (h : fetchMissing peer rounds hash w live = some (live', .ok missing)) :
    w.Brings peer.addr live.server.state hash missing ∧ missing.length ≤ rounds := by
  induction rounds generalizing hash live missing with
  | zero => cases h
  | succ rounds ih =>
    rw [fetchMissing, self_bind] at h
    split at h
    next hk =>
      cases h
      exact ⟨.known hash hk, Nat.zero_le _⟩
    obtain ⟨live₁, u, hemit, h⟩ := (bind_eq_ok _ _ _ _ _ _).mp h
    obtain ⟨live₂, answer, hanswer, h⟩ := (bind_eq_ok _ _ _ _ _ _).mp h
    obtain ⟨time, session, hrequest⟩ := requestFromPeer_answered hanswer
    have hstate : live₂.server.state = live.server.state := by
      have hasked := requestFromPeer_keeps .sameButPeers peer _ _ _ _ _ hanswer
      cases hemit
      exact hasked.state
    cases answer with
    | none => cases h
    | some block =>
      dsimp only at h
      split at h
      next hp =>
        cases h
        exact ⟨.root hash time session block hrequest hp, Nat.succ_le_succ (Nat.zero_le _)⟩
      next =>
        obtain ⟨live₃, older, holder, h⟩ := (bind_eq_ok _ _ _ _ _ _).mp h
        cases h
        obtain ⟨hbrings, hlen⟩ := ih holder
        rw [hstate] at hbrings
        exact ⟨.child hash time session block older hrequest hbrings, Nat.succ_le_succ hlen⟩

/-- Of the blocks fetched, those are taken in that `takeIn` takes. -/
theorem SyncsBlocks.takesIn {blocks : List Block} {r : Res SyncError (List Block)}
    (hw : w.Writes) (hs : live.server.state.Sound) (hr : live.StoreReadable)
    (h : SyncsBlocks w blocks live live' r) :
    live'.server.state = live.server.state.takeIn blocks ∧ live'.StoreReadable := by
  induction h with
  | nil live => exact ⟨rfl, hr⟩
  | stopped block rest live live' e hblock =>
    generalize hx : (.error e : Res SyncError (Option Block)) = x at hblock
    cases hblock with
    | known hk => cases hx
    | rejected fault hn ha => exact ⟨(NodeState.takeIn_error rest hn ha).symm, hr⟩
    | accepted _ saved hn ha hp =>
      obtain ⟨rfl, -⟩ := savesBlock_saved hw hs hr _ ha (hs.acceptBlock block).pool
        (.synced _ _) hp
      cases hx
  | next block rest live middle live' accepted r hblock hrest ih =>
    generalize hx : (.ok accepted : Res SyncError (Option Block)) = x at hblock
    cases hblock with
    | known hk =>
      rw [NodeState.takeIn_known rest hk]
      exact ih hs hr
    | rejected fault hn ha =>
      cases fault <;> cases hx
    | accepted _ saved hn ha hp =>
      obtain ⟨-, hstate, hmiddle⟩ := savesBlock_saved hw hs hr _ ha (hs.acceptBlock block).pool
        (.synced _ _) hp
      rw [NodeState.takeIn_ok rest hn ha]
      have hstate' : middle.server.state = (live.server.state.acceptBlock block).1 := hstate
      rw [← hstate']
      exact ih (hstate' ▸ hs.acceptBlock block) hmiddle

theorem SyncsTo.syncs {peer : PeerEndpoint} {summary : TipSummary}
    {r : Res SyncError (List Block)} (hw : w.Writes) (hs : live.server.state.Sound)
    (hr : live.StoreReadable) (h : SyncsTo w peer summary live live' r) :
    w.Syncs peer.addr { tip | summary.tip = some tip } live.server.state live'.server.state ∧
      live'.StoreReadable := by
  cases h with
  | idle => exact ⟨.idle, hr⟩
  | unfetched tip _ e hf =>
    have hsame := fetchMissing_keeps .sameButPeers _ _ _ _ _ _ _ hf
    rw [hsame.state]
    exact ⟨.idle, hsame.storeReadable hr⟩
  | fetched tip fetched _ missing r htip hf hb =>
    have hsame := fetchMissing_keeps .sameButPeers _ _ _ _ _ _ _ hf
    obtain ⟨hbrings, hlen⟩ := fetchMissing_brings _ hf
    obtain ⟨hstate, hr'⟩ := hb.takesIn hw (hsame.state ▸ hs) (hsame.storeReadable hr)
    rw [hstate, hsame.state]
    exact ⟨.walked tip missing htip hbrings hlen, hr'⟩

theorem SyncsInner.syncs {peer : PeerEndpoint} {r : Res SyncError (List Block)} (hw : w.Writes)
    (hs : live.server.state.Sound) (hr : live.StoreReadable) (h : SyncsInner w peer live live' r) :
    w.Syncs peer.addr (w.tips peer.addr) live.server.state live'.server.state ∧
      live'.StoreReadable := by
  cases h with
  | unasked _ e ht =>
    have hsame := requestTipFromPeer_keeps .sameButPeers _ _ _ _ _ ht
    rw [hsame.state]
    exact ⟨.idle, hsame.storeReadable hr⟩
  | asked asked _ summary r ht hsync =>
    have hsame := requestTipFromPeer_keeps .sameButPeers _ _ _ _ _ ht
    obtain ⟨time, session, hanswer⟩ := requestTipFromPeer_answered ht
    obtain ⟨hsyncs, hr'⟩ := hsync.syncs hw (hsame.state ▸ hs) (hsame.storeReadable hr)
    rw [hsame.state] at hsyncs
    exact ⟨hsyncs.mono fun tip htip => ⟨time, session, summary, hanswer, htip⟩, hr'⟩

theorem SyncsFrom.syncs {peer : PeerEndpoint} {r : Res ε (Except SyncError (List Block))}
    (hw : w.Writes) (hs : live.server.state.Sound) (hr : live.StoreReadable)
    (h : SyncsFrom w peer live live' r) :
    w.Syncs peer.addr (w.tips peer.addr) live.server.state live'.server.state ∧
      live'.StoreReadable := by
  have hmarked := live.marked_same peer.addr .syncing
  cases h with
  | panicked _ m hinner =>
    obtain ⟨hsyncs, hr'⟩ := hinner.syncs hw (hmarked.state ▸ hs) (hmarked.storeReadable hr)
    rw [hmarked.state] at hsyncs
    exact ⟨hsyncs, hr'⟩
  | ended synced result hinner =>
    obtain ⟨hsyncs, hr'⟩ := hinner.syncs hw (hmarked.state ▸ hs) (hmarked.storeReadable hr)
    have hidle := synced.marked_same peer.addr .idle
    rw [hmarked.state, ← hidle.state] at hsyncs
    exact ⟨hsyncs, hidle.storeReadable hr'⟩

/-- One peer is turned to at most. -/
theorem selectSyncPeers_length {peers : List PeerEndpoint}
    (h : (selectSyncPeers : ServerIo ε _) w live = some (live', .ok peers)) : peers.length ≤ 1 := by
  obtain ⟨live₁, server, -, h⟩ := (bind_eq_ok _ _ _ _ _ _).mp h
  obtain ⟨live₂, best, -, h⟩ := (bind_eq_ok _ _ _ _ _ _).mp h
  cases best with
  | some best =>
    cases h
    exact le_refl _
  | none =>
    obtain ⟨live₃, fallback, -, h⟩ := (bind_eq_ok _ _ _ _ _ _).mp h
    cases h
    cases fallback with
    | none => exact Nat.zero_le _
    | some peer => exact le_refl _

theorem SyncsPeers.heights {peers : List PeerEndpoint} {r : Res ε Unit} {n : Nat} (hw : w.Writes)
    (hs : live.server.state.Sound) (hr : live.StoreReadable)
    (hn : live.server.state.HeightsBelow n) (h : SyncsPeers w peers live live' r) :
    live'.server.state.HeightsBelow (n + peers.length * w.rounds) := by
  induction h generalizing n with
  | nil live => exact hn.mono (Nat.le_add_right _ _)
  | panicked peer rest live live' m hfrom =>
    obtain ⟨hsyncs, -⟩ := hfrom.syncs hw hs hr
    refine (hsyncs.sound hs hn).2.mono ?_
    rw [List.length_cons, Nat.succ_mul]
    omega
  | unnoted peer rest live synced live' e m hfrom hf =>
    obtain ⟨hsyncs, -⟩ := hfrom.syncs hw hs hr
    have hsame := recordPeerConnectFailure_keeps .sameButPeers _ _ _ _ _ _ hf
    rw [hsame.state]
    refine (hsyncs.sound hs hn).2.mono ?_
    rw [List.length_cons, Nat.succ_mul]
    omega
  | failed peer rest live synced noted live' e x r hfrom hf hrest ih =>
    obtain ⟨hsyncs, hr'⟩ := hfrom.syncs hw hs hr
    have hsame := recordPeerConnectFailure_keeps .sameButPeers _ _ _ _ _ _ hf
    obtain ⟨hsound, hbelow⟩ := hsyncs.sound hs hn
    rw [← hsame.state] at hsound hbelow
    refine (ih hsound (hsame.storeReadable hr') hbelow).mono ?_
    rw [List.length_cons, Nat.succ_mul]
    omega
  | next peer rest live synced live' blocks r hfrom hrest ih =>
    obtain ⟨hsyncs, hr'⟩ := hfrom.syncs hw hs hr
    obtain ⟨hsound, hbelow⟩ := hsyncs.sound hs hn
    refine (ih hsound hr' hbelow).mono ?_
    rw [List.length_cons, Nat.succ_mul]
    omega

theorem SyncsKnown.heights {r : Res ε Unit} {n : Nat} (hw : w.Writes)
    (hs : live.server.state.Sound) (hr : live.StoreReadable)
    (hn : live.server.state.HeightsBelow n) (h : SyncsKnown w live live' r) :
    live'.server.state.HeightsBelow (n + w.rounds) := by
  cases h with
  | unselected _ e hselect =>
    have hsame := selectSyncPeers_keeps .sameButPeers _ _ _ _ hselect
    rw [hsame.state]
    exact hn.mono (Nat.le_add_right _ _)
  | selected selected _ peers r hselect hsync =>
    have hsame := selectSyncPeers_keeps .sameButPeers _ _ _ _ hselect
    have hbelow := hsync.heights hw (hsame.state ▸ hs) (hsame.storeReadable hr) (hsame.state ▸ hn)
    refine hbelow.mono (Nat.add_le_add_left ?_ n)
    calc peers.length * w.rounds ≤ 1 * w.rounds :=
          Nat.mul_le_mul_right _ (selectSyncPeers_length hselect)
      _ = w.rounds := Nat.one_mul _

end Server

namespace NodeState

/-- The block is accepted, or it leaves the best tip and the pending transactions. -/
def Settles (s : NodeState) (block : Block) : Prop :=
  (s.acceptBlock block).2 = .ok () ∨ s.SameWork (s.acceptBlock block).1

/-- The same of the block after a sync from the peer. -/
def SettlesSynced (w : World) (addr : Text) (s : NodeState) (block : Block) : Prop :=
  ∀ tip ∈ w.tips addr, ∀ missing, w.Brings addr s tip missing →
    ((s.takeIn missing.reverse).acceptBlock block).2 = .ok () ∨
      s.SameWork ((s.takeIn missing.reverse).acceptBlock block).1

variable [Profile]

/-- The same of a block that is mined for a request. -/
def SettlesMined (s : NodeState) (request : MinePendingRequest) : Prop :=
  ∀ s' fault, s.minePending request = some (s', .error fault) → s.SameWork s'

/-- The same of the blocks that are mined one after the other for an operator. -/
def SettlesBootstrap (publicKey : Bytes) (start : UInt32) : List UInt32 → NodeState → Prop
  | [], _ => True
  | offset :: rest, s =>
    s.SettlesMined (Server.bootstrapRequest publicKey start offset) ∧
      ∀ s' replies,
        s.minePending (Server.bootstrapRequest publicKey start offset) = some (s', .ok replies) →
          SettlesBootstrap publicKey start rest s'

end NodeState

namespace ServerEvent

variable [Profile]

/-- Every block that is offered to the node state while the event is handled is accepted, or it
leaves the best tip and the pending transactions. -/
def Settled (w : World) (live : Live) : ServerEvent → Prop
  | .peerMessage origin (.announceBlock block) =>
    live.server.state.Settles block ∧
      ∀ peer, origin.bind (Server.syncPeerFromOrigin w live) = some peer →
        live.server.state.SettlesSynced w peer.addr block
  | .peerMessage _ (.minePending request) => live.server.state.SettlesMined request
  | .adminRequest (.bootstrap publicKey blocks) =>
    live.server.state.SettlesBootstrap publicKey (Server.startUniqueness live.server.state)
      ((List.range blocks.toNat).map UInt32.ofNat)
  | .minedCandidate block =>
    block.header.prevBlockhash = live.server.state.chain.bestTip.getD BlockHash.default →
      live.server.state.Settles block
  | _ => True

end ServerEvent

end Wobble
