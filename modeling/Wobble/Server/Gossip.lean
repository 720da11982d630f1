import Wobble.Node.MinedReward
import Wobble.Server.EventFrame

namespace Wobble

open Rust Io

variable [Crypto]

namespace NodeState

/-- Accepting a block leaves the unspent outputs after it. -/
def Applied (s : NodeState) (hash : BlockHash) : Prop :=
  ∃ view, s.utxoSnapshots.get hash = some view

/-- What is stored stays stored, and what is accepted stays accepted. -/
structure Extends (s s' : NodeState) : Prop where
  sound : s'.Sound
  stored : ∀ h b, s.blocks.get h = some b → s'.blocks.get h = some b
  applied : ∀ h, s.Applied h → s'.Applied h

theorem Extends.trans {s t u : NodeState} (h : s.Extends t) (h' : t.Extends u) : s.Extends u :=
  ⟨h'.sound, fun x b hb => h'.stored x b (h.stored x b hb),
    fun x ha => h'.applied x (h.applied x ha)⟩

def Grows (s s' : NodeState) : Prop := s.Sound → s.Extends s'

theorem Grows.refl (s : NodeState) : s.Grows s := fun hs => ⟨hs, fun _ _ h => h, fun _ h => h⟩

theorem Grows.trans {s t u : NodeState} (h : s.Grows t) (h' : t.Grows u) : s.Grows u :=
  fun hs => (h hs).trans (h' (h hs).sound)

theorem Sound.applied_stored {s : NodeState} (hs : s.Sound) {hash : BlockHash}
    (h : s.Applied hash) : ∃ b, s.getBlock hash = some b := by
  obtain ⟨u, hu⟩ := h
  obtain ⟨e, b, v, -, hb, -⟩ := hs.views hash u hu
  exact ⟨b, hb⟩

theorem Indexed.extends {s t : NodeState} {block : Block} {entry : ChainIndexEntry} (hs : s.Sound)
    (hi : s.Indexed block entry t) : s.Extends t := by
  obtain ⟨-, -, -, hstored, -⟩ := hi.inserted hs
  refine ⟨hi.sound hs, hstored, fun h ha => ?_⟩
  rw [Applied, hi.utxoSnapshots]
  exact ha

theorem Viewed.applied {t t' : NodeState} {entry : ChainIndexEntry} {u : UtxoSet}
    (hv : t.Viewed entry u t') (h : BlockHash) (ha : t.Applied h) : t'.Applied h := by
  cases hv with
  | cached _ hu => exact ha
  | computed b v _ hn hb hp hap =>
    by_cases heq : h = entry.blockHash
    · exact ⟨u, (HashMap.get_insert _ _ _ _).trans (if_pos heq)⟩
    · exact ha.imp fun view hview => (HashMap.get_insert _ _ _ _).trans ((if_neg heq).trans hview)

theorem acceptBlock_grows (s : NodeState) (block : Block) : s.Grows (s.acceptBlock block).1 := by
  intro hs
  have hsound := hs.acceptBlock block
  have hacc := hs.acceptBlock_accepts block
  generalize s.acceptBlock block = result at hacc hsound
  cases hacc with
  | rejected e => exact ⟨hs, fun _ _ h => h, fun _ h => h⟩
  | unapplied entry t e hi hn he => exact hi.extends hs
  | side entry t t' u hi hv ht =>
    have hext := hi.extends hs
    refine ⟨hsound, fun h b hb => ?_, fun h ha => hv.applied h (hext.applied h ha)⟩
    rw [hv.frame.1]
    exact hext.stored h b hb
  | tip entry t t' u pool hi hv ht hp =>
    have hext := hi.extends hs
    refine ⟨hsound, fun h b hb => ?_, fun h ha => hv.applied h (hext.applied h ha)⟩
    change t'.blocks.get h = some b
    rw [hv.frame.1]
    exact hext.stored h b hb

theorem announceTx_grows (s : NodeState) (tx : Transaction) : s.Grows (s.announceTx tx).1 := by
  have hstate : (s.announceTx tx).1 = (s.submitTransaction tx).1 := by
    rw [announceTx]
    split <;> rename_i h <;> rw [h]
  rw [hstate]
  intro hs
  have hframe : (s.submitTransaction tx).1.blocks = s.blocks ∧
      (s.submitTransaction tx).1.utxoSnapshots = s.utxoSnapshots := by
    rw [submitTransaction]
    split <;> exact ⟨rfl, rfl⟩
  refine ⟨hs.submitTransaction tx, fun h b hb => ?_, fun h ha => ?_⟩
  · rw [hframe.1]
    exact hb
  · rw [Applied, hframe.2]
    exact ha

theorem Sound.acceptBlock_applied {s : NodeState} (hs : s.Sound) (block : Block)
    (hok : (s.acceptBlock block).2 = .ok ()) :
    (s.acceptBlock block).1.Applied block.header.blockHash := by
  obtain ⟨entry, b, u, hacc, hhash⟩ := hs.accepted block hok
  exact ⟨u, hhash ▸ hacc.view⟩

variable [Profile]

theorem mineBlock_grows {s s' : NodeState} {subsidy : UInt64} {key : VerifyingKey}
    {uniqueness bits : UInt32} {maxTransactions : Nat} {r : Res NodeStateError BlockHash}
    (h : s.mineBlock subsidy key uniqueness bits maxTransactions = some (s', r)) : s.Grows s' := by
  intro hs
  have hsound := hs.mineBlock _ _ _ _ _ _ h
  rcases mineBlock_cases h with rfl | ⟨block, rfl | ⟨ids, rfl⟩⟩
  · exact Grows.refl _ hs
  · exact s.acceptBlock_grows block hs
  · have hext := s.acceptBlock_grows block hs
    exact ⟨hsound, hext.stored, hext.applied⟩

theorem minePending_grows {s s' : NodeState} {request : MinePendingRequest}
    {r : Res PeerError (List WireMessage)} (h : s.minePending request = some (s', r)) :
    s.Grows s' := by
  rcases minePending_eq_some h with ⟨rfl, -⟩ | ⟨key, mined, -, hmined, -⟩
  · exact .refl _
  · exact mineBlock_grows hmined

end NodeState

/-- The hash of the block a message announces. -/
def WireMessage.announcedHash : WireMessage → Option BlockHash
  | .announceBlock announced => some announced.header.blockHash
  | _ => none

def Effect.relayedHash : Effect → Option BlockHash
  | .relay message _ => message.announcedHash
  | _ => none

/-- The hashes of the blocks `relay_best_effort` was called with, in order. -/
def relayedHashes (trace : List Effect) : List BlockHash := trace.filterMap Effect.relayedHash

theorem relayedHashes_append (a b : List Effect) :
    relayedHashes (a ++ b) = relayedHashes a ++ relayedHashes b := List.filterMap_append

def Live.Knows (live : Live) (hash : BlockHash) : Prop :=
  ∃ block, live.server.state.getBlock hash = some block

/-- Blocks may have been added, and none has been relayed. -/
structure Hush (live live' : Live) : Prop where
  grows : live.server.state.Grows live'.server.state
  trace : ∃ new, live'.trace = live.trace ++ new ∧ relayedHashes new = []

instance : IsPreorder Live Hush where
  refl live := ⟨.refl _, [], (List.append_nil _).symm, rfl⟩
  trans _ _ _ h h' := by
    obtain ⟨new, htrace, hnew⟩ := h.trace
    obtain ⟨new', htrace', hnew'⟩ := h'.trace
    refine ⟨h.grows.trans h'.grows, new ++ new', ?_, ?_⟩
    · rw [htrace', htrace, List.append_assoc]
    · rw [relayedHashes_append, hnew, hnew', List.append_nil]

/-- A block that has been accepted is relayed. -/
inductive Tell (live : Live) : Live → Prop where
  | block (block : Block) (origin : Option PeerAddr)
      (ha : live.server.state.Applied block.header.blockHash) :
      Tell live (live.sends (.relay (.announceBlock block) origin))

/-- Whenever a block is relayed on the way, it has been accepted before. -/
def Gossips : Live → Live → Prop :=
  Relation.ReflTransGen fun live live' => Hush live live' ∨ Tell live live'

theorem Hush.gossips {live live' : Live} (h : Hush live live') : Gossips live live' :=
  .single (.inl h)

/-- Only blocks with these hashes are relayed, each at most once, and nothing is stored. -/
structure Tells (hashes : List BlockHash) (live live' : Live) : Prop where
  state : live'.server.state = live.server.state
  steps : Gossips live live'
  trace : ∃ new, live'.trace = live.trace ++ new ∧ (relayedHashes new).Sublist hashes

namespace Tells

variable {hashes hashes' : List BlockHash} {a b c : Live}

theorem trans (h : Tells hashes a b) (h' : Tells hashes' b c) : Tells (hashes ++ hashes') a c := by
  obtain ⟨new, htrace, hnew⟩ := h.trace
  obtain ⟨new', htrace', hnew'⟩ := h'.trace
  refine ⟨h'.state.trans h.state, h.steps.trans h'.steps, new ++ new', ?_, ?_⟩
  · rw [htrace', htrace, List.append_assoc]
  · rw [relayedHashes_append]
    exact hnew.append hnew'

theorem mono (h : Tells hashes a b) (hsub : hashes.Sublist hashes') : Tells hashes' a b := by
  obtain ⟨new, htrace, hnew⟩ := h.trace
  exact ⟨h.state, h.steps, new, htrace, hnew.trans hsub⟩

theorem applied (h : Tells hashes a b) (hash : BlockHash) (ha : a.server.state.Applied hash) :
    b.server.state.Applied hash := by
  rw [h.state]
  exact ha

/-- A silent change that leaves the state alone. -/
theorem of_state (hs : b.server.state = a.server.state) (ht : b.trace = a.trace) :
    Tells [] a b := by
  have htrace : ∃ new, b.trace = a.trace ++ new ∧ relayedHashes new = [] :=
    ⟨[], ht.trans (List.append_nil _).symm, rfl⟩
  obtain ⟨new, hnew, hnil⟩ := htrace
  refine ⟨hs, Hush.gossips ⟨hs ▸ .refl _, new, hnew, hnil⟩, new, hnew, ?_⟩
  rw [hnil]

/-- One effect, which is either no relay of a block or the relay of an accepted one. -/
theorem sends (live : Live) (effect : Effect)
    (h : ∀ message origin block, effect = .relay message origin → message = .announceBlock block →
      live.server.state.Applied block.header.blockHash) :
    Tells effect.relayedHash.toList live (live.sends effect) := by
  have hhashes : relayedHashes [effect] = effect.relayedHash.toList := by
    rw [relayedHashes]
    cases hr : effect.relayedHash <;> simp [hr]
  refine ⟨rfl, ?_, [effect], rfl, hhashes ▸ .refl _⟩
  cases hr : effect.relayedHash with
  | none => exact Hush.gossips ⟨.refl _, [effect], rfl, hhashes.trans (by rw [hr]; rfl)⟩
  | some hash =>
    refine .single (.inr ?_)
    cases effect with
    | relay message origin =>
      cases message with
      | announceBlock block => exact .block block origin (h _ _ _ rfl rfl)
      | _ => cases hr
    | _ => cases hr

end Tells

instance : IsPreorder Live (Tells []) where
  refl _ := .of_state rfl rfl
  trans _ _ _ h h' := h.trans h'

/-- Everything besides relays and calls on the node state. -/
theorem EventFrame.tells : EventFrame (Tells []) where
  quiet _ _ h := .of_state h.1.state h.2
  requests live peer hash := Tells.sends live (.requestBlock peer hash) fun _ _ _ h => (nomatch h)
  announces live addr message :=
    Tells.sends live (.announce addr message) fun _ _ _ h => (nomatch h)
  stores _ _ := .of_state rfl rfl
  mines _ _ h := .of_state h.same.server.1 h.same.2.2
  bootstraps _ := .of_state rfl rfl

theorem Tells.hush {live live' : Live} (h : Tells [] live live') : Hush live live' := by
  obtain ⟨new, htrace, hnew⟩ := h.trace
  exact ⟨h.state ▸ .refl _, new, htrace, List.sublist_nil.mp hnew⟩

theorem EventFrame.hush : EventFrame Hush where
  quiet _ _ h := (EventFrame.tells.quiet _ _ h).hush
  requests _ _ _ := (EventFrame.tells.requests _ _ _).hush
  announces _ _ _ := (EventFrame.tells.announces _ _ _).hush
  stores _ _ := (EventFrame.tells.stores _ _).hush
  mines _ _ h := (EventFrame.tells.mines _ _ h).hush
  bootstraps _ := (EventFrame.tells.bootstraps _).hush

theorem StateFrame.hush [Profile] : StateFrame Hush where
  announceTx live tx :=
    ⟨live.server.state.announceTx_grows tx, [], (List.append_nil _).symm, rfl⟩
  acceptBlock live block :=
    ⟨live.server.state.acceptBlock_grows block, [], (List.append_nil _).symm, rfl⟩
  minePending _ _ _ _ h :=
    ⟨NodeState.minePending_grows h, [], (List.append_nil _).symm, rfl⟩

/-- What the server has stored stays; a block that has been relayed was unknown before, has been
accepted before it was relayed, and has been relayed once. -/
structure Spreads (live live' : Live) : Prop where
  state : live.server.state.Extends live'.server.state
  steps : Gossips live live'
  trace : ∃ new, live'.trace = live.trace ++ new ∧ (relayedHashes new).Nodup ∧
    ∀ hash ∈ relayedHashes new, ¬ live.Knows hash ∧ live'.server.state.Applied hash

theorem Spreads.trans {a b c : Live} (h : Spreads a b) (h' : Spreads b c) : Spreads a c := by
  obtain ⟨new, htrace, hnodup, hnew⟩ := h.trace
  obtain ⟨new', htrace', hnodup', hnew'⟩ := h'.trace
  refine ⟨h.state.trans h'.state, h.steps.trans h'.steps, new ++ new', ?_, ?_, ?_⟩
  · rw [htrace', htrace, List.append_assoc]
  · rw [relayedHashes_append]
    refine List.nodup_append.mpr ⟨hnodup, hnodup', ?_⟩
    rintro hash hmem _ hmem' rfl
    exact (hnew' hash hmem').1 (h.state.sound.applied_stored (hnew hash hmem).2)
  · intro hash hmem
    rw [relayedHashes_append] at hmem
    rcases List.mem_append.mp hmem with hmem | hmem
    · exact ⟨(hnew hash hmem).1, h'.state.applied hash (hnew hash hmem).2⟩
    · exact ⟨fun hk => (hnew' hash hmem).1 (hk.imp fun x hx => h.state.stored _ _ hx),
        (hnew' hash hmem).2⟩

theorem Hush.spreads {live live' : Live} (h : Hush live live') (hs : live.server.state.Sound) :
    Spreads live live' := by
  obtain ⟨new, htrace, hnew⟩ := h.trace
  refine ⟨h.grows hs, h.gossips, new, htrace, ?_, ?_⟩
  · rw [hnew]
    exact List.nodup_nil
  · intro hash hmem
    rw [hnew] at hmem
    cases hmem

/-- New blocks are accepted first and relayed afterwards. -/
theorem Hush.spreads_of_tells {live middle live' : Live} {hashes : List BlockHash}
    (h : Hush live middle) (hs : live.server.state.Sound) (ht : Tells hashes middle live')
    (hn : hashes.Nodup)
    (hnew : ∀ hash ∈ hashes, ¬ live.Knows hash ∧ middle.server.state.Applied hash) :
    Spreads live live' := by
  obtain ⟨new, htrace, hnone⟩ := h.trace
  obtain ⟨new', htrace', hsub⟩ := ht.trace
  have hhashes : relayedHashes (new ++ new') = relayedHashes new' := by
    rw [relayedHashes_append, hnone, List.nil_append]
  refine ⟨ht.state ▸ h.grows hs, h.gossips.trans ht.steps, new ++ new', ?_, ?_, ?_⟩
  · rw [htrace', htrace, List.append_assoc]
  · rw [hhashes]
    exact hn.sublist hsub
  · intro hash hmem
    rw [hhashes] at hmem
    obtain ⟨hunknown, happlied⟩ := hnew hash (hsub.subset hmem)
    exact ⟨hunknown, ht.applied hash happlied⟩

end Wobble
