import Mathlib.Data.Fintype.Vector
import Wobble.Framework.Walk
import Wobble.Server.Network

namespace Wobble

open Rust Io

theorem blockHash_finite : Finite BlockHash := by
  have hbyte : Finite UInt8 := Finite.of_injective UInt8.toFin fun a b h => UInt8.toFin_inj.mp h
  exact Finite.of_injective BlockHash.bytes fun a b h => by
    cases a
    cases b
    cases h
    rfl

/-- The peer's answer to a block request is a function of the hash. -/
def World.AnswersBlocks (w : World) (answer : BlockHash → Except RequestError (Option Block)) :
    Prop :=
  ∀ time session addr hash, w.requestBlock time session addr hash = answer hash

/-- The hash the backward walk turns to after `hash`, if it goes on. -/
def nextHash (state : NodeState) (answer : BlockHash → Except RequestError (Option Block))
    (hash : BlockHash) : Option BlockHash :=
  if (state.getBlock hash).isSome then none
  else match answer hash with
    | .ok (some block) =>
      if block.header.prevBlockhash = BlockHash.default then none
      else some block.header.prevBlockhash
    | _ => none

theorem nextHash_eq_some {state : NodeState}
    {answer : BlockHash → Except RequestError (Option Block)} {hash next : BlockHash} :
    nextHash state answer hash = some next ↔ state.getBlock hash = none ∧
      ∃ block, answer hash = .ok (some block) ∧
        block.header.prevBlockhash ≠ BlockHash.default ∧ block.header.prevBlockhash = next := by
  rw [nextHash]
  cases state.getBlock hash with
  | some block => simp
  | none =>
    rcases answer hash with e | _ | block
    · simp
    · simp
    · by_cases hp : block.header.prevBlockhash = BlockHash.default <;> simp [hp]

section Walks

variable [Crypto]

namespace Server

variable {w : World} {answer : BlockHash → Except RequestError (Option Block)}
  {peer : PeerEndpoint}

/-- One block has been asked for, and nothing else has happened. -/
def Asked (peer : PeerEndpoint) (hash : BlockHash) (live live' : Live) : Prop :=
  SameButPeers live live' ∧ live'.trace = live.trace ++ [.requestBlock peer hash]

/-- What a round of the walk comes to: the block is known, the request fails, the chain ends
here, or the walk goes on with the parent. -/
inductive Round (w : World) (answer : BlockHash → Except RequestError (Option Block))
    (peer : PeerEndpoint) (rounds : Nat) (hash : BlockHash) (live : Live) :
    Option (Live × Res SyncError (List Block)) → Prop where
  | known (block : Block) (hk : live.server.state.getBlock hash = some block) :
      Round w answer peer rounds hash live (some (live, .ok []))
  | failed (live' : Live) (e : Fault SyncError) (hk : live.server.state.getBlock hash = none)
      (hq : Asked peer hash live live')
      (hbad : w.Reliable → ∀ block, answer hash ≠ .ok (some block)) :
      Round w answer peer rounds hash live (some (live', .error e))
  | last (live' : Live) (block : Block) (hk : live.server.state.getBlock hash = none)
      (hq : Asked peer hash live live') (ha : answer hash = .ok (some block))
      (hp : block.header.prevBlockhash = BlockHash.default) :
      Round w answer peer rounds hash live (some (live', .ok [block]))
  | on (live' : Live) (block : Block) (hk : live.server.state.getBlock hash = none)
      (hq : Asked peer hash live live') (ha : answer hash = .ok (some block))
      (hp : block.header.prevBlockhash ≠ BlockHash.default) :
      Round w answer peer rounds hash live
        ((fetchMissing peer rounds block.header.prevBlockhash >>= fun older =>
          pure (block :: older)) w live')

theorem requestBlockFromPeer_ends (hw : w.AnswersBlocks answer) (peer : PeerEndpoint)
    (hash : BlockHash) (live : Live) :
    Ends w Quiet (Answered w (answer hash)) (requestBlockFromPeer peer hash) live :=
  requestFromPeer_ends _ _ _ fun time session => hw time session peer.addr hash

theorem fetchMissing_round (hw : w.AnswersBlocks answer) (peer : PeerEndpoint) (rounds : Nat)
    (hash : BlockHash) (live : Live) :
    Round w answer peer rounds hash live (fetchMissing peer (rounds + 1) hash w live) := by
  rw [fetchMissing]
  change Round w answer peer rounds hash live
    ((if (live.server.state.getBlock hash).isSome then _ else _ : ServerIo SyncError _) w live)
  cases hk : live.server.state.getBlock hash with
  | some block => exact .known block hk
  | none =>
    rw [if_neg (by simp)]
    set emitted : Live := { live with trace := live.trace ++ [.requestBlock peer hash] }
    change Round w answer peer rounds hash live ((requestBlockFromPeer peer hash >>= _) w emitted)
    obtain ⟨live', r, heq, hq, hsome, hsure⟩ := requestBlockFromPeer_ends hw peer hash emitted
    have hasked : Asked peer hash live live' := hq
    rcases r with e | _ | block
    · rw [bind_of_error heq]
      refine .failed live' e hk hasked fun hrel block hb => ?_
      cases hsure hrel _ hb
    · rw [bind_of_ok heq]
      refine .failed live' _ hk hasked fun _ block hb => ?_
      cases (hsome _ rfl).symm.trans hb
    · rw [bind_of_ok heq]
      have ha := hsome _ rfl
      dsimp only
      split_ifs with hp
      · exact .last live' block hk hasked ha hp
      · exact .on live' block hk hasked ha hp

/-- What the walk from `hash` has asked for when it returns: no hash twice, and besides the
first one only hashes that answers name as parents. -/
structure Walked (answer : BlockHash → Except RequestError (Option Block)) (hash : BlockHash)
    (requests : List BlockHash) : Prop where
  once : requests.Nodup
  named : ∀ h ∈ requests, h = hash ∨ ∃ h' ∈ requests, ∃ block,
    answer h' = .ok (some block) ∧ block.header.prevBlockhash = h

omit [Crypto] in
theorem walked_singleton (hash : BlockHash) : Walked answer hash [hash] where
  once := List.nodup_singleton hash
  named _ hh := .inl (List.mem_singleton.mp hh)

omit [Crypto] in
theorem Walked.cons {block : Block} {hash : BlockHash} {requests : List BlockHash}
    (h : Walked answer block.header.prevBlockhash requests)
    (ha : answer hash = .ok (some block)) (hn : hash ∉ requests) :
    Walked answer hash (hash :: requests) where
  once := List.nodup_cons.mpr ⟨hn, h.once⟩
  named := by
    intro h₁ hmem
    rcases List.mem_cons.mp hmem with rfl | hmem
    · exact .inl rfl
    · rcases h.named h₁ hmem with rfl | ⟨h₂, hmem₂, hnamed⟩
      · exact .inr ⟨hash, List.mem_cons_self, block, ha, rfl⟩
      · exact .inr ⟨h₂, List.mem_cons_of_mem _ hmem₂, hnamed⟩

/-- From `rounds` rounds on, the walk returns: it asks for places it leads to, and for none of
them twice. -/
def WalkBound (w : World) (answer : BlockHash → Except RequestError (Option Block))
    (peer : PeerEndpoint) (state : NodeState) (hash : BlockHash) (n : Nat) : Prop :=
  ∀ live : Live, live.server.state = state → ∀ rounds, n ≤ rounds → ∃ live' r requests,
    fetchMissing peer rounds hash w live = some (live', r) ∧
    live'.trace = live.trace ++ requests.map (Effect.requestBlock peer) ∧
    Walked answer hash requests ∧
    ∀ h ∈ requests, Relation.ReflTransGen (Walk.Leads (nextHash state answer)) hash h

theorem walkBound_succ (hw : w.AnswersBlocks answer) {state : NodeState} {hash : BlockHash}
    (hc : ¬ Walk.Cyclic (nextHash state answer) hash) (n : Nat)
    (ih : ∀ next, Walk.Leads (nextHash state answer) hash next →
      WalkBound w answer peer state next n) :
    WalkBound w answer peer state hash (n + 1) := by
  intro live hstate rounds hrounds
  obtain ⟨k, rfl⟩ : ∃ k, rounds = k + 1 := ⟨rounds - 1, by omega⟩
  have hself : ∀ h ∈ [hash], Relation.ReflTransGen (Walk.Leads (nextHash state answer)) hash h := by
    intro h hh
    rw [List.mem_singleton.mp hh]
  have hround := fetchMissing_round hw peer k hash live
  generalize fetchMissing peer (k + 1) hash w live = result at hround
  cases hround with
  | known block hk =>
    exact ⟨live, _, [], rfl, (List.append_nil _).symm, ⟨List.nodup_nil, fun h hh => (nomatch hh)⟩,
      fun h hh => (nomatch hh)⟩
  | failed live' e hk hq hbad => exact ⟨live', _, [hash], rfl, hq.2, walked_singleton hash, hself⟩
  | last live' block hk hq ha hp =>
    exact ⟨live', _, [hash], rfl, hq.2, walked_singleton hash, hself⟩
  | on live' block hk hq ha hp =>
    have hleads : Walk.Leads (nextHash state answer) hash block.header.prevBlockhash :=
      nextHash_eq_some.mpr ⟨hstate ▸ hk, block, ha, hp, rfl⟩
    obtain ⟨live'', r, requests, heq, htrace, hwalked, hreach⟩ :=
      ih _ hleads live' (hq.1.state.trans hstate) k (by omega)
    have hn : hash ∉ requests := fun hmem => hc ⟨hash, .refl, .head' hleads (hreach hash hmem)⟩
    obtain ⟨r', heq'⟩ : ∃ r', (fetchMissing peer k block.header.prevBlockhash >>= fun older =>
        pure (block :: older)) w live' = some (live'', r') := by
      rw [bind_apply, heq]
      cases r <;> exact ⟨_, rfl⟩
    refine ⟨live'', r', hash :: requests, heq', ?_, hwalked.cons ha hn, ?_⟩
    · rw [htrace, hq.2, List.append_assoc]
      rfl
    · exact List.forall_mem_cons.mpr ⟨.refl, fun h hh => (hreach h hh).head hleads⟩

/-- Without a cycle in the answers there is such a number of rounds. -/
theorem exists_walkBound (hw : w.AnswersBlocks answer) (peer : PeerEndpoint) (state : NodeState)
    (hash : BlockHash) (hc : ¬ Walk.Cyclic (nextHash state answer) hash) :
    ∃ n, WalkBound w answer peer state hash n := by
  have hfinite := blockHash_finite
  refine Walk.induct (fun hash => ∃ n, WalkBound w answer peer state hash n) hc ?_
  intro hash hc ih
  cases hnext : nextHash state answer hash with
  | none =>
    refine ⟨1, walkBound_succ hw hc 0 fun next hleads => ?_⟩
    cases hnext.symm.trans hleads
  | some next =>
    obtain ⟨n, hn⟩ := ih next hnext
    refine ⟨n + 1, walkBound_succ hw hc n fun next' hleads => ?_⟩
    rwa [Option.some.inj (hleads.symm.trans hnext)]

/-- In a reliable world a walk that leads into a cycle does not return. -/
theorem fetchMissing_of_cyclic (hw : w.AnswersBlocks answer) (hrel : w.Reliable)
    (state : NodeState) (rounds : Nat) (hash : BlockHash) (live : Live)
    (hstate : live.server.state = state) (hc : Walk.Cyclic (nextHash state answer) hash) :
    fetchMissing peer rounds hash w live = none := by
  induction rounds generalizing hash live with
  | zero => rfl
  | succ rounds ih =>
    obtain ⟨next, hleads, hnext⟩ := hc.exists_leads
    obtain ⟨hk', block', ha', hp', rfl⟩ := nextHash_eq_some.mp hleads
    have hround := fetchMissing_round hw peer rounds hash live
    generalize fetchMissing peer (rounds + 1) hash w live = result at hround
    cases hround with
    | known block hk => cases (hstate ▸ hk).symm.trans hk'
    | failed live' e hk hq hbad => exact absurd ha' (hbad hrel block')
    | last live' block hk hq ha hp =>
      cases ha.symm.trans ha'
      exact absurd hp hp'
    | on live' block hk hq ha hp =>
      cases ha.symm.trans ha'
      rw [bind_apply, ih _ live' (hq.1.state.trans hstate) hnext]

end Server

namespace Server

/-- The walk returns, whatever else happens, and never asks for a hash twice. -/
def WalkSafe (w : World) (live : Live) (peer : PeerEndpoint)
    (answer : BlockHash → Except RequestError (Option Block)) (tip : BlockHash) : Prop :=
  ∃ n, ∀ rounds, n ≤ rounds → ∃ live' r requests,
    fetchMissing peer rounds tip w live = some (live', r) ∧
    live'.trace = live.trace ++ requests.map (Effect.requestBlock peer) ∧
    Walked answer tip requests

/-- The walk is safe in every world that gives these answers exactly when the parents they name
do not lead into a cycle. -/
theorem walk_safe_iff (live : Live) (peer : PeerEndpoint)
    (answer : BlockHash → Except RequestError (Option Block)) (tip : BlockHash) :
    (∀ w, w.AnswersBlocks answer → WalkSafe w live peer answer tip) ↔
      ¬ Walk.Cyclic (nextHash live.server.state answer) tip := by
  constructor
  · intro hsafe hc
    have hw : (obligingWorld answer).AnswersBlocks answer := fun _ _ _ _ => rfl
    obtain ⟨n, hn⟩ := hsafe _ hw
    obtain ⟨live', r, requests, heq, -⟩ := hn n le_rfl
    rw [fetchMissing_of_cyclic hw (obligingWorld_reliable answer) _ n tip live rfl hc] at heq
    cases heq
  · intro hc w hw
    obtain ⟨n, hn⟩ := exists_walkBound hw peer live.server.state tip hc
    refine ⟨n, fun rounds hr => ?_⟩
    obtain ⟨live', r, requests, heq, htrace, hwalked, -⟩ := hn live rfl rounds hr
    exact ⟨live', r, requests, heq, htrace, hwalked⟩

end Server

end Walks

section OneBlock

open NodeState (sampleBlock sampleGenesis)

attribute [local instance] NodeState.sampleCrypto

/-- Whatever it is asked for, the peer answers with the same block. -/
def alwaysAnswer (block : Block) (_ : BlockHash) : Except RequestError (Option Block) :=
  .ok (some block)

/-- A node that knows nothing but its configuration. -/
def emptyServer : Live := .start (.new (plainOptions .new))

def onlyPeer : PeerEndpoint := ⟨⟨[]⟩, none⟩

/-- Asked for genesis, the peer answers with a child of genesis, and is asked for genesis
again, for ever. -/
theorem alwaysAnswer_child_never_returns :
    (Server.obligingWorld (alwaysAnswer sampleBlock)).AnswersBlocks (alwaysAnswer sampleBlock) ∧
    ∀ rounds, Server.fetchMissing onlyPeer rounds sampleGenesis.header.blockHash
      (Server.obligingWorld (alwaysAnswer sampleBlock)) emptyServer = none := by
  refine ⟨fun _ _ _ _ => rfl, fun rounds => ?_⟩
  have hleads : Walk.Leads (nextHash .new (alwaysAnswer sampleBlock))
      sampleGenesis.header.blockHash sampleGenesis.header.blockHash :=
    nextHash_eq_some.mpr ⟨rfl, sampleBlock, rfl, by decide +kernel, by decide +kernel⟩
  exact Server.fetchMissing_of_cyclic (fun _ _ _ _ => rfl) (Server.obligingWorld_reliable _) .new
    rounds _ emptyServer rfl ⟨_, .refl, .single hleads⟩

/-- A peer that answers with genesis is left after one request. -/
theorem alwaysAnswer_genesis_safe :
    ∀ w, w.AnswersBlocks (alwaysAnswer sampleGenesis) →
      Server.WalkSafe w emptyServer onlyPeer (alwaysAnswer sampleGenesis)
        sampleGenesis.header.blockHash := by
  refine (Server.walk_safe_iff emptyServer onlyPeer _ _).mpr fun hc => ?_
  obtain ⟨next, hleads, -⟩ := hc.exists_leads
  obtain ⟨-, block, ha, hp, -⟩ := nextHash_eq_some.mp hleads
  cases ha
  exact hp rfl

end OneBlock

end Wobble
