import Wobble.Peer.Task
import Wobble.Server.SyncWalk

namespace Wobble

open Rust Io

/-- The remote side is of our network and speaks our protocol. -/
def Compatible (network : Text) (hello : HelloMessage) : Prop :=
  hello.network = network ∧ hello.version = protocolVersion

def WireMessage.isHello : WireMessage → Bool
  | .hello _ => true
  | _ => false

/-- The message a round read. -/
def Turn.message : Turn → Option WireMessage
  | .received message _ _ => some message
  | _ => none

/-- The action gives what was read to the event loop or to a waiting request. -/
def TaskAction.exposes : TaskAction → Bool
  | .forward _ _ | .reply _ (.tip (.ok _)) | .reply _ (.block (.ok _)) => true
  | _ => false

/-- Message by message: no other message than `hello` gets past the session before a compatible
`hello` has been read, `earlier` having been read already. -/
def Gated (network : Text) : List WireMessage → List (Turn × List TaskAction) → Prop
  | _, [] => True
  | earlier, (t, actions) :: rest =>
    (∀ m, t.message = some m → m.isHello = false → actions.any TaskAction.exposes = true →
      ∃ hello, .hello hello ∈ earlier ∧ Compatible network hello) ∧
    Gated network (earlier ++ t.message.toList) rest

/-- An outbound session, which starts once the remote side has answered our `hello` with its own. -/
def outboundRun (first : WireMessage) (turns : List Turn) : List (Turn × List TaskAction) :=
  match first with
  | .hello remoteHello => (PeerTask.outbound remoteHello).run true turns
  | _ => []

/-- What an inbound session reads first: it takes no commands and has no deadline. -/
def firstRead : List Turn → Option WireMessage
  | [] => none
  | .received message _ _ :: _ => some message
  | .readFailed _ :: _ => none
  | _ :: rest => firstRead rest

def firstMessage (log : List (Turn × List TaskAction)) : Option WireMessage :=
  (log.filterMap fun entry => entry.1.message).head?

/-- Once a compatible `hello` has been read there is nothing left to ask for. -/
theorem gated_of_compatible (network : Text) (earlier : List WireMessage) (hello : HelloMessage)
    (hmem : .hello hello ∈ earlier) (hc : Compatible network hello)
    (log : List (Turn × List TaskAction)) : Gated network earlier log := by
  induction log generalizing earlier with
  | nil => trivial
  | cons entry rest ih =>
    exact ⟨fun _ _ _ _ => ⟨hello, hmem, hc⟩, ih _ (List.mem_append_left _ hmem)⟩

theorem gated_cons_silent {network : Text} {earlier : List WireMessage} {t : Turn}
    {actions : List TaskAction} {log : List (Turn × List TaskAction)} (ht : t.message = none) :
    Gated network earlier ((t, actions) :: log) ↔ Gated network earlier log := by
  rw [Gated, ht, Option.toList_none, List.append_nil]
  exact and_iff_right fun m hm => nomatch hm

theorem firstMessage_cons_silent {t : Turn} {actions : List TaskAction}
    {log : List (Turn × List TaskAction)} (ht : t.message = none) :
    firstMessage ((t, actions) :: log) = firstMessage log := by
  rw [firstMessage, List.filterMap_cons, ht]
  rfl

theorem firstMessage_cons_received {message : WireMessage}
    {answer : Option (Except ServerError (List WireMessage))} {sendable : Nat}
    {actions : List TaskAction} {log : List (Turn × List TaskAction)} :
    firstMessage ((.received message answer sendable, actions) :: log) = some message := rfl

theorem firstMessage_inbound (turns : List Turn) :
    firstMessage (PeerTask.inbound.run true turns) = firstRead turns := by
  induction turns with
  | nil => rfl
  | cons t rest ih =>
    rw [PeerTask.run]
    cases t with
    | received message answer sendable => exact firstMessage_cons_received
    | readFailed e => exact firstMessage_cons_silent rfl
    | command c sent => exact ih
    | commandsClosed => exact ih
    | deadline => exact ih

/-- Whatever is read is handed on. -/
theorem exposes_received (task : PeerTask) (message : WireMessage)
    (answer : Option (Except ServerError (List WireMessage))) (sendable : Nat) :
    (task.turn true (.received message answer sendable)).2.1.any TaskAction.exposes = true := by
  rw [PeerTask.turn, PeerTask.handleInboundMessage]
  split
  · rename_i completed hc
    obtain ⟨pending, -, hc⟩ := Option.bind_eq_some_iff.mp hc
    cases pending <;> cases message <;> cases hc <;> rfl
  · dsimp only
    rw [Bool.not_true, if_neg Bool.false_ne_true]
    split
    · split_ifs <;> rfl
    · rfl

section Answers

variable [Crypto] [Profile]

/-- The answers given in these rounds are answers of an event loop with this network. -/
def AnsweredBy (network : Text) (turns : List Turn) : Prop :=
  ∀ message answer sendable, .received message (some answer) sendable ∈ turns →
    ∃ (origin : Option PeerAddr) (w : World) (live live' : Live),
      live.server.config.network = network ∧
      Server.handleEvent (ε := ServerError) (.peerMessage origin message) w live =
        some (live', .ok (.replied answer))

omit [Profile] in
/-- The event loop says yes to compatible ones only. -/
theorem handlePeerHello_ok (hello : HelloMessage) (w : World) (live live' : Live)
    (replies : List WireMessage)
    (h : Server.handlePeerHello hello w live = some (live', .ok replies)) :
    Compatible live.server.config.network hello := by
  obtain ⟨middle, _, hrecord, h⟩ := (bind_eq_ok _ _ _ _ _ _).mp h
  have hsame := keeps_mapErr _ (Server.recordInboundHello_keeps .sameButPeers hello) _ _ _ _ hrecord
  have hconfig : middle.server.config = live.server.config :=
    (congrArg Server.config hsame : middle.server.withoutPeers.config = _)
  change (if hello.network ≠ middle.server.config.network then _ else _ : ServerIo _ _) _ _ = _ at h
  rw [hconfig] at h
  split_ifs at h with hnetwork hversion
  · cases h
  · cases h
  · exact ⟨not_not.mp hnetwork, not_not.mp hversion⟩

theorem AnsweredBy.compatible {network : Text} {turns : List Turn} (h : AnsweredBy network turns)
    (hello : HelloMessage) (replies : List WireMessage) (sendable : Nat)
    (hmem : .received (.hello hello) (some (.ok replies)) sendable ∈ turns) :
    Compatible network hello := by
  obtain ⟨origin, w, live, live', rfl, heq⟩ := h _ _ _ hmem
  obtain ⟨middle, result, hattempt, hresult⟩ := (bind_eq_ok _ _ _ _ _ _).mp heq
  cases hresult
  exact handlePeerHello_ok hello w live _ replies ((attempt_eq_ok _ _ _ _ _).mp hattempt)

/-- A `hello` the event loop does not say yes to ends the session. -/
theorem AnsweredBy.ends {network : Text} {turns : List Turn} (h : AnsweredBy network turns)
    (hello : HelloMessage) (answer : Option (Except ServerError (List WireMessage)))
    (sendable : Nat) (hmem : .received (.hello hello) answer sendable ∈ turns)
    (hc : ¬ Compatible network hello) (task : PeerTask) :
    (task.turn true (.received (.hello hello) answer sendable)).2.2 = false := by
  have hnone : task.pendingRequest.bind (PendingRequest.complete · (.hello hello)) = none := by
    cases task.pendingRequest with
    | none => rfl
    | some pending => cases pending <;> rfl
  rw [PeerTask.turn, PeerTask.handleInboundMessage, hnone]
  rcases answer with - | (e | replies)
  · rfl
  · rfl
  · exact absurd (h.compatible hello replies sendable hmem) hc

/-- A session that starts with nothing read is gated exactly when the first thing it reads is a
`hello`: an incompatible one ends it, and anything else is handed on at once. -/
theorem run_gated_iff (network : Text) (task : PeerTask) (turns : List Turn)
    (h : AnsweredBy network turns) :
    Gated network [] (task.run true turns) ↔
      ∀ m, firstMessage (task.run true turns) = some m → m.isHello = true := by
  induction turns generalizing task with
  | nil => simp [PeerTask.run, Gated, firstMessage]
  | cons t rest ih =>
    have hrest : AnsweredBy network rest := fun m a n hm => h m a n (List.mem_cons_of_mem _ hm)
    rw [PeerTask.run]
    by_cases hen : task.enabled t = true
    case neg =>
      rw [if_neg hen]
      exact ih task hrest
    rw [if_pos hen]
    have htail := ih (task.turn true t).1 hrest
    cases t with
    | received m answer n =>
      rw [Gated, firstMessage_cons_received]
      cases hhello : m.isHello with
      | false =>
        -- it is handed on, with nothing read before it
        refine iff_of_false (fun hg => ?_) (fun hf => ?_)
        · obtain ⟨hello, hmem, -⟩ := hg.1 m rfl hhello (exposes_received task m answer n)
          cases hmem
        · have hyes := hf m rfl
          rw [hhello] at hyes
          cases hyes
      | true =>
        obtain ⟨hello, rfl⟩ : ∃ hello, m = .hello hello := by
          cases m <;> first | exact ⟨_, rfl⟩ | cases hhello
        refine iff_of_true ⟨fun m hm hno => ?_, ?_⟩ (fun m hm => ?_)
        · obtain rfl := Option.some.inj hm
          cases hno
        · by_cases hc : Compatible network hello
          · exact gated_of_compatible network _ hello (List.mem_singleton_self _) hc _
          · rw [h.ends hello answer n List.mem_cons_self hc task]
            trivial
        · obtain rfl := Option.some.inj hm
          rfl
    | command c sent =>
      rw [gated_cons_silent rfl, firstMessage_cons_silent rfl]
      split_ifs
      · exact htail
      · simp [Gated, firstMessage]
    | commandsClosed =>
      rw [gated_cons_silent rfl, firstMessage_cons_silent rfl]
      exact htail
    | readFailed e =>
      rw [gated_cons_silent rfl, firstMessage_cons_silent rfl]
      simp [PeerTask.turn, Gated, firstMessage]
    | deadline =>
      rw [gated_cons_silent rfl, firstMessage_cons_silent rfl]
      exact htail

/-- The handshake gates a session exactly when the remote side keeps to it: what an inbound session
reads first has to be a `hello`, and the `hello` an outbound session is opened with has to be
compatible. -/
theorem handshake_gates_iff (network : Text) :
    (∀ turns, AnsweredBy network turns →
      (Gated network [] (PeerTask.inbound.run true turns) ↔
        ∀ m, firstRead turns = some m → m.isHello = true)) ∧
    ∀ first, (∀ turns, AnsweredBy network turns →
        Gated network [first] (outboundRun first turns)) ↔
      ∀ hello, first = .hello hello → Compatible network hello := by
  refine ⟨fun turns h => ?_, fun first => ⟨?_, ?_⟩⟩
  · rw [← firstMessage_inbound]
    exact run_gated_iff network PeerTask.inbound turns h
  · rintro hall hello rfl
    -- the event loop need not even answer
    have hgated := hall [.received .getTip none 0] (by
      intro m a n hmem
      cases List.mem_singleton.mp hmem)
    obtain ⟨other, hmem, hc⟩ := hgated.1 .getTip rfl rfl rfl
    obtain rfl : other = hello := WireMessage.hello.inj (List.mem_singleton.mp hmem)
    exact hc
  · intro hc turns _
    cases first with
    | hello hello =>
      exact gated_of_compatible network _ hello (List.mem_singleton_self _) (hc hello rfl) _
    | _ => trivial

end Answers

section SampleSessions

attribute [local instance] NodeState.sampleCrypto NodeState.sampleProfile

def sampleNetwork : Text := emptyServer.server.config.network

/-- A remote side that keeps to the handshake and asks for the tip. -/
def politeTurns : List Turn := [
  .received (.hello ⟨sampleNetwork, protocolVersion, none, none, none, none⟩)
    (some (.ok [.hello (localHello emptyServer.server.config emptyServer.server.state)])) 1,
  .received .getTip (some (.ok [.tip ⟨none, none⟩])) 1]

theorem politeTurns_gated : Gated sampleNetwork [] (PeerTask.inbound.run true politeTurns) := by
  refine ((handshake_gates_iff sampleNetwork).1 politeTurns ?_).mpr ?_
  · intro m a n hmem
    refine ⟨none, Server.blocklessWorld, emptyServer, ?_⟩
    rcases List.mem_cons.mp hmem with heq | hmem
    · cases heq
      exact ⟨_, rfl, rfl⟩
    · cases List.mem_singleton.mp hmem
      exact ⟨_, rfl, rfl⟩
  · rintro m hm
    obtain rfl := Option.some.inj hm
    rfl

def strangerHello : HelloMessage :=
  ⟨Text.ascii "elsewhere", protocolVersion, none, none, none, none⟩

/-- A message without a `hello` reaches the event loop of an inbound session, and one of a peer on
another network that of an outbound session. -/
theorem strangers_heard :
    (AnsweredBy sampleNetwork [.received .getTip (some (.ok [.tip ⟨none, none⟩])) 1] ∧
      PeerTask.inbound.run true [.received .getTip (some (.ok [.tip ⟨none, none⟩])) 1] =
        [(.received .getTip (some (.ok [.tip ⟨none, none⟩])) 1,
          [.forward ⟨none, none⟩ .getTip, .write (.tip ⟨none, none⟩)])] ∧
      ¬ Gated sampleNetwork []
        (PeerTask.inbound.run true [.received .getTip (some (.ok [.tip ⟨none, none⟩])) 1])) ∧
    (¬ Compatible sampleNetwork strangerHello ∧
      outboundRun (.hello strangerHello) [.received (.announceBlock NodeState.sampleBlock) none 0] =
        [(.received (.announceBlock NodeState.sampleBlock) none 0,
          [.forward ⟨none, none⟩ (.announceBlock NodeState.sampleBlock)])] ∧
      ¬ Gated sampleNetwork [.hello strangerHello]
        (outboundRun (.hello strangerHello)
          [.received (.announceBlock NodeState.sampleBlock) none 0])) := by
  have hother : ¬ Compatible sampleNetwork strangerHello := by
    intro hc
    have hne : Text.ascii "elsewhere" ≠ sampleNetwork := by decide
    exact hne hc.1
  refine ⟨⟨?_, rfl, ?_⟩, hother, rfl, ?_⟩
  · intro m a n hmem
    cases List.mem_singleton.mp hmem
    exact ⟨none, Server.blocklessWorld, emptyServer, emptyServer, rfl, rfl⟩
  · intro hg
    obtain ⟨hello, hmem, -⟩ := hg.1 .getTip rfl rfl rfl
    cases hmem
  · intro hg
    obtain ⟨hello, hmem, hc⟩ := hg.1 (.announceBlock NodeState.sampleBlock) rfl rfl rfl
    cases List.mem_singleton.mp hmem
    exact hother hc

end SampleSessions

end Wobble
