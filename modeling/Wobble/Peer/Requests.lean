import Wobble.Peer.Task

namespace Wobble

open Rust

inductive AnswerKind where
  | tip
  | block
  deriving DecidableEq

def WireMessage.asks : WireMessage → Option AnswerKind
  | .getTip => some .tip
  | .getBlock _ => some .block
  | _ => none

def WireMessage.answers : WireMessage → Option AnswerKind
  | .tip _ => some .tip
  | .block _ => some .block
  | _ => none

def PendingRequest.kind : PendingRequest → AnswerKind
  | .tip _ => .tip
  | .block _ => .block

def PendingRequest.channel : PendingRequest → ReplyChannel
  | .tip reply => reply
  | .block reply => reply

def PeerReply.answer : PeerReply → Option WireMessage
  | .tip (.ok summary) => some (.tip summary)
  | .block (.ok found) => some (.block found)
  | _ => none

namespace PeerCommand

/-- The request a command makes, and where its answer goes. -/
def request : PeerCommand → Option (ReplyChannel × WireMessage)
  | .requestTip reply => some (reply, .getTip)
  | .requestBlock blockHash reply => some (reply, .getBlock blockHash)
  | _ => none

end PeerCommand

/-- One session with both its ends and the server thread that uses it. -/
structure Session where
  task : PeerTask
  -- whether the task is still in its loop
  running : Bool
  -- commands the server thread has sent and the task has not taken
  commands : List PeerCommand
  -- requests on the wire that the remote side has not answered, oldest first
  unanswered : List (ReplyChannel × WireMessage)
  -- what the remote side has written and the task has not read, with the request it answers
  arriving : List (WireMessage × Option ReplyChannel)
  -- every answer given: for which channel, to which request, and what
  answered : List (ReplyChannel × WireMessage × WireMessage)
  -- the channel the server thread waits on
  waiting : Option ReplyChannel
  -- every request the server thread has made
  asked : List (ReplyChannel × WireMessage)
  -- what the calls of the server thread have returned, time outs apart
  returned : List (ReplyChannel × PeerReply)
  nextChannel : ReplyChannel

namespace Session

def start (remoteHello : HelloMessage) : Session :=
  ⟨.outbound remoteHello, true, [], [], [], [], none, [], [], 0⟩

/-- `send` on the command channel, after which the server thread waits for the reply. -/
def call (s : Session) (command : ReplyChannel → PeerCommand) : Session :=
  let sent := command s.nextChannel
  { s with
    commands := s.commands ++ [sent]
    waiting := some s.nextChannel
    asked := s.asked ++ sent.request.toList
    nextChannel := s.nextChannel + 1 }

/-- An action of the task. Requests go on the wire under the channel of the command that makes
them; a reply reaches the server thread only while it waits for it. -/
def perform (source : Option ReplyChannel) (s : Session) : TaskAction → Session
  | .write message =>
    match source, message.asks with
    | some channel, some _ => { s with unanswered := s.unanswered ++ [(channel, message)] }
    | _, _ => s
  | .reply channel reply =>
    if s.waiting = some channel then
      { s with waiting := none, returned := s.returned ++ [(channel, reply)] }
    else s
  | .forward _ _ | .notifyTipSync _ _ => s

def afterTurn (s : Session) (source : Option ReplyChannel) (t : Turn) : Session :=
  let (task, actions, goesOn) := s.task.turn true t
  (if goesOn then actions else actions ++ task.close).foldl (perform source)
    { s with task := task, running := goesOn }

/-- One step of one of the three. `allowed` restricts the commands the task takes, and when. -/
inductive Step (allowed : Session → PeerCommand → Prop) (s : Session) : Session → Prop where
  | requestTip (hw : s.waiting = none) : Step allowed s (s.call .requestTip)
  | requestBlock (blockHash : BlockHash) (hw : s.waiting = none) :
      Step allowed s (s.call (.requestBlock blockHash))
  -- only announcements are announced
  | announce (message : WireMessage) (hm : message.asks = none) (hw : s.waiting = none) :
      Step allowed s (s.call (.announce message))
  | shutdown : Step allowed s { s with commands := s.commands ++ [.shutdown] }
  -- the server thread has waited long enough
  | giveUp : Step allowed s { s with waiting := none }
  -- the remote side answers the oldest request it has not answered
  | answer (channel : ReplyChannel) (request answer : WireMessage)
      (rest : List (ReplyChannel × WireMessage))
      (hq : s.unanswered = (channel, request) :: rest) (ha : answer.answers = request.asks) :
      Step allowed s { s with
        unanswered := rest
        arriving := s.arriving ++ [(answer, some channel)]
        answered := s.answered ++ [(channel, request, answer)] }
  -- the remote side writes something that is not an answer
  | speak (message : WireMessage) (hm : message.answers = none) :
      Step allowed s { s with arriving := s.arriving ++ [(message, none)] }
  | command (command : PeerCommand) (rest : List PeerCommand) (sent : Except IoError Unit)
      (hr : s.running = true) (hrx : s.task.commandRx = true)
      (hc : s.commands = command :: rest) (ha : allowed s command) :
      Step allowed s ({ s with commands := rest }.afterTurn (command.request.map Prod.fst)
        (.command command sent))
  | commandsClosed (hr : s.running = true) (hrx : s.task.commandRx = true)
      (hc : s.commands = []) : Step allowed s (s.afterTurn none .commandsClosed)
  | receive (message : WireMessage) (channel : Option ReplyChannel)
      (rest : List (WireMessage × Option ReplyChannel))
      (answer : Option (Except ServerError (List WireMessage))) (sendable : Nat)
      (hr : s.running = true) (hq : s.arriving = (message, channel) :: rest) :
      Step allowed s ({ s with arriving := rest }.afterTurn none
        (.received message answer sendable))
  | readFailed (e : IoError) (hr : s.running = true) :
      Step allowed s (s.afterTurn none (.readFailed e))
  | deadline (hr : s.running = true) (hd : s.task.pendingDeadline = true) :
      Step allowed s (s.afterTurn none .deadline)

def Run (allowed : Session → PeerCommand → Prop) (remoteHello : HelloMessage) (s : Session) :
    Prop :=
  Relation.ReflTransGen (Step allowed) (start remoteHello) s

/-- Whatever a request call has returned is the remote side's answer to that request. -/
def AnswersMatch (s : Session) : Prop :=
  ∀ channel request, (channel, request) ∈ s.asked →
    (∀ summary, (channel, .tip (.ok summary)) ∈ s.returned →
      (channel, request, .tip summary) ∈ s.answered) ∧
    ∀ found, (channel, .block (.ok found)) ∈ s.returned →
      (channel, request, .block found) ∈ s.answered

/-- A request of the kind is on the wire, or its answer is on the way. -/
def Outstanding (s : Session) (kind : AnswerKind) (channel : ReplyChannel) : Prop :=
  (∃ request, (channel, request) ∈ s.unanswered ∧ request.asks = some kind) ∨
    ∃ answer, (answer, some channel) ∈ s.arriving ∧ answer.answers = some kind

/-- A request goes on the wire only when no earlier one of its kind is outstanding. -/
def Alone (s : Session) (command : PeerCommand) : Prop :=
  s.task.pendingRequest = none → ∀ channel request kind, command.request = some (channel, request) →
    request.asks = some kind → ∀ other, ¬ s.Outstanding kind other

def written (source : Option ReplyChannel) (actions : List TaskAction) :
    List (ReplyChannel × WireMessage) :=
  actions.filterMap fun
    | .write message => message.asks.bind fun _ => source.map (·, message)
    | _ => none

theorem mem_written {source : Option ReplyChannel} {actions : List TaskAction}
    {channel : ReplyChannel} {message : WireMessage}
    (h : (channel, message) ∈ written source actions) :
    source = some channel ∧ message.asks.isSome = true ∧ .write message ∈ actions := by
  obtain ⟨action, hmem, haction⟩ := List.mem_filterMap.mp h
  cases action with
  | write m =>
    obtain ⟨kind, hkind, hsource⟩ := Option.bind_eq_some_iff.mp haction
    obtain ⟨c, hc, heq⟩ := Option.map_eq_some_iff.mp hsource
    cases heq
    exact ⟨hc, by simp [hkind], hmem⟩
  | _ => cases haction

/-- Actions change nothing but the requests on the wire and what the server thread gets. -/
theorem foldl_perform (source : Option ReplyChannel) (actions : List TaskAction) (s : Session) :
    ∃ waiting returned, actions.foldl (perform source) s =
        { s with
          unanswered := s.unanswered ++ written source actions
          waiting := waiting
          returned := returned } ∧
      ∀ channel reply, (channel, reply) ∈ returned →
        (channel, reply) ∈ s.returned ∨ .reply channel reply ∈ actions := by
  induction actions generalizing s with
  | nil =>
    refine ⟨s.waiting, s.returned, ?_, fun _ _ h => .inl h⟩
    simp [written]
  | cons action rest ih =>
    obtain ⟨waiting, returned, hfold, hreturned⟩ := ih (perform source s action)
    refine ⟨waiting, returned, ?_, ?_⟩
    · rw [List.foldl_cons, hfold]
      cases action with
      | write m =>
        cases source with
        | none => simp [perform, written]
        | some channel => cases hm : m.asks <;> simp [perform, written, hm]
      | reply channel r =>
        simp only [perform]
        split <;> simp [written]
      | _ => simp [perform, written]
    · intro channel r h
      rcases hreturned channel r h with h | h
      · cases action with
        | write m =>
          refine .inl ?_
          cases source with
          | none => exact h
          | some c => cases hm : m.asks <;> simpa [perform, hm] using h
        | reply c r' =>
          by_cases hw : s.waiting = some c
          · rw [perform, if_pos hw] at h
            rcases List.mem_append.mp h with h | h
            · exact .inl h
            · cases List.mem_singleton.mp h
              exact .inr (List.mem_cons_self ..)
          · rw [perform, if_neg hw] at h
            exact .inl h
        | _ => exact .inl h
      · exact .inr (List.mem_cons_of_mem _ h)

end Session

namespace PendingRequest

theorem fail_eq (e : RequestError) (pending : PendingRequest) :
    ∃ reply, pending.fail e = .reply pending.channel reply ∧ reply.answer = none := by
  cases pending <;> exact ⟨_, rfl, rfl⟩

theorem complete_eq {pending : PendingRequest} {message : WireMessage} {action : TaskAction}
    (h : pending.complete message = some action) :
    ∃ reply, action = .reply pending.channel reply ∧ reply.answer = some message ∧
      message.answers = some pending.kind := by
  cases pending <;> cases message <;> cases h <;> exact ⟨_, rfl, rfl, rfl⟩

end PendingRequest

namespace PeerTask

variable {task : PeerTask} {channel : ReplyChannel} {reply : PeerReply}

theorem failPendingRequestWithError_reply {e : RequestError}
    (h : .reply channel reply ∈ task.failPendingRequestWithError e) : reply.answer = none := by
  obtain ⟨pending, -, hp⟩ := Option.map_eq_some_iff.mp (Option.mem_toList.mp h)
  obtain ⟨r, hr, hanswer⟩ := pending.fail_eq e
  cases hp.symm.trans hr
  exact hanswer

theorem handlePeerCommand_reply {sent : Except IoError Unit} {command : PeerCommand}
    (h : .reply channel reply ∈ (task.handlePeerCommand sent command).2.1) :
    reply.answer = none := by
  have hsend : ∀ message pending,
      .reply channel reply ∈ (task.sendRequest message pending sent).2.1 → reply.answer = none := by
    intro message pending h
    have hfail : ∀ e, .reply channel reply ∈ [pending.fail e] → reply.answer = none := by
      intro e h
      obtain ⟨r, hr, hanswer⟩ := pending.fail_eq e
      cases (List.mem_singleton.mp h).trans hr
      exact hanswer
    unfold sendRequest at h
    split at h
    · exact hfail _ h
    · cases sent with
      | ok _ => cases List.mem_singleton.mp h
      | error e => exact hfail _ h
  cases command with
  | requestTip r => exact hsend _ _ h
  | requestBlock hash r => exact hsend _ _ h
  | announce m r =>
    cases sent <;> simp [handlePeerCommand] at h <;> obtain ⟨-, rfl⟩ := h <;> rfl
  | shutdown => cases h

theorem reply_notMem_tipSyncFor (origin : PeerAddr) (message : WireMessage) :
    .reply channel reply ∉ tipSyncFor origin message := by
  cases message <;> simp [tipSyncFor]

theorem reply_notMem_map_write (messages : List WireMessage) :
    .reply channel reply ∉ messages.map TaskAction.write := by
  intro h
  obtain ⟨message, -, heq⟩ := List.mem_map.mp h
  cases heq

/-- A caller is given an answer only when its request is the one in flight. -/
theorem turn_reply {t : Turn} (h : .reply channel reply ∈ (task.turn true t).2.1) :
    reply.answer = none ∨ ∃ message answer sendable pending, t = .received message answer sendable ∧
      task.pendingRequest = some pending ∧ channel = pending.channel ∧
      reply.answer = some message ∧ message.answers = some pending.kind := by
  cases t with
  | command command sent => exact .inl (handlePeerCommand_reply h)
  | commandsClosed => cases h
  | received m a n =>
    simp only [turn, handleInboundMessage] at h
    split at h
    next completed hcompleted =>
      obtain ⟨pending, hpending, hcomplete⟩ := Option.bind_eq_some_iff.mp hcompleted
      obtain ⟨r, hr, hanswer, hkind⟩ := PendingRequest.complete_eq hcomplete
      cases (List.mem_singleton.mp h).trans hr
      exact .inr ⟨m, a, n, pending, rfl, hpending, rfl, hanswer, hkind⟩
    next =>
      -- a forwarded message replies to nobody
      exfalso
      match a with
      | some (.ok replies) =>
        simp only [Bool.not_true, Bool.false_eq_true, if_false] at h
        split at h
        · rcases List.mem_cons.mp h with heq | h
          · cases heq
          · exact reply_notMem_map_write _ h
        · rcases List.mem_cons.mp h with heq | h
          · cases heq
          · rcases List.mem_append.mp h with h | h
            · exact reply_notMem_map_write _ h
            · exact reply_notMem_tipSyncFor _ _ h
      | some (.error _) | none => cases List.mem_singleton.mp h
  | readFailed e => exact .inl (failPendingRequestWithError_reply h)
  | deadline => exact .inl (failPendingRequestWithError_reply h)

theorem turn_pending {t : Turn} {pending : PendingRequest}
    (h : (task.turn true t).1.pendingRequest = some pending) :
    task.pendingRequest = some pending ∨ task.pendingRequest = none ∧ ∃ command message,
      t = .command command (.ok ()) ∧ command.request = some (pending.channel, message) ∧
      message.asks = some pending.kind := by
  have hsend : ∀ message p sent, (task.sendRequest message p sent).1.pendingRequest = some pending →
      task.pendingRequest = some pending ∨
        task.pendingRequest = none ∧ sent = .ok () ∧ pending = p := by
    intro message p sent h
    unfold sendRequest at h
    split at h
    next => exact .inl h
    next hnone =>
      cases sent with
      | ok _ => exact .inr ⟨by simpa using hnone, rfl, (Option.some.inj h).symm⟩
      | error e => exact .inl h
  cases t with
  | command command sent =>
    cases command with
    | requestTip r =>
      refine (hsend _ _ _ h).imp id ?_
      rintro ⟨hnone, rfl, rfl⟩
      exact ⟨hnone, _, _, rfl, rfl, rfl⟩
    | requestBlock hash r =>
      refine (hsend _ _ _ h).imp id ?_
      rintro ⟨hnone, rfl, rfl⟩
      exact ⟨hnone, _, _, rfl, rfl, rfl⟩
    | announce m r => cases sent <;> exact .inl h
    | shutdown => exact .inl h
  | commandsClosed => exact .inl h
  | received m a n =>
    simp only [turn, handleInboundMessage] at h
    split at h
    next => cases h
    next =>
      refine .inl ?_
      match a with
      | some (.ok replies) =>
        simp only [Bool.not_true, Bool.false_eq_true, if_false] at h
        split at h <;> exact h
      | some (.error _) | none => exact h
  | readFailed e => cases h
  | deadline => cases h

theorem write_notMem_close (message : WireMessage) : .write message ∉ task.close := by
  intro h
  obtain ⟨pending, -, hp⟩ := Option.map_eq_some_iff.mp (Option.mem_toList.mp h)
  obtain ⟨r, hr, -⟩ := pending.fail_eq _
  cases hp.symm.trans hr

theorem handlePeerCommand_write {sent : Except IoError Unit} {command : PeerCommand}
    {message request : WireMessage} (hr : command.request = some (channel, request))
    (h : .write message ∈ (task.handlePeerCommand sent command).2.1) :
    task.pendingRequest = none ∧ message = request := by
  have hsend : ∀ p : PendingRequest, .write message ∈ (task.sendRequest request p sent).2.1 →
      task.pendingRequest = none ∧ message = request := by
    intro p h
    have hfail : ∀ e, .write message ∉ [p.fail e] := by
      intro e h
      obtain ⟨r, hr, -⟩ := p.fail_eq e
      cases (List.mem_singleton.mp h).trans hr
    unfold sendRequest at h
    split at h
    next => exact absurd h (hfail _)
    next hnone =>
      cases sent with
      | ok _ =>
        cases List.mem_singleton.mp h
        exact ⟨by simpa using hnone, rfl⟩
      | error e => exact absurd h (hfail _)
  cases command with
  | requestTip r => cases hr; exact hsend _ h
  | requestBlock hash r => cases hr; exact hsend _ h
  | announce m r => cases hr
  | shutdown => cases hr

end PeerTask

namespace Session

variable {s : Session}

def Justified (s : Session) (channel : ReplyChannel) (reply : PeerReply) : Prop :=
  ∀ message, reply.answer = some message → ∃ request, (channel, request, message) ∈ s.answered

/-- The request in flight is the only one of its kind that is outstanding, and everything on the
way belongs to the request beside it. -/
structure Paired (s : Session) : Prop where
  commands : ∀ command ∈ s.commands, ∀ request, command.request = some request → request ∈ s.asked
  unanswered : ∀ request ∈ s.unanswered, request ∈ s.asked
  answered : ∀ channel request answer, (channel, request, answer) ∈ s.answered →
    (channel, request) ∈ s.asked
  arriving : ∀ answer channel, (answer, some channel) ∈ s.arriving →
    ∃ request, (channel, request, answer) ∈ s.answered
  spoken : ∀ message, (message, none) ∈ s.arriving → message.answers = none
  fresh : ∀ channel request, (channel, request) ∈ s.asked → channel < s.nextChannel
  once : ∀ channel request request', (channel, request) ∈ s.asked → (channel, request') ∈ s.asked →
    request = request'
  pending : ∀ pending, s.task.pendingRequest = some pending →
    ∀ channel, s.Outstanding pending.kind channel → channel = pending.channel
  returned : ∀ channel reply, (channel, reply) ∈ s.returned → s.Justified channel reply

theorem Paired.start (remoteHello : HelloMessage) : (start remoteHello).Paired := by
  constructor <;> simp [Session.start, PeerTask.outbound]

theorem Paired.answersMatch (hs : s.Paired) : s.AnswersMatch := by
  intro channel request hasked
  have hanswer : ∀ reply message, reply.answer = some message → (channel, reply) ∈ s.returned →
      (channel, request, message) ∈ s.answered := by
    intro reply message hm hmem
    obtain ⟨request', hgiven⟩ := hs.returned channel reply hmem message hm
    rwa [hs.once channel request request' hasked (hs.answered _ _ _ hgiven)]
  exact ⟨fun summary => hanswer _ _ rfl, fun found => hanswer _ _ rfl⟩

theorem Outstanding.of_subset {s' : Session} {kind : AnswerKind} {channel : ReplyChannel}
    (h : s'.Outstanding kind channel) (hu : s'.unanswered ⊆ s.unanswered)
    (ha : s'.arriving ⊆ s.arriving) : s.Outstanding kind channel := by
  rcases h with ⟨request, hmem, hasks⟩ | ⟨answer, hmem, hanswers⟩
  · exact .inl ⟨request, hu hmem, hasks⟩
  · exact .inr ⟨answer, ha hmem, hanswers⟩

theorem Paired.call (hs : s.Paired) (command : ReplyChannel → PeerCommand)
    (hc : ∀ request, (command s.nextChannel).request = some request →
      request.1 = s.nextChannel) : (s.call command).Paired where
  commands := by
    intro c hmem request hrequest
    rcases List.mem_append.mp hmem with hmem | hmem
    · exact List.mem_append_left _ (hs.commands c hmem request hrequest)
    · cases List.mem_singleton.mp hmem
      exact List.mem_append_right _ (by simp [hrequest])
  unanswered := fun r h => List.mem_append_left _ (hs.unanswered r h)
  answered := fun c r a h => List.mem_append_left _ (hs.answered c r a h)
  arriving := hs.arriving
  spoken := hs.spoken
  fresh := by
    intro channel request hmem
    rcases List.mem_append.mp hmem with hmem | hmem
    · exact Nat.lt_succ_of_lt (hs.fresh channel request hmem)
    · obtain rfl := hc _ (Option.mem_toList.mp hmem)
      exact Nat.lt_succ_self _
  once := by
    intro channel request request' hmem hmem'
    -- an old request has a smaller channel than the new one
    have hold : ∀ r, (channel, r) ∈ s.asked → channel ≠ s.nextChannel :=
      fun r h => (hs.fresh channel r h).ne
    rcases List.mem_append.mp hmem with h | h <;> rcases List.mem_append.mp hmem' with h' | h'
    · exact hs.once _ _ _ h h'
    · exact absurd (hc _ (Option.mem_toList.mp h')) (hold _ h)
    · exact absurd (hc _ (Option.mem_toList.mp h)) (hold _ h')
    · have heq := (Option.mem_toList.mp h).symm.trans (Option.mem_toList.mp h')
      cases heq
      rfl
  pending := hs.pending
  returned := hs.returned

theorem Paired.answer (hs : s.Paired) {channel : ReplyChannel} {request answer : WireMessage}
    {rest : List (ReplyChannel × WireMessage)} (hq : s.unanswered = (channel, request) :: rest)
    (ha : answer.answers = request.asks) :
    Paired { s with
      unanswered := rest
      arriving := s.arriving ++ [(answer, some channel)]
      answered := s.answered ++ [(channel, request, answer)] } where
  commands := hs.commands
  unanswered := fun r h => hs.unanswered r (hq ▸ List.mem_cons_of_mem _ h)
  answered := by
    intro c r a hmem
    rcases List.mem_append.mp hmem with hmem | hmem
    · exact hs.answered c r a hmem
    · cases List.mem_singleton.mp hmem
      exact hs.unanswered _ (hq ▸ List.mem_cons_self ..)
  arriving := by
    intro a c hmem
    rcases List.mem_append.mp hmem with hmem | hmem
    · obtain ⟨r, hr⟩ := hs.arriving a c hmem
      exact ⟨r, List.mem_append_left _ hr⟩
    · cases List.mem_singleton.mp hmem
      exact ⟨request, List.mem_append_right _ (List.mem_singleton_self _)⟩
  spoken := by
    intro m hmem
    rcases List.mem_append.mp hmem with hmem | hmem
    · exact hs.spoken m hmem
    · cases List.mem_singleton.mp hmem
  fresh := hs.fresh
  once := hs.once
  pending := by
    intro pending hp c hout
    refine hs.pending pending hp c ?_
    rcases hout with ⟨r, hmem, hasks⟩ | ⟨a, hmem, hanswers⟩
    · exact .inl ⟨r, hq ▸ List.mem_cons_of_mem _ hmem, hasks⟩
    · rcases List.mem_append.mp hmem with hmem | hmem
      · exact .inr ⟨a, hmem, hanswers⟩
      · cases List.mem_singleton.mp hmem
        exact .inl ⟨request, hq ▸ List.mem_cons_self .., ha ▸ hanswers⟩
  returned := by
    intro c r hmem m hm
    obtain ⟨r', hr'⟩ := hs.returned c r hmem m hm
    exact ⟨r', List.mem_append_left _ hr'⟩

theorem Paired.speak (hs : s.Paired) {message : WireMessage} (hm : message.answers = none) :
    Paired { s with arriving := s.arriving ++ [(message, none)] } := by
  have hkept : ∀ a c, (a, some c) ∈ s.arriving ++ [(message, none)] → (a, some c) ∈ s.arriving := by
    intro a c hmem
    rcases List.mem_append.mp hmem with hmem | hmem
    · exact hmem
    · cases List.mem_singleton.mp hmem
  refine { hs with
    arriving := fun a c h => hs.arriving a c (hkept a c h), spoken := ?_, pending := ?_ }
  · intro m hmem
    rcases List.mem_append.mp hmem with hmem | hmem
    · exact hs.spoken m hmem
    · cases List.mem_singleton.mp hmem
      exact hm
  · intro pending hp c hout
    refine hs.pending pending hp c (hout.imp id ?_)
    rintro ⟨a, hmem, hanswers⟩
    exact ⟨a, hkept a c hmem, hanswers⟩

/-- A round leaves the session as it was but for the task, the requests it writes and the replies
it gives; leaving the loop adds only errors. -/
theorem afterTurn_eq (s : Session) (source : Option ReplyChannel) (t : Turn) :
    ∃ waiting returned, s.afterTurn source t =
        { s with
          task := (s.task.turn true t).1
          running := (s.task.turn true t).2.2
          unanswered := s.unanswered ++ written source (s.task.turn true t).2.1
          waiting := waiting
          returned := returned } ∧
      ∀ channel reply, (channel, reply) ∈ returned → (channel, reply) ∈ s.returned ∨
        reply.answer = none ∨ .reply channel reply ∈ (s.task.turn true t).2.1 := by
  unfold afterTurn
  generalize s.task.turn true t = outcome
  obtain ⟨task, actions, goesOn⟩ := outcome
  have hclose : written source (actions ++ task.close) = written source actions := by
    have hnil : written source task.close = [] := by
      rw [List.eq_nil_iff_forall_not_mem]
      rintro ⟨channel, message⟩ hmem
      exact PeerTask.write_notMem_close message (mem_written hmem).2.2
    simpa [written, List.filterMap_append] using hnil
  cases goesOn with
  | true =>
    obtain ⟨waiting, returned, hfold, hreturned⟩ :=
      foldl_perform source actions { s with task := task, running := true }
    refine ⟨waiting, returned, hfold, ?_⟩
    intro channel reply hmem
    exact (hreturned channel reply hmem).imp id .inr
  | false =>
    obtain ⟨waiting, returned, hfold, hreturned⟩ :=
      foldl_perform source (actions ++ task.close) { s with task := task, running := false }
    refine ⟨waiting, returned, ?_, ?_⟩
    · rw [hclose] at hfold
      exact hfold
    · intro channel reply hmem
      refine (hreturned channel reply hmem).imp id ?_
      intro h
      rcases List.mem_append.mp h with h | h
      · exact .inr h
      · exact .inl (PeerTask.failPendingRequestWithError_reply h)

theorem Paired.afterTurn (hs : s.Paired) {source : Option ReplyChannel} {t : Turn}
    (hreplies : ∀ channel reply, .reply channel reply ∈ (s.task.turn true t).2.1 →
      s.Justified channel reply)
    (hwritten : ∀ request ∈ written source (s.task.turn true t).2.1, request ∈ s.asked)
    (hpending : ∀ pending, (s.task.turn true t).1.pendingRequest = some pending →
      ∀ channel, (s.Outstanding pending.kind channel ∨ ∃ message,
        (channel, message) ∈ written source (s.task.turn true t).2.1 ∧
          message.asks = some pending.kind) → channel = pending.channel) :
    (s.afterTurn source t).Paired := by
  obtain ⟨waiting, returned, heq, hreturned⟩ := s.afterTurn_eq source t
  rw [heq]
  refine { hs with unanswered := ?_, pending := ?_, returned := ?_ }
  · intro request hmem
    rcases List.mem_append.mp hmem with hmem | hmem
    · exact hs.unanswered request hmem
    · exact hwritten request hmem
  · intro pending hp channel hout
    refine hpending pending hp channel ?_
    rcases hout with ⟨request, hmem, hasks⟩ | harriving
    · rcases List.mem_append.mp hmem with hmem | hmem
      · exact .inl (.inl ⟨request, hmem, hasks⟩)
      · exact .inr ⟨request, hmem, hasks⟩
    · exact .inl (.inr harriving)
  · intro channel reply hmem message hm
    rcases hreturned channel reply hmem with h | hnone | h
    · exact hs.returned channel reply h message hm
    · cases hnone.symm.trans hm
    · exact hreplies channel reply h message hm

theorem written_none (actions : List TaskAction) : written none actions = [] := by
  rw [List.eq_nil_iff_forall_not_mem]
  rintro ⟨channel, message⟩ hmem
  cases (mem_written hmem).1

theorem Paired.afterTurn_none (hs : s.Paired) {t : Turn} (ht : ∀ c sent, t ≠ .command c sent)
    (hreplies : ∀ channel reply, .reply channel reply ∈ (s.task.turn true t).2.1 →
      s.Justified channel reply) : (s.afterTurn none t).Paired := by
  refine hs.afterTurn hreplies ?_ ?_
  · simp [written_none]
  · intro pending hp channel hout
    simp only [written_none, List.not_mem_nil, false_and, exists_false, or_false] at hout
    rcases PeerTask.turn_pending hp with hold | ⟨-, c, -, hc, -⟩
    · exact hs.pending pending hold channel hout
    · exact absurd hc (ht _ _)

/-- Only a message of the remote side makes a call return with an answer. -/
theorem Paired.afterTurn_quiet (hs : s.Paired) {t : Turn} (ht : ∀ c sent, t ≠ .command c sent)
    (hr : ∀ m a n, t ≠ .received m a n) : (s.afterTurn none t).Paired := by
  refine hs.afterTurn_none ht ?_
  intro channel reply hmem message hm
  rcases PeerTask.turn_reply hmem with hnone | ⟨m, a, n, -, ht, -⟩
  · cases hnone.symm.trans hm
  · exact absurd ht (hr _ _ _)

theorem Paired.command (hs : s.Paired) {command : PeerCommand} {rest : List PeerCommand}
    {sent : Except IoError Unit} (hc : s.commands = command :: rest) (halone : s.Alone command) :
    ({ s with commands := rest }.afterTurn (command.request.map Prod.fst)
      (.command command sent)).Paired := by
  have hrest : Paired { s with commands := rest } :=
    { hs with commands := fun c h => hs.commands c (hc ▸ List.mem_cons_of_mem _ h) }
  -- what the round writes is the request of the command
  have hown : ∀ channel message, (channel, message) ∈ written (command.request.map Prod.fst)
      (s.task.turn true (.command command sent)).2.1 →
      s.task.pendingRequest = none ∧ command.request = some (channel, message) := by
    intro channel message hmem
    obtain ⟨hsource, -, hwrite⟩ := mem_written hmem
    obtain ⟨⟨channel', request⟩, hrequest, rfl⟩ := Option.map_eq_some_iff.mp hsource
    obtain ⟨hnone, rfl⟩ := PeerTask.handlePeerCommand_write hrequest hwrite
    exact ⟨hnone, hrequest⟩
  refine hrest.afterTurn ?_ ?_ ?_
  · intro channel reply hmem message hm
    cases (PeerTask.handlePeerCommand_reply hmem).symm.trans hm
  · intro request hmem
    exact hs.commands command (hc ▸ List.mem_cons_self ..) request (hown _ _ hmem).2
  · intro pending hp channel hout
    rcases PeerTask.turn_pending hp with hold | ⟨hnone, c, message, ht, hrequest, hasks⟩
    · rcases hout with hout | ⟨message, hmem, -⟩
      · exact hs.pending pending hold channel hout
      · cases hold.symm.trans (hown _ _ hmem).1
    · cases ht
      rcases hout with hout | ⟨message', hmem, -⟩
      · exact absurd hout (halone hnone _ _ _ hrequest hasks channel)
      · cases (hown _ _ hmem).2.symm.trans hrequest
        rfl

theorem Paired.receive (hs : s.Paired) {message : WireMessage} {channel : Option ReplyChannel}
    {rest : List (WireMessage × Option ReplyChannel)}
    {answer : Option (Except ServerError (List WireMessage))} {sendable : Nat}
    (hq : s.arriving = (message, channel) :: rest) :
    ({ s with arriving := rest }.afterTurn none (.received message answer sendable)).Paired := by
  have hsub : rest ⊆ s.arriving := hq ▸ List.subset_cons_self _ _
  have hrest : Paired { s with arriving := rest } :=
    { hs with
      arriving := fun a c h => hs.arriving a c (hsub h)
      spoken := fun m h => hs.spoken m (hsub h)
      pending := fun p hp c h => hs.pending p hp c (h.of_subset (List.Subset.refl _) hsub) }
  have hmem : (message, channel) ∈ s.arriving := hq ▸ List.mem_cons_self ..
  refine hrest.afterTurn_none (fun _ _ h => by cases h) ?_
  intro target reply hreply m hm
  rcases PeerTask.turn_reply hreply with hnone | ⟨m', a, n, pending, ht, hp, rfl, hanswer, hkind⟩
  · cases hnone.symm.trans hm
  · cases ht
    cases hanswer.symm.trans hm
    cases channel with
    | none => cases (hs.spoken message hmem).symm.trans hkind
    | some channel =>
      -- the answer belongs to the request in flight, as no other of its kind is outstanding
      obtain rfl := hs.pending pending hp channel (.inr ⟨message, hmem, hkind⟩)
      exact hs.arriving message pending.channel hmem

theorem Paired.step {s' : Session} (hs : s.Paired) (h : Step Alone s s') : s'.Paired := by
  cases h with
  | requestTip hw =>
    refine hs.call _ ?_
    rintro _ ⟨⟩
    rfl
  | requestBlock blockHash hw =>
    refine hs.call _ ?_
    rintro _ ⟨⟩
    rfl
  | announce message hm hw =>
    refine hs.call _ ?_
    rintro _ ⟨⟩
  | shutdown =>
    refine { hs with commands := ?_ }
    intro c hmem request hrequest
    rcases List.mem_append.mp hmem with hmem | hmem
    · exact hs.commands c hmem request hrequest
    · cases List.mem_singleton.mp hmem
      cases hrequest
  | giveUp => exact { hs with }
  | answer channel request answer rest hq ha => exact hs.answer hq ha
  | speak message hm => exact hs.speak hm
  | command command rest sent hr hrx hc ha => exact hs.command hc ha
  | commandsClosed hr hrx hc =>
    exact hs.afterTurn_quiet (fun _ _ h => by cases h) fun _ _ _ h => by cases h
  | receive message channel rest answer sendable hr hq => exact hs.receive hq
  | readFailed e hr =>
    exact hs.afterTurn_quiet (fun _ _ h => by cases h) fun _ _ _ h => by cases h
  | deadline hr hd =>
    exact hs.afterTurn_quiet (fun _ _ h => by cases h) fun _ _ _ h => by cases h

/-- As long as every request is made with no earlier one of its kind outstanding, a call that
returns an answer returns that to its own request. -/
theorem answers_match (remoteHello : HelloMessage) (s : Session) (h : Run Alone remoteHello s) :
    s.AnswersMatch := by
  refine Paired.answersMatch ?_
  induction h with
  | refl => exact Paired.start remoteHello
  | tail _ hstep ih => exact ih.step hstep

section SampleSessions

def foundBlock : Block := ⟨⟨1, BlockHash.default, zeroBytes, 0, 0, 0⟩, []⟩

/-- The first request times out and its answer is read too late; the second is taken only then and
returns its own answer. -/
theorem answers_match_late : ∃ s, Run Alone plainHello s ∧ s.AnswersMatch ∧
    s.asked = [(0, .getBlock BlockHash.default), (1, .getBlock ⟨beBytes 32 1⟩)] ∧
    s.answered = [(0, .getBlock BlockHash.default, .block none),
      (1, .getBlock ⟨beBytes 32 1⟩, .block (some foundBlock))] ∧
    s.returned = [(0, .block (.error (.receive ⟨Text.ascii "peer request timed out"⟩))),
      (1, .block (.ok (some foundBlock)))] := by
  have hfirst := (((Relation.ReflTransGen.refl (r := Step Alone) (a := start plainHello)).tail
    (.requestBlock BlockHash.default rfl)).tail
    (.command _ _ (.ok ()) rfl rfl rfl (by simp [Alone, Outstanding, call, start]))).tail
    (.deadline rfl rfl)
  have hlate := (hfirst.tail (.answer 0 _ (.block none) [] rfl rfl)).tail
    (.receive _ _ _ (some (.ok [])) 0 rfl rfl)
  have hsecond := (hlate.tail (.requestBlock ⟨beBytes 32 1⟩ rfl)).tail
    (.command _ _ (.ok ()) rfl rfl rfl (by
      intro _ _ _ _ _ _ _ hout
      rcases hout with ⟨_, hmem, _⟩ | ⟨_, hmem, _⟩ <;> cases hmem))
  have hlast := (hsecond.tail (.answer 1 _ (.block (some foundBlock)) [] rfl rfl)).tail
    (.receive _ _ _ none 0 rfl rfl)
  exact ⟨_, hlast, answers_match _ _ hlast, rfl, rfl, rfl⟩

/-- The first request times out, the second is sent, and the late answer to the first is returned
by the second. -/
theorem late_answer_returned : ∃ s, Run (fun _ _ => True) plainHello s ∧
    s.asked = [(0, .getBlock BlockHash.default), (1, .getBlock ⟨beBytes 32 1⟩)] ∧
    s.answered = [(0, .getBlock BlockHash.default, .block none)] ∧
    (1, .block (.ok none)) ∈ s.returned ∧ ¬ s.AnswersMatch := by
  have hfirst := (((Relation.ReflTransGen.refl (r := Step fun _ _ => True)
    (a := start plainHello)).tail
    (.requestBlock BlockHash.default rfl)).tail
    (.command _ _ (.ok ()) rfl rfl rfl trivial)).tail (.deadline rfl rfl)
  have hsecond := (hfirst.tail (.requestBlock ⟨beBytes 32 1⟩ rfl)).tail
    (.command _ _ (.ok ()) rfl rfl rfl trivial)
  have hlate := (hsecond.tail (.answer 0 _ (.block none) _ rfl rfl)).tail
    (.receive _ _ _ none 0 rfl rfl)
  refine ⟨_, hlate, rfl, rfl, List.mem_cons_of_mem _ (List.mem_singleton_self _), ?_⟩
  intro hmatch
  have hgiven := (hmatch 1 (.getBlock ⟨beBytes 32 1⟩) (List.mem_cons_of_mem _
    (List.mem_singleton_self _))).2 none (List.mem_cons_of_mem _ (List.mem_singleton_self _))
  cases List.mem_singleton.mp hgiven

end SampleSessions

end Session

end Wobble
