import Wobble.Server.Handlers

namespace Wobble

open Rust

def Text.ascii (s : String) : Text := ⟨s.toList.map fun c => UInt8.ofNat c.toNat⟩

/-- Every request to a task comes with a channel of its own for the reply; channels are numbered. -/
abbrev ReplyChannel := Nat

inductive PeerCommand where
  | requestTip (reply : ReplyChannel)
  | requestBlock (blockHash : BlockHash) (reply : ReplyChannel)
  | announce (message : WireMessage) (reply : ReplyChannel)
  | shutdown
  deriving DecidableEq

inductive PendingRequest where
  | tip (reply : ReplyChannel)
  | block (reply : ReplyChannel)
  deriving DecidableEq

inductive PeerReply where
  | tip (result : Except RequestError TipSummary)
  | block (result : Except RequestError (Option Block))
  | announced (result : Except IoError Unit)
  deriving DecidableEq

inductive TaskAction where
  | write (message : WireMessage)
  | reply (channel : ReplyChannel) (reply : PeerReply)
  | forward (origin : PeerAddr) (message : WireMessage)
  | notifyTipSync (origin : PeerAddr) (summary : TipSummary)
  deriving DecidableEq

namespace PendingRequest

def fail (e : RequestError) : PendingRequest → TaskAction
  | .tip reply => .reply reply (.tip (.error e))
  | .block reply => .reply reply (.block (.error e))

/-- The action that completes the request, if the message is an answer of its kind. -/
def complete : PendingRequest → WireMessage → Option TaskAction
  | .tip reply, .tip summary => some (.reply reply (.tip (.ok summary)))
  | .block reply, .block found => some (.reply reply (.block (.ok found)))
  | _, _ => none

end PendingRequest

/-- The locals of `run_peer_task`. -/
structure PeerTask where
  pendingRequest : Option PendingRequest
  -- whether a deadline is set. When it passes is up to the clock
  pendingDeadline : Bool
  origin : PeerAddr
  -- whether there is a channel of commands
  commandRx : Bool
  deriving DecidableEq

/-- Which branch of the loop came first, and what the operations awaited in it returned. -/
inductive Turn where
  -- `sent` is the result of the write the command asks for
  | command (command : PeerCommand) (sent : Except IoError Unit)
  | commandsClosed
  -- `answer` is what the event loop replies, if it does, and `sendable` the number of replies that
  -- can be written
  | received (message : WireMessage) (answer : Option (Except ServerError (List WireMessage)))
      (sendable : Nat)
  | readFailed (e : IoError)
  | deadline

namespace PeerTask

def inbound : PeerTask := ⟨none, false, ⟨none, none⟩, false⟩

def outbound (remoteHello : HelloMessage) : PeerTask :=
  ⟨none, false, ⟨remoteHello.advertisedAddr, remoteHello.nodeName⟩, true⟩

def failPendingRequestWithError (task : PeerTask) (e : RequestError) : List TaskAction :=
  (task.pendingRequest.map (PendingRequest.fail e)).toList

/-- The two request commands differ in the message and in the kind of waiter they install. -/
def sendRequest (task : PeerTask) (message : WireMessage) (pending : PendingRequest)
    (sent : Except IoError Unit) : PeerTask × List TaskAction × Bool :=
  if task.pendingRequest.isSome then
    (task, [pending.fail (.receive ⟨Text.ascii "peer already has a pending request"⟩)], true)
  else match sent with
    | .ok () =>
      ({ task with pendingRequest := some pending, pendingDeadline := true },
        [.write message], true)
    | .error e => (task, [pending.fail (.send e)], false)

def handlePeerCommand (task : PeerTask) (sent : Except IoError Unit) :
    PeerCommand → PeerTask × List TaskAction × Bool
  | .requestTip reply => task.sendRequest .getTip (.tip reply) sent
  | .requestBlock blockHash reply => task.sendRequest (.getBlock blockHash) (.block reply) sent
  | .announce message reply =>
    match sent with
    | .ok () => (task, [.write message, .reply reply (.announced (.ok ()))], true)
    | .error e => (task, [.reply reply (.announced (.error e))], false)
  | .shutdown => (task, [], false)

def originAfter (task : PeerTask) : WireMessage → PeerAddr
  | .hello remoteHello => ⟨remoteHello.advertisedAddr, remoteHello.nodeName⟩
  | _ => task.origin

def tipSyncFor (origin : PeerAddr) : WireMessage → List TaskAction
  | .announceTip summary => [.notifyTipSync origin summary]
  | _ => []

/-- `handle` says whether the task has a handle on the event loop. -/
def handleInboundMessage (task : PeerTask) (handle : Bool) (message : WireMessage)
    (answer : Option (Except ServerError (List WireMessage))) (sendable : Nat) :
    PeerTask × List TaskAction × Bool :=
  match task.pendingRequest.bind (PendingRequest.complete · message) with
  | some completed =>
    ({ task with pendingRequest := none, pendingDeadline := false }, [completed], true)
  | none =>
    let origin := task.originAfter message
    let task := { task with origin := origin }
    if !handle then (task, [], true)
    else match answer with
      | some (.ok replies) =>
        let written := (replies.take sendable).map TaskAction.write
        if sendable < replies.length then (task, .forward origin message :: written, false)
        else (task, .forward origin message :: (written ++ tipSyncFor origin message), true)
      | _ => (task, [.forward origin message], false)

def turn (task : PeerTask) (handle : Bool) : Turn → PeerTask × List TaskAction × Bool
  | .command command sent => task.handlePeerCommand sent command
  | .commandsClosed => ({ task with commandRx := false }, [], true)
  | .received message answer sendable => task.handleInboundMessage handle message answer sendable
  | .readFailed e =>
    ({ task with pendingRequest := none }, task.failPendingRequestWithError (.receive e), false)
  | .deadline =>
    ({ task with pendingRequest := none, pendingDeadline := false },
      task.failPendingRequestWithError (.receive ⟨Text.ascii "peer request timed out"⟩), true)

def enabled (task : PeerTask) : Turn → Bool
  | .command _ _ | .commandsClosed => task.commandRx
  | .received _ _ _ | .readFailed _ => true
  | .deadline => task.pendingDeadline

def close (task : PeerTask) : List TaskAction :=
  task.failPendingRequestWithError (.receive ⟨Text.ascii "peer session closed"⟩)

/-- The rounds the loop goes through, each with what it did, until it is left. A branch that is
not enabled is never taken. -/
def run (handle : Bool) : PeerTask → List Turn → List (Turn × List TaskAction)
  | _, [] => []
  | task, t :: rest =>
    if task.enabled t then
      let (task', actions, goesOn) := task.turn handle t
      (t, actions) :: if goesOn then run handle task' rest else []
    else run handle task rest

end PeerTask

def plainHello : HelloMessage :=
  ⟨Text.ascii "wobble-local", protocolVersion, none, none, none, none⟩

end Wobble
