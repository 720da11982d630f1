import Wobble.Peer.Task
import Wobble.Server.EventFrame
import Wobble.Server.SyncWalk

namespace Wobble

open Rust Io

section Tasks

variable [Crypto]

/-- The event loop, what has been sent to it, and the session tasks around it. -/
structure Presence where
  -- the ids of the tasks that have started and not ended
  tasks : List Text
  -- events that have been sent and not handled
  queue : List ServerEvent
  live : Live

def ServerEvent.Notifies : ServerEvent → Prop
  | .peerConnected _ | .peerDisconnected _ => True
  | _ => False

namespace Presence

/-- The server has been started, with or without a miner; no task has, and nothing has been
sent. -/
def start (options : ServerOptions) (miner : Option Miner) : Presence :=
  ⟨[], [], .start { Server.new options with miner := miner }⟩

section Steps

variable [Profile]

/-- One step of a task, of anyone else who sends events, or of the event loop. `allowed` restricts
which tasks start, and when. -/
inductive Step (allowed : Presence → Text → Prop) (s : Presence) : Presence → Prop where
  | taskStarts (id : Text) (ha : allowed s id) :
      Step allowed s
        { s with tasks := id :: s.tasks, queue := s.queue ++ [.peerConnected id] }
  | taskEnds (id : Text) (ht : id ∈ s.tasks) :
      Step allowed s
        { s with tasks := s.tasks.erase id, queue := s.queue ++ [.peerDisconnected id] }
  | send (event : ServerEvent) (he : ¬ event.Notifies) :
      Step allowed s { s with queue := s.queue ++ [event] }
  | handle (event : ServerEvent) (rest : List ServerEvent) (w : World) (live : Live)
      (r : Res ServerError Outcome) (hq : s.queue = event :: rest)
      (hr : Server.handleEvent event w s.live = some (live, r)) :
      Step allowed s { s with queue := rest, live := live }

def Run (allowed : Presence → Text → Prop) (options : ServerOptions) (miner : Option Miner)
    (s : Presence) : Prop :=
  Relation.ReflTransGen (Step allowed) (start options miner) s

end Steps

/-- With all notifications handled, exactly the ids of the running tasks are connected. -/
def Exact (s : Presence) : Prop :=
  (∀ event ∈ s.queue, ¬ event.Notifies) →
    ∀ id, s.live.server.connectedPeers.containsKey id = true ↔ id ∈ s.tasks

/-- A task starts only when the tasks before it with its id have ended. -/
def Unshared (s : Presence) (id : Text) : Prop := id ∉ s.tasks

omit [Crypto] in
def connectedAfter (id : Text) (connected : Bool) : ServerEvent → Bool
  | .peerConnected id' => connected || decide (id = id')
  | .peerDisconnected id' => connected && decide (id ≠ id')
  | _ => connected

omit [Crypto] in
theorem connectedAfter_of_not_notifies (id : Text) (connected : Bool) {event : ServerEvent}
    (h : ¬ event.Notifies) : connectedAfter id connected event = connected := by
  cases event <;> first | rfl | exact absurd trivial h

/-- An id will be connected, once the queue is handled, if and only if a task has it. -/
structure Settles (s : Presence) : Prop where
  nodup : s.tasks.Nodup
  settles : ∀ id, s.queue.foldl (connectedAfter id) (s.live.server.connectedPeers.containsKey id) =
    decide (id ∈ s.tasks)

theorem Settles.exact {s : Presence} (hs : s.Settles) : s.Exact := by
  intro hqueue id
  have hquiet : ∀ (queue : List ServerEvent) (connected : Bool),
      (∀ event ∈ queue, ¬ event.Notifies) →
      queue.foldl (connectedAfter id) connected = connected := by
    intro queue
    induction queue with
    | nil => exact fun _ _ => rfl
    | cons event rest ih =>
      intro connected h
      obtain ⟨hevent, hrest⟩ := List.forall_mem_cons.mp h
      rw [List.foldl_cons, connectedAfter_of_not_notifies id _ hevent, ih _ hrest]
  have hid := hs.settles id
  rw [hquiet _ _ hqueue] at hid
  rw [hid, decide_eq_true_iff]

variable [Profile]

/-- Handling an event changes the connected peers as the event says. -/
theorem handleEvent_connectedPeers (event : ServerEvent) (w : World) (live live' : Live)
    (r : Res ServerError Outcome) (h : Server.handleEvent event w live = some (live', r))
    (id : Text) : live'.server.connectedPeers.containsKey id =
      connectedAfter id (live.server.connectedPeers.containsKey id) event := by
  by_cases hn : event.Notifies
  · cases event with
    | peerConnected id' =>
      cases h
      by_cases heq : id = id' <;> simp [connectedAfter, HashMap.containsKey, heq]
    | peerDisconnected id' =>
      cases h
      by_cases heq : id = id' <;> simp [connectedAfter, HashMap.containsKey, heq]
    | _ => exact absurd hn not_false
  · -- no other event touches them
    let Same : Live → Live → Prop := fun live live' =>
      live'.server.connectedPeers = live.server.connectedPeers
    have hpre : IsPreorder Live Same :=
      { refl := fun _ => rfl, trans := fun _ _ _ h h' => Eq.trans h' h }
    have hframe : EventFrame Same :=
      { quiet := fun live live' hq => (congrArg Server.connectedPeers hq.1 :
          live'.server.withoutPeers.connectedPeers = live.server.withoutPeers.connectedPeers)
        requests := fun _ _ _ => rfl
        announces := fun _ _ _ => rfl
        stores := fun _ _ => rfl
        mines := fun live live' hm => (congrArg Server.connectedPeers hm.same.1 :
          live'.server.withoutMining.connectedPeers = live.server.withoutMining.connectedPeers)
        bootstraps := fun _ => rfl }
    have hcalls : StateFrame Same := ⟨fun _ _ => rfl, fun _ _ => rfl, fun _ _ _ _ _ => rfl⟩
    have hsame : Same live live' := Server.handleEvent_keeps hframe hcalls (fun _ _ _ => rfl) event
      (fun id heq => hn (heq ▸ trivial)) (fun id heq => hn (heq ▸ trivial)) w live live' r h
    rw [connectedAfter_of_not_notifies id _ hn, hsame]

theorem Settles.step {s s' : Presence} (hs : s.Settles) (h : Step Unshared s s') : s'.Settles := by
  cases h with
  | taskStarts id ha =>
    refine ⟨List.nodup_cons.mpr ⟨ha, hs.nodup⟩, fun id' => ?_⟩
    rw [List.foldl_append, hs.settles id']
    simp [connectedAfter, Bool.or_comm]
  | taskEnds id ht =>
    refine ⟨hs.nodup.erase id, fun id' => ?_⟩
    rw [List.foldl_append, hs.settles id']
    simp [connectedAfter, hs.nodup.mem_erase_iff, Bool.and_comm]
  | send event he =>
    refine ⟨hs.nodup, fun id => ?_⟩
    rw [List.foldl_append, hs.settles id]
    exact connectedAfter_of_not_notifies id _ he
  | handle event rest w live r hq hr =>
    refine ⟨hs.nodup, fun id => ?_⟩
    have hid := hs.settles id
    rw [hq, List.foldl_cons] at hid
    rw [handleEvent_connectedPeers event w _ _ r hr id]
    exact hid

/-- As long as no two tasks share an id at any time, the set of connected peers is exact. -/
theorem connectedPeers_exact (options : ServerOptions) (miner : Option Miner) (s : Presence)
    (h : Run Unshared options miner s) : s.Exact := by
  refine Settles.exact ?_
  induction h with
  | refl =>
    refine ⟨List.nodup_nil, fun id => ?_⟩
    simp [start, Live.start, Server.new, HashMap.containsKey]
  | tail _ hstep ih => exact ih.step hstep

end Presence

end Tasks

namespace Presence

section SamplePeers

attribute [local instance] NodeState.sampleCrypto NodeState.sampleProfile

def peerAddress : Text := Text.ascii "127.0.0.1:9001"

/-- A session that ends before the next to the same address is opened. -/
theorem connectedPeers_exact_in_turn : ∃ s, Run Unshared (plainOptions .new) none s ∧ s.Exact ∧
    s.tasks = [peerAddress] ∧ s.queue = [] ∧
    s.live.server.connectedPeers.containsKey peerAddress = true := by
  have hsessions := (((Relation.ReflTransGen.refl (r := Step Unshared)
    (a := start (plainOptions .new) none)).tail
    (.taskStarts peerAddress (by simp [Unshared, start]))).tail
    (.taskEnds peerAddress (List.mem_cons_self ..))).tail
    (.taskStarts peerAddress (by simp [Unshared, start]))
  have hhandled := ((hsessions.tail (.handle _ _ Server.blocklessWorld _ _ rfl rfl)).tail
    (.handle _ _ Server.blocklessWorld _ _ rfl rfl)).tail (.handle _ _ Server.blocklessWorld _ _ rfl rfl)
  exact ⟨_, hhandled, connectedPeers_exact _ _ _ hhandled, rfl, rfl, by decide⟩

/-- The session is replaced: the task of the new one has started, and the old one ends late. -/
theorem replaced_peer_forgotten : ∃ s, Run (fun _ _ => True) (plainOptions .new) none s ∧
    s.tasks = [peerAddress] ∧ s.queue = [] ∧
    s.live.server.connectedPeers.containsKey peerAddress = false ∧ ¬ s.Exact := by
  have hsessions := (((Relation.ReflTransGen.refl (r := Step fun _ _ => True)
    (a := start (plainOptions .new) none)).tail (.taskStarts peerAddress trivial)).tail
    (.taskStarts peerAddress trivial)).tail (.taskEnds peerAddress (List.mem_cons_self ..))
  have hhandled := ((hsessions.tail (.handle _ _ Server.blocklessWorld _ _ rfl rfl)).tail
    (.handle _ _ Server.blocklessWorld _ _ rfl rfl)).tail (.handle _ _ Server.blocklessWorld _ _ rfl rfl)
  refine ⟨_, hhandled, rfl, rfl, by decide, ?_⟩
  intro hexact
  have hin := (hexact (by simp) peerAddress).mpr (List.mem_singleton_self _)
  exact absurd hin (by decide)

end SamplePeers

end Presence

end Wobble
