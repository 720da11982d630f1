import Wobble.Server.PeerRecords
import Wobble.Server.SyncConverges

namespace Wobble

open Rust Io NodeState GrowingTree

theorem digit_toNat {c : Char} (h : c.isDigit = true) :
    48 ≤ c.toNat ∧ c.toNat ≤ 57 := by
  simp only [Char.isDigit, Bool.and_eq_true, decide_eq_true_eq] at h
  exact h

theorem digit_byte {c : Char} (h : c.isDigit = true) :
    (UInt8.ofNat c.toNat).toNat = c.toNat := by
  have hbounds := digit_toNat h
  rw [UInt8.toNat_ofNat']
  omega

theorem parseDigits_digits (value : Nat) (digits : List Char)
    (h : ∀ digit ∈ digits, digit.isDigit = true) (hlt : Nat.ofDigitChars 10 digits value < 2^64) :
    parseDigits value (digits.map fun digit => UInt8.ofNat digit.toNat) =
      some (Nat.ofDigitChars 10 digits value) := by
  induction digits generalizing value with
  | nil => exact if_pos hlt
  | cons digit rest ih =>
    have hhead := h digit List.mem_cons_self
    have hdigit : 48 ≤ UInt8.ofNat digit.toNat ∧ UInt8.ofNat digit.toNat ≤ 57 := by
      rw [UInt8.le_iff_toNat_le, UInt8.le_iff_toNat_le, digit_byte hhead]
      exact digit_toNat hhead
    rw [List.map_cons, parseDigits, if_pos hdigit, digit_byte hhead]
    rw [Nat.ofDigitChars_cons] at hlt ⊢
    exact ih _ (fun c hc => h c (List.mem_cons_of_mem _ hc)) hlt

/-- A text of digits has no sign. -/
theorem parseU64_digits (digits : List Char) (hne : digits ≠ [])
    (h : ∀ digit ∈ digits, digit.isDigit = true) :
    parseU64 (digits.map fun digit => UInt8.ofNat digit.toNat) =
      parseDigits 0 (digits.map fun digit => UInt8.ofNat digit.toNat) := by
  cases digits with
  | nil => exact absurd rfl hne
  | cons digit rest =>
    have hhead := h digit List.mem_cons_self
    have hsign : UInt8.ofNat digit.toNat ≠ 43 := by
      intro heq
      have hbyte := digit_byte hhead
      rw [heq] at hbyte
      have hlow := (digit_toNat hhead).1
      rw [← hbyte] at hlow
      exact absurd hlow (by decide)
    rw [List.map_cons, parseU64]
    · intro heq
      cases heq
    · intro _ _ heq
      exact absurd (List.cons.inj heq).1 hsign

/-- A timestamp is read as it was written. -/
theorem parseTimestampString_format (seconds : Nat) (h : seconds < 2^64) :
    parseTimestampString (formatTimestampString seconds) = some seconds := by
  have hvalue : Nat.ofDigitChars 10 (Nat.toDigits 10 seconds) 0 = seconds :=
    Nat.ofDigitChars_toDigits (by decide) le_rfl
  have hdigits : ∀ digit ∈ Nat.toDigits 10 seconds, digit.isDigit = true :=
    fun digit => Nat.isDigit_of_mem_toDigits (by decide) le_rfl
  have hparse := parseDigits_digits 0 (Nat.toDigits 10 seconds) hdigits (by rwa [hvalue])
  rw [hvalue] at hparse
  show (if timestampMark = timestampMark then _ else none) = _
  rw [if_pos rfl]
  exact (parseU64_digits _ Nat.toDigits_ne_nil hdigits).trans hparse

section Choice

variable [Crypto]

/-- Only time has passed. -/
structure Waits (live live' : Live) : Prop where
  server : live'.server = live.server
  trace : live'.trace = live.trace
  clock : live.clock ≤ live'.clock

theorem Waits.refl (live : Live) : Waits live live := ⟨rfl, rfl, le_rfl⟩

theorem Waits.trans {live₁ live₂ live₃ : Live} (h : Waits live₁ live₂) (h' : Waits live₂ live₃) :
    Waits live₁ live₃ :=
  ⟨h'.server.trans h.server, h'.trace.trans h.trace, h.clock.trans h'.clock⟩

namespace Server

variable {ε α : Type} {w : World}

/-- On this server the test of an element holds at a moment exactly if `T` does, and takes nothing
but time. -/
def Tests (w : World) (server : Server) (T : α → Nat → Prop) (test : α → ServerIo ε Bool) : Prop :=
  ∀ a live, live.server = server → ∃ live' b, test a w live = some (live', .ok b) ∧
    Waits live live' ∧ (b = true ↔ T a live.clock)

/-- What holds once holds later. -/
def Lasting (T : α → Nat → Prop) : Prop := ∀ a, Monotone (T a)

/-- What a search among elements in an order may find: the element passes at the end of the search
and comes before all that pass at its start. -/
structure FindsLeast {κ : Type} [LE κ] (key : α → κ) (rows : List α) (T : α → Nat → Prop)
    (now later : Nat) (found : Option α) : Prop where
  none : found = none → ∀ a ∈ rows, ¬ T a now
  some : ∀ a, found = some a → a ∈ rows ∧ T a later ∧ ∀ b ∈ rows, T b now → key a ≤ key b

theorem findFirst_sorted {κ : Type} [LinearOrder κ] {key : α → κ} {server : Server}
    {T : α → Nat → Prop} {test : α → ServerIo ε Bool} (htest : Tests w server T test)
    (hlast : Lasting T) (rows : List α) (hsorted : rows.Pairwise fun a b => key a ≤ key b)
    (live : Live) (hserver : live.server = server) :
    ∃ live' found, findFirst test rows w live = some (live', .ok found) ∧ Waits live live' ∧
      FindsLeast key rows T live.clock live'.clock found := by
  induction rows generalizing live with
  | nil =>
    refine ⟨live, none, rfl, .refl live, fun _ a ha => ?_, fun a ha => ?_⟩
    · cases ha
    · cases ha
  | cons a rest ih =>
    obtain ⟨hfirst, hrest⟩ := List.pairwise_cons.mp hsorted
    obtain ⟨live₁, b, heq, hwait, hb⟩ := htest a live hserver
    rw [findFirst, bind_of_ok heq]
    cases b with
    | true =>
      refine ⟨live₁, some a, rfl, hwait, fun h => ?_, fun found hfound => ?_⟩
      · cases h
      · cases hfound
        refine ⟨List.mem_cons_self, hlast a hwait.clock (hb.mp rfl), fun b hb _ => ?_⟩
        obtain rfl | hb := List.mem_cons.mp hb
        · exact le_rfl
        · exact hfirst b hb
    | false =>
      have hfails : ¬ T a live.clock := by
        intro h
        exact absurd (hb.mpr h) Bool.false_ne_true
      obtain ⟨live', found, hfind, hwait', hfound⟩ := ih hrest live₁ (hwait.server.trans hserver)
      refine ⟨live', found, hfind, hwait.trans hwait', fun h b hb hT => ?_, fun found h => ?_⟩
      · obtain rfl | hb := List.mem_cons.mp hb
        · exact hfails hT
        · exact hfound.none h b hb (hlast b hwait.clock hT)
      · obtain ⟨hmem, hpasses, hleast⟩ := hfound.some found h
        refine ⟨List.mem_cons_of_mem a hmem, hpasses, fun b hb hT => ?_⟩
        obtain rfl | hb := List.mem_cons.mp hb
        · exact absurd hT hfails
        · exact hleast b hb (hlast b hwait.clock hT)

/-- The order of the rows before they are sorted does not matter. -/
theorem findFirst_orderBy {κ : Type} [LinearOrder κ] {key : α → κ} {server : Server}
    {T : α → Nat → Prop} {test : α → ServerIo ε Bool} (htest : Tests w server T test)
    (hlast : Lasting T) (rows : List α) (live : Live) (hserver : live.server = server) :
    ∃ live' found, findFirst test (Sql.orderBy key rows) w live = some (live', .ok found) ∧
      Waits live live' ∧ FindsLeast key rows T live.clock live'.clock found := by
  obtain ⟨live', found, heq, hwait, hfound⟩ := findFirst_sorted htest hlast
    (Sql.orderBy key rows) (Sql.orderBy_sorted key rows) live hserver
  have hmem (a : α) : a ∈ Sql.orderBy key rows ↔ a ∈ rows := (Sql.orderBy_perm key rows).mem_iff
  refine ⟨live', found, heq, hwait, fun h a ha => ?_, fun a h => ?_⟩
  · exact hfound.none h a ((hmem a).mpr ha)
  · obtain ⟨hin, hpasses, hleast⟩ := hfound.some a h
    exact ⟨(hmem a).mp hin, hpasses, fun b hb => hleast b ((hmem b).mpr hb)⟩

/-- A condition that does not depend on time, checked on the answer of a test. -/
theorem Tests.and {server : Server} {T : α → Nat → Prop} {test : α → ServerIo ε Bool}
    (htest : Tests w server T test) (p : α → Bool) :
    Tests w server (fun a time => T a time ∧ p a = true) fun a => do
      let ready ← test a
      return ready && p a := by
  intro a live hserver
  obtain ⟨live', b, heq, hwait, hb⟩ := htest a live hserver
  refine ⟨live', b && p a, bind_of_ok heq _, hwait, ?_⟩
  rw [Bool.and_eq_true, hb]

end Server

/-- The last attempt to connect to the peer, if any, is five seconds ago. -/
def StoredPeer.ReadyAt (peer : StoredPeer) (now : Nat) : Prop :=
  ∀ seconds, peer.lastConnectAt.bind parseTimestampString = some seconds →
    seconds + Server.configuredPeerSyncCooldown ≤ now

omit [Crypto] in
/-- An attempt keeps the peer on its cooldown. -/
theorem StoredPeer.ReadyAt.cooled {peer : StoredPeer} {now seconds : Nat} (h : peer.ReadyAt now)
    (hlast : peer.lastConnectAt = some (formatTimestampString seconds)) (hlt : seconds < 2^64) :
    seconds + 5 ≤ now := by
  refine h seconds ?_
  rw [hlast, Option.bind_some, parseTimestampString_format seconds hlt]

/-- The peer advertised a height above the server's, or a tip the server does not have. -/
def Server.SeemsAhead (server : Server) (peer : StoredPeer) : Prop :=
  server.state.tipSummary.height.getD 0 < peer.advertisedHeight.getD 0 ∨
    ∃ tip, peer.advertisedTipHash = some tip ∧ server.state.getBlock tip = none

/-- What `select_sync_peers` may return if it is called at `now` and returns at `later`. -/
inductive SyncChoice (server : Server) (now later : Nat) : List PeerEndpoint → Prop
  | ahead (addr : Text) (runtime : RuntimePeer) (hget : server.peers.get addr = some runtime)
      (hahead : server.SeemsAhead runtime.stored) (hready : runtime.stored.ReadyAt later)
      (hbest : ∀ addr' other, server.peers.get addr' = some other →
        server.SeemsAhead other.stored → other.stored.ReadyAt now →
        Server.syncOrder runtime.stored ≤ Server.syncOrder other.stored) :
      SyncChoice server now later [runtime.stored.endpoint]
  | unknown (hnone : ∀ addr other, server.peers.get addr = some other →
        server.SeemsAhead other.stored → ¬ other.stored.ReadyAt now)
      (addr : Text) (runtime : RuntimePeer) (hget : server.peers.get addr = some runtime)
      (hheight : runtime.stored.advertisedHeight = none) (hready : runtime.stored.ReadyAt later)
      (hfirst : ∀ addr' other, server.peers.get addr' = some other →
        other.stored.advertisedHeight = none → other.stored.ReadyAt now → addr ≤ addr') :
      SyncChoice server now later [runtime.endpoint]
  | nobody (hnone : ∀ addr other, server.peers.get addr = some other →
        server.SeemsAhead other.stored ∨ other.stored.advertisedHeight = none →
        ¬ other.stored.ReadyAt now) :
      SyncChoice server now later []

namespace Server

variable {ε : Type} {w : World}

theorem peerIsReadyForSync_tests (server : Server) :
    Tests w server (fun peer time => peer.ReadyAt (w.currentUnixSeconds time))
      (peerIsReadyForSync : StoredPeer → ServerIo ε Bool) := by
  intro peer live _
  rw [peerIsReadyForSync]
  cases hlast : peer.lastConnectAt.bind parseTimestampString with
  | none =>
    refine ⟨live, true, rfl, .refl live, iff_of_true rfl fun seconds h => ?_⟩
    cases hlast.symm.trans h
  | some seconds =>
    refine ⟨live.tick, _, rfl, ⟨rfl, rfl, Nat.le_succ _⟩, ?_⟩
    rw [decide_eq_true_iff]
    constructor
    · intro h seconds' heq
      obtain rfl := Option.some.inj (hlast.symm.trans heq)
      have hsince : 5 ≤ w.currentUnixSeconds live.clock - seconds := h
      show seconds + 5 ≤ w.currentUnixSeconds live.clock
      omega
    · intro h
      have hle : seconds + 5 ≤ w.currentUnixSeconds live.clock := h seconds hlast
      show 5 ≤ w.currentUnixSeconds live.clock - seconds
      omega

omit [Crypto] in
theorem ready_lasting (hclock : Monotone w.currentUnixSeconds) :
    Lasting fun (peer : StoredPeer) time => peer.ReadyAt (w.currentUnixSeconds time) := by
  intro peer time time' hle h seconds heq
  exact (h seconds heq).trans (hclock hle)

/-- The test of `select_sync_peers`, apart from the cooldown. -/
def seemsAhead (server : Server) (peer : StoredPeer) : Bool :=
  decide (server.state.tipSummary.height.getD 0 < peer.advertisedHeight.getD 0) ||
    match peer.advertisedTipHash with
    | some tip => (server.state.getBlock tip).isNone
    | none => false

theorem seemsAhead_iff (server : Server) (peer : StoredPeer) :
    server.seemsAhead peer = true ↔ server.SeemsAhead peer := by
  rw [seemsAhead, Bool.or_eq_true, decide_eq_true_iff, SeemsAhead]
  cases peer.advertisedTipHash with
  | none => simp
  | some tip => simp

/-- The search among the peers that seem to be ahead. -/
def findAhead (server : Server) : ServerIo ε (Option StoredPeer) :=
  findFirst (fun peer => do
      let ready ← peerIsReadyForSync peer
      return ready && server.seemsAhead peer)
    (Sql.orderBy syncOrder (server.peers.iter.map fun entry => entry.2.stored))

def isUnknown (server : Server) (peer : PeerEndpoint) : ServerIo ε Bool :=
  match server.peers.get peer.addr with
  | some runtime =>
    if runtime.stored.advertisedHeight.isNone then peerEndpointIsReadyForSync peer
    else return false
  | none => peerEndpointIsReadyForSync peer

/-- The search among the peers of unknown height. -/
def findUnknown (server : Server) : ServerIo ε (Option PeerEndpoint) :=
  findFirst server.isUnknown server.peerEndpoints

theorem selectSyncPeers_eq : (selectSyncPeers : ServerIo ε (List PeerEndpoint)) = (do
    let server ← self
    let best ← findAhead server
    match best with
    | some best => return [best.endpoint]
    | none => do
      let fallback ← findUnknown server
      return fallback.toList) := rfl

theorem mem_stored (server : Server) (peer : StoredPeer) :
    peer ∈ server.peers.iter.map (fun entry => entry.2.stored) ↔
      ∃ addr runtime, server.peers.get addr = some runtime ∧ runtime.stored = peer := by
  rw [List.mem_map]
  constructor
  · intro h
    obtain ⟨entry, hmem, heq⟩ := h
    exact ⟨entry.1, entry.2, (HashMap.mem_iter _ _ _).mp hmem, heq⟩
  · intro h
    obtain ⟨addr, runtime, hget, heq⟩ := h
    exact ⟨(addr, runtime), (HashMap.mem_iter _ _ _).mpr hget, heq⟩

theorem findAhead_spec (hclock : Monotone w.currentUnixSeconds) (live : Live) :
    ∃ live' best, findAhead live.server w live = some (live', (.ok best : Res ε _)) ∧
      Waits live live' ∧ FindsLeast syncOrder (live.server.peers.iter.map fun entry => entry.2.stored)
        (fun peer time => peer.ReadyAt (w.currentUnixSeconds time) ∧
          live.server.seemsAhead peer = true) live.clock live'.clock best := by
  have hlast : Lasting fun (peer : StoredPeer) time =>
      peer.ReadyAt (w.currentUnixSeconds time) ∧ live.server.seemsAhead peer = true :=
    fun peer time time' hle h => ⟨ready_lasting hclock peer hle h.1, h.2⟩
  exact findFirst_orderBy ((peerIsReadyForSync_tests live.server).and live.server.seemsAhead) hlast
    _ live rfl

/-- Every peer stands under its address. -/
def Addressed (server : Server) : Prop :=
  ∀ addr runtime, server.peers.get addr = some runtime → runtime.endpoint.addr = addr

theorem Addressed.modifyPeer {server : Server} (h : server.Addressed) (addr : Text)
    (f : RuntimePeer → RuntimePeer)
    (hf : ∀ runtime, runtime.endpoint.addr = addr → (f runtime).endpoint.addr = addr) :
    (server.modifyPeer addr f).Addressed := by
  intro a runtime hruntime
  obtain hruntime | ⟨old, rfl, hold, rfl⟩ := modifyPeer_get hruntime
  · exact h a runtime hruntime
  · exact hf old (h a old hold)

theorem Addressed.upsertRuntimePeer {server : Server} (h : server.Addressed) (peer : StoredPeer) :
    (server.upsertRuntimePeer peer).Addressed := by
  intro addr runtime hruntime
  obtain ⟨haddr, hendpoint, -⟩ | ⟨-, hruntime⟩ := upsertRuntimePeer_get hruntime
  · rw [hendpoint, haddr]
    rfl
  · exact h addr runtime hruntime

theorem Addressed.frame (w : World) : PeerFrame w fun live => live.server.Addressed where
  same live₁ live₂ hsame h := by
    intro addr runtime hruntime
    rw [hsame.1] at hruntime
    exact h addr runtime hruntime
  ensures live endpoint source h := by
    intro addr runtime hruntime
    obtain hruntime | ⟨rfl, rfl⟩ := ensureRuntimePeer_get hruntime
    · exact h addr runtime hruntime
    · rfl
  touches live addr f hf h := by
    refine h.modifyPeer addr f fun runtime haddr => ?_
    rw [(hf runtime).1]
    exact haddr
  records _ _ _ _ _ _ _ h := h.upsertRuntimePeer _
  unsaved _ _ _ _ _ _ _ _ h := h.upsertRuntimePeer _
  unstored live addr f _ hf h := by
    refine h.modifyPeer addr f fun runtime haddr => ?_
    obtain hsame | hgiven := (hf runtime).2
    · rw [hsame]
      exact haddr
    · exact hgiven

theorem Addressed.start (options : ServerOptions) (miner : Option Miner) :
    Addressed { Server.new options with miner := miner } := by
  intro addr runtime hruntime
  obtain ⟨peer, rfl, rfl⟩ := new_get hruntime
  rfl

/-- Nothing is known of the peer's chain and it is not on its cooldown. -/
def UnknownAt (server : Server) (peer : PeerEndpoint) (now : Nat) : Prop :=
  ∀ runtime, server.peers.get peer.addr = some runtime →
    runtime.stored.advertisedHeight = none ∧ runtime.stored.ReadyAt now

theorem isUnknown_tests (server : Server) :
    Tests w server (fun peer time => server.UnknownAt peer (w.currentUnixSeconds time))
      (server.isUnknown : PeerEndpoint → ServerIo ε Bool) := by
  intro peer live hserver
  have hself : (self : ServerIo ε Server) w live = some (live, .ok server) := by
    rw [← hserver]
    rfl
  cases hget : server.peers.get peer.addr with
  | none =>
    have hready : (server.isUnknown peer : ServerIo ε Bool) w live = some (live, .ok true) := by
      rw [isUnknown, hget]
      dsimp only
      rw [peerEndpointIsReadyForSync, bind_of_ok hself, hget]
      rfl
    refine ⟨live, true, hready, .refl live, iff_of_true rfl fun runtime h => ?_⟩
    cases hget.symm.trans h
  | some runtime =>
    cases hheight : runtime.stored.advertisedHeight with
    | some height =>
      have hknown : (server.isUnknown peer : ServerIo ε Bool) w live = some (live, .ok false) := by
        rw [isUnknown, hget]
        dsimp only
        rw [hheight]
        rfl
      refine ⟨live, false, hknown, .refl live, iff_of_false Bool.false_ne_true fun h => ?_⟩
      cases hheight.symm.trans (h runtime hget).1
    | none =>
      obtain ⟨live', b, heq, hwait, hb⟩ :=
        peerIsReadyForSync_tests (ε := ε) (w := w) server runtime.stored live hserver
      refine ⟨live', b, ?_, hwait, hb.trans ?_⟩
      · rw [isUnknown, hget]
        dsimp only
        rw [hheight, Option.isNone_none, if_pos rfl, peerEndpointIsReadyForSync, bind_of_ok hself,
          hget]
        exact heq
      · constructor
        · intro h runtime' hget'
          obtain rfl := Option.some.inj (hget.symm.trans hget')
          exact ⟨hheight, h⟩
        · intro h
          exact (h runtime hget).2

theorem findUnknown_spec (hclock : Monotone w.currentUnixSeconds) (live : Live) :
    ∃ live' found, findUnknown live.server w live = some (live', (.ok found : Res ε _)) ∧
      Waits live live' ∧
      FindsLeast PeerEndpoint.addr (live.server.peers.iter.map fun entry => entry.2.endpoint)
        (fun peer time => live.server.UnknownAt peer (w.currentUnixSeconds time))
        live.clock live'.clock found := by
  have hlast : Lasting fun (peer : PeerEndpoint) time =>
      live.server.UnknownAt peer (w.currentUnixSeconds time) := by
    intro peer time time' hle h runtime hget
    obtain ⟨hheight, hready⟩ := h runtime hget
    exact ⟨hheight, ready_lasting hclock runtime.stored hle hready⟩
  exact findFirst_orderBy (isUnknown_tests live.server) hlast _ live rfl

/-- The choice of a peer to sync from: it takes nothing but time, and while the clock does not go
back it is one that `SyncChoice` allows. -/
theorem selectSyncPeers_spec (hclock : Monotone w.currentUnixSeconds) (live : Live)
    (haddressed : live.server.Addressed) :
    ∃ live' chosen, selectSyncPeers w live = some (live', (.ok chosen : Res ε _)) ∧
      Waits live live' ∧ SyncChoice live.server (w.currentUnixSeconds live.clock)
        (w.currentUnixSeconds live'.clock) chosen := by
  obtain ⟨live₁, best, hahead, hwait₁, hbest⟩ := findAhead_spec (ε := ε) hclock live
  have hself : (self : ServerIo ε Server) w live = some (live, .ok live.server) := rfl
  rw [selectSyncPeers_eq, bind_of_ok hself, bind_of_ok hahead]
  cases best with
  | some peer =>
    obtain ⟨hmem, ⟨hready, hseems⟩, hleast⟩ := hbest.some peer rfl
    obtain ⟨addr, runtime, hget, rfl⟩ := (mem_stored _ peer).mp hmem
    refine ⟨live₁, _, rfl, hwait₁, .ahead addr runtime hget ((seemsAhead_iff _ _).mp hseems) hready
      fun addr' other hother hseems' hready' => ?_⟩
    exact hleast other.stored ((mem_stored _ _).mpr ⟨addr', other, hother, rfl⟩)
      ⟨hready', (seemsAhead_iff _ _).mpr hseems'⟩
  | none =>
    have hnone (addr : Text) (other : RuntimePeer) (hget : live.server.peers.get addr = some other)
        (hseems : live.server.SeemsAhead other.stored) :
        ¬ other.stored.ReadyAt (w.currentUnixSeconds live.clock) := by
      intro hready
      exact hbest.none rfl other.stored ((mem_stored _ _).mpr ⟨addr, other, hget, rfl⟩)
        ⟨hready, (seemsAhead_iff _ _).mpr hseems⟩
    obtain ⟨live₂, found, hfind, hwait₂, hfound⟩ := findUnknown_spec (ε := ε) hclock live₁
    rw [hwait₁.server] at hfind hfound
    dsimp only
    rw [bind_of_ok hfind]
    have hunknown {addr : Text} {other : RuntimePeer}
        (hget : live.server.peers.get addr = some other)
        (hheight : other.stored.advertisedHeight = none)
        (hready : other.stored.ReadyAt (w.currentUnixSeconds live.clock)) :
        live.server.UnknownAt other.endpoint (w.currentUnixSeconds live₁.clock) := by
      intro runtime hruntime
      rw [haddressed addr other hget] at hruntime
      obtain rfl := Option.some.inj (hget.symm.trans hruntime)
      exact ⟨hheight, ready_lasting hclock _ hwait₁.clock hready⟩
    have hmem {addr : Text} {other : RuntimePeer}
        (hget : live.server.peers.get addr = some other) :
        other.endpoint ∈ live.server.peers.iter.map fun entry => entry.2.endpoint :=
      List.mem_map.mpr ⟨(addr, other), (HashMap.mem_iter _ _ _).mpr hget, rfl⟩
    refine ⟨live₂, found.toList, rfl, hwait₁.trans hwait₂, ?_⟩
    cases found with
    | some peer =>
      obtain ⟨hin, hpasses, hleast⟩ := hfound.some peer rfl
      obtain ⟨⟨addr, runtime⟩, hentry, rfl⟩ := List.mem_map.mp hin
      have hget := (HashMap.mem_iter _ _ _).mp hentry
      have haddr := haddressed addr runtime hget
      obtain ⟨hheight, hready⟩ := hpasses runtime (haddr.symm ▸ hget)
      refine .unknown hnone addr runtime hget hheight hready fun addr' other hget' hheight' hready' => ?_
      have hle := hleast other.endpoint (hmem hget') (hunknown hget' hheight' hready')
      rwa [haddr, haddressed addr' other hget'] at hle
    | none =>
      refine .nobody fun addr other hget hor hready => ?_
      obtain hseems | hheight := hor
      · exact hnone addr other hget hseems hready
      · exact hfound.none rfl other.endpoint (hmem hget) (hunknown hget hheight hready)

section Honest

variable {theirs : NodeState} {live : Live} {es : List ChainIndexEntry} (hw : w.Reliable)
  (hblocks : w.AnswersBlocks fun hash => .ok (theirs.getBlock hash))
  (htips : ∀ time session addr, w.requestTip time session addr = .ok theirs.tipSummary)
  (hr : live.StoreReadable) (ho : live.server.state.Complete) (ht : theirs.Complete)
  (hk : Kindred live.server.state theirs)
  (hp : Path entryView theirs.chain.get theirs.chain.bestTip es) (hrounds : es.length ≤ w.rounds)

include hw hblocks htips hr ho ht hk hp hrounds

end Honest

variable [Profile]

/-- After any events, a choice among the known peers turns to at most one of them, as `SyncChoice`
allows, and never to one that was noted as contacted in the last five seconds. -/
theorem sync_turns_to_best_peer (options : ServerOptions) (miner : Option Miner) (live : Live)
    (hrun : Relation.ReflTransGen (Serves fun _ => True)
      (Live.start { Server.new options with miner := miner }) live)
    (w : World) (hclock : Monotone w.currentUnixSeconds) :
    ∃ live' chosen, selectSyncPeers w live = some (live', (.ok chosen : Res ε _)) ∧
      Waits live live' ∧ SyncChoice live.server (w.currentUnixSeconds live.clock)
        (w.currentUnixSeconds live'.clock) chosen ∧
      ∀ peer ∈ chosen, ∃ addr runtime, live.server.peers.get addr = some runtime ∧
        (peer = runtime.stored.endpoint ∨ peer = runtime.endpoint) ∧
        ∀ seconds < 2^64, runtime.stored.lastConnectAt = some (formatTimestampString seconds) →
          seconds + 5 ≤ w.currentUnixSeconds live'.clock := by
  have haddressed : live.server.Addressed :=
    serves_run (fun w _ => Addressed.frame w) hrun (Addressed.start options miner)
  obtain ⟨live', chosen, hselect, hwait, hchoice⟩ :=
    selectSyncPeers_spec (ε := ε) hclock live haddressed
  refine ⟨live', chosen, hselect, hwait, hchoice, fun peer hpeer => ?_⟩
  cases hchoice with
  | ahead addr runtime hget _ hready =>
    refine ⟨addr, runtime, hget, .inl (List.mem_singleton.mp hpeer), fun seconds hlt hlast => ?_⟩
    exact hready.cooled hlast hlt
  | unknown _ addr runtime hget _ hready =>
    refine ⟨addr, runtime, hget, .inr (List.mem_singleton.mp hpeer), fun seconds hlt hlast => ?_⟩
    exact hready.cooled hlast hlt
  | nobody => cases hpeer

end Server

end Choice

section SampleTick

attribute [local instance] NodeState.sampleCrypto NodeState.sampleProfile

/-- A node with genesis and a database that is given four peers. -/
def fourPeersOptions : ServerOptions :=
  { plainOptions sampleChain with
    peers := [⟨⟨[97]⟩, none⟩, ⟨⟨[98]⟩, none⟩, ⟨⟨[99]⟩, none⟩, ⟨⟨[100]⟩, none⟩]
    sqliteStore := some (savedStore sampleChain) }

def fourPeersServer : Live := .start { Server.new fourPeersOptions with miner := none }

def tipAnnounced (addr : UInt8) (height : Nat) : ServerEvent :=
  .peerMessage (some ⟨some ⟨[addr]⟩, none⟩) (.announceTip ⟨none, some height⟩)

def announcedServer : Live :=
  served (tipAnnounced 97 1) (served (tipAnnounced 100 5) (served (tipAnnounced 98 9)
    (served (tipAnnounced 99 5) fourPeersServer)))

/-- Then a tick turned to the second peer, which has the greatest height, and could not reach it. -/
def missedServer : Live := served .syncTick announcedServer

theorem missedServer_serves :
    Relation.ReflTransGen (Server.Serves fun _ => True) fourPeersServer missedServer := by
  have hrun {live live' : Live} (event : ServerEvent)
      (h : Relation.ReflTransGen (Server.Serves fun _ => True) live live')
      (hsome : (serve event live').isSome = true) :
      Relation.ReflTransGen (Server.Serves fun _ => True) live (served event live') :=
    h.tail (served_serves trivial event live' hsome)
  refine hrun .syncTick (hrun _ (hrun _ (hrun _ (hrun _ .refl ?_) ?_) ?_) ?_) ?_
  all_goals decide +kernel

/-- Three seconds after the attempt. -/
def threeSecondsLater : World := { Server.blocklessWorld with currentUnixSeconds := fun _ => 3 }

/-- The second peer, of the greatest height, is on its cooldown, and of the two that come after it
the one of the lesser address is chosen. -/
theorem missedServer_chooses :
    (missedServer.server.peers.get ⟨[98]⟩).map (fun peer =>
      (peer.stored.advertisedHeight, peer.stored.lastConnectAt)) =
        some (some 9, some (formatTimestampString 0)) ∧
    ∃ live', Server.selectSyncPeers threeSecondsLater missedServer =
        some (live', (.ok [⟨⟨[99]⟩, none⟩] : Res ServerError _)) ∧
      Waits missedServer live' ∧ SyncChoice missedServer.server 3 3 [⟨⟨[99]⟩, none⟩] := by
  refine ⟨by decide +kernel, ?_⟩
  obtain ⟨live', chosen, hselect, hwait, hchoice, -⟩ := Server.sync_turns_to_best_peer
    (ε := ServerError) fourPeersOptions none missedServer missedServer_serves threeSecondsLater
    monotone_const
  have hchosen : ((Server.selectSyncPeers (ε := ServerError) threeSecondsLater missedServer).bind
      fun result => result.2.toOption) = some [⟨⟨[99]⟩, none⟩] := by
    decide +kernel
  rw [hselect] at hchosen
  obtain rfl := Option.some.inj hchosen
  exact ⟨live', hselect, hwait, hchoice⟩

end SampleTick

end Wobble
