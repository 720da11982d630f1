import Mathlib.Data.List.DropRight
import Wobble.Peer.Task

namespace Wobble

open Rust

section Lines

variable {α : Type*} [DecidableEq α]

/-- One more symbol, after the finished lines and the unfinished one. A line ends with `stop`. -/
def splitStep (stop : α) (parts : List (List α) × List α) (symbol : α) : List (List α) × List α :=
  if symbol = stop then (parts.1 ++ [parts.2 ++ [symbol]], [])
  else (parts.1, parts.2 ++ [symbol])

def splitLines (stop : α) (stream : List α) : List (List α) × List α :=
  stream.foldl (splitStep stop) ([], [])

/-- The lines of a stream that has ended: a last one may lack its end. -/
def pieces (stop : α) (stream : List α) : List (List α) :=
  (splitLines stop stream).1 ++
    if (splitLines stop stream).2 = [] then [] else [(splitLines stop stream).2]

theorem splitLines_append_of_notMem (stop : α) (stream more : List α) (h : stop ∉ more) :
    splitLines stop (stream ++ more) =
      ((splitLines stop stream).1, (splitLines stop stream).2 ++ more) := by
  induction more generalizing stream with
  | nil => simp
  | cons symbol more ih =>
    have hne : symbol ≠ stop := fun heq => h (heq ▸ List.mem_cons_self ..)
    have hstep : splitLines stop (stream ++ [symbol]) =
        ((splitLines stop stream).1, (splitLines stop stream).2 ++ [symbol]) := by
      rw [splitLines, List.foldl_append]
      exact if_neg hne
    rw [List.append_cons, ih _ fun hmem => h (List.mem_cons_of_mem _ hmem), hstep]
    simp

theorem splitLines_append_stop (stop : α) (stream : List α) :
    splitLines stop (stream ++ [stop]) =
      ((splitLines stop stream).1 ++ [(splitLines stop stream).2 ++ [stop]], []) := by
  rw [splitLines, List.foldl_append]
  exact if_pos rfl

end Lines

def newline : UInt8 := 10

namespace WireMessage

/-- `parse` stands for the check of the text's encoding and `serde_json::from_str`. -/
def fromJsonLine (parse : List UInt8 → Except IoError WireMessage) (line : List UInt8) :
    Except IoError WireMessage :=
  parse (line.rdropWhile (· = newline))

end WireMessage

def receiveAsyncMessage (parse : List UInt8 → Except IoError WireMessage) (line : List UInt8) :
    Except IoError WireMessage :=
  if line = [] then .error ⟨Text.ascii "peer closed connection"⟩
  else WireMessage.fromJsonLine parse line

/-- A task with the stream it reads. -/
structure Reading where
  task : PeerTask
  -- whether the task is still in its loop
  running : Bool
  -- bytes the remote side writes that have not arrived
  coming : List UInt8
  -- bytes that have arrived and have not been read
  arrived : List UInt8
  -- the line of the read under way
  line : List UInt8
  -- all bytes read so far
  read : List UInt8
  -- whether a read has met the end of the stream
  atEnd : Bool
  decoded : List WireMessage

namespace Reading

def start (remoteHello : HelloMessage) (stream : List UInt8) : Reading :=
  ⟨.outbound remoteHello, true, stream, [], [], [], false, []⟩

def afterTurn (s : Reading) (t : Turn) : Reading :=
  { s with task := (s.task.turn true t).1, running := (s.task.turn true t).2.2 }

def readReturns (parse : List UInt8 → Except IoError WireMessage) (s : Reading)
    (answer : Option (Except ServerError (List WireMessage))) (sendable : Nat) : Reading :=
  match receiveAsyncMessage parse s.line with
  | .ok message => { s with line := [], decoded := s.decoded ++ [message] }.afterTurn
      (.received message answer sendable)
  | .error e => { s with line := [] }.afterTurn (.readFailed e)

/-- Another branch comes first: the read is dropped, and with it what it has taken. -/
def interrupt (s : Reading) (t : Turn) : Reading :=
  { s with line := [] }.afterTurn t

/-- One step of the network or of the task. `allowed` restricts when the task leaves its read for
another branch. -/
inductive Step (parse : List UInt8 → Except IoError WireMessage)
    (allowed : Reading → Turn → Prop) (s : Reading) : Reading → Prop where
  | arrive (chunk rest : List UInt8) (hc : s.coming = chunk ++ rest) :
      Step parse allowed s { s with coming := rest, arrived := s.arrived ++ chunk }
  -- the read takes bytes and goes on waiting
  | fill (taken rest : List UInt8) (hr : s.running = true) (ha : s.arrived = taken ++ rest)
      (hn : newline ∉ taken) :
      Step parse allowed s
        { s with arrived := rest, line := s.line ++ taken, read := s.read ++ taken }
  | lineEnds (rest : List UInt8) (answer : Option (Except ServerError (List WireMessage)))
      (sendable : Nat) (hr : s.running = true) (ha : s.arrived = newline :: rest) :
      Step parse allowed s (readReturns parse
        { s with arrived := rest, line := s.line ++ [newline], read := s.read ++ [newline] }
        answer sendable)
  | streamEnds (answer : Option (Except ServerError (List WireMessage))) (sendable : Nat)
      (hr : s.running = true) (hc : s.coming = []) (ha : s.arrived = []) :
      Step parse allowed s (readReturns parse { s with atEnd := true } answer sendable)
  -- the socket fails, or the read has taken too long
  | readFails (e : IoError) (hr : s.running = true) :
      Step parse allowed s (s.interrupt (.readFailed e))
  | interrupt (t : Turn) (hr : s.running = true) (he : s.task.enabled t = true)
      (ht : (∃ command sent, t = .command command sent) ∨ t = .commandsClosed ∨ t = .deadline)
      (ha : allowed s t) : Step parse allowed s (s.interrupt t)

def Run (parse : List UInt8 → Except IoError WireMessage) (allowed : Reading → Turn → Prop)
    (remoteHello : HelloMessage) (stream : List UInt8) (s : Reading) : Prop :=
  Relation.ReflTransGen (Step parse allowed) (start remoteHello stream) s

def lines (s : Reading) : List (List UInt8) :=
  if s.atEnd then pieces newline s.read else (splitLines newline s.read).1

/-- The messages decoded are those of the lines read so far, in order, and what has been read is
the front of the stream. -/
structure Exact (parse : List UInt8 → Except IoError WireMessage) (stream : List UInt8)
    (s : Reading) : Prop where
  bytes : s.read ++ s.arrived ++ s.coming = stream
  messages : s.decoded =
    s.lines.filterMap fun line => (WireMessage.fromJsonLine parse line).toOption

/-- The task leaves a read only before its first byte, or to end the session. -/
def Untorn (s : Reading) (t : Turn) : Prop :=
  s.line = [] ∨ (s.task.turn true t).2.2 = false

variable {parse : List UInt8 → Except IoError WireMessage} {stream : List UInt8} {s : Reading}

/-- While the task runs, the read under way holds all of the unfinished line. -/
structure Whole (parse : List UInt8 → Except IoError WireMessage) (stream : List UInt8)
    (s : Reading) : Prop extends Exact parse stream s where
  exhausted : s.atEnd = true → s.arrived = [] ∧ s.coming = [] ∧ s.line = []
  unfinished : s.running = true → s.atEnd = false → (splitLines newline s.read).2 = s.line

theorem Whole.start (remoteHello : HelloMessage) :
    (start remoteHello stream).Whole parse stream where
  bytes := rfl
  messages := rfl
  exhausted := fun h => by cases h
  unfinished := fun _ _ => rfl

theorem Whole.interrupt (hs : s.Whole parse stream) (hr : s.running = true) {t : Turn}
    (ht : s.Untorn t) : (s.interrupt t).Whole parse stream :=
  { hs with
    exhausted := fun h => ⟨(hs.exhausted h).1, (hs.exhausted h).2.1, rfl⟩
    unfinished := by
      intro hr' hend
      rcases ht with hline | hstop
      · exact (hs.unfinished hr hend).trans hline
      · cases hr'.symm.trans hstop }

theorem Whole.fill (hs : s.Whole parse stream) {taken rest : List UInt8}
    (ha : s.arrived = taken ++ rest) (hn : newline ∉ taken) :
    Whole parse stream
      { s with arrived := rest, line := s.line ++ taken, read := s.read ++ taken } := by
  have hsplit := splitLines_append_of_notMem newline s.read taken hn
  refine { bytes := ?_, messages := ?_, exhausted := ?_, unfinished := ?_ }
  · have hb := hs.bytes
    rw [ha] at hb
    simpa using hb
  · cases hend : s.atEnd with
    | true =>
      -- nothing is left to take
      obtain ⟨hnil, -⟩ := hs.exhausted hend
      obtain ⟨rfl, -⟩ := List.append_eq_nil_iff.mp (ha.symm.trans hnil)
      simpa [lines, hend] using hs.messages
    | false => simpa [lines, hend, hsplit] using hs.messages
  · intro hend
    obtain ⟨hnil, hc, hline⟩ := hs.exhausted hend
    obtain ⟨rfl, rfl⟩ := List.append_eq_nil_iff.mp (ha.symm.trans hnil)
    exact ⟨rfl, hc, by simpa using hline⟩
  · intro hr hend
    exact (congrArg Prod.snd hsplit).trans (congrArg (· ++ taken) (hs.unfinished hr hend))

/-- A returning read decodes one line, the last of those read so far. -/
theorem readReturns_whole (before : List (List UInt8))
    (answer : Option (Except ServerError (List WireMessage))) (sendable : Nat)
    (hbytes : s.read ++ s.arrived ++ s.coming = stream)
    (hdecoded : s.decoded =
      before.filterMap fun line => (WireMessage.fromJsonLine parse line).toOption)
    (hlines : s.lines = before ++ if s.line = [] then [] else [s.line])
    (hend : s.atEnd = true → s.arrived = [] ∧ s.coming = [])
    (hsplit : s.atEnd = false → (splitLines newline s.read).2 = []) :
    (readReturns parse s answer sendable).Whole parse stream := by
  have hmessages : ∀ decoded, s.decoded ++ decoded = s.lines.filterMap (fun line =>
      (WireMessage.fromJsonLine parse line).toOption) → ∀ t,
      ({ s with line := [], decoded := s.decoded ++ decoded }.afterTurn t).Whole parse stream := by
    intro decoded h t
    exact ⟨⟨hbytes, h⟩, fun h => ⟨(hend h).1, (hend h).2, rfl⟩, fun _ => hsplit⟩
  have hlast := congrArg (List.filterMap fun line =>
    (WireMessage.fromJsonLine parse line).toOption) hlines
  rw [List.filterMap_append, ← hdecoded] at hlast
  unfold readReturns receiveAsyncMessage
  by_cases hline : s.line = []
  · rw [if_pos hline]
    simpa using hmessages [] (by simpa [hline] using hlast.symm) _
  · rw [if_neg hline]
    cases hparse : WireMessage.fromJsonLine parse s.line with
    | ok message =>
      refine hmessages [message] ?_ _
      simpa [hline, hparse, Except.toOption] using hlast.symm
    | error e =>
      simpa using hmessages [] (by simpa [hline, hparse, Except.toOption] using hlast.symm) _

theorem Whole.lineEnds (hs : s.Whole parse stream) (hr : s.running = true) {rest : List UInt8}
    (ha : s.arrived = newline :: rest) (answer : Option (Except ServerError (List WireMessage)))
    (sendable : Nat) :
    (readReturns parse
      { s with arrived := rest, line := s.line ++ [newline], read := s.read ++ [newline] }
      answer sendable).Whole parse stream := by
  have hend : s.atEnd = false := by
    by_contra h
    cases ha.symm.trans (hs.exhausted (by simpa using h)).1
  have hsplit := splitLines_append_stop newline s.read
  rw [hs.unfinished hr hend] at hsplit
  have hbytes := hs.bytes
  have hmessages := hs.messages
  rw [ha] at hbytes
  rw [lines, hend] at hmessages
  refine readReturns_whole _ answer sendable ?_ hmessages
    ?_ ?_ ?_
  · simpa using hbytes
  · simp [lines, hend, hsplit]
  · exact fun h => by cases hend.symm.trans h
  · exact fun _ => congrArg Prod.snd hsplit

theorem Whole.streamEnds (hs : s.Whole parse stream) (hr : s.running = true) (hc : s.coming = [])
    (ha : s.arrived = []) (answer : Option (Except ServerError (List WireMessage)))
    (sendable : Nat) :
    (readReturns parse { s with atEnd := true } answer sendable).Whole parse stream := by
  cases hend : s.atEnd with
  | true =>
    have hline := (hs.exhausted hend).2.2
    have hmessages := hs.messages
    exact readReturns_whole _ answer sendable hs.bytes hmessages (by simp [lines, hend, hline])
      (fun _ => ⟨ha, hc⟩) fun h => by cases h
  | false =>
    have hmessages := hs.messages
    rw [lines, hend] at hmessages
    refine readReturns_whole _ answer sendable hs.bytes hmessages ?_ (fun _ => ⟨ha, hc⟩)
      fun h => by cases h
    simp [lines, pieces, hs.unfinished hr hend]

theorem Whole.step {s' : Reading} (hs : s.Whole parse stream) (h : Step parse Untorn s s') :
    s'.Whole parse stream := by
  cases h with
  | arrive chunk rest hc =>
    refine { hs with bytes := ?_, exhausted := ?_ }
    · have hb := hs.bytes
      rw [hc] at hb
      simpa using hb
    · intro hend
      obtain ⟨ha, hnil, hline⟩ := hs.exhausted hend
      obtain ⟨rfl, rfl⟩ := List.append_eq_nil_iff.mp (hc.symm.trans hnil)
      exact ⟨by simpa using ha, rfl, hline⟩
  | fill taken rest hr ha hn => exact hs.fill ha hn
  | lineEnds rest answer sendable hr ha => exact hs.lineEnds hr ha answer sendable
  | streamEnds answer sendable hr hc ha => exact hs.streamEnds hr hc ha answer sendable
  | readFails e hr => exact hs.interrupt hr (.inr rfl)
  | interrupt t hr he ht ha => exact hs.interrupt hr ha

/-- As long as the task turns to commands and deadlines only between lines, or to end the session,
it decodes every message of what it reads. -/
theorem decoded_exact (parse : List UInt8 → Except IoError WireMessage) (remoteHello : HelloMessage)
    (stream : List UInt8) (s : Reading) (h : Run parse Untorn remoteHello stream s) :
    s.Exact parse stream := by
  refine Whole.toExact ?_
  induction h with
  | refl => exact Whole.start remoteHello
  | tail _ hstep ih => exact ih.step hstep

section SampleStreams

def tipLine : List UInt8 := (Text.ascii "\x7b\"type\":\"get_tip\"\x7d").utf8

def sampleParse (text : List UInt8) : Except IoError WireMessage :=
  if text = tipLine then .ok .getTip else .error ⟨Text.ascii "expected value"⟩

def announcement : Turn := .command (.announce (.announceTip ⟨none, none⟩) 0) (.ok ())

/-- A line that arrives in two parts, with a command before the first. -/
theorem decoded_exact_parts : ∃ s,
    Run sampleParse Untorn plainHello (tipLine ++ [newline]) s ∧
    s.Exact sampleParse (tipLine ++ [newline]) ∧ s.decoded = [.getTip] := by
  have hcommand := ((Relation.ReflTransGen.refl (r := Step sampleParse Untorn)
    (a := start plainHello (tipLine ++ [newline]))).tail
    (.interrupt announcement rfl rfl (.inl ⟨_, _, rfl⟩) (.inl rfl)))
  have hparts := (((hcommand.tail (.arrive (tipLine.take 5) _ rfl)).tail
    (.fill (tipLine.take 5) [] rfl rfl (by decide))).tail
    (.arrive (tipLine.drop 5 ++ [newline]) [] rfl)).tail
    (.fill (tipLine.drop 5) [newline] rfl rfl (by decide))
  have hline := hparts.tail (.lineEnds [] (some (.ok [])) 0 rfl rfl)
  exact ⟨_, hline, decoded_exact _ _ _ _ hline, rfl⟩

/-- The same line with the command between the parts: it is not decoded. -/
theorem torn_line_lost : ∃ s,
    Run sampleParse (fun _ _ => True) plainHello (tipLine ++ [newline]) s ∧
    s.read = tipLine ++ [newline] ∧ s.running = false ∧ s.decoded = [] ∧
    ¬ s.Exact sampleParse (tipLine ++ [newline]) := by
  have hpart := ((Relation.ReflTransGen.refl (r := Step sampleParse fun _ _ => True)
    (a := start plainHello (tipLine ++ [newline]))).tail (.arrive (tipLine.take 5) _ rfl)).tail
    (.fill (tipLine.take 5) [] rfl rfl (by decide))
  have hrest := ((hpart.tail
    (.interrupt announcement rfl rfl (.inl ⟨_, _, rfl⟩) trivial)).tail
    (.arrive (tipLine.drop 5 ++ [newline]) [] rfl)).tail
    (.fill (tipLine.drop 5) [newline] rfl rfl (by decide))
  have hline := hrest.tail (.lineEnds [] (some (.ok [])) 0 rfl rfl)
  refine ⟨_, hline, rfl, rfl, rfl, ?_⟩
  intro hexact
  exact absurd hexact.messages (by decide)

end SampleStreams

end Reading

end Wobble
