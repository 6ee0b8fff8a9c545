import Mimidb.PacketStream
import Mimidb.QueryReplies
import Mimidb.TableFormatter

/-!
# A client and its worker

The client sends the lines of its source as queries and prints what it reads
of the answers. Bytes go each way through the loop of `send`, the network and
the loop of `recv`, in parts of any size. What the queries do on the server is
up to the environment. A request is handled in one step, before its replies are
on their way: the client sees nothing else of it.
-/

namespace Mimidb

open TableFormatter (Text)

/-! ## Bytes under way -/

/-- What the bytes of a packet so far amount to. -/
inductive PacketReading where
  -- the call of `recv` under way asks for as many bytes
  | more (wanted : Nat)
  | failed (fault : Fault)
  | packet (packet : Packet)

/-- `ReceivePacket`. -/
def reading : List UInt8 → PacketReading
  | [] => .more 1
  | code :: rest =>
    match PacketType.ofCode code with
    | none => .failed (.runtimeError s!"Unknown packet type: {code}")
    | some type =>
      if rest.length < 4 then .more (4 - rest.length)
      else
        let length := decodeBE (rest.take 4)
        if length < 4 then .failed (.runtimeError s!"invalid length field value in packet: {length}")
        else if rest.length < length then .more (length - rest.length)
        else match Packet.deserialize type (rest.drop 4) with
          | .ok packet => .packet packet
          | .error fault => .failed fault

/-- One direction of a connection. -/
structure Direction where
  /-- The rest of the buffer of the loop of `send`. -/
  unsent : List UInt8
  wire : List UInt8
  /-- What `recv` has given of the packet that is read. -/
  received : List UInt8
  deriving DecidableEq

namespace Direction

def silent : Direction := ⟨[], [], []⟩

def send (d : Direction) (n : Nat) : Option Direction :=
  if 0 < n ∧ n ≤ d.unsent.length then some ⟨d.unsent.drop n, d.wire ++ d.unsent.take n, d.received⟩ else none

def recv (d : Direction) (n : Nat) : Option Direction :=
  match reading d.received with
  | .more wanted => if 0 < n ∧ n ≤ wanted ∧ n ≤ d.wire.length then some
      ⟨d.unsent, d.wire.drop n, d.received ++ d.wire.take n⟩ else none
  | _ => none

end Direction

/-! ## The source of the client -/

/-- `FDCommandSource::GetNextLine` on the rest of the file. -/
def getNextLine (command : Text) : List UInt8 → Option Text × List UInt8
  | [] => (if command = [] then none else some command, [])
  | c :: file =>
    if c = 10 then
      -- skip all leading empty lines
      if command = [] then getNextLine [] file else (some command, file)
    else getNextLine (command ++ [c]) file

/-- The line is the first one that is not empty. -/
theorem getNextLine_eq {command : Text} (hc : 10 ∉ command) (file : List UInt8) :
    ((command ++ file).splitOn 10).filter (· ≠ []) =
      (getNextLine command file).1.elim [] fun line => line :: ((getNextLine command file).2.splitOn 10).filter
        (· ≠ []) := by
  have hwhole : command.splitOn 10 = [command] :=
    List.splitOnP_eq_singleton fun c h => beq_eq_false_iff_ne.2 fun e => hc (e ▸ h)
  induction file generalizing command with
  | nil =>
    rw [List.append_nil, hwhole, getNextLine]
    by_cases he : command = []
    · simp [he]
    · simp [he]
  | cons c file ih =>
    rw [getNextLine]
    by_cases h10 : c = 10
    · have hsplit : (command ++ c :: file).splitOn 10 = [command] ++ file.splitOn 10 :=
        (List.splitOnP_append_cons command file (by simp [h10])).trans (congrArg (· ++ _) hwhole)
      rw [if_pos h10, hsplit]
      by_cases he : command = []
      · simpa [he] using ih (List.not_mem_nil) rfl
      · simp [he]
    · have hc' : 10 ∉ command ++ [c] := by
        simp [hc, Ne.symm h10]
      have hih := ih hc' (List.splitOnP_eq_singleton fun d h => beq_eq_false_iff_ne.2 fun e => hc' (e ▸ h))
      rw [List.append_assoc, List.singleton_append] at hih
      rw [if_neg h10, hih]

theorem getNextLine_rest (command : Text) (file : List UInt8) :
    (getNextLine command file).2.length ≤ file.length := by
  induction file generalizing command with
  | nil => exact Nat.le_refl _
  | cons c file ih =>
    rw [getNextLine]
    split_ifs
    · exact Nat.le_succ_of_le (ih [])
    · exact Nat.le_succ _
    · exact Nat.le_succ_of_le (ih _)

theorem getNextLine_shorter {file : List UInt8} {line : Text} (h : (getNextLine [] file).1 = some line) :
    (getNextLine [] file).2.length < file.length := by
  cases file with
  | nil => cases h
  | cons c file =>
    rw [getNextLine]
    split_ifs
    · exact Nat.lt_succ_of_le (getNextLine_rest [] file)
    · exact Nat.lt_succ_self _
    · exact Nat.lt_succ_of_le (getNextLine_rest _ file)

/-- The lines of the calls up to the first one without a line. -/
def fileLines (file : List UInt8) : List Text :=
  match _h : (getNextLine [] file).1 with
  | none => []
  | some line => line :: fileLines (getNextLine [] file).2
termination_by file.length
decreasing_by exact getNextLine_shorter _h

theorem fileLines_eq (file : List UInt8) : fileLines file = (file.splitOn 10).filter (· ≠ []) := by
  induction file using fileLines.induct with
  | case1 file h =>
    have heq := getNextLine_eq List.not_mem_nil file
    rw [h] at heq
    rw [fileLines]
    split
    · exact heq.symm
    · rename_i h'
      cases h.symm.trans h'
  | case2 file line h ih =>
    have heq := getNextLine_eq List.not_mem_nil file
    rw [h] at heq
    rw [fileLines]
    split
    · rename_i h'
      cases h.symm.trans h'
    · rename_i line' h'
      obtain rfl : line = line' := Option.some.inj (h.symm.trans h')
      exact (congrArg _ ih).trans heq.symm

/-! ## The client -/

def bytesOf (s : String) : Text := s.toUTF8.data.toList

/-- What `handleResponse` prints for a complete command. -/
def printComplete (dbg : Bool) (description : Option (List Text)) (rows : List (List (Option Text))) (tag : Text)
    (count : Int) :
    Except Fault Text :=
  match description with
  | some attributes => do
    let table ← TableFormatter.format dbg attributes rows
    return table ++ bytesOf (if 0 ≤ count then (if count = 1 then s!"({count} row)\n" else s!"({count} rows)\n")
      else "")
  | none => return tag ++ bytesOf (if 0 ≤ count then s!" {count}\n" else "\n")

/-- What one packet is for `handleResponse`. -/
inductive Handled where
  | waits (description : Option (List Text)) (rows : List (List (Option Text)))
  | prints (text : Text)
  | throws (fault : Fault)
  | exits

def handlePacket (dbg : Bool) (description : Option (List Text)) (rows : List (List (Option Text))) :
    Packet → Handled
  | .TupleDescription attributes => .waits (some attributes) rows
  | .DataRow values =>
    if description.isSome then .waits description (rows ++ [values])
    else .throws (.runtimeError "DataRow received before TupleDescription")
  | .CommandComplete tag count => match printComplete dbg description rows tag count.toInt with
    | .ok text => .prints text
    | .error fault => .throws fault
  | .ErrorResponse message => .prints (bytesOf "ERROR: " ++ message ++ [10])
  | .Query _ => .exits

inductive ClientPc where
  -- before `GetNextLine`
  | next
  -- in `handleResponse`
  | waiting (description : Option (List Text)) (rows : List (List (Option Text)))
  | stopped
  deriving DecidableEq

/-! ## Both sides -/

structure Connection (γ : Type) where
  interactive : Bool
  /-- The lines that `GetNextLine` has yet to give. -/
  source : List Text
  client : ClientPc
  toServer : Direction
  toClient : Direction
  session : Session γ
  /-- `handle_loop` has not ended. -/
  serving : Bool
  -- what was done so far, for the statements only
  asked : List Text
  answers : List (Text × List Reply)
  printed : List Text

inductive ConnectionOp (γ : Type) where
  | line
  | clientSend (n : Nat)
  | clientRecv (n : Nat)
  | clientHandle
  -- `recv` gives nothing
  | clientLost
  | serverSend (n : Nat)
  | serverRecv (n : Nat)
  | serverHandle (parsed : Except String (Statement γ)) (env : RequestEnv)
  | serverLost

namespace Connection

variable {γ : Type}

def start (interactive : Bool) (source : List Text) : Connection γ :=
  ⟨interactive, source, .next, .silent, .silent, .init, true, [], [], []⟩

def packetOf : Reply → Packet
  | .tupleDescription attrs => .TupleDescription (attrs.map bytesOf)
  | .dataRow values => .DataRow (values.map (Option.map bytesOf))
  | .commandComplete tag rows => .CommandComplete (bytesOf tag) (.ofInt 64 rows)
  | .errorResponse message => .ErrorResponse (bytesOf message)

/-- The request of a packet; a query comes with the result of its parsing. -/
def requestOf (parsed : Except String (Statement γ)) : Packet → Request γ
  | .Query _ => .query parsed
  | packet => .other packet.type.code.toNat

def queryOf : Packet → Text
  | .Query query => query
  | _ => []

/-- The replies that were sent while a request was handled. -/
def repliesTo (q : Request γ × RequestEnv) (s : Session γ) : List Reply :=
  (Session.eventsOf q s).filterMap Session.replyOf

def isWaiting (c : Connection γ) : Bool :=
  match c.client with
  | .waiting _ _ => true
  | _ => false

def step (dbg : Bool) (c : Connection γ) : ConnectionOp γ → Option (Connection γ)
  | .line =>
    match c.client, c.source with
    | .next, [] => some { c with client := .stopped }
    | .next, line :: source =>
      if line = [] ∨ (c.interactive = true ∧ line = bytesOf "\\q") then some
        { c with client := .stopped, source := source }
      else match (Packet.Query line).serialize dbg with
        | .ok bytes => some { c with
          client := .waiting none []
          source := source
          toServer := { c.toServer with unsent := bytes }
          asked := c.asked ++ [line] }
        | .error _ => some { c with client := .stopped, source := source }
    | _, _ => none
  | .clientSend n => (c.toServer.send n).map fun d => { c with toServer := d }
  | .clientRecv n =>
    if c.isWaiting = true ∧ c.toServer.unsent = [] then (c.toClient.recv n).map fun d => { c with toClient := d }
      else none
  | .clientHandle =>
    match c.client, reading c.toClient.received with
    | .waiting description rows, .packet packet =>
      let d := { c.toClient with received := [] }
      match handlePacket dbg description rows packet with
      | .waits description rows => some { c with client := .waiting description rows, toClient := d }
      | .prints text => some { c with client := .next, toClient := d, printed := c.printed ++ [text] }
      | .throws _ | .exits => some { c with client := .stopped, toClient := d }
    | .waiting _ _, .failed _ => some { c with client := .stopped }
    | _, _ => none
  | .clientLost =>
    if (c.isWaiting = true ∧ c.toServer.unsent = []) ∧ c.serving = false ∧ c.toClient.unsent = [] ∧
      c.toClient.wire = [] then
      match reading c.toClient.received with
      | .more _ => some { c with client := .stopped }
      | _ => none
    else none
  | .serverSend n => (c.toClient.send n).map fun d => { c with toClient := d }
  | .serverRecv n =>
    if c.serving = true ∧ c.toClient.unsent = [] then (c.toServer.recv n).map fun d => { c with toServer := d }
      else none
  | .serverHandle parsed env =>
    if c.serving = true ∧ c.toClient.unsent = [] then
      match reading c.toServer.received with
      | .packet packet =>
        let q := (requestOf parsed packet, env)
        let replies := repliesTo q c.session
        let r := Session.handlePacket q c.session
        some { c with
          session := r.2
          serving := match r.1 with
            | .ok () => true
            | .error _ => false
          toServer := { c.toServer with received := [] }
          toClient := { c.toClient with unsent := replies.flatMap fun reply => (packetOf reply).toBytes }
          answers := c.answers ++ [(queryOf packet, replies)] }
      | .failed _ => some { c with serving := false }
      | .more _ => none
    else none
  | .serverLost =>
    if (c.serving = true ∧ c.toClient.unsent = []) ∧ c.client = .stopped ∧ c.toServer.wire = [] then
      match reading c.toServer.received with
      | .more _ => some { c with serving := false }
      | _ => none
    else none

end Connection

/-! ## Streams of packets -/

variable {p : Packet} {ps : List Packet} {bs : List UInt8} {d : Direction} {n : Nat}

/-- The packet can be sent and read back. -/
def Packet.Sized (p : Packet) : Prop := p.calculatePayloadSize < 2 ^ 32 - 4

instance (p : Packet) : Decidable p.Sized := inferInstanceAs (Decidable (_ < _))

/-- What is missing is asked for, and no more. -/
theorem reading_prefix (h : p.Sized) (hbs : bs <+: p.toBytes) (hne : bs ≠ p.toBytes) :
    ∃ n, reading bs = .more n ∧ 0 < n ∧ bs.length + n ≤ p.toBytes.length := by
  unfold Packet.Sized at h
  have hlen := p.payload_length
  have hmod : (p.payload.length + 4) % 256 ^ 4 = p.payload.length + 4 := Nat.mod_eq_of_lt (by omega)
  have hbytes : p.toBytes.length = p.payload.length + 5 := by
    simp [Packet.toBytes]
    omega
  cases bs with
  | nil => exact ⟨1, rfl, by decide, by simp [hbytes]⟩
  | cons code rest =>
    unfold Packet.toBytes at hbs hne
    obtain ⟨rfl, hrest⟩ := List.cons_prefix_cons.1 hbs
    have hne' : rest ≠ encodeBE 4 (p.payload.length + 4) ++ p.payload := fun e => hne (by rw [e])
    have hlt : rest.length < p.payload.length + 4 := by
      have hle := hrest.length_le
      have hne'' : rest.length ≠ (encodeBE 4 (p.payload.length + 4) ++ p.payload).length :=
        fun e => hne' (hrest.eq_of_length e)
      simp only [List.length_append, encodeBE_length] at hle hne''
      omega
    rw [List.length_cons, hbytes]
    simp only [reading, Packet.ofCode_code]
    by_cases h4 : rest.length < 4
    · exact ⟨4 - rest.length, if_pos h4, by omega, by omega⟩
    · have htake : rest.take 4 = encodeBE 4 (p.payload.length + 4) := by
        obtain ⟨more, hmore⟩ := hrest
        have htake := congrArg (List.take 4) hmore
        rw [List.take_append_of_le_length (by omega), List.take_append_of_le_length (by simp)] at htake
        rw [htake, List.take_of_length_le (by simp)]
      have hlen : decodeBE (rest.take 4) = p.payload.length + 4 := by rw [htake, decodeBE_encodeBE, hmod]
      refine ⟨p.payload.length + 4 - rest.length, ?_, by omega, by omega⟩
      simp only [if_neg h4, hlen, if_neg (show ¬ p.payload.length + 4 < 4 by omega), if_pos hlt]

theorem reading_toBytes (h : p.Sized) : reading p.toBytes = .packet p := by
  unfold Packet.Sized at h
  have hlen := p.payload_length
  have hmod : (p.payload.length + 4) % 256 ^ 4 = p.payload.length + 4 := Nat.mod_eq_of_lt (by omega)
  unfold reading Packet.toBytes
  simp only [Packet.ofCode_code]
  have h4 : ¬ (encodeBE 4 (p.payload.length + 4) ++ p.payload).length < 4 := by simp
  have htake : (encodeBE 4 (p.payload.length + 4) ++ p.payload).take 4 = encodeBE 4 (p.payload.length + 4) := by
    rw [List.take_append_of_le_length (by simp), List.take_of_length_le (by simp)]
  have hdrop : (encodeBE 4 (p.payload.length + 4) ++ p.payload).drop 4 = p.payload := by
    rw [List.drop_append_of_le_length (by simp), List.drop_of_length_le (by simp), List.nil_append]
  rw [if_neg h4, htake, decodeBE_encodeBE, hmod, if_neg (by omega), if_neg (by simp [Nat.add_comm]), hdrop,
    Packet.deserialize_payload (by omega)]

namespace Direction

/-- These packets are under way, and the first is being received. -/
structure Carries (d : Direction) (ps : List Packet) : Prop where
  bytes : d.received ++ d.wire ++ d.unsent = ps.flatMap Packet.toBytes
  sized : ∀ p ∈ ps, p.Sized
  head : d.received <+: (ps.head?.map Packet.toBytes).getD []

theorem Carries.silent : silent.Carries [] := ⟨rfl, nofun, List.prefix_rfl⟩

theorem carries_nil : d.Carries [] ↔ d = Direction.silent := by
  refine ⟨fun h => ?_, fun h => h ▸ .silent⟩
  have hbytes := h.bytes
  simp only [List.flatMap_nil, List.append_eq_nil_iff] at hbytes
  obtain ⟨⟨hr, hw⟩, hu⟩ := hbytes
  cases d
  cases hr
  cases hw
  cases hu
  rfl

theorem Carries.send {d' : Direction} (h : d.Carries ps) (hs : d.send n = some d') : d'.Carries ps := by
  unfold Direction.send at hs
  split_ifs at hs
  cases hs
  refine ⟨?_, h.sized, h.head⟩
  rw [← h.bytes]
  simp

theorem Carries.recv {d' : Direction} (h : d.Carries ps) (hs : d.recv n = some d') : d'.Carries ps := by
  unfold Direction.recv at hs
  split at hs
  · rename_i wanted hreading
    split_ifs at hs with hn
    cases hs
    obtain ⟨hpos, hwanted, hwire⟩ := hn
    have hbytes : (d.received ++ d.wire.take n) ++ d.wire.drop n ++ d.unsent = ps.flatMap Packet.toBytes := by
      rw [← h.bytes, List.append_assoc d.received, List.take_append_drop]
    refine ⟨hbytes, h.sized, ?_⟩
    cases ps with
    | nil =>
      obtain rfl := carries_nil.1 h
      exact absurd hwire (Nat.not_le.2 hpos)
    | cons p ps =>
      have hsized := h.sized p List.mem_cons_self
      have hne : d.received ≠ p.toBytes := fun e => by
        rw [e, reading_toBytes hsized] at hreading
        cases hreading
      obtain ⟨m, hm, -, hle⟩ := reading_prefix hsized h.head hne
      obtain rfl : wanted = m := by
        rw [hm] at hreading
        injection hreading with e
        exact e.symm
      have hwhole : d.received ++ d.wire.take n <+: (p :: ps).flatMap Packet.toBytes :=
        ⟨d.wire.drop n ++ d.unsent, by rw [← hbytes, List.append_assoc _ (d.wire.drop n)]⟩
      refine List.prefix_of_prefix_length_le hwhole (List.prefix_append p.toBytes _) ?_
      rw [List.length_append, List.length_take_of_le hwire]
      exact Nat.le_trans (Nat.add_le_add_left hwanted _) hle
  · cases hs

theorem Carries.packet {q : Packet} (h : d.Carries ps) (hq : reading d.received = .packet q) :
    ∃ rest, ps = q :: rest ∧ { d with received := [] }.Carries rest := by
  cases ps with
  | nil =>
    obtain rfl := carries_nil.1 h
    cases hq
  | cons p rest =>
    have hsized := h.sized p List.mem_cons_self
    by_cases hfull : d.received = p.toBytes
    · rw [hfull, reading_toBytes hsized] at hq
      injection hq with e
      subst e
      refine ⟨rest, rfl, ?_, fun r hr => h.sized r (List.mem_cons_of_mem _ hr), List.nil_prefix⟩
      have hbytes := h.bytes
      rw [hfull, List.append_assoc, List.flatMap_cons] at hbytes
      exact List.append_cancel_left hbytes
    · obtain ⟨m, hm, -⟩ := reading_prefix hsized h.head hfull
      rw [hm] at hq
      cases hq

theorem Carries.not_failed {fault : Fault} (h : d.Carries ps) : reading d.received ≠ .failed fault := by
  cases ps with
  | nil =>
    obtain rfl := carries_nil.1 h
    intro hf
    cases hf
  | cons p rest =>
    have hsized := h.sized p List.mem_cons_self
    intro hf
    by_cases hfull : d.received = p.toBytes
    · rw [hfull, reading_toBytes hsized] at hf
      cases hf
    · obtain ⟨m, hm, -⟩ := reading_prefix hsized h.head hfull
      rw [hm] at hf
      cases hf

/-- While packets are under way, a byte can be sent or received, or the first packet has arrived. -/
theorem Carries.moves (h : d.Carries ps) (hne : ps ≠ []) :
    (∃ d', d.send 1 = some d') ∨ d.unsent = [] ∧
    ((∃ d', d.recv 1 = some d') ∨ ∃ p, reading d.received = .packet p) := by
  cases ps with
  | nil => exact absurd rfl hne
  | cons p rest =>
    have hsized := h.sized p List.mem_cons_self
    by_cases hunsent : d.unsent = []
    · refine .inr ⟨hunsent, ?_⟩
      by_cases hfull : d.received = p.toBytes
      · exact .inr ⟨p, by rw [hfull, reading_toBytes hsized]⟩
      · obtain ⟨m, hm, hpos, -⟩ := reading_prefix hsized h.head hfull
        have hwire : d.wire ≠ [] := fun hwire => by
          have hlen := congrArg List.length h.bytes
          have hle := h.head.length_le
          have hne' : d.received.length ≠ p.toBytes.length := fun e => hfull (h.head.eq_of_length e)
          simp only [hunsent, hwire, List.append_nil, List.flatMap_cons, List.length_append, List.head?_cons,
            Option.map_some, Option.getD_some] at hlen hle
          omega
        refine .inl ⟨⟨d.unsent, d.wire.drop 1, d.received ++ d.wire.take 1⟩, ?_⟩
        unfold Direction.recv
        rw [hm]
        exact if_pos ⟨Nat.one_pos, hpos, List.length_pos_iff.2 hwire⟩
    · exact .inl ⟨_, if_pos ⟨Nat.one_pos, List.length_pos_iff.2 hunsent⟩⟩

end Direction

end Mimidb
