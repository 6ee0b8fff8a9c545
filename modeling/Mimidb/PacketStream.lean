import Mimidb.Packets

/-!
# Packets over a connection

`send` takes and `recv` gives any number of the bytes that are asked for, at
least one; the environment says how many, or fails. What was sent arrives in
order, and `recv` gives nothing when all of it was received and the other
side has closed.
-/

namespace Mimidb

/-- How the calls of `send` or `recv` of one side end: with one byte more than this number, as far as
there are so many, or with the text of `errno`. -/
abbrev Calls := Nat → Except String Nat

/-- One direction of a connection: the bytes under way and the calls so far. -/
structure Socket where
  bytes : List UInt8
  calls : Nat

abbrev SocketM := Fallible Socket Fault

namespace MimiClient

def sendLoop (send : Calls) (left : List UInt8) (s : Socket) : Except Fault Unit × Socket :=
  if _h : left = [] then (.ok (), s)
  else match send s.calls with
    | .error _ => (.error (.runtimeError "could not send"), { s with calls := s.calls + 1 })
    | .ok n => sendLoop send (left.drop (n + 1)) ⟨s.bytes ++ left.take (n + 1), s.calls + 1⟩
termination_by left.length
decreasing_by
  have := List.length_pos_iff.2 _h
  simp only [List.length_drop]
  omega

def sendBuffer (send : Calls) (buffer : List UInt8) : SocketM Unit := sendLoop send buffer

/-- The loop of `recvBuffer` and `recvBufferOpt`; `none` when the stream has ended before. -/
def recvLoop (recv : Calls) (failed : String → Fault) (left : Nat) (s : Socket) :
    Except Fault (Option (List UInt8)) × Socket :=
  if left = 0 then (.ok (some []), s)
  else match recv s.calls with
    | .error what => (.error (failed what), { s with calls := s.calls + 1 })
    | .ok n =>
      let ret := min (n + 1) (min left s.bytes.length)
      if ret = 0 then (.ok none, { s with calls := s.calls + 1 })
      else match recvLoop recv failed (left - ret) ⟨s.bytes.drop ret, s.calls + 1⟩ with
        | (.ok (some bytes), t) => (.ok (some (s.bytes.take ret ++ bytes)), t)
        | (result, t) => (result, t)
termination_by left
decreasing_by omega

/-- What is left of `str` when a text is written from its start. -/
def overwrite (str text : String) : String := .ofList (text.toList ++ str.toList.drop text.length)

def recvBufferOpt (recv : Calls) (length : Nat) : SocketM (Option (List UInt8)) :=
  recvLoop recv (fun what => .runtimeError (overwrite "could not recv: " what)) length

def recvBuffer (recv : Calls) (length : Nat) : SocketM (List UInt8) := do
  match ← (recvLoop recv (fun _ => .runtimeError "could not recv") length : SocketM (Option (List UInt8))) with
  | some bytes => return bytes
  | none => throw (.runtimeError "could not recv")

def sendPacket (dbg : Bool) (send : Calls) (packet : Packet) : SocketM Unit := do
  let buffer ← Fallible.ofExcept (packet.serialize dbg)
  if buffer.length ≤ 1 then throw (.runtimeError "could not serialize packet")
  else sendBuffer send buffer

def receivePacket (recv : Calls) : SocketM (Option Packet) := do
  match ← recvBufferOpt recv 1 with
  | none => return none
  | some byte =>
    let code := byte.headD 0
    match PacketType.ofCode code with
    | none => throw (.runtimeError s!"Unknown packet type: {code}")
    | some type =>
      let length := decodeBE (← recvBuffer recv 4)
      if length < 4 then throw (.runtimeError s!"invalid length field value in packet: {length}")
      else do
        let buffer ← recvBuffer recv (length - 4)
        return some (← Fallible.ofExcept (Packet.deserialize type buffer))

/-- Repeated calls of `ReceivePacket`. -/
def receivePackets (recv : Calls) : Nat → SocketM (List (Option Packet))
  | 0 => return []
  | n + 1 => do
    let packet ← receivePacket recv
    return packet :: (← receivePackets recv n)

/-! ## One buffer -/

variable {recv : Nat → Nat} {c : Nat}

/-- The calls that do not fail. -/
def succeed (sizes : Nat → Nat) : Calls := fun i => .ok (sizes i)

theorem succeed_apply (sizes : Nat → Nat) (i : Nat) : succeed sizes i = .ok (sizes i) := rfl

theorem sendBuffer_eq (send : Nat → Nat) (buffer : List UInt8) (s : Socket) :
    ∃ c, sendBuffer (succeed send) buffer s = (.ok (), ⟨s.bytes ++ buffer, c⟩) := by
  unfold sendBuffer
  induction h : buffer.length using Nat.strong_induction_on generalizing buffer s with
  | _ n ih =>
    unfold sendLoop
    split
    next hnil =>
      subst hnil
      exact ⟨s.calls, by rw [List.append_nil]⟩
    next hne =>
      have hpos := List.length_pos_iff.2 hne
      obtain ⟨c, hc⟩ := ih _ (by simp only [List.length_drop]; omega) (buffer.drop (send s.calls + 1))
        ⟨s.bytes ++ buffer.take (send s.calls + 1), s.calls + 1⟩ rfl
      refine ⟨c, ?_⟩
      simp only [succeed_apply]
      rw [hc, List.append_assoc, List.take_append_drop]

/-- However the bytes are split, a loop that asks for a prefix of the stream gets it. -/
theorem recvLoop_eq (recv : Nat → Nat) (failed : String → Fault) (bytes rest : List UInt8) (c : Nat) :
    ∃ c', recvLoop (succeed recv) failed bytes.length ⟨bytes ++ rest, c⟩ = (.ok (some bytes), ⟨rest, c'⟩) := by
  induction h : bytes.length using Nat.strong_induction_on generalizing bytes c with
  | _ n ih =>
    unfold recvLoop
    split
    next hnil =>
      obtain rfl := List.length_eq_zero_iff.1 (h.trans hnil)
      exact ⟨c, rfl⟩
    next hne =>
      simp only [succeed_apply, List.length_append, h]
      generalize hr : min (recv c + 1) (min n (n + rest.length)) = ret
      have hpos : ret ≠ 0 := by omega
      have hle : ret ≤ bytes.length := by omega
      obtain ⟨c', hc⟩ := ih (n - ret) (by omega) (bytes.drop ret) (c + 1) (by rw [List.length_drop, h])
      refine ⟨c', ?_⟩
      rw [if_neg hpos, List.drop_append_of_le_length hle]
      rw [hc]
      simp only [List.take_append_of_le_length hle, List.take_append_drop]

theorem recvBufferOpt_eq (recv : Nat → Nat) (bytes rest : List UInt8) (c : Nat) :
    ∃ c', recvBufferOpt (succeed recv) bytes.length ⟨bytes ++ rest, c⟩ = (.ok (some bytes), ⟨rest, c'⟩) :=
  recvLoop_eq recv _ bytes rest c

theorem recvBuffer_eq (recv : Nat → Nat) (bytes rest : List UInt8) (c : Nat) :
    ∃ c', recvBuffer (succeed recv) bytes.length ⟨bytes ++ rest, c⟩ = (.ok bytes, ⟨rest, c'⟩) := by
  obtain ⟨c', hc⟩ := recvLoop_eq recv (fun _ => .runtimeError "could not recv") bytes rest c
  refine ⟨c', ?_⟩
  unfold recvBuffer
  rw [Fallible.bind_ok hc]
  rfl

theorem receivePacket_end : receivePacket (succeed recv) ⟨[], c⟩ = (.ok none, ⟨[], c + 1⟩) := by
  have hend : recvBufferOpt (succeed recv) 1 ⟨[], c⟩ = (.ok none, ⟨[], c + 1⟩) := by
    unfold recvBufferOpt recvLoop
    simp [succeed_apply]
  unfold receivePacket
  rw [Fallible.bind_ok hend]
  rfl

/-! ## Packets -/

variable {packet : Packet} {packets : List Packet}

theorem sendPacket_eq (dbg : Bool) (send : Nat → Nat) (s : Socket) (h : packet.calculatePayloadSize < 2 ^ 32) :
    ∃ c, sendPacket dbg (succeed send) packet s = (.ok (), ⟨s.bytes ++ packet.toBytes, c⟩) := by
  obtain ⟨c, hc⟩ := sendBuffer_eq send packet.toBytes s
  refine ⟨c, ?_⟩
  unfold sendPacket
  rw [Packet.serialize_eq h]
  have hlen : ¬ packet.toBytes.length ≤ 1 := by
    unfold Packet.toBytes
    simp only [List.length_cons, List.length_append, encodeBE_length]
    omega
  show (if packet.toBytes.length ≤ 1 then throw (.runtimeError "could not serialize packet")
    else sendBuffer (succeed send) packet.toBytes) s = _
  rw [if_neg hlen, hc]

theorem receivePacket_eq (recv : Nat → Nat) (rest : List UInt8) (c : Nat)
    (h : packet.calculatePayloadSize < 2 ^ 32 - 4) :
    ∃ c', receivePacket (succeed recv) ⟨packet.toBytes ++ rest, c⟩ = (.ok (some packet), ⟨rest, c'⟩) := by
  have hlen := Packet.payload_length packet
  have hmod : (packet.payload.length + 4) % 256 ^ 4 = packet.payload.length + 4 := Nat.mod_eq_of_lt (by omega)
  obtain ⟨c1, h1⟩ := recvBufferOpt_eq recv [packet.type.code]
    (encodeBE 4 (packet.payload.length + 4) ++ (packet.payload ++ rest)) c
  obtain ⟨c2, h2⟩ := recvBuffer_eq recv (encodeBE 4 (packet.payload.length + 4)) (packet.payload ++ rest) c1
  obtain ⟨c3, h3⟩ := recvBuffer_eq recv packet.payload rest c2
  rw [encodeBE_length] at h2
  rw [List.length_singleton] at h1
  refine ⟨c3, ?_⟩
  have hbytes : packet.toBytes ++ rest =
      [packet.type.code] ++ (encodeBE 4 (packet.payload.length + 4) ++ (packet.payload ++ rest)) := by
    unfold Packet.toBytes
    simp
  rw [hbytes]
  unfold receivePacket
  rw [Fallible.bind_ok h1]
  simp only [List.headD_cons, Packet.ofCode_code]
  rw [Fallible.bind_ok h2, decodeBE_encodeBE, hmod, if_neg (by omega), Nat.add_sub_cancel, Fallible.bind_ok h3,
    Packet.deserialize_payload (by omega)]
  rfl

theorem sendPackets_eq (dbg : Bool) (send : Nat → Nat) (s : Socket)
    (h : ∀ p ∈ packets, p.calculatePayloadSize < 2 ^ 32) :
    ∃ c, packets.forM (sendPacket dbg (succeed send)) s =
    (.ok (), ⟨s.bytes ++ packets.flatMap Packet.toBytes, c⟩) := by
  induction packets generalizing s with
  | nil => exact ⟨s.calls, by simp⟩
  | cons p packets ih =>
    obtain ⟨c, hc⟩ := sendPacket_eq dbg send s (h p List.mem_cons_self)
    obtain ⟨c', hc'⟩ := ih ⟨s.bytes ++ p.toBytes, c⟩ fun q hq => h q (List.mem_cons_of_mem p hq)
    refine ⟨c', ?_⟩
    show (sendPacket dbg (succeed send) p >>= fun _ => packets.forM (sendPacket dbg (succeed send))) s = _
    rw [Fallible.bind_ok hc, hc', List.flatMap_cons, List.append_assoc]

theorem receivePackets_eq (h : ∀ p ∈ packets, p.calculatePayloadSize < 2 ^ 32 - 4) :
    ∃ t, receivePackets (succeed recv) (packets.length + 1) ⟨packets.flatMap Packet.toBytes, c⟩ =
    (.ok (packets.map some ++ [none]), t) := by
  induction packets generalizing c with
  | nil =>
    refine ⟨⟨[], c + 1⟩, ?_⟩
    unfold receivePackets
    simp only [List.flatMap_nil]
    rw [Fallible.bind_ok receivePacket_end]
    rfl
  | cons p packets ih =>
    obtain ⟨c', hc⟩ := receivePacket_eq recv (packets.flatMap Packet.toBytes) c (h p List.mem_cons_self)
    obtain ⟨t, ht⟩ := ih (c := c') fun q hq => h q (List.mem_cons_of_mem p hq)
    refine ⟨t, ?_⟩
    unfold receivePackets
    rw [List.flatMap_cons, Fallible.bind_ok hc]
    simp only [List.length_cons]
    rw [Fallible.bind_ok ht]
    rfl

/-- However the two sides split the bytes, the packets that are sent are the packets that are
received, and after them comes the end of the stream. -/
theorem packets_round_trip (dbg : Bool) (packets : List Packet)
    (h : ∀ p ∈ packets, p.calculatePayloadSize < 2 ^ 32 - 4)
    (send recv : Nat → Nat) : ∃ s, packets.forM (sendPacket dbg (succeed send)) ⟨[], 0⟩ = (.ok (), s) ∧
      ∃ t, receivePackets (succeed recv) (packets.length + 1) ⟨s.bytes, 0⟩ =
      (.ok (packets.map some ++ [none]), t) := by
  obtain ⟨c, hc⟩ := sendPackets_eq dbg send ⟨[], 0⟩ fun p hp => Nat.lt_of_lt_of_le (h p hp) (by decide)
  exact ⟨_, hc, receivePackets_eq h⟩

/-- A row with a value, a `NULL` and an empty value. -/
theorem packets_round_trip_row : ∃ s,
    [Packet.DataRow [some [49], none, some []], .CommandComplete [83] 1].forM (sendPacket true (succeed id))
      ⟨[], 0⟩ = (.ok (), s) ∧
      ∃ t, receivePackets (succeed fun _ => 0) 3 ⟨s.bytes, 0⟩ =
        (.ok [some (.DataRow [some [49], none, some []]), some (.CommandComplete [83] 1), none], t) :=
  packets_round_trip true [.DataRow [some [49], none, some []], .CommandComplete [83] 1] (by decide) id fun _ => 0

end MimiClient

end Mimidb
