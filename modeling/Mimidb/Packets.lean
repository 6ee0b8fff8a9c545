import Mathlib.Data.BitVec
import Mimidb.Bytes
import Mimidb.Config
import Mimidb.Fallible

/-!
# Packets and their bytes

A packet is its type, the length of the rest in four bytes that count
themselves, and the payload. The size of the payload is computed before it is
written, and both the writer and the reader stop at the end of their buffer.
Strings are the bytes that they hold.
-/

namespace Mimidb

/-! ## Network order -/

def encodeBE (w n : Nat) : List UInt8 := (encodeLE w n).reverse

def decodeBE (bs : List UInt8) : Nat := decodeLE bs.reverse

@[simp] theorem encodeBE_length (w n : Nat) : (encodeBE w n).length = w := by
  unfold encodeBE
  simp

theorem decodeBE_encodeBE (w n : Nat) : decodeBE (encodeBE w n) = n % 256 ^ w := by
  unfold decodeBE encodeBE
  rw [List.reverse_reverse, decodeLE_encodeLE]

structure NetworkWriter where
  /-- The bytes before the cursor. -/
  written : List UInt8
  max : Nat

/-- A reader is what lies behind its cursor. -/
structure NetworkReader where
  rest : List UInt8

abbrev WriterM := Fallible NetworkWriter Fault

abbrev ReaderM := Fallible NetworkReader Fault

namespace NetworkWriter

def writeBuffer (bytes : List UInt8) : WriterM Unit := do
  let w ← get
  if w.max < w.written.length + bytes.length then throw (.runtimeError "could not write past buffer borders")
  else set { w with written := w.written ++ bytes }

def writeUint8 (value : UInt8) : WriterM Unit := writeBuffer [value]

def writeUint32 (value : Nat) : WriterM Unit := writeBuffer (encodeBE 4 value)

def writeInt64 (value : BitVec 64) : WriterM Unit := writeBuffer (encodeBE 8 value.toNat)

def writeString (value : List UInt8) : WriterM Unit := do
  writeUint32 value.length
  writeBuffer value

/-- The buffer starts with zeros. -/
def buffer (w : NetworkWriter) : List UInt8 := w.written ++ List.replicate (w.max - w.written.length) 0

end NetworkWriter

namespace NetworkReader

def readBuffer (length : Nat) : ReaderM (List UInt8) := do
  let r ← get
  if r.rest.length < length then throw (.runtimeError "could not read past buffer borders")
  else do
    set (NetworkReader.mk (r.rest.drop length))
    return r.rest.take length

def readUint32 : ReaderM Nat := do return decodeBE (← readBuffer 4)

def readInt64 : ReaderM (BitVec 64) := do return .ofNat 64 (decodeBE (← readBuffer 8))

def readString : ReaderM (List UInt8) := do readBuffer (← readUint32)

/-- A loop that reads one element in each round. -/
def readEach {α : Type} (element : ReaderM α) : Nat → ReaderM (List α)
  | 0 => return []
  | n + 1 => do
    let a ← element
    return a :: (← readEach element n)

end NetworkReader

/-! ## Packets -/

inductive PacketType where
  | Query
  | CommandComplete
  | TupleDescription
  | DataRow
  | ErrorResponse
  deriving DecidableEq, Repr

namespace PacketType

def code : PacketType → UInt8
  | .Query => 'Q'.toUInt8
  | .CommandComplete => 'C'.toUInt8
  | .TupleDescription => 'T'.toUInt8
  | .DataRow => 'D'.toUInt8
  | .ErrorResponse => 'E'.toUInt8

def ofCode (code : UInt8) : Option PacketType :=
  [PacketType.DataRow, .ErrorResponse, .Query, .TupleDescription, .CommandComplete].find? (·.code == code)

end PacketType

inductive Packet where
  | Query (query : List UInt8)
  | TupleDescription (attributes : List (List UInt8))
  | DataRow (values : List (Option (List UInt8)))
  | ErrorResponse (message : List UInt8)
  | CommandComplete (tag : List UInt8) (rows : BitVec 64)
  deriving DecidableEq, Repr

namespace Packet

open NetworkWriter NetworkReader

def type : Packet → PacketType
  | .Query _ => .Query
  | .TupleDescription _ => .TupleDescription
  | .DataRow _ => .DataRow
  | .ErrorResponse _ => .ErrorResponse
  | .CommandComplete _ _ => .CommandComplete

def getStringSize (str : List UInt8) : Nat := 4 + str.length

/-- `NULL` has the size of the length field. -/
def getValueSize : Option (List UInt8) → Nat
  | some value => 4 + value.length
  | none => 4

def calculatePayloadSize : Packet → Nat
  | .Query query => getStringSize query
  | .TupleDescription attributes => 4 + (attributes.map getStringSize).sum
  | .DataRow values => 4 + (values.map getValueSize).sum
  | .ErrorResponse message => getStringSize message
  | .CommandComplete tag _ => getStringSize tag + 8

/-- The length that stands for `NULL`. -/
def nullLength : Nat := 2 ^ 32 - 1

def writeValue (dbg : Bool) : Option (List UInt8) → WriterM Unit
  | none => writeUint32 nullLength
  | some value => do
    writeString value
    Fallible.ofExcept (assert dbg (value.length % 2 ^ 32 != nullLength))

def writePayload (dbg : Bool) : Packet → WriterM Unit
  | .Query query => writeString query
  | .TupleDescription attributes => do
    writeUint32 attributes.length
    attributes.forM writeString
  | .DataRow values => do
    writeUint32 values.length
    values.forM (writeValue dbg)
  | .ErrorResponse message => writeString message
  | .CommandComplete tag rows => do
    writeString tag
    writeInt64 rows

/-- `Visit`, after `visit_base`. -/
def visit (dbg : Bool) (packet : Packet) : WriterM Unit := do
  writeUint8 packet.type.code
  writeUint32 (packet.calculatePayloadSize + 4)
  packet.writePayload dbg

/-- The buffer of `SerializerPacketVisitor`. -/
def serialize (dbg : Bool) (packet : Packet) : Except Fault (List UInt8) :=
  match packet.visit dbg ⟨[], packet.calculatePayloadSize + 1 + 4⟩ with
  | (.ok (), w) => .ok w.buffer
  | (.error fault, _) => .error fault

def readValue : ReaderM (Option (List UInt8)) := do
  let value ← readUint32
  if value = nullLength then return none
  else return some (← readBuffer value)

/-- The reader does not look for what is left behind the payload. -/
def readPayload : PacketType → ReaderM Packet
  | .Query => do return .Query (← readString)
  | .TupleDescription => do return .TupleDescription (← readEach readString (← readUint32))
  | .DataRow => do return .DataRow (← readEach readValue (← readUint32))
  | .ErrorResponse => do return .ErrorResponse (← readString)
  | .CommandComplete => do
    let tag ← readString
    return .CommandComplete tag (← readInt64)

def deserialize (type : PacketType) (buffer : List UInt8) : Except Fault Packet := (readPayload type ⟨buffer⟩).1

end Packet

/-! ## What is written -/

/-- The program appends these bytes when there is room for them. -/
def Writes (m : WriterM Unit) (bytes : List UInt8) : Prop :=
  ∀ w : NetworkWriter, w.written.length + bytes.length ≤ w.max →
  m w = (.ok (), { w with written := w.written ++ bytes })

namespace Writes

variable {m m' : WriterM Unit} {bytes bytes' : List UInt8}

theorem buffer : Writes (NetworkWriter.writeBuffer bytes) bytes := by
  intro w hw
  unfold NetworkWriter.writeBuffer
  rw [Fallible.bind_ok (Fallible.get_apply w), if_neg (Nat.not_lt.2 hw)]
  rfl

theorem bind (h : Writes m bytes) (h' : Writes m' bytes') : Writes (m >>= fun _ => m') (bytes ++ bytes') := by
  intro w hw
  rw [List.length_append] at hw
  rw [Fallible.bind_ok (h w (by omega)), h' _ (by simp only [List.length_append]; omega)]
  simp

theorem string {value : List UInt8} : Writes (NetworkWriter.writeString value) (encodeBE 4 value.length ++ value) :=
  buffer.bind buffer

theorem each {α : Type} {f : α → WriterM Unit} {g : α → List UInt8} {l : List α} (h : ∀ a ∈ l, Writes (f a) (g a)) :
    Writes (l.forM f) (l.flatMap g) := by
  induction l with
  | nil =>
    intro w _
    simp
  | cons a l ih =>
    rw [List.flatMap_cons]
    exact (h a List.mem_cons_self).bind (ih fun b hb => h b (List.mem_cons_of_mem a hb))

end Writes

/-! ## What is read -/

/-- The program takes these bytes for the value. -/
def Reads {α : Type} (m : ReaderM α) (bytes : List UInt8) (a : α) : Prop :=
  ∀ rest, m ⟨bytes ++ rest⟩ = (.ok a, ⟨rest⟩)

namespace Reads

variable {α β : Type} {m : ReaderM α} {f : α → ReaderM β} {bytes bytes' : List UInt8} {a : α} {b : β}

theorem buffer : Reads (NetworkReader.readBuffer bytes.length) bytes bytes := by
  intro rest
  unfold NetworkReader.readBuffer
  rw [Fallible.bind_ok (Fallible.get_apply _), if_neg (by simp)]
  simp [Fallible.bind_apply]

theorem pure : Reads (Pure.pure a) [] a := fun _ => rfl

theorem bind (h : Reads m bytes a) (h' : Reads (f a) bytes' b) : Reads (m >>= f) (bytes ++ bytes') b := by
  intro rest
  rw [List.append_assoc, Fallible.bind_ok (h _)]
  exact h' rest

theorem map {g : α → β} (h : Reads m bytes a) : Reads (do return g (← m)) bytes (g a) := by
  intro rest
  rw [Fallible.bind_ok (h rest)]
  rfl

theorem uint32 {n : Nat} (hn : n < 2 ^ 32) : Reads NetworkReader.readUint32 (encodeBE 4 n) n := by
  have hread : Reads (NetworkReader.readBuffer 4) (encodeBE 4 n) (encodeBE 4 n) := by
    have := @buffer (encodeBE 4 n)
    rwa [encodeBE_length] at this
  have hvalue := hread.map (g := decodeBE)
  have hmod : n % 256 ^ 4 = n := Nat.mod_eq_of_lt (by omega)
  rwa [decodeBE_encodeBE, hmod] at hvalue

theorem int64 (v : BitVec 64) : Reads NetworkReader.readInt64 (encodeBE 8 v.toNat) v := by
  have hread : Reads (NetworkReader.readBuffer 8) (encodeBE 8 v.toNat) (encodeBE 8 v.toNat) := by
    have := @buffer (encodeBE 8 v.toNat)
    rwa [encodeBE_length] at this
  have hvalue := hread.map (g := fun bs => BitVec.ofNat 64 (decodeBE bs))
  have hmod : v.toNat % 256 ^ 8 = v.toNat := Nat.mod_eq_of_lt v.isLt
  rwa [decodeBE_encodeBE, hmod, BitVec.ofNat_toNat, BitVec.setWidth_eq] at hvalue

theorem string {value : List UInt8} (h : value.length < 2 ^ 32) :
    Reads NetworkReader.readString (encodeBE 4 value.length ++ value) value := (uint32 h).bind buffer

theorem each {f : β → List UInt8} {m : ReaderM β} {l : List β} (h : ∀ b ∈ l, Reads m (f b) b) :
    Reads (NetworkReader.readEach m l.length) (l.flatMap f) l := by
  induction l with
  | nil => exact pure
  | cons b l ih =>
    rw [List.flatMap_cons]
    exact (h b List.mem_cons_self).bind (ih fun c hc => h c (List.mem_cons_of_mem b hc)).map

end Reads

namespace Packet

/-! ## Every packet is read back -/

def valueBytes : Option (List UInt8) → List UInt8
  | none => encodeBE 4 nullLength
  | some value => encodeBE 4 value.length ++ value

def stringBytes (value : List UInt8) : List UInt8 := encodeBE 4 value.length ++ value

/-- The payload of a packet. -/
def payload : Packet → List UInt8
  | .Query query => stringBytes query
  | .TupleDescription attributes => encodeBE 4 attributes.length ++ attributes.flatMap stringBytes
  | .DataRow values => encodeBE 4 values.length ++ values.flatMap valueBytes
  | .ErrorResponse message => stringBytes message
  | .CommandComplete tag rows => stringBytes tag ++ encodeBE 8 rows.toNat

/-- The bytes of a packet. -/
def toBytes (packet : Packet) : List UInt8 :=
  packet.type.code :: (encodeBE 4 (packet.payload.length + 4) ++ packet.payload)

theorem stringBytes_length (value : List UInt8) : (stringBytes value).length = getStringSize value := by
  simp [stringBytes, getStringSize]

theorem valueBytes_length (value : Option (List UInt8)) : (valueBytes value).length = getValueSize value := by
  cases value <;> simp [valueBytes, getValueSize]

theorem payload_length (packet : Packet) : packet.payload.length = packet.calculatePayloadSize := by
  cases packet with
  | Query query => exact stringBytes_length query
  | TupleDescription attributes => simp [payload, calculatePayloadSize, List.length_flatMap, stringBytes_length]
  | DataRow values => simp [payload, calculatePayloadSize, List.length_flatMap, valueBytes_length]
  | ErrorResponse message => exact stringBytes_length message
  | CommandComplete tag rows => simp [payload, calculatePayloadSize, stringBytes_length]

theorem ofCode_code (t : PacketType) : PacketType.ofCode t.code = some t := by
  cases t <;> rfl

theorem le_sum {α : Type} {f : α → Nat} {a : α} {l : List α} (h : a ∈ l) : f a ≤ (l.map f).sum := by
  induction l with
  | nil => cases h
  | cons b l ih =>
    simp only [List.map_cons, List.sum_cons]
    rcases List.mem_cons.1 h with rfl | h
    · omega
    · have := ih h
      omega

theorem count_le_sum {α : Type} {f : α → Nat} (hf : ∀ a, 4 ≤ f a) (l : List α) : l.length ≤ (l.map f).sum := by
  induction l with
  | nil => simp
  | cons a l ih =>
    have ha := hf a
    simp only [List.length_cons, List.map_cons, List.sum_cons]
    omega

/-- The length of a value is not the one of `NULL`. -/
def Short (value : Option (List UInt8)) : Prop := getValueSize value < 2 ^ 32

theorem writes_value {dbg : Bool} {value : Option (List UInt8)} (h : Short value) :
    Writes (writeValue dbg value) (valueBytes value) := by
  cases value with
  | none => exact Writes.buffer
  | some value =>
    intro w hw
    have hlen : value.length % 2 ^ 32 ≠ nullLength := by
      simp only [Short, getValueSize] at h
      simp only [nullLength]
      omega
    have hassert : assert dbg (value.length % 2 ^ 32 != nullLength) = .ok () := by
      unfold assert
      rw [bne_iff_ne.2 hlen]
      simp
    show (NetworkWriter.writeString value >>= fun _ =>
      Fallible.ofExcept (assert dbg (value.length % 2 ^ 32 != nullLength))) w = _
    rw [Fallible.bind_ok (Writes.string w hw), hassert]
    rfl

theorem reads_value {value : Option (List UInt8)} (h : Short value) : Reads readValue (valueBytes value) value := by
  unfold readValue
  cases value with
  | none =>
    have hnull : Reads NetworkReader.readUint32 (encodeBE 4 nullLength) nullLength := Reads.uint32 (by decide)
    intro rest
    rw [valueBytes, Fallible.bind_ok (hnull rest)]
    rfl
  | some value =>
    simp only [Short, getValueSize] at h
    refine (Reads.uint32 (by omega)).bind ?_
    rw [if_neg (by simp only [nullLength]; omega)]
    exact Reads.buffer.map

theorem writes_payload {dbg : Bool} {packet : Packet} (h : packet.calculatePayloadSize < 2 ^ 32) :
    Writes (packet.writePayload dbg) packet.payload := by
  cases packet with
  | Query query => exact Writes.string
  | TupleDescription attributes => exact Writes.buffer.bind (Writes.each fun _ _ => Writes.string)
  | DataRow values =>
    refine Writes.buffer.bind (Writes.each fun value hv => writes_value ?_)
    have := le_sum (f := getValueSize) hv
    simp only [calculatePayloadSize] at h
    unfold Short
    omega
  | ErrorResponse message => exact Writes.string
  | CommandComplete tag rows => exact Writes.string.bind Writes.buffer

theorem reads_payload {packet : Packet} (h : packet.calculatePayloadSize < 2 ^ 32) :
    Reads (readPayload packet.type) packet.payload packet := by
  cases packet with
  | Query query =>
    simp only [calculatePayloadSize, getStringSize] at h
    exact (Reads.string (by omega)).map
  | TupleDescription attributes =>
    simp only [calculatePayloadSize] at h
    have hcount := count_le_sum (fun value => Nat.le_add_right 4 value.length) attributes
    refine (Reads.uint32 (by unfold getStringSize at h; omega)).bind
      (Reads.each fun value hv => Reads.string ?_).map
    have := le_sum (f := getStringSize) hv
    unfold getStringSize at this h
    omega
  | DataRow values =>
    simp only [calculatePayloadSize] at h
    have hsize : ∀ value, 4 ≤ getValueSize value := fun value => by cases value <;> simp [getValueSize]
    have hcount := count_le_sum hsize values
    refine (Reads.uint32 (by omega)).bind (Reads.each fun value hv => reads_value ?_).map
    have := le_sum (f := getValueSize) hv
    unfold Short
    omega
  | ErrorResponse message =>
    simp only [calculatePayloadSize, getStringSize] at h
    exact (Reads.string (by omega)).map
  | CommandComplete tag rows =>
    simp only [calculatePayloadSize, getStringSize] at h
    exact (Reads.string (by omega)).bind (Reads.int64 rows).map

theorem serialize_eq {dbg : Bool} {packet : Packet} (h : packet.calculatePayloadSize < 2 ^ 32) :
    packet.serialize dbg = .ok packet.toBytes := by
  have hlen := payload_length packet
  have hwrites : Writes (packet.visit dbg) packet.toBytes := by
    unfold toBytes
    rw [hlen]
    exact (@Writes.buffer [packet.type.code]).bind (Writes.buffer.bind (writes_payload h))
  have hsize : packet.toBytes.length = packet.calculatePayloadSize + 1 + 4 := by
    unfold toBytes
    simp only [List.length_cons, List.length_append, encodeBE_length, hlen]
    omega
  unfold serialize
  rw [hwrites _ (by simp [hsize])]
  simp [NetworkWriter.buffer, hsize]

theorem deserialize_payload {packet : Packet} (h : packet.calculatePayloadSize < 2 ^ 32) :
    deserialize packet.type packet.payload = .ok packet := by
  have hread := reads_payload h []
  rw [List.append_nil] at hread
  unfold deserialize
  rw [hread]

end Packet

end Mimidb
