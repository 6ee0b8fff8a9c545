import Mimidb.PacketStream

/-!
# What the packet decoders accept

A decoder reads inside of its payload and takes each part for what it encodes,
but nothing looks at the bytes that are left when it is done. So a packet is
received exactly if no shorter payload is the encoding of a packet of its type.
-/

namespace Mimidb

/-! ## What was read -/

/-- The program takes the bytes of the value off the buffer, which has `n` bytes at least. -/
def Consumes {α : Type} (m : ReaderM α) (bytes : α → List UInt8) (n : Nat) : Prop :=
  ∀ r a r', m r = (.ok a, r') → r.rest = bytes a ++ r'.rest ∧ n ≤ (bytes a).length

/-- The program throws nothing but exceptions. -/
def ThrowsOnly {σ α : Type} (m : Fallible σ Fault α) : Prop :=
  Fallible.Spec (fun _ => True) m (fun _ _ => True) fun fault _ => ∃ what, fault = .runtimeError what

namespace ThrowsOnly

variable {σ α β : Type} {m : Fallible σ Fault α} {f : α → Fallible σ Fault β}

theorem bind (h : ThrowsOnly m) (hf : ∀ a, ThrowsOnly (f a)) : ThrowsOnly (m >>= f) := Fallible.Spec.bind h hf

theorem pure (a : α) : ThrowsOnly (Pure.pure a : Fallible σ Fault α) := Fallible.Spec.pure fun _ _ => trivial

theorem throw (what : String) : ThrowsOnly (MonadExcept.throw (.runtimeError what) : Fallible σ Fault α) :=
  Fallible.Spec.throw fun _ _ => ⟨what, rfl⟩

theorem error (h : ThrowsOnly m) {s t : σ} {fault : Fault} (hm : m s = (.error fault, t)) :
    ∃ what, fault = .runtimeError what := by
  have hs := h s trivial
  rw [hm] at hs
  exact hs

end ThrowsOnly

theorem encodeBE_decodeBE {bs : List UInt8} {w : Nat} (h : bs.length = w) : encodeBE w (decodeBE bs) = bs := by
  subst h
  have hrev := encodeLE_decodeLE bs.reverse
  rw [List.length_reverse] at hrev
  rw [encodeBE, decodeBE, hrev, List.reverse_reverse]

theorem decodeBE_lt (bs : List UInt8) : decodeBE bs < 256 ^ bs.length := by
  have h := decodeLE_lt bs.reverse
  rwa [List.length_reverse] at h

namespace NetworkReader

variable {r r' : NetworkReader} {n : Nat}

theorem readBuffer_inv {bs : List UInt8} (h : readBuffer n r = (.ok bs, r')) :
    r.rest = bs ++ r'.rest ∧ bs.length = n := by
  unfold readBuffer at h
  rw [Fallible.bind_ok (Fallible.get_apply r)] at h
  split_ifs at h with hlt
  · cases h
  · cases h
    refine ⟨(List.take_append_drop n r.rest).symm, ?_⟩
    rw [List.length_take]
    omega

theorem readBuffer_throws (n : Nat) : ThrowsOnly (readBuffer n) := by
  intro r _
  unfold readBuffer
  rw [Fallible.bind_ok (Fallible.get_apply r)]
  split_ifs
  · exact ⟨_, rfl⟩
  · trivial

theorem readUint32_inv (h : readUint32 r = (.ok n, r')) : r.rest = encodeBE 4 n ++ r'.rest ∧ n < 2 ^ 32 := by
  obtain ⟨bs, s, hb, h⟩ := Fallible.bind_eq_ok.1 h
  cases h
  obtain ⟨hrest, hlen⟩ := readBuffer_inv hb
  have hlt := decodeBE_lt bs
  rw [hlen] at hlt
  rw [encodeBE_decodeBE hlen]
  exact ⟨hrest, hlt⟩

theorem readUint32_throws : ThrowsOnly readUint32 := (readBuffer_throws 4).bind fun _ => .pure _

theorem readString_takes : Consumes readString Packet.stringBytes 4 := by
  intro r a r' h
  obtain ⟨n, s, hn, h⟩ := Fallible.bind_eq_ok.1 h
  obtain ⟨hrest, -⟩ := readUint32_inv hn
  obtain ⟨hrest', hlen⟩ := readBuffer_inv h
  refine ⟨?_, ?_⟩
  · rw [hrest, hrest', Packet.stringBytes, hlen, List.append_assoc]
  · rw [Packet.stringBytes, List.length_append, encodeBE_length]
    omega

theorem readString_throws : ThrowsOnly readString := readUint32_throws.bind fun n => readBuffer_throws n

section
variable {α : Type} {element : ReaderM α} {bytes : α → List UInt8}

theorem readEach_inv (h : Consumes element bytes 4) {as : List α} (hr : readEach element n r = (.ok as, r')) :
    r.rest = as.flatMap bytes ++ r'.rest ∧ as.length = n := by
  induction n generalizing r as with
  | zero =>
    cases hr
    exact ⟨rfl, rfl⟩
  | succ n ih =>
    obtain ⟨a, s, ha, hr⟩ := Fallible.bind_eq_ok.1 hr
    obtain ⟨as', u, has, hr⟩ := Fallible.bind_eq_ok.1 hr
    cases hr
    obtain ⟨hrest, -⟩ := h r a s ha
    obtain ⟨hrest', hlen⟩ := ih has
    rw [hrest, hrest', List.flatMap_cons, List.append_assoc, List.length_cons, hlen]
    exact ⟨rfl, rfl⟩

theorem readEach_throws (h : ThrowsOnly element) : ThrowsOnly (readEach element n) := by
  induction n with
  | zero => exact .pure _
  | succ n ih => exact h.bind fun a => ih.bind fun as => .pure _

/-- How many elements are read by a loop of `n` rounds before it ends or throws. -/
def rounds (element : ReaderM α) : Nat → NetworkReader → Nat
  | 0, _ => 0
  | n + 1, r =>
    match element r with
    | (.ok _, r) => rounds element n r + 1
    | (.error _, _) => 0

/-- Each element takes four bytes off the buffer, whatever `n` is. -/
theorem rounds_le (h : Consumes element bytes 4) : 4 * rounds element n r ≤ r.rest.length := by
  induction n generalizing r with
  | zero => exact Nat.zero_le _
  | succ n ih =>
    rw [rounds]
    split
    next a s ha =>
      obtain ⟨hrest, h4⟩ := h r a s ha
      have hle := ih (r := s)
      rw [hrest, List.length_append]
      omega
    next => exact Nat.zero_le _

end

end NetworkReader

namespace Packet

open NetworkReader

theorem readValue_takes : Consumes readValue valueBytes 4 := by
  intro r a r' h
  obtain ⟨n, s, hn, h⟩ := Fallible.bind_eq_ok.1 h
  obtain ⟨hrest, -⟩ := readUint32_inv hn
  split_ifs at h with hnull
  · cases h
    subst hnull
    exact ⟨hrest, by rw [valueBytes, encodeBE_length]⟩
  · obtain ⟨value, u, hv, h⟩ := Fallible.bind_eq_ok.1 h
    cases h
    obtain ⟨hrest', hlen⟩ := readBuffer_inv hv
    refine ⟨?_, ?_⟩
    · rw [hrest, hrest', valueBytes, hlen, List.append_assoc]
    · rw [valueBytes, List.length_append, encodeBE_length]
      omega

theorem readValue_throws : ThrowsOnly readValue := by
  refine readUint32_throws.bind fun n => ?_
  split_ifs
  · exact .pure _
  · exact (readBuffer_throws n).bind fun _ => .pure _

theorem readPayload_throws (t : PacketType) : ThrowsOnly (readPayload t) := by
  cases t with
  | Query => exact readString_throws.bind fun _ => .pure _
  | TupleDescription =>
    exact readUint32_throws.bind fun _ => (readEach_throws readString_throws).bind fun _ => .pure _
  | DataRow => exact readUint32_throws.bind fun _ => (readEach_throws readValue_throws).bind fun _ => .pure _
  | ErrorResponse => exact readString_throws.bind fun _ => .pure _
  | CommandComplete =>
    exact readString_throws.bind fun _ => ((readBuffer_throws 8).bind fun _ => .pure _).bind fun _ => .pure _

theorem readPayload_inv {t : PacketType} {r r' : NetworkReader} {packet : Packet}
    (h : readPayload t r = (.ok packet, r')) :
    packet.type = t ∧ r.rest = packet.payload ++ r'.rest := by
  cases t with
  | Query =>
    obtain ⟨query, s, hq, h⟩ := Fallible.bind_eq_ok.1 h
    cases h
    exact ⟨rfl, (readString_takes _ _ _ hq).1⟩
  | TupleDescription =>
    obtain ⟨n, s, hn, h⟩ := Fallible.bind_eq_ok.1 h
    obtain ⟨attributes, u, ha, h⟩ := Fallible.bind_eq_ok.1 h
    cases h
    obtain ⟨hrest, -⟩ := readUint32_inv hn
    obtain ⟨hrest', hlen⟩ := readEach_inv readString_takes ha
    rw [hrest, hrest', payload, hlen, List.append_assoc]
    exact ⟨rfl, rfl⟩
  | DataRow =>
    obtain ⟨n, s, hn, h⟩ := Fallible.bind_eq_ok.1 h
    obtain ⟨values, u, hv, h⟩ := Fallible.bind_eq_ok.1 h
    cases h
    obtain ⟨hrest, -⟩ := readUint32_inv hn
    obtain ⟨hrest', hlen⟩ := readEach_inv readValue_takes hv
    rw [hrest, hrest', payload, hlen, List.append_assoc]
    exact ⟨rfl, rfl⟩
  | ErrorResponse =>
    obtain ⟨message, s, hm, h⟩ := Fallible.bind_eq_ok.1 h
    cases h
    exact ⟨rfl, (readString_takes _ _ _ hm).1⟩
  | CommandComplete =>
    obtain ⟨tag, s, ht, h⟩ := Fallible.bind_eq_ok.1 h
    obtain ⟨rows, u, hr, h⟩ := Fallible.bind_eq_ok.1 h
    cases h
    obtain ⟨bs, v, hb, hr⟩ := Fallible.bind_eq_ok.1 hr
    cases hr
    obtain ⟨hrest', hlen⟩ := readBuffer_inv hb
    have hlt : decodeBE bs < 2 ^ 64 := by
      have hdec := decodeBE_lt bs
      rwa [hlen] at hdec
    have hrows : encodeBE 8 (BitVec.ofNat 64 (decodeBE bs)).toNat = bs := by
      rw [BitVec.toNat_ofNat, Nat.mod_eq_of_lt hlt, encodeBE_decodeBE hlen]
    rw [(readString_takes _ _ _ ht).1, hrest', payload, hrows, List.append_assoc]
    exact ⟨rfl, rfl⟩

/-- How many attributes the loop of a decoder reads. -/
def attributesRead (t : PacketType) (payload : List UInt8) : Nat :=
  match t, readUint32 ⟨payload⟩ with
  | .TupleDescription, (.ok nattrs, r) => rounds readString nattrs r
  | .DataRow, (.ok natts, r) => rounds readValue natts r
  | _, _ => 0

theorem attributesRead_le (t : PacketType) (payload : List UInt8) :
    attributesRead t payload ≤ payload.length / 4 := by
  have hloop :
      ∀ {n : Nat} {r : NetworkReader}, readUint32 ⟨payload⟩ = (.ok n, r) → r.rest.length ≤ payload.length := by
    intro n r h
    have hlen := congrArg List.length (readUint32_inv h).1
    rw [List.length_append] at hlen
    simp only at hlen
    omega
  unfold attributesRead
  split
  next nattrs r hn =>
    have hle := rounds_le (n := nattrs) (r := r) readString_takes
    have hrest := hloop hn
    omega
  next natts r hn =>
    have hle := rounds_le (n := natts) (r := r) readValue_takes
    have hrest := hloop hn
    omega
  next => exact Nat.zero_le _

end Packet

/-! ## The cursor in the buffer -/

/-- `NetworkReader` with its cursor; `max` is `_max`. -/
structure BufferReader where
  buffer : List UInt8
  pos : Nat
  max : Nat

namespace BufferReader

/-- The sum has the width of a `size_t`. -/
def checkBufferSize (delta : Nat) : Fallible BufferReader Fault Unit := do
  let r ← get
  if r.max < (r.pos + delta) % 2 ^ 64 then throw (.runtimeError "could not read past buffer borders")

/-- `ReadBuffer`, and the loads of the other reads. -/
def readBuffer (length : Nat) : Fallible BufferReader Fault (List UInt8) := do
  checkBufferSize length
  let r ← get
  if r.buffer.length < r.pos + length then throw .outOfBounds
  set { r with pos := r.pos + length }
  return (r.buffer.drop r.pos).take length

end BufferReader

namespace PacketDeserializer

variable {σ : Type} (read : Nat → Fallible σ Fault (List UInt8))

def readUint32 : Fallible σ Fault Nat := do return decodeBE (← read 4)

def readInt64 : Fallible σ Fault (BitVec 64) := do return .ofNat 64 (decodeBE (← read 8))

def readString : Fallible σ Fault (List UInt8) := do read (← readUint32 read)

def readEach {α : Type} (element : Fallible σ Fault α) : Nat → Fallible σ Fault (List α)
  | 0 => return []
  | n + 1 => do
    let a ← element
    return a :: (← readEach element n)

def readValue : Fallible σ Fault (Option (List UInt8)) := do
  let value ← readUint32 read
  if value = Packet.nullLength then return none
  else return some (← read value)

/-- The five decoders, with any way to read a number of bytes. -/
def readPayload : PacketType → Fallible σ Fault Packet
  | .Query => do return .Query (← readString read)
  | .TupleDescription => do return .TupleDescription (← readEach (readString read) (← readUint32 read))
  | .DataRow => do return .DataRow (← readEach (readValue read) (← readUint32 read))
  | .ErrorResponse => do return .ErrorResponse (← readString read)
  | .CommandComplete => do
    let tag ← readString read
    return .CommandComplete tag (← readInt64 read)

end PacketDeserializer

/-! ## No read outside -/

/-- The bytes behind the cursor of a buffer that a packet can have. -/
def Behind (c : BufferReader) (r : NetworkReader) : Prop :=
  c.pos ≤ c.buffer.length ∧ c.max = c.buffer.length ∧ c.buffer.length < 2 ^ 32 ∧ r.rest = c.buffer.drop c.pos

/-- Both programs do the same, and their results satisfy `Q`. -/
def Agrees {α : Type} (m : Fallible BufferReader Fault α) (m' : ReaderM α) (Q : α → Prop) : Prop :=
  ∀ c r, Behind c r → (m c).1 = (m' r).1 ∧ Behind (m c).2 (m' r).2 ∧ ∀ a, (m' r).1 = .ok a → Q a

namespace Agrees

variable {α β : Type} {m : Fallible BufferReader Fault α} {m' : ReaderM α} {Q : α → Prop} {Q' : β → Prop}
  {f : α → Fallible BufferReader Fault β} {f' : α → ReaderM β}

theorem bind (h : Agrees m m' Q) (hf : ∀ a, Q a → Agrees (f a) (f' a) Q') : Agrees (m >>= f) (m' >>= f') Q' := by
  intro c r hcr
  obtain ⟨hres, hbehind, hq⟩ := h c r hcr
  rcases hm : m c with ⟨x, c'⟩
  rcases hm' : m' r with ⟨x', r'⟩
  rw [hm, hm'] at hres hbehind
  rw [hm'] at hq
  simp only at hres hbehind hq
  subst hres
  cases x with
  | error fault =>
    rw [Fallible.bind_apply, Fallible.bind_apply, hm, hm']
    exact ⟨rfl, hbehind, nofun⟩
  | ok a =>
    rw [Fallible.bind_ok hm, Fallible.bind_ok hm']
    exact hf a (hq a rfl) c' r' hbehind

theorem pure (a : α) (h : Q a) : Agrees (Pure.pure a) (Pure.pure a) Q :=
  fun _ _ hcr => ⟨rfl, hcr, fun _ hb => Except.ok.inj hb ▸ h⟩

theorem map {g : α → β} (h : Agrees m m' Q) (hg : ∀ a, Q a → Q' (g a)) :
    Agrees (do return g (← m)) (do return g (← m')) Q' := h.bind fun a ha => pure (g a) (hg a ha)

end Agrees

namespace PacketDeserializer

/-- The check of the borders suffices: the sum does not wrap for what a decoder asks for. -/
theorem readBuffer_agrees {n : Nat} (hn : n < 2 ^ 32) :
    Agrees (BufferReader.readBuffer n) (NetworkReader.readBuffer n) fun bs => bs.length = n := by
  rintro ⟨buffer, pos, max⟩ ⟨rest⟩ ⟨hpos, hmax, hlen, hrest⟩
  simp only at hpos hmax hlen hrest
  have hmod : (pos + n) % 2 ^ 64 = pos + n := Nat.mod_eq_of_lt (by omega)
  have hrestlen : rest.length = buffer.length - pos := by rw [hrest, List.length_drop]
  by_cases hlt : rest.length < n
  · have hmaxlt : max < (pos + n) % 2 ^ 64 := by omega
    have hc : BufferReader.readBuffer n ⟨buffer, pos, max⟩ =
        (.error (.runtimeError "could not read past buffer borders"), ⟨buffer, pos, max⟩) := by
      simp only [BufferReader.readBuffer, BufferReader.checkBufferSize, Fallible.bind_apply, Fallible.get_apply,
        if_pos hmaxlt, Fallible.throw_apply]
    have hr : NetworkReader.readBuffer n ⟨rest⟩ =
        (.error (.runtimeError "could not read past buffer borders"), ⟨rest⟩) := by
      simp only [NetworkReader.readBuffer, Fallible.bind_apply, Fallible.get_apply, if_pos hlt,
        Fallible.throw_apply]
    rw [hc, hr]
    exact ⟨rfl, ⟨hpos, hmax, hlen, hrest⟩, nofun⟩
  · have hmaxle : ¬ max < (pos + n) % 2 ^ 64 := by omega
    have hin : ¬ buffer.length < pos + n := by omega
    have hc : BufferReader.readBuffer n ⟨buffer, pos, max⟩ = (.ok (rest.take n), ⟨buffer, pos + n, max⟩) := by
      simp only [BufferReader.readBuffer, BufferReader.checkBufferSize, Fallible.bind_apply, Fallible.get_apply,
        if_neg hmaxle, if_neg hin, Fallible.pure_apply, Fallible.set_apply, hrest]
    have hr : NetworkReader.readBuffer n ⟨rest⟩ = (.ok (rest.take n), ⟨rest.drop n⟩) := by
      simp only [NetworkReader.readBuffer, Fallible.bind_apply, Fallible.get_apply, if_neg hlt, Fallible.pure_apply,
        Fallible.set_apply]
    rw [hc, hr]
    refine ⟨rfl, ⟨by simp only; omega, hmax, hlen, ?_⟩, fun bs hbs => ?_⟩
    · simp only
      rw [hrest, List.drop_drop]
    · have htake : (rest.take n).length = n := by rw [List.length_take]; omega
      rw [← Except.ok.inj hbs]
      exact htake

theorem readUint32_agrees :
    Agrees (readUint32 BufferReader.readBuffer) NetworkReader.readUint32 fun n => n < 2 ^ 32 :=
  (readBuffer_agrees (by decide)).map fun bs hbs => by
    have hlt := decodeBE_lt bs
    rwa [hbs] at hlt

theorem readString_agrees : Agrees (readString BufferReader.readBuffer) NetworkReader.readString fun _ => True := by
  refine readUint32_agrees.bind fun n hn => ?_
  intro c r hcr
  obtain ⟨hres, hbehind, -⟩ := readBuffer_agrees hn c r hcr
  exact ⟨hres, hbehind, fun _ _ => trivial⟩

theorem readValue_agrees : Agrees (readValue BufferReader.readBuffer) Packet.readValue fun _ => True := by
  refine readUint32_agrees.bind fun n hn => ?_
  by_cases hnull : n = Packet.nullLength
  · rw [if_pos hnull, if_pos hnull]
    exact .pure _ trivial
  · rw [if_neg hnull, if_neg hnull]
    exact (readBuffer_agrees hn).map fun _ _ => trivial

theorem readEach_agrees {α : Type} {m : Fallible BufferReader Fault α} {m' : ReaderM α}
    (h : Agrees m m' fun _ => True) (n : Nat) :
    Agrees (readEach m n) (NetworkReader.readEach m' n) fun _ => True := by
  induction n with
  | zero => exact .pure _ trivial
  | succ n ih => exact h.bind fun a _ => ih.map fun _ _ => trivial

theorem readPayload_agrees (t : PacketType) :
    Agrees (readPayload BufferReader.readBuffer t) (Packet.readPayload t) fun _ => True := by
  cases t with
  | Query => exact readString_agrees.map fun _ _ => trivial
  | TupleDescription => exact readUint32_agrees.bind fun n _ => (readEach_agrees readString_agrees n).map fun _ _ =>
    trivial
  | DataRow => exact readUint32_agrees.bind fun n _ => (readEach_agrees readValue_agrees n).map fun _ _ => trivial
  | ErrorResponse => exact readString_agrees.map fun _ _ => trivial
  | CommandComplete =>
    refine readString_agrees.bind fun tag _ => ?_
    have hint : Agrees (readInt64 BufferReader.readBuffer) (readInt64 NetworkReader.readBuffer) fun _ => True :=
      (readBuffer_agrees (by decide)).map fun _ _ => trivial
    exact hint.map fun _ _ => trivial

/-- The decoder on the buffer of a packet. -/
def deserialize (t : PacketType) (buffer : List UInt8) : Except Fault Packet :=
  (readPayload BufferReader.readBuffer t ⟨buffer, 0, buffer.length⟩).1

theorem deserialize_eq {t : PacketType} {buffer : List UInt8} (h : buffer.length < 2 ^ 32) :
    deserialize t buffer = Packet.deserialize t buffer :=
  (readPayload_agrees t ⟨buffer, 0, buffer.length⟩ ⟨buffer⟩ ⟨Nat.zero_le _, rfl, h, rfl⟩).1

/-- A decoder never reads outside of its payload. -/
theorem deserialize_throws {t : PacketType} {buffer : List UInt8} (h : buffer.length < 2 ^ 32) {fault : Fault}
    (hd : deserialize t buffer = .error fault) : ∃ what, fault = .runtimeError what := by
  rw [deserialize_eq h] at hd
  exact (Packet.readPayload_throws t).error (Prod.ext hd rfl)

end PacketDeserializer

/-! ## Receiving -/

namespace MimiClient

variable {recv : Calls} {s t : Socket}

theorem recvLoop_inv {failed : String → Fault} {left : Nat} {bytes : List UInt8}
    (h : recvLoop recv failed left s = (.ok (some bytes), t)) :
    s.bytes = bytes ++ t.bytes ∧ bytes.length = left := by
  induction left using Nat.strong_induction_on generalizing s bytes with
  | _ left ih =>
    rw [recvLoop] at h
    split_ifs at h with hzero
    · cases h
      exact ⟨rfl, hzero.symm⟩
    · split at h
      next => cases h
      next n hn =>
        simp only at h
        split_ifs at h with hret
        · cases h
        · split at h
          next bytes' u hloop =>
            cases h
            obtain ⟨hb, hlen⟩ := ih _ (by omega) hloop
            simp only at hb
            refine ⟨?_, ?_⟩
            · rw [List.append_assoc, ← hb, List.take_append_drop]
            · rw [List.length_append, List.length_take, hlen]
              omega
          next result u hne hloop =>
            cases h
            exact absurd rfl (hne bytes)

theorem recvLoop_throws {failed : String → Fault} (hf : ∀ what, ∃ w, failed what = .runtimeError w) (left : Nat) :
    ThrowsOnly (recvLoop recv failed left) := by
  induction left using Nat.strong_induction_on with
  | _ left ih =>
    intro s _
    rw [recvLoop]
    by_cases hzero : left = 0
    · rw [if_pos hzero]
      trivial
    · rw [if_neg hzero]
      cases hn : recv s.calls with
      | error what => exact hf what
      | ok n =>
        simp only
        by_cases hret : min (n + 1) (min left s.bytes.length) = 0
        · rw [if_pos hret]
          trivial
        · rw [if_neg hret]
          have hrest := ih (left - min (n + 1) (min left s.bytes.length)) (by omega)
            ⟨s.bytes.drop (min (n + 1) (min left s.bytes.length)), s.calls + 1⟩ trivial
          revert hrest
          generalize recvLoop recv failed _ _ = res
          obtain ⟨r, u⟩ := res
          intro hrest
          cases r with
          | error fault => exact hrest
          | ok o => cases o <;> trivial

theorem recvBuffer_throws (length : Nat) : ThrowsOnly (recvBuffer recv length) := by
  refine (recvLoop_throws (fun _ => ⟨_, rfl⟩) length).bind fun bytes => ?_
  cases bytes with
  | none => exact .throw _
  | some bytes => exact .pure _

theorem recvBuffer_inv {length : Nat} {bytes : List UInt8} (h : recvBuffer recv length s = (.ok bytes, t)) :
    s.bytes = bytes ++ t.bytes ∧ bytes.length = length := by
  obtain ⟨o, u, hloop, h⟩ := Fallible.bind_eq_ok.1 h
  cases o with
  | none => cases h
  | some bytes' =>
    cases h
    exact recvLoop_inv hloop

theorem receivePacket_throws (recv : Calls) : ThrowsOnly (receivePacket recv) := by
  refine (recvLoop_throws (fun _ => ⟨_, rfl⟩) 1).bind fun byte => ?_
  cases byte with
  | none => exact .pure _
  | some byte =>
    simp only
    cases PacketType.ofCode (byte.headD 0) with
    | none => exact .throw _
    | some type =>
      refine (recvBuffer_throws 4).bind fun length => ?_
      by_cases hlen : decodeBE length < 4
      · rw [if_pos hlen]
        exact .throw _
      · rw [if_neg hlen]
        refine (recvBuffer_throws _).bind fun buffer => ThrowsOnly.bind ?_ fun packet => .pure _
        intro s _
        unfold Fallible.ofExcept
        cases hd : Packet.deserialize type buffer with
        | ok packet => trivial
        | error fault => exact (Packet.readPayload_throws type).error (Prod.ext hd rfl)

theorem code_of_ofCode {code : UInt8} {type : PacketType} (h : PacketType.ofCode code = some type) :
    type.code = code := by
  unfold PacketType.ofCode at h
  have hfound := List.find?_some h
  simpa using hfound

theorem receivePacket_inv {packet : Packet} (h : receivePacket recv s = (.ok (some packet), t)) :
    ∃ extra, packet.payload.length + extra.length + 4 < 2 ^ 32 ∧
      s.bytes = packet.type.code :: (encodeBE 4 (packet.payload.length + extra.length + 4) ++
      (packet.payload ++ extra)) ++ t.bytes := by
  obtain ⟨byte, s1, hbyte, h⟩ := Fallible.bind_eq_ok.1 h
  cases byte with
  | none => cases h
  | some byte =>
    obtain ⟨hb, hone⟩ := recvLoop_inv hbyte
    obtain ⟨code, rfl⟩ := List.length_eq_one_iff.1 hone
    simp only [List.headD_cons] at h
    cases hcode : PacketType.ofCode code with
    | none =>
      rw [hcode] at h
      cases h
    | some type =>
      rw [hcode] at h
      obtain ⟨length, s2, hlength, h⟩ := Fallible.bind_eq_ok.1 h
      obtain ⟨hl, hfour⟩ := recvBuffer_inv hlength
      split_ifs at h with hlt
      · cases h
      · obtain ⟨buffer, s3, hbuffer, h⟩ := Fallible.bind_eq_ok.1 h
        obtain ⟨hp, hplen⟩ := recvBuffer_inv hbuffer
        obtain ⟨packet', s4, hof, h⟩ := Fallible.bind_eq_ok.1 h
        cases h
        obtain ⟨hdes, hsame⟩ := Fallible.ofExcept_eq_ok.1 hof
        rcases hread : Packet.readPayload type ⟨buffer⟩ with ⟨res, ⟨extra⟩⟩
        rw [Packet.deserialize, hread] at hdes
        simp only at hdes
        subst hdes
        obtain ⟨htype, hpayload⟩ := Packet.readPayload_inv hread
        simp only at hpayload
        have hsum := congrArg List.length hpayload
        rw [List.length_append, hplen] at hsum
        have hbound := decodeBE_lt length
        rw [hfour] at hbound
        have hfield : encodeBE 4 (packet.payload.length + extra.length + 4) = length := by
          rw [← encodeBE_decodeBE hfour]
          congr 1
          omega
        refine ⟨extra, by omega, ?_⟩
        rw [hfield, htype, code_of_ofCode hcode, hb, hl, hp, hpayload, hsame]
        simp

/-! ## Exact packets -/

/-- The stream does not begin with a packet whose length field counts bytes behind the packet's encoding. -/
def NothingLeft (bytes : List UInt8) : Prop :=
  ∀ (packet : Packet) (extra rest : List UInt8), extra ≠ [] → packet.payload.length + extra.length + 4 < 2 ^ 32 →
    bytes ≠ packet.type.code :: (encodeBE 4 (packet.payload.length + extra.length + 4) ++
    (packet.payload ++ extra)) ++ rest

/-- An exception, the end of the stream, or the packet that the stream begins with. -/
def ReceivesExactly (recv : Calls) (s : Socket) : Prop :=
  match (receivePacket recv s).1 with
  | .error fault => ∃ what, fault = .runtimeError what
  | .ok none => True
  | .ok (some packet) => ∃ rest, s.bytes = packet.toBytes ++ rest

theorem receivesExactly_of_nothingLeft (recv : Calls) (h : NothingLeft s.bytes) : ReceivesExactly recv s := by
  unfold ReceivesExactly
  rcases hr : receivePacket recv s with ⟨res, t⟩
  cases res with
  | error fault => exact (receivePacket_throws recv).error hr
  | ok o =>
    cases o with
    | none => trivial
    | some packet =>
      obtain ⟨extra, hlen, hbytes⟩ := receivePacket_inv hr
      by_cases hextra : extra = []
      · subst hextra
        rw [List.append_nil, List.length_nil, Nat.add_zero] at hbytes
        exact ⟨t.bytes, hbytes⟩
      · exact absurd hbytes (h packet extra t.bytes hextra hlen)

/-- A packet is received although bytes of its payload are left over. -/
theorem receivePacket_leftover {packet : Packet} {extra rest : List UInt8} (sizes : Nat → Nat) (c : Nat)
    (hlen : packet.payload.length + extra.length + 4 < 2 ^ 32) :
    (receivePacket (succeed sizes) ⟨packet.type.code ::
      (encodeBE 4 (packet.payload.length + extra.length + 4) ++ (packet.payload ++ extra)) ++ rest, c⟩).1 =
      .ok (some packet) := by
  have hsize := Packet.payload_length packet
  have hmod : (packet.payload.length + extra.length + 4) % 256 ^ 4 = packet.payload.length + extra.length + 4 :=
    Nat.mod_eq_of_lt (by omega)
  obtain ⟨c1, h1⟩ := recvBufferOpt_eq sizes [packet.type.code]
    (encodeBE 4 (packet.payload.length + extra.length + 4) ++ (packet.payload ++ extra ++ rest)) c
  obtain ⟨c2, h2⟩ := recvBuffer_eq sizes (encodeBE 4 (packet.payload.length + extra.length + 4))
    (packet.payload ++ extra ++ rest) c1
  obtain ⟨c3, h3⟩ := recvBuffer_eq sizes (packet.payload ++ extra) rest c2
  rw [encodeBE_length] at h2
  rw [List.length_singleton] at h1
  rw [List.length_append] at h3
  have hdes : Packet.deserialize packet.type (packet.payload ++ extra) = .ok packet := by
    have hread := @Packet.reads_payload packet (by omega) extra
    rw [Packet.deserialize, hread]
  have hbytes : packet.type.code :: (encodeBE 4 (packet.payload.length + extra.length + 4) ++
    (packet.payload ++ extra)) ++ rest =
      [packet.type.code] ++ (encodeBE 4 (packet.payload.length + extra.length + 4) ++
        (packet.payload ++ extra ++ rest)) := by
    simp
  rw [hbytes]
  unfold receivePacket
  rw [Fallible.bind_ok h1]
  simp only [List.headD_cons, Packet.ofCode_code]
  rw [Fallible.bind_ok h2, decodeBE_encodeBE, hmod, if_neg (by omega), Nat.add_sub_cancel, Fallible.bind_ok h3,
    hdes]
  rfl

/-- A decoder throws or returns without a read outside of its payload, and its loop reads
an attribute for every four bytes at most. -/
structure StaysInside (type : PacketType) (payload : List UInt8) : Prop where
  inside : ∀ fault, PacketDeserializer.deserialize type payload = .error fault → ∃ what, fault = .runtimeError what
  same : PacketDeserializer.deserialize type payload = Packet.deserialize type payload
  rounds : Packet.attributesRead type payload ≤ payload.length / 4

/-- Whatever a peer sends: the decoders stay inside, and what is received is exactly a packet if and only if the
stream does not begin with one that has bytes left over. -/
theorem receive_exact_iff (recv : Calls) (s : Socket) :
    (∀ type payload, payload.length < 2 ^ 32 → StaysInside type payload) ∧
    (NothingLeft s.bytes → ReceivesExactly recv s) ∧
      ∀ sizes, ReceivesExactly (succeed sizes) s ↔ NothingLeft s.bytes := by
  refine ⟨fun type payload h => ?_, receivesExactly_of_nothingLeft recv, fun sizes => ?_⟩
  · exact ⟨fun fault => PacketDeserializer.deserialize_throws h, PacketDeserializer.deserialize_eq h,
      Packet.attributesRead_le type payload⟩
  · refine ⟨fun h packet extra rest hextra hlen hbytes => ?_, receivesExactly_of_nothingLeft _⟩
    have hs : s = ⟨packet.type.code :: (encodeBE 4 (packet.payload.length + extra.length + 4) ++
      (packet.payload ++ extra)) ++ rest,
        s.calls⟩ := by
      rw [← hbytes]
    unfold ReceivesExactly at h
    rw [hs, receivePacket_leftover sizes s.calls hlen] at h
    obtain ⟨rest', heq⟩ := h
    -- the length fields differ
    simp only [Packet.toBytes, List.cons_append, List.append_assoc, List.cons.injEq, true_and] at heq
    have hfield := (List.append_inj heq (by simp)).1
    have hdec := congrArg decodeBE hfield
    rw [decodeBE_encodeBE, decodeBE_encodeBE, Nat.mod_eq_of_lt (by omega), Nat.mod_eq_of_lt (by omega)] at hdec
    have hpos := List.length_pos_of_ne_nil hextra
    omega

/-- An empty query with one byte left over. -/
theorem query_leftover_received :
    (receivePacket (succeed fun _ => 0) ⟨[81, 0, 0, 0, 9, 0, 0, 0, 0, 7], 0⟩).1 = .ok (some (.Query [])) ∧
    ¬ ReceivesExactly (succeed fun _ => 0) ⟨[81, 0, 0, 0, 9, 0, 0, 0, 0, 7], 0⟩ := by
  have h := @receivePacket_leftover (.Query []) [7] [] (fun _ => 0) 0 (by decide)
  have hrun :
    (receivePacket (succeed fun _ => 0) ⟨[81, 0, 0, 0, 9, 0, 0, 0, 0, 7], 0⟩).1 = .ok (some (.Query [])) := h
  refine ⟨hrun, fun hexact => ?_⟩
  unfold ReceivesExactly at hexact
  rw [hrun] at hexact
  obtain ⟨rest, heq⟩ := hexact
  have hlen := congrArg (fun bytes => List.take 5 bytes) heq
  exact absurd hlen
    (by simp [Packet.toBytes, Packet.payload, Packet.stringBytes, Packet.type, PacketType.code, encodeBE, encodeLE])

end MimiClient

end Mimidb
