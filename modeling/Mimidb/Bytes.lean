import Mathlib.Data.List.Basic
import Mathlib.Algebra.Order.Ring.Nat

/-!
# Bytes and memory

A memory gives every address a byte. `slice` reads a range of it, `blit`
writes one, and numbers are stored with their lowest byte first.
-/

namespace Mimidb

abbrev Memory := Nat → UInt8

/-- The lowest `w` bytes of a number. -/
def encodeLE : Nat → Nat → List UInt8
  | 0, _ => []
  | w + 1, n => UInt8.ofNat (n % 256) :: encodeLE w (n / 256)

def decodeLE : List UInt8 → Nat
  | [] => 0
  | b :: bs => b.toNat + 256 * decodeLE bs

namespace Memory

def slice (m : Memory) (addr : Nat) : Nat → List UInt8
  | 0 => []
  | n + 1 => m addr :: slice m (addr + 1) n

def blit (m : Memory) (addr : Nat) (bs : List UInt8) : Memory := fun i =>
  if addr ≤ i then bs[i - addr]?.getD (m i) else m i

def readLE (m : Memory) (addr w : Nat) : Nat := decodeLE (m.slice addr w)

def writeLE (m : Memory) (addr w n : Nat) : Memory := m.blit addr (encodeLE w n)

end Memory

/-! ## Numbers -/

@[simp] theorem encodeLE_length (w n : Nat) : (encodeLE w n).length = w := by
  induction w generalizing n with
  | zero => rfl
  | succ w ih => simp only [encodeLE, List.length_cons, ih]

theorem decodeLE_lt (bs : List UInt8) : decodeLE bs < 256 ^ bs.length := by
  induction bs with
  | nil => simp [decodeLE]
  | cons b bs ih =>
    have hb : b.toNat < 256 := b.toNat_lt
    simp only [decodeLE, List.length_cons, Nat.pow_succ]
    omega

theorem decodeLE_encodeLE (w n : Nat) : decodeLE (encodeLE w n) = n % 256 ^ w := by
  induction w generalizing n with
  | zero => simp [encodeLE, decodeLE, Nat.mod_one]
  | succ w ih =>
    have hb : (UInt8.ofNat (n % 256)).toNat = n % 256 := by
      rw [UInt8.toNat_ofNat']; exact Nat.mod_eq_of_lt (Nat.mod_lt _ (by decide))
    rw [encodeLE, decodeLE, ih, hb, Nat.pow_succ', Nat.mod_mul]

theorem encodeLE_decodeLE (bs : List UInt8) : encodeLE bs.length (decodeLE bs) = bs := by
  induction bs with
  | nil => rfl
  | cons b bs ih =>
    have hb : b.toNat < 256 := b.toNat_lt
    have h1 : (b.toNat + 256 * decodeLE bs) % 256 = b.toNat := by omega
    have h2 : (b.toNat + 256 * decodeLE bs) / 256 = decodeLE bs := by omega
    rw [List.length_cons, decodeLE, encodeLE, h1, h2, ih, UInt8.ofNat_toNat]

theorem encodeLE_decodeLE_take {bs : List UInt8} {w : Nat} (h : w ≤ bs.length) :
    encodeLE w (decodeLE (bs.take w)) = bs.take w := by
  have hlen : (bs.take w).length = w := by rw [List.length_take]; omega
  have := encodeLE_decodeLE (bs.take w)
  rwa [hlen] at this

/-! ## Ranges -/

namespace Memory

variable {m m' : Memory} {addr addr' n w : Nat} {bs : List UInt8}

@[simp] theorem slice_length (m : Memory) (addr n : Nat) : (m.slice addr n).length = n := by
  induction n generalizing addr with
  | zero => rfl
  | succ n ih => simp only [slice, List.length_cons, ih]

theorem slice_congr (h : ∀ i, addr ≤ i → i < addr + n → m i = m' i) :
    m.slice addr n = m'.slice addr n := by
  induction n generalizing addr with
  | zero => rfl
  | succ n ih =>
    rw [slice, slice, h addr (Nat.le_refl _) (by omega), ih fun i h1 h2 => h i (by omega) (by omega)]

theorem blit_outside {i : Nat} (h : i < addr ∨ addr + bs.length ≤ i) : m.blit addr bs i = m i := by
  unfold blit
  split
  · rw [List.getElem?_eq_none (by omega)]; rfl
  · rfl

theorem slice_blit_disjoint (h : addr' + n ≤ addr ∨ addr + bs.length ≤ addr') :
    (m.blit addr bs).slice addr' n = m.slice addr' n :=
  slice_congr fun _ _ _ => blit_outside (by omega)

theorem slice_blit_same : (m.blit addr bs).slice addr bs.length = bs := by
  induction bs generalizing addr m with
  | nil => rfl
  | cons b bs ih =>
    have hb : m.blit addr (b :: bs) addr = b := by simp [blit]
    have hs : m.blit addr (b :: bs) = (m.blit addr [b]).blit (addr + 1) bs := by
      funext i
      unfold blit
      rcases Nat.lt_trichotomy i addr with h | h | h
      · rw [if_neg (by omega), if_neg (by omega), if_neg (by omega)]
      · subst h; simp
      · have hi : i - addr = (i - (addr + 1)) + 1 := by omega
        rw [if_pos (by omega), if_pos (by omega), if_pos (by omega), hi]
        simp
    rw [List.length_cons, slice, hb, hs, ih]

theorem readLE_lt (m : Memory) (addr w : Nat) : m.readLE addr w < 256 ^ w := by
  have h := decodeLE_lt (m.slice addr w)
  rwa [slice_length] at h

theorem readLE_blit_disjoint (h : addr' + w ≤ addr ∨ addr + bs.length ≤ addr') :
    (m.blit addr bs).readLE addr' w = m.readLE addr' w := by
  rw [readLE, slice_blit_disjoint h, readLE]

theorem readLE_writeLE_disjoint {w' : Nat} (h : addr' + w' ≤ addr ∨ addr + w ≤ addr') :
    (m.writeLE addr w n).readLE addr' w' = m.readLE addr' w' :=
  readLE_blit_disjoint (by rwa [encodeLE_length])

theorem readLE_writeLE_same : (m.writeLE addr w n).readLE addr w = n % 256 ^ w := by
  have h : (m.writeLE addr w n).slice addr w = encodeLE w n := by
    have : (m.writeLE addr w n).slice addr (encodeLE w n).length = encodeLE w n := slice_blit_same
    rwa [encodeLE_length] at this
  rw [readLE, h, decodeLE_encodeLE]

end Memory

end Mimidb
