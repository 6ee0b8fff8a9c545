import Mimidb.TupleCodec
import Mimidb.Visibility

/-!
# Loops over attributes

The loops over the attributes of a tuple count an `AttrNumber` of 16 bits up to
`GetMaxAttrNumber`, the number of attributes in 16 bits. With at most 65534
attributes a loop is one pass over them; with 65535 the counter never exceeds
the bound, and with more the bound is too small.
-/

namespace Mimidb

namespace AttrNumber

def Min : Nat := 1

/-- `operator++`. -/
def next (attno : Nat) : Nat := (attno + 1) % 2 ^ 16

/-- An `int` below zero is a huge `size_t`. -/
def toIndex (dbg : Bool) (attno : Nat) : Except Fault Nat := do
  assert dbg (attno ≠ 0)
  return if attno = 0 then 2 ^ 64 - 1 else attno - 1

end AttrNumber

/-! ## Loops -/

/-- A way to run a body for attribute numbers. -/
abbrev AttrLoop := {σ : Type} → (Nat → σ → Except Fault σ) → σ → Except Fault σ

namespace AttrLoop

variable {σ : Type}

/-- `for (attno; attno <= maxAttno; ++attno)`, at most `rounds` times. -/
def run (maxAttno : Nat) (body : Nat → σ → Except Fault σ) : (rounds attno : Nat) → σ → Except Fault σ
  | 0, attno, s => if attno ≤ maxAttno then .error .diverges else .ok s
  | rounds + 1, attno, s =>
    if attno ≤ maxAttno then do
      let s ← body attno s
      run maxAttno body rounds (AttrNumber.next attno) s
    else .ok s

/-- The loop of the code. -/
def counted (maxAttno rounds : Nat) : AttrLoop := fun body s => run maxAttno body rounds AttrNumber.Min s

/-- One pass over `n` attributes. -/
def each (n : Nat) : AttrLoop := fun body s => (List.range' AttrNumber.Min n).foldlM (fun s attno => body attno s) s

/-- The indexes that a loop comes to. -/
def visit (dbg : Bool) (attno : Nat) (visited : List Nat) : Except Fault (List Nat) := do
  let idx ← AttrNumber.toIndex dbg attno
  return visited ++ [idx]

end AttrLoop

/-- `operator[]`. -/
def fetch {α : Type} (xs : List α) (idx : Nat) : Except Fault α :=
  match xs[idx]? with
  | some x => .ok x
  | none => .error .outOfBounds

/-- The assignment to an element. -/
def assign {α : Type} (xs : List α) (idx : Nat) (x : α) : Except Fault (List α) :=
  if idx < xs.length then .ok (xs.set idx x) else .error .outOfBounds

/-! ## The functions -/

namespace TupleSerializer

section
variable (dbg : Bool) (desc : TupleDescriptor) (values : List Datum) (isnull : List Bool)

/-- One round of the loop over the sizes. -/
def sizeRound (attno : Nat) : Bool × Nat → Except Fault (Bool × Nat)
  | (hasnulls, tupsize) => do
    let idx ← AttrNumber.toIndex dbg attno
    if ← fetch isnull idx then return (true, tupsize)
    let size ← valueSize dbg (← fetch desc.attributes idx) (← fetch values idx)
    return (hasnulls, tupsize + size)

/-- One round of the loop over the bitmap; `bitmask` is the bit of the attribute before. -/
def bitmapRound (attno : Nat) : List UInt8 × Int × Nat → Except Fault (List UInt8 × Int × Nat)
  | (buffer, bitmap, bitmask) => do
    let idx ← AttrNumber.toIndex dbg attno
    let (bitmap, bitmask) := if bitmask = 0x80 then (bitmap + 1, 1) else (bitmap, bitmask <<< 1)
    if ← fetch isnull idx then return (buffer, bitmap, bitmask)
    if bitmap < 0 ∨ buffer.length ≤ bitmap then throw .outOfBounds
    return (buffer.modify bitmap.toNat fun b => b ||| UInt8.ofNat bitmask, bitmap, bitmask)

/-- One round of the loop over the values. -/
def valueRound (attno : Nat) : List UInt8 × Nat → Except Fault (List UInt8 × Nat)
  | (buffer, cursor) => do
    let idx ← AttrNumber.toIndex dbg attno
    if ← fetch isnull idx then return (buffer, cursor)
    writeValue (← fetch desc.attributes idx) (← fetch values idx) buffer cursor

/-- `Serialize` with its three loops. -/
def serializeBy (loop : AttrLoop) : Except Fault SerializedTupleInfo := do
  let (hasnulls, tupsize) ← loop (sizeRound dbg desc values isnull) (false, 0)
  let bmsize := BitUtils.bitmapSize desc.getMaxAttrNumber
  let buffer := List.replicate (if hasnulls then tupsize + bmsize else tupsize) (0 : UInt8)
  if hasnulls then
    let buffer ← store buffer 0 (List.replicate bmsize 0)
    let (buffer, _) ← loop (bitmapRound dbg isnull) (buffer, -1, 0x80)
    let (buffer, _) ← loop (valueRound dbg desc values isnull) (buffer, bmsize)
    return ⟨buffer, hasnulls⟩
  else
    let (buffer, _) ← loop (valueRound dbg desc values isnull) (buffer, 0)
    return ⟨buffer, hasnulls⟩

end

section
variable (dbg : Bool) (desc : TupleDescriptor)

def nullRound (bitmap : List UInt8) (attno : Nat) (isnull : List Bool) : Except Fault (List Bool) := do
  let idx ← AttrNumber.toIndex dbg attno
  let byte ← fetch bitmap (idx / 8)
  assign isnull idx !(byte.toNat.testBit (idx % 8))

def datumRound (hasnulls : Bool) (isnull : List Bool) (attno : Nat) :
    List Datum × List UInt8 → Except Fault (List Datum × List UInt8)
  | (values, cursor) => do
    let num ← AttrNumber.toIndex dbg attno
    let null ← fetch isnull num
    if hasnulls && null then return (values, cursor)
    let (value, length) ← extractAttrDatum dbg cursor (← fetch desc.attributes num)
    return (← assign values num value, cursor.drop length)

/-- `Deserialize` with its two loops. -/
def deserializeBy (loop : AttrLoop) (array : List UInt8) (hasnulls : Bool) :
    Except Fault (List Datum × List Bool) := do
  let maxattno := desc.getMaxAttrNumber
  let isnull := List.replicate maxattno false
  let isnull ← if hasnulls then loop (nullRound dbg array) isnull else .ok isnull
  let cursor := if hasnulls then array.drop (BitUtils.bitmapSize maxattno) else array
  let (values, _) ← loop (datumRound dbg desc hasnulls isnull) (List.replicate maxattno (.scalar 0), cursor)
  return (values, isnull)

end

end TupleSerializer

/-- The part of `ITuple` that the loops use. -/
abbrev GetAttribute := Nat → Except Fault (Option Datum)

/-- One round of `formHeapPageTuple`. -/
def formRound (dbg : Bool) (getAttribute : GetAttribute) (attno : Nat) :
    List Datum × List Bool × Bool → Except Fault (List Datum × List Bool × Bool)
  | (values, isnull, anyNull) => do
    match ← getAttribute attno with
    | some datum => return (← assign values (← AttrNumber.toIndex dbg attno) datum, isnull, anyNull)
    | none => return (values, ← assign isnull (← AttrNumber.toIndex dbg attno) true, true)

/-- `HeapTable::formHeapPageTuple`, with the flags of the header. -/
def formHeapPageTupleBy (dbg : Bool) (desc : TupleDescriptor) (loop : AttrLoop) (getAttribute : GetAttribute) :
    Except Fault (HeapTupleFlags × List Datum × List Bool) := do
  let maxAttr := desc.getMaxAttrNumber
  let (values, isnull, anyNull) ← loop (formRound dbg getAttribute)
    (List.replicate maxAttr (.scalar 0), List.replicate maxAttr false, false)
  return (⟨false, anyNull⟩, values, isnull)

namespace VirtualTuple

def copyRound (dbg : Bool) (getAttribute : GetAttribute) (attno : Nat) :
    List Datum × List Bool → Except Fault (List Datum × List Bool)
  | (values, isnull) => do
    let attr ← getAttribute attno
    let idx ← AttrNumber.toIndex dbg attno
    return (← assign values idx (attr.getD (.scalar 0)), ← assign isnull idx attr.isNone)

/-- `Copy` of a tuple with `natts` attributes. -/
def copyBy (dbg : Bool) (natts : Nat) (loop : AttrLoop) (getAttribute : GetAttribute) :
    Except Fault (List Datum × List Bool) :=
  loop (copyRound dbg getAttribute) (List.replicate natts (.scalar 0), List.replicate natts false)

end VirtualTuple

/-! ## Counting -/

namespace AttrLoop

section
variable {σ : Type} {maxAttno : Nat} {body : Nat → σ → Except Fault σ}

theorem run_done {rounds attno : Nat} {s : σ} (h : maxAttno < attno) :
    run maxAttno body rounds attno s = .ok s := by
  cases rounds with
  | zero => rw [run, if_neg (Nat.not_le.2 h)]
  | succ rounds => rw [run, if_neg (Nat.not_le.2 h)]

/-- The rounds up to the bound, and then those from where the counter is, which may have wrapped. -/
theorem run_add (hmax : maxAttno < 2 ^ 16) {n attno : Nat} (hn : attno + n ≤ maxAttno + 1) (rounds : Nat) (s : σ) :
    run maxAttno body (rounds + n) attno s = (List.range' attno n).foldlM (fun s attno => body attno s) s >>=
    fun s =>
      run maxAttno body rounds (if n = 0 then attno else (attno + n) % 2 ^ 16) s := by
  induction n generalizing attno s with
  | zero => rfl
  | succ n ih =>
    rw [← Nat.add_assoc, run, if_pos (by omega), List.range'_succ, List.foldlM_cons, bind_assoc]
    refine bind_congr fun s => ?_
    cases n with
    | zero => rfl
    | succ n =>
      have hnext : AttrNumber.next attno = attno + 1 := Nat.mod_eq_of_lt (by omega)
      rw [hnext, ih (by omega), if_neg (Nat.succ_ne_zero _), if_neg (Nat.succ_ne_zero _),
        Nat.add_right_comm attno 1, Nat.add_assoc attno]

/-- Below the end of its type the counter takes every value once. -/
theorem run_eq (hmax : maxAttno < 2 ^ 16 - 1) {n rounds attno : Nat} (hn : attno + n = maxAttno + 1)
    (hr : n ≤ rounds) (s : σ) :
    run maxAttno body rounds attno s = (List.range' attno n).foldlM (fun s attno => body attno s) s := by
  obtain ⟨rest, rfl⟩ : ∃ rest, rounds = rest + n := ⟨rounds - n, by omega⟩
  have hdone : ∀ s, run maxAttno body rest (if n = 0 then attno else (attno + n) % 2 ^ 16) s = .ok s := fun s =>
    run_done (by split_ifs <;> omega)
  rw [run_add (by omega) (by omega)]
  simp only [hdone]
  exact bind_pure _

theorem counted_eq_each {rounds : Nat} (hmax : maxAttno < 2 ^ 16 - 1) (hr : maxAttno ≤ rounds) :
    @counted maxAttno rounds = @each maxAttno := by
  funext σ body s
  exact run_eq hmax (Nat.add_comm _ _) hr s

theorem run_mono {rounds more attno : Nat} {s t : σ} (h : run maxAttno body rounds attno s = .ok t)
    (hle : rounds ≤ more) :
    run maxAttno body more attno s = .ok t := by
  induction rounds generalizing more attno s with
  | zero =>
    rw [run] at h
    split_ifs at h with hc
    cases h
    exact run_done (Nat.not_le.1 hc)
  | succ rounds ih =>
    obtain ⟨more, rfl⟩ : ∃ m, more = m + 1 := ⟨more - 1, by omega⟩
    rw [run] at h ⊢
    split_ifs at h ⊢ with hc
    · obtain ⟨u, hu, h⟩ := bind_eq_ok.1 h
      rw [hu]
      exact ih h (by omega)
    · exact h

theorem run_max_ne_ok {rounds attno : Nat} (h : attno < 2 ^ 16) (s t : σ) :
    run (2 ^ 16 - 1) body rounds attno s ≠ .ok t := by
  induction rounds generalizing attno s with
  | zero =>
    rw [run, if_pos (by omega)]
    nofun
  | succ rounds ih =>
    rw [run, if_pos (by omega)]
    intro hok
    obtain ⟨u, -, hok⟩ := bind_eq_ok.1 hok
    exact ih (Nat.mod_lt _ (by decide)) u hok

end

section
variable {dbg : Bool}

theorem visit_eq {attno : Nat} (h : attno ≠ 0) (visited : List Nat) :
    visit dbg attno visited = .ok (visited ++ [attno - 1]) := by
  unfold visit AttrNumber.toIndex
  rw [if_neg h, decide_eq_true h]
  cases dbg <;> rfl

theorem each_visit_from (attno n : Nat) (h : attno ≠ 0) (visited : List Nat) :
    (List.range' attno n).foldlM (fun s attno => visit dbg attno s) visited =
    .ok (visited ++ List.range' (attno - 1) n) := by
  induction n generalizing attno visited with
  | zero =>
    rw [List.range'_zero, List.range'_zero, List.append_nil]
    rfl
  | succ n ih =>
    rw [List.range'_succ, List.foldlM_cons, visit_eq h, List.range'_succ]
    show (List.range' (attno + 1) n).foldlM (fun s attno => visit dbg attno s) (visited ++ [attno - 1]) = _
    have hpred : attno + 1 - 1 = attno - 1 + 1 := by omega
    rw [ih (attno + 1) (by omega), List.append_assoc, hpred]
    rfl

theorem each_visit (dbg : Bool) (n : Nat) : each n (visit dbg) [] = .ok (List.range n) := by
  rw [List.range_eq_range']
  exact each_visit_from 1 n (by decide) []

end

end AttrLoop

/-! ## Descriptors -/

/-- With `rounds` rounds every loop ends and is one pass over the attributes of the descriptor, and so are the
functions with these loops. -/
structure LoopsOnce (dbg : Bool) (desc : TupleDescriptor) (rounds : Nat) : Prop where
  visits :
    AttrLoop.counted desc.getMaxAttrNumber rounds (AttrLoop.visit dbg) [] = .ok (List.range desc.attributes.length)
  serialize : ∀ values isnull,
    TupleSerializer.serializeBy dbg desc values isnull (AttrLoop.counted desc.getMaxAttrNumber rounds) =
      TupleSerializer.serializeBy dbg desc values isnull (AttrLoop.each desc.attributes.length)
  deserialize : ∀ array hasnulls,
    TupleSerializer.deserializeBy dbg desc (AttrLoop.counted desc.getMaxAttrNumber rounds) array hasnulls =
      TupleSerializer.deserializeBy dbg desc (AttrLoop.each desc.attributes.length) array hasnulls
  formHeapPageTuple : ∀ getAttribute,
    formHeapPageTupleBy dbg desc (AttrLoop.counted desc.getMaxAttrNumber rounds) getAttribute =
      formHeapPageTupleBy dbg desc (AttrLoop.each desc.attributes.length) getAttribute
  copy : ∀ getAttribute,
    VirtualTuple.copyBy dbg desc.getMaxAttrNumber (AttrLoop.counted desc.getMaxAttrNumber rounds) getAttribute =
      VirtualTuple.copyBy dbg desc.getMaxAttrNumber (AttrLoop.each desc.attributes.length) getAttribute

theorem visited_length {dbg : Bool} {maxAttno rounds : Nat} (hmax : maxAttno < 2 ^ 16) {visited : List Nat}
    (h : AttrLoop.counted maxAttno rounds (AttrLoop.visit dbg) [] = .ok visited) :
    maxAttno ≠ 2 ^ 16 - 1 ∧ visited.length = maxAttno := by
  have hne : maxAttno ≠ 2 ^ 16 - 1 := fun he => by
    subst he
    exact AttrLoop.run_max_ne_ok (by decide) _ _ h
  have hmore := AttrLoop.run_mono h (Nat.le_add_left rounds maxAttno)
  have heach :
      AttrLoop.counted maxAttno (maxAttno + rounds) (AttrLoop.visit dbg) [] = .ok (List.range maxAttno) := by
    rw [AttrLoop.counted_eq_each (by omega) (Nat.le_add_right _ _), AttrLoop.each_visit]
  rw [← Except.ok.inj (heach.symm.trans hmore), List.length_range]
  exact ⟨hne, rfl⟩

/-- No descriptor is rejected; the loops are right for those with at most 65534 attributes and no others. -/
theorem loops_once_iff (dbg : Bool) (desc : TupleDescriptor) :
    (∃ rounds, LoopsOnce dbg desc rounds) ↔ desc.attributes.length ≤ 65534 := by
  constructor
  · rintro ⟨rounds, h⟩
    have hmax : desc.getMaxAttrNumber < 2 ^ 16 := Nat.mod_lt _ (by decide)
    obtain ⟨hne, hlen⟩ := visited_length hmax h.visits
    rw [List.length_range] at hlen
    omega
  · intro hn
    have hmax : desc.getMaxAttrNumber = desc.attributes.length := Nat.mod_eq_of_lt (by omega)
    have hloop :
        @AttrLoop.counted desc.getMaxAttrNumber desc.getMaxAttrNumber = @AttrLoop.each desc.attributes.length := by
      rw [AttrLoop.counted_eq_each (by omega) le_rfl, hmax]
    refine ⟨desc.getMaxAttrNumber, ?_, ?_, ?_, ?_, ?_⟩
    · rw [hloop, AttrLoop.each_visit]
    · intro values isnull
      rw [hloop]
    · intro array hasnulls
      rw [hloop]
    · intro getAttribute
      rw [hloop]
    · intro getAttribute
      rw [hloop]

theorem never_ok {desc : TupleDescriptor} (hlen : desc.attributes.length = 65535) (dbg : Bool) (rounds : Nat)
    (visited : List Nat) : AttrLoop.counted desc.getMaxAttrNumber rounds (AttrLoop.visit dbg) [] ≠ .ok visited := by
  have hmax : desc.getMaxAttrNumber = 2 ^ 16 - 1 := by
    rw [TupleDescriptor.getMaxAttrNumber, hlen]
    rfl
  rw [hmax]
  exact AttrLoop.run_max_ne_ok (by decide) _ _

/-- With 65535 attributes no loop ends. -/
theorem loop_endless :
    ∃ desc : TupleDescriptor, desc.attributes.length = 65535 ∧ (∀ dbg rounds, ¬ LoopsOnce dbg desc rounds) ∧
    ∀ dbg rounds visited, AttrLoop.counted desc.getMaxAttrNumber rounds (AttrLoop.visit dbg) [] ≠ .ok visited := by
  obtain ⟨desc, hlen⟩ : ∃ desc : TupleDescriptor, desc.attributes.length = 65535 :=
    ⟨⟨List.replicate 65535 ⟨4, true⟩⟩, List.length_replicate⟩
  exact ⟨desc, hlen, fun dbg rounds h => never_ok hlen dbg rounds _ h.visits, never_ok hlen⟩

end Mimidb
