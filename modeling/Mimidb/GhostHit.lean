import Mimidb.BufferCalls

/-!
# The target size after a ghost hit

A hit in `B1` is meant to raise the target `P` of `T1` and one in `B2` to lower
it. `handleGhostHit` has the two the other way round, divides by the size of the
other list when that list is shorter, and does not stop at zero.
-/

namespace Mimidb

namespace BufferManager

variable {β : Type}

/-! ## The target is set at the start of the call only -/

/-- The computation keeps the target and does not divide by zero. -/
def Steady {α : Type} (p : Nat) (m : PoolM β α) : Prop :=
  Fallible.Spec (fun s => s.P = p) m (fun _ s => s.P = p) fun err s => s.P = p ∧ err ≠ .divisionByZero

section
variable {p : Nat} {dbg : Bool} {e : Nat} {l : ListId}

theorem Steady.pure {α : Type} (a : α) : Steady (β := β) p (Pure.pure a) := Fallible.Spec.pure fun _ => id

theorem Steady.get : Steady (β := β) p MonadState.get := Fallible.Spec.get fun _ => id

theorem Steady.modify {f : BufferManager β → BufferManager β} (h : ∀ s, (f s).P = s.P) : Steady p (modify f) :=
  Fallible.Spec.modify fun s hs => (h s).trans hs

theorem Steady.throw {α : Type} {err : Fault} (h : err ≠ .divisionByZero) :
    Steady (β := β) p (throw err : PoolM β α) :=
  Fallible.Spec.throw fun _ hs => ⟨hs, h⟩

theorem Steady.bind {α γ : Type} {m : PoolM β α} {f : α → PoolM β γ} (hm : Steady p m) (hf : ∀ a, Steady p (f a)) :
    Steady p (m >>= f) := Fallible.Spec.bind hm hf

theorem Steady.ite {α : Type} {c : Prop} [Decidable c] {m n : PoolM β α} (hm : Steady p m) (hn : Steady p n) :
    Steady p (if c then m else n) := Fallible.Spec.ite (fun _ => hm) fun _ => hn

theorem Steady.tryCatch {α : Type} {m : PoolM β α} {g : Fault → PoolM β α} (hm : Steady p m)
    (hg : ∀ err, err ≠ .divisionByZero → Steady p (g err)) : Steady p (MonadExcept.tryCatch m g) :=
  Fallible.Spec.tryCatch hm fun err => .fact (hg err)

theorem check_steady (c : Bool) : Steady (β := β) p (check dbg c) := by
  intro s hs
  cases dbg <;> cases c <;> first | exact hs | exact ⟨hs, by decide⟩

theorem setState_steady (st : EntryState) : Steady (β := β) p (setState e st) := .modify fun _ => rfl

theorem getState_steady : Steady (β := β) p (getState e) := .bind .get fun _ => .pure _

theorem setList_steady (list : CacheEntryList) : Steady (β := β) p (setList l list) := .modify fun _ => rfl

theorem setLinks_steady (prev next : Nat → Option Nat) : Steady (β := β) p (setLinks prev next) :=
  .modify fun _ => rfl

theorem lockEntry_steady : Steady (β := β) p (lockEntry e) := by
  unfold lockEntry
  refine .bind getState_steady fun st => .ite ?_ ?_
  · exact fun _ hs => ⟨hs, nofun⟩
  · exact .bind (setState_steady _) fun _ => .pure _

theorem unlockEntry_steady : Steady (β := β) p (unlockEntry dbg e) := by
  unfold unlockEntry
  exact .bind getState_steady fun _ => .bind (setState_steady _) fun _ => check_steady _

theorem pin_steady : Steady (β := β) p (pin dbg e) := by
  unfold pin
  exact .bind getState_steady fun _ => .bind (setState_steady _) fun _ => check_steady _

theorem unpin_steady : Steady (β := β) p (unpin dbg e) := by
  unfold unpin
  exact .bind getState_steady fun _ => .bind (setState_steady _) fun _ => check_steady _

theorem insertMRU_steady : Steady (β := β) p (insertMRU dbg l e) := by
  unfold insertMRU
  refine .bind .get fun s => .bind (check_steady _) fun _ => .ite (setList_steady _) ?_
  split
  · exact .throw (by decide)
  · exact .bind (setLinks_steady _ _) fun _ => setList_steady _

theorem removeEntry_steady : Steady (β := β) p (removeEntry dbg l e) := by
  unfold removeEntry
  refine .bind .get fun s => .bind (check_steady _) fun _ => .ite (fun _ hs => ⟨hs, nofun⟩) (.ite ?_ ?_)
  · exact .bind (check_steady _) fun _ => .bind (check_steady _) fun _ => .bind (setLinks_steady _ _) fun _ =>
      setList_steady _
  · exact .bind (check_steady _) fun _ => .bind (check_steady _) fun _ => .bind (setLinks_steady _ _) fun _ =>
      setList_steady _

theorem nextIo_steady : Steady (β := β) p nextIo := by
  intro s hs
  obtain ⟨io, h | ⟨h, -⟩⟩ := nextIo_cases s
  · rw [h]
    exact hs
  · rw [h]
    exact ⟨hs, nofun⟩

theorem writePage_steady (tag : PageTag) (page : β) : Steady p (writePage tag page) := by
  unfold writePage
  exact .bind nextIo_steady fun _ => .ite (fun _ hs => ⟨hs, nofun⟩) (.modify fun _ => rfl)

theorem shouldStartIo_steady (forInput : Bool) : Steady (β := β) p (shouldStartIo dbg e forInput) := by
  unfold shouldStartIo
  refine .bind lockEntry_steady fun st => .ite (fun _ hs => ⟨hs, nofun⟩) (.ite ?_ ?_)
  · exact .bind unlockEntry_steady fun _ => .pure _
  · exact .bind (setState_steady _) fun _ => .bind unlockEntry_steady fun _ => .pure _

theorem terminateBufferIo_steady (setError setValid : Bool) :
    Steady (β := β) p (terminateBufferIo dbg e setError setValid) := by
  unfold terminateBufferIo
  refine .bind lockEntry_steady fun st => .bind (check_steady _) fun _ => .bind (setState_steady _) fun _ => ?_
  exact .bind unlockEntry_steady fun _ => .bind .get fun _ => check_steady _

theorem attached_steady : Steady (β := β) p (attached dbg e) := by
  unfold attached
  refine .bind .get fun s => .bind (check_steady _) fun _ => ?_
  split
  · exact .pure _
  · exact .throw nofun

theorem flushBuffer_steady : Steady (β := β) p (flushBuffer dbg e) := by
  unfold flushBuffer
  refine .bind (shouldStartIo_steady _) fun started => .ite (.pure _) (.bind attached_steady fun b => ?_)
  refine .bind (.tryCatch ?_ fun err herr => ?_) fun _ => terminateBufferIo_steady _ _
  · exact .bind .get fun _ => .bind (writePage_steady _ _) fun _ => nextIo_steady
  · exact .bind (terminateBufferIo_steady _ _) fun _ => .throw herr

theorem tryVacateEntry_steady (isFrequency : Bool) : Steady (β := β) p (tryVacateEntry dbg e isFrequency) := by
  unfold tryVacateEntry
  refine .bind lockEntry_steady fun st => .ite (.bind unlockEntry_steady fun _ => .pure _) ?_
  refine .bind pin_steady fun _ => .bind unlockEntry_steady fun _ => .bind flushBuffer_steady fun _ => ?_
  refine .bind lockEntry_steady fun st => .bind unlockEntry_steady fun _ => .ite (.pure _) ?_
  refine .bind lockEntry_steady fun _ => .bind attached_steady fun b => .bind (.modify fun _ => rfl) fun _ => ?_
  refine .bind unpin_steady fun _ => .bind getState_steady fun st => .bind (setState_steady _) fun _ => ?_
  exact .bind insertMRU_steady fun _ => .bind unlockEntry_steady fun _ => .bind (.modify fun _ => rfl) fun _ =>
    .pure _

theorem vacateFrom_steady (isFrequency : Bool) (fuel : Nat) :
    ∀ o, Steady (β := β) p (vacateFrom dbg isFrequency fuel o) := by
  induction fuel with
  | zero =>
    intro o
    cases o with
    | none => exact .pure _
    | some e => exact .throw nofun
  | succ fuel ih =>
    intro o
    cases o with
    | none => exact .pure _
    | some e =>
      unfold vacateFrom
      exact .bind (tryVacateEntry_steady _) fun _ => .ite (.pure _) (.bind .get fun _ => ih _)

theorem adjust_steady (target : Nat) (fromB2 : Bool) : Steady (β := β) p (adjust dbg target fromB2) := by
  unfold adjust
  exact .bind .get fun _ => .ite (vacateFrom_steady _ _ _) (vacateFrom_steady _ _ _)

end

/-! ## The new target -/

/-- The sizes of the ghost lists: of the one that is hit and of the other. -/
def hitSize (isFrequency : Bool) (s : BufferManager β) : Nat := (s.lists (if isFrequency then .B2 else .B1)).size

def otherSize (isFrequency : Bool) (s : BufferManager β) : Nat := (s.lists (if isFrequency then .B1 else .B2)).size

/-- `newP`. -/
def newTarget (isFrequency : Bool) (s : BufferManager β) (delta : Nat) : Nat :=
  if isFrequency then min ((s.P + delta) % counter) s.npages else (s.P + (counter - delta % counter)) % counter

/-- What the adaptation is for. -/
structure Adapts (isFrequency : Bool) (s : BufferManager β) (r : Except Fault Unit × BufferManager β) : Prop where
  divides : r.1 ≠ .error .divisionByZero
  range : r.2.P ≤ s.npages
  recency : isFrequency = false → s.P ≤ r.2.P
  frequency : isFrequency = true → r.2.P ≤ s.P

section
variable {isFrequency : Bool} {s : BufferManager β} {delta : Nat}

theorem ghostDelta_pos {a b : Nat} (h : a ≠ 0) : ghostDelta a b = .ok (max 1 (b / a)) := by
  have ha : 0 < a := Nat.pos_of_ne_zero h
  unfold ghostDelta
  by_cases hb : b ≤ a
  · have hle : b / a ≤ 1 := Nat.div_le_of_le_mul (by omega)
    rw [if_pos hb, Nat.max_eq_left hle]
  · have hle : 1 ≤ b / a := (Nat.one_le_div_iff ha).2 (by omega)
    rw [if_neg hb, if_neg h, Nat.max_eq_right hle]

theorem ghostDelta_zero {b : Nat} (h : 0 < b) : ghostDelta 0 b = .error .divisionByZero := by
  unfold ghostDelta
  rw [if_neg (by omega), if_pos rfl]

/-- The target is set once; what follows keeps it. -/
theorem handleGhostHit_target (dbg : Bool) (e : Nat)
    (h : ghostDelta (otherSize isFrequency s) (hitSize isFrequency s) = .ok delta) :
    Fallible.Spec (fun u => u = s) (handleGhostHit dbg e isFrequency)
      (fun _ u => u.P = newTarget isFrequency s delta)
      fun err u => u.P = newTarget isFrequency s delta ∧ err ≠ .divisionByZero := by
  have hmove : ∀ target old, Steady (β := β) target (do
      adjust dbg old isFrequency
      let st ← lockEntry e
      if st.isTopList = false ∧ st.isFrequencyList = isFrequency then
        removeEntry dbg (if isFrequency then .B1 else .B2) e
        insertMRU dbg .T2 e
        let st ← getState e
        setState e { st with isTopList := true, isFrequencyList := true }
      unlockEntry dbg e) := by
    intro target old
    refine .bind (adjust_steady _ _) fun _ => .bind lockEntry_steady fun st => .ite ?_ unlockEntry_steady
    refine .bind removeEntry_steady fun _ => .bind insertMRU_steady fun _ => .bind getState_steady fun st => ?_
    exact .bind (setState_steady _) fun _ => unlockEntry_steady
  unfold handleGhostHit
  refine Fallible.Spec.getBind fun u hu => ?_
  subst hu
  cases isFrequency with
  | true =>
    have hd : ghostDelta (u.lists .B1).size (u.lists .B2).size = .ok delta := h
    refine Fallible.Spec.bind (R := fun d t => d = delta ∧ t = u) ?_ fun d => ?_
    · rintro t rfl
      rw [hd]
      exact ⟨rfl, rfl⟩
    · refine Fallible.Spec.bind (R := fun _ (t : BufferManager β) => t.P = newTarget true u delta)
        (Fallible.Spec.modify ?_) fun _ => hmove _ _
      rintro t ⟨rfl, rfl⟩
      rfl
  | false =>
    have hd : ghostDelta (u.lists .B2).size (u.lists .B1).size = .ok delta := h
    refine Fallible.Spec.bind (R := fun d t => d = delta ∧ t = u) ?_ fun d => ?_
    · rintro t rfl
      rw [hd]
      exact ⟨rfl, rfl⟩
    · refine Fallible.Spec.bind (R := fun _ (t : BufferManager β) => t.P = newTarget false u delta)
        (Fallible.Spec.modify ?_) fun _ => hmove _ _
      rintro t ⟨rfl, rfl⟩
      rfl

theorem handleGhostHit_divides (dbg : Bool) (e : Nat) (h : otherSize isFrequency s ≠ 0) :
    (handleGhostHit dbg e isFrequency s).1 ≠ .error .divisionByZero ∧ (handleGhostHit dbg e isFrequency s).2.P =
      newTarget isFrequency s (max 1 (hitSize isFrequency s / otherSize isFrequency s)) := by
  have hspec := handleGhostHit_target dbg e (ghostDelta_pos (b := hitSize isFrequency s) h) s rfl
  generalize handleGhostHit dbg e isFrequency s = r at hspec
  obtain ⟨r, u⟩ := r
  cases r with
  | ok _ => exact ⟨nofun, hspec⟩
  | error err => exact ⟨fun he => hspec.2 (Except.error.inj he), hspec.1⟩

theorem handleGhostHit_zero (dbg : Bool) (e : Nat) (h : otherSize isFrequency s = 0)
    (hpos : 0 < hitSize isFrequency s) :
    (handleGhostHit dbg e isFrequency s).1 = .error .divisionByZero := by
  have hd := ghostDelta_zero hpos
  rw [← h] at hd
  unfold handleGhostHit
  cases isFrequency with
  | true =>
    have hd : ghostDelta (s.lists .B1).size (s.lists .B2).size = .error .divisionByZero := hd
    simp [Fallible.bind_apply, Fallible.ofExcept, hd]
  | false =>
    have hd : ghostDelta (s.lists .B2).size (s.lists .B1).size = .error .divisionByZero := hd
    simp [Fallible.bind_apply, Fallible.ofExcept, hd]

/-- The sizes and the target with which the call does what it is for: a hit in `B1` only when the
difference, which has wrapped, is not above `npages`. -/
def MayAdapt (isFrequency : Bool) (s : BufferManager β) : Prop :=
  if isFrequency then
    (s.lists .B1).size ≠ 0 ∧ (s.P = s.npages ∨ counter ≤ s.P + max 1 ((s.lists .B2).size / (s.lists .B1).size))
  else (s.lists .B2).size ≠ 0 ∧ s.P + counter ≤ s.npages + max 1 ((s.lists .B1).size / (s.lists .B2).size)

theorem newTarget_adapts (hp : s.P ≤ s.npages) (hn : s.npages < counter) (hsize : ∀ l, (s.lists l).size < counter)
    (hdelta : delta = max 1 (hitSize isFrequency s / otherSize isFrequency s)) (h : otherSize isFrequency s ≠ 0) :
    newTarget isFrequency s delta ≤ s.npages ∧ (isFrequency = false → s.P ≤ newTarget isFrequency s delta) ∧
      (isFrequency = true → newTarget isFrequency s delta ≤ s.P) ↔ MayAdapt isFrequency s := by
  have hle : delta < counter := by
    have hdiv : hitSize isFrequency s / otherSize isFrequency s ≤ hitSize isFrequency s := Nat.div_le_self _ _
    have hlt : hitSize isFrequency s < counter := hsize _
    have hone : 1 < counter := by decide
    omega
  have hpos : 0 < delta := by omega
  unfold MayAdapt newTarget
  cases isFrequency with
  | true =>
    have hd : max 1 ((s.lists .B2).size / (s.lists .B1).size) = delta := hdelta.symm
    have hz : (s.lists .B1).size ≠ 0 := h
    simp only [if_true, hd, hz, ne_eq, not_false_iff, true_and, forall_const, reduceCtorEq, false_implies]
    clear hdelta hd
    by_cases hwrap : s.P + delta < counter
    · rw [Nat.mod_eq_of_lt hwrap]
      omega
    · have hmod : (s.P + delta) % counter = s.P + delta - counter := by
        rw [Nat.mod_eq_sub_mod (by omega), Nat.mod_eq_of_lt (by omega)]
      rw [hmod]
      omega
  | false =>
    have hd : max 1 ((s.lists .B1).size / (s.lists .B2).size) = delta := hdelta.symm
    have hz : (s.lists .B2).size ≠ 0 := h
    simp only [Bool.false_eq_true, if_false, hd, hz, ne_eq, not_false_iff, true_and, Nat.mod_eq_of_lt hle,
      forall_const, false_implies, and_true]
    clear hdelta hd
    by_cases hwrap : s.P < delta
    · rw [Nat.mod_eq_of_lt (by omega)]
      omega
    · have hmod : (s.P + (counter - delta)) % counter = s.P - delta := by
        rw [Nat.mod_eq_sub_mod (by omega), Nat.mod_eq_of_lt (by omega)]
        omega
      rw [hmod]
      omega

theorem handleGhostHit_adapts_iff (dbg : Bool) (e : Nat) (isFrequency : Bool) (s : BufferManager β)
    (hp : s.P ≤ s.npages) (hn : s.npages < counter) (hsize : ∀ l, (s.lists l).size < counter)
    (hhit : 0 < hitSize isFrequency s) :
    Adapts isFrequency s (handleGhostHit dbg e isFrequency s) ↔ MayAdapt isFrequency s := by
  by_cases hz : otherSize isFrequency s = 0
  · have hrun := handleGhostHit_zero dbg e hz hhit
    refine ⟨fun h => absurd hrun h.divides, fun h => ?_⟩
    unfold MayAdapt at h
    cases isFrequency with
    | true => exact absurd hz h.1
    | false => exact absurd hz h.1
  · obtain ⟨hdiv, hP⟩ := handleGhostHit_divides dbg e hz
    rw [← newTarget_adapts hp hn hsize rfl hz, ← hP]
    exact ⟨fun h => ⟨h.range, h.recency, h.frequency⟩, fun h => ⟨hdiv, h.1, h.2.1, h.2.2⟩⟩

end

/-- One page and two entries, each the one node of a list; the worker of the call pins entry 0. -/
def ghostPool (target : Nat) (first second : ListId) : BufferManager Nat where
  npages := 1
  map := fun tag => if tag = ⟨1, 0⟩ then some 0 else if tag = ⟨1, 1⟩ ∧ second ≠ .FreeList then some 1 else none
  tag := fun e => ⟨1, e⟩
  state := fun e => { EntryState.empty with
    refCount := if e = 0 then 1 else 0
    tagValid := e = 0 ∨ second ≠ .FreeList
    isFrequencyList := if e = 0 then first = .B2 else second = .B2 }
  buffer := fun _ => none
  prev := fun _ => none
  next := fun _ => none
  lists :=
    fun l => if l = first then ⟨some 0, some 0, 1⟩ else if l = second then ⟨some 1, some 1, 1⟩ else ⟨none, none, 0⟩
  freeBuffers := [0]
  contents := fun _ => 0
  P := target
  disk := fun _ => 0
  fileSize := fun _ => 0
  io := []

theorem full_target_adapts : Adapts true (ghostPool 1 .B2 .B1) (handleGhostHit true 0 true (ghostPool 1 .B2 .B1)) :=
  (handleGhostHit_adapts_iff true 0 true (ghostPool 1 .B2 .B1) (by decide) (by decide)
    (by intro l; cases l <;> decide) (by decide)).2 ⟨by decide, .inl rfl⟩

/-- A hit in `B1` at zero, one in `B2` below `npages`, and one in `B2` with `B1` empty. -/
theorem ghost_hits_astray : (handleGhostHit true 0 false (ghostPool 0 .B1 .B2)).2.P = 2 ^ 32 - 1 ∧
    (handleGhostHit true 0 true (ghostPool 0 .B2 .B1)).2.P = 1 ∧
    (handleGhostHit true 0 true (ghostPool 0 .B2 .FreeList)).1 = .error .divisionByZero := by
  refine ⟨?_, ?_, ?_⟩ <;> decide

end BufferManager

end Mimidb
