import Mimidb.BufferLedger

/-!
# The search for a cache entry

`preinsertCleanup` and `evictCacheEntry`, with which a miss and an extension
begin. A search that returns keeps counts, mappings and buffers; an entry that
it returns was not pinned and starts with no references. A search that throws
leaves its victim pinned, unless it has met a list or map that is broken.
-/

namespace Mimidb

namespace BufferManager

variable {β : Type} {refs : Nat → Nat} {M : PageTag → Nat → Prop} {B : Nat → Prop} {dbg : Bool} {e : Nat}
  {l : ListId}

/-! ## Exceptions -/

/-- What a part of the search throws when a list has less entries than nodes, or a ghost entry no mapping. -/
def brokenTexts : List String := ["can not remove entry from list: list is empty",
  "buffer page map is broken - entry is not presented in list",
  "page table is broken - cache entry must be in map but absent"]

/-- An exception leaves the counts if a list or map is broken, and a pin too many otherwise. -/
def Stops (refs : Nat → Nat) (err : Fault) (s : BufferManager β) : Prop := ∀ what, err = .runtimeError what →
  (what ∈ brokenTexts ∧ ∀ z, (s.state z).refCount = refs z) ∨ ∃ e, ∀ z, (s.state z).refCount = addRef refs e z

instance : Crashes (Stops (β := β) refs) := ⟨fun _ _ h what he => absurd he (h what)⟩

theorem Stops.overpins {err : Fault} {s : BufferManager β} (h : Stops refs err s) : Overpins refs err s := by
  rintro ⟨what, rfl⟩ z
  rcases h what rfl with ⟨-, hz⟩ | ⟨e, hz⟩
  · rw [hz z]
    omega
  · rw [hz z, addRef]
    by_cases hze : z = e
    · rw [hze, Function.update_self]
      omega
    · rw [Function.update_of_ne hze]
      omega

theorem Maintains.stops {α : Type} {m : PoolM β α} (h : Fallible.Maintains (Ledger (addRef refs e) M B) m) :
    Fallible.Spec (Ledger (addRef refs e) M B) m (fun _ => Ledger (addRef refs e) M B) (Stops refs) :=
  Fallible.Spec.conseq h (fun _ => id) (fun _ _ => id) fun _ _ hs _ _ => .inr ⟨e, hs.refs⟩

theorem removeEntry_stops :
    Fallible.Spec (Ledger (β := β) refs M B) (removeEntry dbg l e) (fun _ => Ledger refs M B) (Stops refs) := by
  have hset : ∀ (prev next : Nat → Option Nat) (list : CacheEntryList), Fallible.Spec (Ledger (β := β) refs M B)
      (do setLinks prev next; setList l list) (fun _ => Ledger refs M B) (Stops refs) := fun prev next list =>
    fun s hs => hs.of_same rfl rfl rfl rfl
  unfold removeEntry
  refine Fallible.Spec.bind (R := fun _ => Ledger refs M B) (Fallible.Spec.get fun _ hs => hs) fun s => ?_
  refine Fallible.Spec.bind (check_spec _) fun _ => Fallible.Spec.ite (fun _ => ?_) fun _ =>
    Fallible.Spec.ite (fun _ => ?_) fun _ => ?_
  · intro t ht what he
    cases he
    exact .inl ⟨by simp [brokenTexts], ht.refs⟩
  · exact Fallible.Spec.bind (check_spec _) fun _ => Fallible.Spec.bind (check_spec _) fun _ => hset _ _ _
  · exact Fallible.Spec.bind (check_spec _) fun _ => Fallible.Spec.bind (check_spec _) fun _ => hset _ _ _

/-! ## Replacement -/

theorem Ledger.detach {s : BufferManager β} {b : Nat} (h : Ledger refs M B s) (hb : s.buffer e = some b) :
    Ledger refs M (fun b' => B b' ∧ b' ≠ b) { s with buffer := Function.update s.buffer e none } := by
  refine ⟨h.refs, h.map, fun b' ⟨hB, hne⟩ => ?_⟩
  rcases h.buffers b' hB with hf | ⟨z, hz⟩
  · exact .inl hf
  · have hze : z ≠ e := fun he => by
      rw [he, hb] at hz
      exact hne (Option.some.inj hz).symm
    exact .inr ⟨z, by simp only [Function.update_of_ne hze, hz]⟩

theorem Ledger.free {s : BufferManager β} {b : Nat} (h : Ledger refs M (fun b' => B b' ∧ b' ≠ b) s) :
    Ledger refs M B { s with freeBuffers := b :: s.freeBuffers } := by
  refine ⟨h.refs, h.map, fun b' hB => ?_⟩
  by_cases hb : b' = b
  · exact .inl (hb ▸ List.mem_cons_self)
  · rcases h.buffers b' ⟨hB, hb⟩ with hf | hz
    · exact .inl (List.mem_cons_of_mem _ hf)
    · exact .inr hz

theorem getState_bind {α : Type} {f : EntryState → PoolM β α} {Q : α → BufferManager β → Prop}
    {E : Fault → BufferManager β → Prop}
    (h : ∀ st, st.refCount = refs e → Fallible.Spec (Ledger refs M B) (f st) Q E) :
    Fallible.Spec (Ledger refs M B) (getState e >>= f) Q E := fun s hs => h (s.state e) (hs.refs e) s hs

/-- The pin of a victim is dropped again, unless its flush throws. -/
theorem tryVacateEntry_ledger (isFrequency : Bool) :
    Fallible.Spec (Ledger (β := β) refs M B) (tryVacateEntry dbg e isFrequency)
    (fun _ => Ledger refs M B) (Stops refs) := by
  unfold tryVacateEntry
  refine Fallible.Spec.bind lockEntry_spec fun st => Fallible.Spec.fact fun hst => ?_
  refine Fallible.Spec.ite (fun _ => ?_) fun hfree => ?_
  · exact Fallible.Spec.bind unlockEntry_spec fun _ => Fallible.Spec.pure fun _ hs => hs
  have hzero : refs e % 2 ^ 20 = 0 := by simpa [EntryState.pinned, hst] using hfree
  refine Fallible.Spec.bind pin_ledger fun _ => Fallible.Spec.bind unlockEntry_spec fun _ => ?_
  refine Fallible.Spec.bind (Maintains.stops flushBuffer_ledger) fun _ => ?_
  refine Fallible.Spec.bind lockEntry_spec fun st => Fallible.Spec.fact fun hst' => ?_
  refine Fallible.Spec.bind unlockEntry_spec fun _ => ?_
  have hone : st.refCount % 2 ^ 20 = 1 := by
    rw [hst', addRef, Function.update_self]
    omega
  refine Fallible.Spec.ite (fun hne => absurd hone hne) fun _ => ?_
  refine Fallible.Spec.bind lockEntry_spec fun _ => Fallible.Spec.fact fun _ => ?_
  have hatt : Fallible.Spec (Ledger (β := β) (addRef refs e) M B) (attached dbg e)
      (fun b s => Ledger (addRef refs e) M B s ∧ s.buffer e = some b) (Stops refs) :=
    Fallible.Spec.conseq attached_ledger (fun _ => id) (fun _ _ => id) fun _ _ hs _ _ => .inr ⟨e, hs.refs⟩
  refine Fallible.Spec.bind hatt fun b => ?_
  have hdetach :
    Fallible.Spec (fun s => Ledger (β := β) (addRef refs e) M B s ∧ s.buffer e = some b) (setBuffer e none)
      (fun _ => Ledger (addRef refs e) M fun b' => B b' ∧ b' ≠ b) (Stops refs) := fun s hs => hs.1.detach hs.2
  refine Fallible.Spec.bind hdetach fun _ => Fallible.Spec.bind unpin_ledger fun _ => getState_bind fun st hst => ?_
  refine Fallible.Spec.bind (setState_any hst) fun _ => Fallible.Spec.bind (insertMRU_spec ledger_offLists) fun _ =>
    ?_
  refine Fallible.Spec.bind unlockEntry_spec fun _ => ?_
  exact Fallible.Spec.bind (Fallible.Spec.modify fun s hs => hs.free) fun _ => Fallible.Spec.pure fun _ hs => hs

theorem vacateFrom_ledger (isFrequency : Bool) (fuel : Nat) : ∀ o, Fallible.Spec (Ledger (β := β) refs M B)
    (vacateFrom dbg isFrequency fuel o) (fun _ => Ledger refs M B) (Stops refs) := by
  induction fuel with
  | zero =>
    intro o
    cases o with
    | none => exact Fallible.Spec.pure fun _ hs => hs
    | some e => exact Fallible.Spec.throw fun _ _ => crash_diverges
  | succ fuel ih =>
    intro o
    cases o with
    | none => exact Fallible.Spec.pure fun _ hs => hs
    | some e =>
      refine Fallible.Spec.bind (tryVacateEntry_ledger isFrequency) fun done => ?_
      refine Fallible.Spec.ite (fun _ => Fallible.Spec.pure fun _ hs => hs) fun _ => ?_
      exact fun s hs => ih (s.prev e) s hs

theorem adjust_ledger (p : Nat) (fromB2 : Bool) : Fallible.Spec (Ledger (β := β) refs M B) (adjust dbg p fromB2)
    (fun _ => Ledger refs M B) (Stops refs) := by
  unfold adjust
  refine Fallible.Spec.getBind fun s hs => Fallible.Spec.ite (fun _ t ht => ?_) fun _ t ht => ?_
  · subst ht
    exact vacateFrom_ledger _ _ _ t hs
  · subst ht
    exact vacateFrom_ledger _ _ _ t hs

/-! ## Taking an entry -/

theorem Ledger.unmap {s : BufferManager β} {tag : PageTag} (h : Ledger refs M B s) :
    Ledger refs M B { s with map := Function.update s.map tag none } := by
  refine ⟨h.refs, fun tag' e hm => h.map tag' e ?_, h.buffers⟩
  have hm' : Function.update s.map tag none tag' = some e := hm
  by_cases he : tag' = tag
  · rw [he, Function.update_self] at hm'
    cases hm'
  · rwa [Function.update_of_ne he] at hm'

theorem mapRemove_ledger (tag : PageTag) (what : String) :
    Fallible.Maintains (Ledger (β := β) refs M B) (mapRemove tag what) := by
  unfold mapRemove
  exact Fallible.Spec.getBind fun s hs => Fallible.Spec.ite (fun _ t ht => ht ▸ hs) fun _ t ht => hs.unmap

theorem mapRemove_stops (tag : PageTag) {what : String} (hw : what ∈ brokenTexts) :
    Fallible.Spec (Ledger (β := β) refs M B) (mapRemove tag what) (fun _ => Ledger refs M B) (Stops refs) := by
  unfold mapRemove
  refine Fallible.Spec.getBind fun s hs => Fallible.Spec.ite (fun _ t ht what' he => ?_) fun _ t ht => hs.unmap
  cases he
  exact .inl ⟨hw, fun z => by rw [ht]; exact hs.refs z⟩

theorem tearDown_ledger : Fallible.Spec (Ledger (β := β) refs M B) (tearDown dbg e)
    (fun _ => Ledger (Function.update refs e 0) M B) (Stops refs) := by
  unfold tearDown
  refine getState_bind fun st _ => Fallible.Spec.bind (check_spec _) fun _ => Fallible.Spec.bind (check_spec _)
    fun _ => ?_
  exact fun s hs => hs.withState .empty

/-- What a search leaves: the entry it takes was not pinned. -/
def Taken (refs : Nat → Nat) (M : PageTag → Nat → Prop) (B : Nat → Prop) : Option Nat → BufferManager β → Prop
  | none, s => Ledger refs M B s
  | some e, s => Ledger (Function.update refs e 0) M B s ∧ refs e % 2 ^ 20 = 0

theorem popFrom_ledger (fuel : Nat) : ∀ o, Fallible.Spec (Ledger (β := β) refs M B) (popFrom dbg l fuel o)
    (fun o s => Ledger refs M B s ∧ ∀ e, o = some e → refs e % 2 ^ 20 = 0) (Stops refs) := by
  induction fuel with
  | zero =>
    intro o
    cases o with
    | none => exact Fallible.Spec.pure fun _ hs => ⟨hs, nofun⟩
    | some e => exact Fallible.Spec.throw fun _ _ => crash_diverges
  | succ fuel ih =>
    intro o
    cases o with
    | none => exact Fallible.Spec.pure fun _ hs => ⟨hs, nofun⟩
    | some e =>
      refine Fallible.Spec.bind lockEntry_spec fun st => Fallible.Spec.fact fun hst => ?_
      refine Fallible.Spec.ite (fun _ => ?_) fun hfree => ?_
      · exact Fallible.Spec.bind unlockEntry_spec fun _ s hs => ih (s.prev e) s hs
      have hzero : refs e % 2 ^ 20 = 0 := by simpa [EntryState.pinned, hst] using hfree
      refine Fallible.Spec.bind removeEntry_stops fun _ => ?_
      refine Fallible.Spec.bind unlockEntry_spec fun _ => ?_
      refine Fallible.Spec.getBind fun s hs => Fallible.Spec.bind (R := fun _ => Ledger refs M B) ?_ fun _ => ?_
      · intro t ht
        subst ht
        exact hs.of_same rfl rfl rfl rfl
      · exact Fallible.Spec.pure fun _ hs => ⟨hs, fun z hz => by cases hz; exact hzero⟩

theorem evictFrom_ledger (fuel : Nat) : ∀ o, Fallible.Spec (Ledger (β := β) refs M B) (evictFrom dbg l fuel o)
    (Taken refs M B) (Stops refs) := by
  induction fuel with
  | zero =>
    intro o
    cases o with
    | none => exact Fallible.Spec.pure fun _ hs => hs
    | some e => exact Fallible.Spec.throw fun _ _ => crash_diverges
  | succ fuel ih =>
    intro o
    cases o with
    | none => exact Fallible.Spec.pure fun _ hs => hs
    | some e =>
      refine Fallible.Spec.bind lockEntry_spec fun st => Fallible.Spec.fact fun hst => ?_
      refine Fallible.Spec.bind unlockEntry_spec fun _ => ?_
      refine Fallible.Spec.ite (fun _ s hs => ih (s.prev e) s hs) fun hfree => ?_
      have hzero : refs e % 2 ^ 20 = 0 := by simpa [EntryState.pinned, hst] using hfree
      refine Fallible.Spec.bind (R := fun _ => Ledger refs M B) (Fallible.Spec.get fun _ hs => hs) fun s => ?_
      refine Fallible.Spec.bind (mapRemove_stops _ (by simp [brokenTexts])) fun _ => ?_
      refine Fallible.Spec.bind removeEntry_stops fun _ => ?_
      exact Fallible.Spec.bind tearDown_ledger fun _ => Fallible.Spec.pure fun _ hs => ⟨hs, hzero⟩

theorem evictCacheEntry_ledger :
    Fallible.Spec (Ledger (β := β) refs M B) (evictCacheEntry dbg) (Taken refs M B) (Stops refs) := by
  unfold evictCacheEntry
  have hpop : Fallible.Spec (Ledger (β := β) refs M B) (popTail dbg .FreeList)
      (fun o s => Ledger refs M B s ∧ ∀ e, o = some e → refs e % 2 ^ 20 = 0) (Stops refs) := by
    unfold popTail
    refine Fallible.Spec.bind (R := fun _ => Ledger refs M B) (Fallible.Spec.get fun _ hs => hs) fun s => ?_
    exact popFrom_ledger _ _
  refine Fallible.Spec.bind hpop fun o => Fallible.Spec.fact fun hz => ?_
  cases o with
  | some e => exact Fallible.Spec.bind tearDown_ledger fun _ => Fallible.Spec.pure fun _ hs => ⟨hs, hz e rfl⟩
  | none =>
    refine Fallible.Spec.bind (R := fun _ => Ledger refs M B) (Fallible.Spec.get fun _ hs => hs) fun s => ?_
    refine Fallible.Spec.bind (evictFrom_ledger _ _) fun o => ?_
    cases o with
    | some e => exact Fallible.Spec.pure fun _ hs => hs
    | none =>
      refine Fallible.Spec.bind (R := fun _ => Ledger refs M B) (Fallible.Spec.get fun _ hs => hs) fun s => ?_
      exact evictFrom_ledger _ _

theorem forgetFrom_ledger (fuel : Nat) : ∀ o, Fallible.Spec (Ledger (β := β) refs M B) (forgetFrom dbg fuel o)
    (fun _ => Ledger refs M B) (Stops refs) := by
  induction fuel with
  | zero =>
    intro o
    cases o with
    | none => exact Fallible.Spec.pure fun _ hs => hs
    | some e => exact Fallible.Spec.throw fun _ _ => crash_diverges
  | succ fuel ih =>
    intro o
    cases o with
    | none => exact Fallible.Spec.pure fun _ hs => hs
    | some e =>
      refine getState_bind fun st _ => Fallible.Spec.ite (fun _ s hs => ih (s.prev e) s hs) fun _ => ?_
      refine Fallible.Spec.bind (R := fun _ => Ledger refs M B) (Fallible.Spec.get fun _ hs => hs) fun s => ?_
      exact Fallible.Spec.bind (mapRemove_stops _ (by simp [brokenTexts])) fun _ => insertMRU_spec ledger_offLists

theorem forgetAnyEntry_ledger :
    Fallible.Spec (Ledger (β := β) refs M B) (forgetAnyEntry dbg l) (fun _ => Ledger refs M B)
    (Stops refs) :=
  Fallible.Spec.bind (R := fun _ => Ledger refs M B) (Fallible.Spec.get fun _ hs => hs) fun _ =>
  forgetFrom_ledger _ _

theorem preinsertCleanup_ledger :
    Fallible.Spec (Ledger (β := β) refs M B) (preinsertCleanup dbg) (fun _ => Ledger refs M B)
    (Stops refs) := by
  unfold preinsertCleanup
  refine Fallible.Spec.bind (R := fun _ => Ledger refs M B) (Fallible.Spec.get fun _ hs => hs) fun s => ?_
  have hget : ∀ fromB2 : Bool, Fallible.Spec (Ledger (β := β) refs M B) (do adjust dbg (← get).P fromB2)
    (fun _ => Ledger refs M B)
      (Stops refs) := fun fromB2 =>
    Fallible.Spec.bind (R := fun _ => Ledger refs M B) (Fallible.Spec.get fun _ hs => hs) fun s => adjust_ledger _ _
  refine Fallible.Spec.ite (fun _ => Fallible.Spec.ite (fun _ => ?_) fun _ => vacateFrom_ledger _ _ _) fun _ => ?_
  · exact Fallible.Spec.bind forgetAnyEntry_ledger fun _ => hget false
  · refine Fallible.Spec.ite (fun _ => ?_) fun _ => Fallible.Spec.pure fun _ hs => hs
    refine Fallible.Spec.ite (fun _ => ?_) fun _ => hget false
    exact Fallible.Spec.bind forgetAnyEntry_ledger fun _ => hget false

/-- What a miss and an extension do first. -/
def search (dbg : Bool) : PoolM β (Option Nat) := do
  preinsertCleanup dbg
  evictCacheEntry dbg

theorem search_ledger : Fallible.Spec (Ledger (β := β) refs M B) (search dbg) (Taken refs M B) (Stops refs) :=
  Fallible.Spec.bind preinsertCleanup_ledger fun _ => evictCacheEntry_ledger

end BufferManager

end Mimidb
