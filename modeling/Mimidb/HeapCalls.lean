import Mimidb.HeapSections

/-!
# Calls that have come to an end

`InsertTuple`, `UpdateTuple` and `DeleteTuple` in the state after their wait:
the relation may have grown before the section that changes the pages.
-/

namespace Mimidb

open HeapStore

/-! ## Growth -/

/-- The relation after a number of `ExtendRelation` calls. -/
inductive HeapStore.Grew (s : HeapStore) : HeapStore → Prop where
  | refl : Grew s s
  | grown {u : HeapStore} : Grew s u → Grew s u.grown

namespace HeapStore

variable {s u v : HeapStore}

theorem Grew.undoSize (h : s.Grew u) : u.undoSize = s.undoSize := by
  induction h with
  | refl => rfl
  | grown _ ih => exact ih

theorem Grew.trans (h : s.Grew u) (h' : u.Grew v) : s.Grew v := by
  induction h' with
  | refl => exact h
  | grown _ ih => exact .grown ih

theorem Grew.le_pagesCount (h : s.Grew u) : s.pagesCount ≤ u.pagesCount := by
  induction h with
  | refl => exact Nat.le_refl _
  | grown _ ih => exact Nat.le_trans ih le_grown_pagesCount

theorem Grew.page (h : s.Grew u) (p : Nat) :
    u.page p = s.page p ∨ s.pagesCount ≤ p ∧ u.page p = HeapPage.init fun _ => 0 := by
  induction h with
  | refl => exact .inl rfl
  | @grown u h ih =>
    by_cases hp : p = u.pagesCount
    · subst hp
      exact .inr ⟨h.le_pagesCount, grown_page⟩
    · rw [grown_page_ne hp]
      exact ih

end HeapStore

namespace HeapTable

variable {V : Type} (t : HeapTable V)

/-- An update may put its new version in the old slot if it fits, and behind the items of a page with room. -/
def mayUpdate (s : HeapStore) (old : HeapTuple V) (values : V) (newTID : TupleId) : Bool :=
  match t.serialize (t.newHeader values) values with
  | .error _ => false
  | .ok bytes =>
    (newTID = old.tid && bytes.length ≤ (s.item old.tid).length) ||
      (newTID.itemid = HeapPage.itemsCount (s.page newTID.pageno) &&
        bytes.length + ItemId.size ≤ HeapPage.getFreeSpace (s.page newTID.pageno))

/-- The page has room for the tuple of an insert. -/
def mayInsert (s : HeapStore) (values : V) (pageno : Nat) : Bool :=
  match t.serialize (t.newHeader values) values with
  | .error _ => false
  | .ok bytes => bytes.length + ItemId.size ≤ HeapPage.getFreeSpace (s.page pageno)

/-- An insert after its search for a page. -/
def insertOn (values : V) (pageno : Nat) : HeapM Unit := do
  let heapTuple ← Fallible.ofExcept (t.serialize (t.newHeader values) values)
  t.performInsert pageno heapTuple

/-- A delete after its wait. -/
def deleteAt (tid : TupleId) : HeapM Unit := do
  let addr ← t.locate tid
  t.performDelete tid addr

/-! ## States without a change -/

variable {t} {s u : HeapStore} {fuel : Nat} {values : V} {old tuple : HeapTuple V}

theorem locate_state {tid : TupleId} {addr : Nat}
    (h : t.locate tid s = (.ok addr, u)) : s = u := by
  obtain ⟨page, _, h1, h⟩ := Fallible.bind_eq_ok.1 h
  cases h1
  obtain ⟨item, _, h2, h⟩ := Fallible.bind_eq_ok.1 h
  obtain ⟨-, rfl⟩ := Fallible.ofExcept_eq_ok.1 h2
  exact (Fallible.ofExcept_eq_ok.1 h).2

theorem checkUnchanged_state {addr : Nat}
    (h : checkUnchanged (fun _ => pure ()) old addr s = (.ok (), u)) : s = u := by
  obtain ⟨page, _, h1, h⟩ := Fallible.bind_eq_ok.1 h
  cases h1
  obtain ⟨header, _, h2, h⟩ := Fallible.bind_eq_ok.1 h
  obtain ⟨-, rfl⟩ := Fallible.ofExcept_eq_ok.1 h2
  split at h <;> cases h <;> rfl

theorem searchPages_state {held : Option Nat} {need : Nat} {found : Option Nat} : ∀ {n k : Nat},
    searchPages held need n k s = (.ok found, u) → s = u
  | 0, _, h => by
    cases h
    rfl
  | n + 1, k, h => by
    unfold searchPages at h
    by_cases hk : held = some k
    · simp only [hk, if_true] at h
      cases h
    · simp only [hk, if_false] at h
      obtain ⟨page, _, h1, h⟩ := Fallible.bind_eq_ok.1 h
      cases h1
      split_ifs at h
      · exact searchPages_state h
      · cases h
        rfl

theorem searchPageFreeSpace_state {held : Option Nat} {need p : Nat}
    (h : t.searchPageFreeSpace held need s = (.ok p, u)) : u = s ∨ u = s.grown := by
  obtain ⟨_, _, h0, h⟩ := Fallible.bind_eq_ok.1 h
  cases h0
  obtain ⟨found, s1, h1, h⟩ := Fallible.bind_eq_ok.1 h
  obtain rfl := searchPages_state h1
  cases found with
  | some q =>
    cases h
    exact .inl rfl
  | none =>
    obtain ⟨q, s2, h2, h⟩ := Fallible.bind_eq_ok.1 h
    obtain ⟨_, s3, h3, h⟩ := Fallible.bind_eq_ok.1 h
    obtain ⟨page, _, h4, h⟩ := Fallible.bind_eq_ok.1 h
    cases h4
    obtain ⟨_, _, h5, h⟩ := Fallible.bind_eq_ok.1 h
    obtain ⟨-, rfl⟩ := Fallible.ofExcept_eq_ok.1 h5
    cases h
    refine .inr ?_
    unfold extendRelation at h2
    simp only at h2
    split_ifs at h2
    · cases h2
    · cases h2
      obtain ⟨page', hp, rfl⟩ := changePage_inv h3
      simp only [Function.update_self] at hp
      have hnew : page' = HeapPage.init fun _ => 0 := (Except.ok.inj hp).symm
      rw [hnew]
      unfold grown
      simp only [Function.update_idem]

theorem searchNewPage_grew {held size : Nat} {newTID : TupleId}
    (h : t.searchNewPage held size fuel s = (.ok newTID, u)) : s.Grew u := by
  induction fuel generalizing s with
  | zero => cases h
  | succ fuel ih =>
    obtain ⟨p, s1, h1, h⟩ := Fallible.bind_eq_ok.1 h
    have hgrew : s.Grew s1 := by
      rcases searchPageFreeSpace_state h1 with rfl | rfl
      · exact .refl
      · exact .grown .refl
    obtain ⟨page, _, h2, h⟩ := Fallible.bind_eq_ok.1 h
    cases h2
    split_ifs at h
    · cases h
      exact hgrew
    · exact hgrew.trans (ih h)

/-! ## Sections of calls -/

theorem mayUpdate_inv {newTID : TupleId} (h : t.mayUpdate s old values newTID = true) : ∃ bytes,
    t.serialize (t.newHeader values) values = .ok bytes ∧
    (newTID = old.tid ∧ bytes.length ≤ (s.item old.tid).length ∨
      newTID.itemid = HeapPage.itemsCount (s.page newTID.pageno) ∧
        bytes.length + ItemId.size ≤ HeapPage.getFreeSpace (s.page newTID.pageno)) := by
  unfold mayUpdate at h
  cases hser : t.serialize (t.newHeader values) values with
  | error e =>
    rw [hser] at h
    cases h
  | ok bytes =>
    rw [hser] at h
    simp only [Bool.or_eq_true, Bool.and_eq_true, decide_eq_true_eq] at h
    exact ⟨bytes, rfl, h⟩

theorem mayUpdate_place {newTID : TupleId} (hp : s.Placed old.tid) (h : t.mayUpdate s old values newTID = true) :
    (newTID = old.tid → ∀ header bytes, t.serialize header values = .ok bytes →
      bytes.length ≤ (s.item old.tid).length) ∧
      (newTID ≠ old.tid → newTID.itemid = HeapPage.itemsCount (s.page newTID.pageno)) := by
  obtain ⟨bytes, hser, ⟨he, hfit⟩ | ⟨hi, -⟩⟩ := mayUpdate_inv h
  · refine ⟨fun _ header bytes' hser' => ?_, fun hne => absurd he hne⟩
    rw [(serialize_length hser' hser).1]
    exact hfit
  · refine ⟨fun he => ?_, fun _ => hi⟩
    have hlt := hp.lt
    rw [he] at hi
    omega

theorem insertTuple_inv (h : t.insertTuple values fuel s = (.ok (), u)) : ∃ s1 p bytes, s.Grew s1 ∧
    t.serialize (t.newHeader values) values = .ok bytes ∧
    bytes.length + ItemId.size ≤ HeapPage.getFreeSpace (s1.page p) ∧
    t.performInsert p bytes s1 = (.ok (), u) := by
  induction fuel generalizing s with
  | zero => cases h
  | succ fuel ih =>
    cases hser : t.serialize (t.newHeader values) values with
    | error e =>
      rw [insertTuple_unserialized hser] at h
      cases h
    | ok bytes =>
      rcases fits_or_not s (bytes.length + ItemId.size) with ⟨p, hp⟩ | hno
      · rw [insertTuple_firstFit hser hp] at h
        exact ⟨s, p, bytes, .refl, rfl, hp.fits, h⟩
      · rw [insertTuple_noFit hser hno] at h
        split_ifs at h with hinv hdbg hfit
        · cases h
        · cases h
        · refine ⟨s.grown, s.pagesCount, bytes, .grown .refl, rfl, ?_, h⟩
          rw [grown_page, getFreeSpace_init]
          exact hfit
        · obtain ⟨s1, p, bytes', hgrew, hser', hfit', h'⟩ := ih h
          exact ⟨s1, p, bytes', (Grew.grown .refl).trans hgrew, hser.symm.trans hser', hfit', h'⟩

theorem deleteTuple_inv (h : t.deleteTuple (fun _ => pure ()) tuple s = (.ok (), u)) :
    t.deleteAt tuple.tid s = (.ok (), u) := by
  rw [deleteTuple_eq] at h
  obtain ⟨addr, s1, hp, h⟩ := Fallible.bind_eq_ok.1 h
  obtain ⟨addr', s2, hl, hp⟩ := Fallible.bind_eq_ok.1 hp
  obtain ⟨_, s3, hc, hp⟩ := Fallible.bind_eq_ok.1 hp
  cases hp
  obtain rfl := checkUnchanged_state hc
  unfold deleteAt
  rw [Fallible.bind_ok hl]
  exact h

theorem updateTuple_inv (h : t.updateTuple (fun _ => pure ()) old values fuel s = (.ok (), u)) :
    ∃ s1 newTID, s.Grew s1 ∧
    t.mayUpdate s1 old values newTID = true ∧ t.performUpdate old values newTID s1 = (.ok (), u) := by
  obtain ⟨newTID, s1, hprep, h⟩ := Fallible.bind_eq_ok.1 h
  obtain ⟨bytes, _, h1, hprep⟩ := Fallible.bind_eq_ok.1 hprep
  obtain ⟨hser, rfl⟩ := Fallible.ofExcept_eq_ok.1 h1
  obtain ⟨addr, s2, hl, hprep⟩ := Fallible.bind_eq_ok.1 hprep
  obtain ⟨_, s3, hc, hprep⟩ := Fallible.bind_eq_ok.1 hprep
  obtain rfl := locate_state hl
  obtain rfl := checkUnchanged_state hc
  have hplace : newTID = old.tid ∧ bytes.length ≤ (s1.item old.tid).length ∨
      newTID.itemid = HeapPage.itemsCount (s1.page newTID.pageno) ∧
        bytes.length + ItemId.size ≤ HeapPage.getFreeSpace (s1.page newTID.pageno) →
      t.mayUpdate s1 old values newTID = true := by
    intro h
    unfold mayUpdate
    rw [hser]
    simp only [Bool.or_eq_true, Bool.and_eq_true, decide_eq_true_eq]
    exact h
  obtain ⟨page, _, h1, hprep⟩ := Fallible.bind_eq_ok.1 hprep
  cases h1
  split_ifs at hprep with hfit hroom
  · cases hprep
    exact ⟨_, _, .refl, hplace (.inl ⟨rfl, hfit⟩), h⟩
  · cases hprep
    exact ⟨_, _, .refl, hplace (.inr ⟨rfl, hroom⟩), h⟩
  · exact ⟨s1, newTID, searchNewPage_grew hprep, hplace (.inr (searchNewPage_ok hprep)), h⟩

end HeapTable

end Mimidb
