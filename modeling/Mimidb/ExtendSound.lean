import Mathlib.Data.Fintype.Basic
import Mimidb.ExtendRelation

/-!
# Extensions that do not overlap

`extendAlone` asks that no other call stands between its page count and its
file write when a call reads the page count, that the file is small enough
for a 32 bit offset, and that the write is complete. Then the entries in the
map have the tag under which they are found, a buffer belongs to one entry,
and the page of a running call is none of those that were returned.
-/

namespace Mimidb

variable {W E B τ : Type}

namespace ExtendPc

/-- The evicted entry that is not yet in the map. -/
@[simp] def own : ExtendPc E → Option E
  | .count e | .insert e _ => some e
  | _ => none

/-- The pinned entry of the page on which the worker works. -/
@[simp] def job : ExtendPc E → Option (E × Nat)
  | .inserted e n | .existing e n | .startIo e n | .extend e n => some (e, n)
  | .zero e n | .finish e n | .makePin e n | .holds e n => some (e, n)
  | _ => none

/-- The page that was counted and is not yet in the file. -/
@[simp] def pending : ExtendPc E → Option Nat
  | .insert _ n | .inserted _ n | .existing _ n | .startIo _ n | .extend _ n => some n
  | _ => none

/-- The page that is in the file and not yet returned. -/
@[simp] def late : ExtendPc E → Option Nat
  | .zero _ n | .finish _ n | .makePin _ n => some n
  | _ => none

end ExtendPc

namespace ExtendPool

/-- Pages of the relation file. -/
def pages (s : ExtendPool W E B τ) : Nat := s.size / Config.PageSize

@[simp] def countsPages : ExtendPc E → ExtendOp E B τ → Bool
  | .count _, .run => true
  | _, _ => false

@[simp] def writesWhole : ExtendOp E B τ → Bool
  | .write bytes => bytes == Config.PageSize
  | _ => true

/-- A call that counts pages is alone until its file write, and file writes are complete. -/
def extendAlone (s : ExtendPool W E B τ) (a : W × ExtendOp E B τ) : Prop :=
  (countsPages (s.pc a.1) a.2 = true → (∀ v, (s.pc v).pending = none) ∧ s.pages < 2 ^ 19) ∧
    writesWhole a.2 = true

instance [Fintype W] (s : ExtendPool W E B τ) (a : W × ExtendOp E B τ) :
    Decidable (extendAlone s a) :=
  inferInstanceAs (Decidable ((_ = true → _ ∧ _) ∧ _ = true))

structure EntryInv (s : ExtendPool W E B τ) : Prop where
  tag : ∀ n e, s.map n = some e → s.tag e = n
  free : ∀ e, s.freeEntry e = true → ∀ n, s.map n ≠ some e
  own : ∀ w e, (s.pc w).own = some e → s.freeEntry e = false ∧ ∀ n, s.map n ≠ some e
  ownOne : ∀ w v e, (s.pc w).own = some e → (s.pc v).own = some e → w = v
  job : ∀ w e n, (s.pc w).job = some (e, n) → s.map n = some e ∧ w ∈ s.pins e

structure BufferInv (s : ExtendPool W E B τ) : Prop where
  free : ∀ e b, s.buffer e = some b → s.freeBuffer b = false
  one : ∀ e e' b, s.buffer e = some b → s.buffer e' = some b → e = e'

structure PageInv (s : ExtendPool W E B τ) : Prop where
  pending : ∀ w n, (s.pc w).pending = some n → n = s.pages ∧ n < 2 ^ 19
  pendingOne : ∀ w v n m, (s.pc w).pending = some n → (s.pc v).pending = some m → w = v
  late : ∀ w n, (s.pc w).late = some n → n < s.pages ∧ n ∉ s.returned
  lateOne : ∀ w v n, (s.pc w).late = some n → (s.pc v).late = some n → w = v
  returned : ∀ p ∈ s.returned, p < s.pages
  nodup : s.returned.Nodup

structure StoredInv (s : ExtendPool W E B τ) : Prop where
  holds : ∀ w e n, s.pc w = .holds e n → n ∈ s.returned
  stored : ∀ p x, (p, x) ∈ s.stored → p ∈ s.returned ∧
    ∀ e b, s.map p = some e → s.buffer e = some b → ∃ xs, s.page b = some xs ∧ x ∈ xs

/-- What a step of `w` does. -/
inductive ExtendEffect [DecidableEq W] [DecidableEq E] [DecidableEq B]
    (s t : ExtendPool W E B τ) (w : W) (op : ExtendOp E B τ) : Prop where
  | move (hm : t.map = s.map) (ht : t.tag = s.tag) (hp : t.pins = s.pins)
      (hb : t.buffer = s.buffer) (hfe : t.freeEntry = s.freeEntry)
      (hfb : t.freeBuffer = s.freeBuffer) (hg : t.page = s.page) (hs : t.size = s.size)
      (hr : t.returned = s.returned) (hst : t.stored = s.stored)
      (ho : ∀ e, (t.pc w).own = some e → (s.pc w).own = some e)
      (hj : ∀ j, (t.pc w).job = some j → (s.pc w).job = some j)
      (hpe : ∀ n, (t.pc w).pending = some n → (s.pc w).pending = some n)
      (hl : ∀ n, (t.pc w).late = some n → (s.pc w).late = some n)
      (hh : (∀ e n, t.pc w ≠ .holds e n) ∨ t.pc w = s.pc w) (hne : ∀ v, v ≠ w → t.pc v = s.pc v)
  | vacate (e : E) (b : B) (hp : s.pc w = .cleanup) (hb : s.buffer e = some b) (hn : s.pins e = [])
      (ht : t = (s.setBuffer e none).setFreeBuffer b true)
  | forget (e : E) (hp : s.pc w = .cleanup) (hn : s.pins e = []) (hb : s.buffer e = none)
      (hm : s.map (s.tag e) = some e) (ht : t = (s.setMap (s.tag e) none).setFreeEntry e true)
  | evict (e : E) (hp : s.pc w = .cleanup) (hf : s.freeEntry e = true) (hn : s.pins e = [])
      (ht : t = (((s.setFreeEntry e false).setValid e false).setIo e false).goto w (.count e))
  | count (e : E) (hop : op = .run) (hp : s.pc w = .count e) (ht : t = s.goto w (.insert e s.getPagesCount))
  | join (e other : E) (n : Nat) (hp : s.pc w = .insert e n) (hm : s.map n = some other)
      (ht : t = ((s.setPins other (w :: s.pins other)).setFreeEntry e true).goto w (.existing other n))
  | take (e : E) (n : Nat) (b : B) (hp : s.pc w = .insert e n) (hm : s.map n = none)
      (hf : s.freeBuffer b = true)
      (ht : t = (((((s.setMap n (some e)).setTag e n).setPins e (w :: s.pins e)).setBuffer e
        (some b)).setFreeBuffer b false).goto w (.inserted e n))
  | noBuffer (e : E) (n : Nat) (hp : s.pc w = .insert e n) (hm : s.map n = none)
      (ht : t = (((s.setTag e n).setPins e (w :: s.pins e)).setFreeEntry e true).goto w .idle)
  | write (e : E) (n bytes : Nat) (b : B) (hop : op = .write bytes) (hp : s.pc w = .extend e n)
      (hb : s.buffer e = some b)
      (ht : t = ({ s with size := s.extendedSize n bytes }.setLatch b true).goto w (.zero e n))
  | zero (e : E) (n : Nat) (b : B) (hp : s.pc w = .zero e n) (hb : s.buffer e = some b)
      (ht : t = (s.setPage b none).goto w (.finish e n))
  | makePin (e : E) (n : Nat) (b : B) (hp : s.pc w = .makePin e n) (hb : s.buffer e = some b)
      (ht : t = ({ s with returned := s.tag e :: s.returned }.setLatch b false).goto w (.holds e n))
  | initPage (e : E) (n : Nat) (b : B) (hp : s.pc w = .holds e n) (hb : s.buffer e = some b)
      (hg : s.page b = none) (ht : t = s.setPage b (some []))
  | insertTuple (e : E) (n : Nat) (b : B) (x : τ) (xs : List τ) (hp : s.pc w = .holds e n)
      (hb : s.buffer e = some b) (hg : s.page b = some xs)
      (ht : t = { s with stored := (s.tag e, x) :: s.stored }.setPage b (some (x :: xs)))
  | unpin (e : E) (n : Nat) (hp : s.pc w = .holds e n)
      (ht : t = (s.setPins e ((s.pins e).erase w)).goto w .idle)

section
variable [DecidableEq W] [DecidableEq E] [DecidableEq B]

theorem ExtendEffect.go {s : ExtendPool W E B τ} {w : W} {op : ExtendOp E B τ} {p : ExtendPc E}
    (ho : ∀ e, p.own = some e → (s.pc w).own = some e)
    (hj : ∀ j, p.job = some j → (s.pc w).job = some j)
    (hpe : ∀ n, p.pending = some n → (s.pc w).pending = some n)
    (hl : ∀ n, p.late = some n → (s.pc w).late = some n) (hh : ∀ e n, p ≠ .holds e n)
    (valid io : E → Bool) :
    ExtendEffect s { s with dataValid := valid, ioInProgress := io, pc := Function.update s.pc w p } w op := by
  refine .move rfl rfl rfl rfl rfl rfl rfl rfl rfl rfl ?_ ?_ ?_ ?_ ?_ ?_ <;>
    simp only [Function.update_self]
  · exact ho
  · exact hj
  · exact hpe
  · exact hl
  · exact .inl hh
  · exact fun v hv => by rw [Function.update_of_ne hv]

theorem extend_effect {s t : ExtendPool W E B τ} {w : W} {op : ExtendOp E B τ}
    (h : s.step (w, op) = some t) : ExtendEffect s t w op := by
  cases op with
  | run =>
    simp only [ExtendPool.step] at h
    cases hp : s.pc w <;> rw [hp] at h <;> simp only [runPc] at h
    case idle | cleanup | extend | holds => cases h
    case count e => cases h; exact .count e rfl hp rfl
    case insert e n =>
      split at h <;> cases h
      rename_i other hm
      exact .join e other n hp hm rfl
    case inserted e n =>
      split at h <;> cases h
      refine .go ?_ ?_ ?_ ?_ ?_ _ _ <;> simp [hp]
    case existing e n =>
      cases h
      refine .go ?_ ?_ ?_ ?_ ?_ _ _ <;> simp [hp]
    case startIo e n =>
      split at h <;> cases h <;> refine .go ?_ ?_ ?_ ?_ ?_ _ _ <;> simp [hp]
    case zero e n =>
      obtain ⟨b, hb, rfl⟩ := Option.map_eq_some_iff.mp h
      exact .zero e n b hp hb rfl
    case finish e n =>
      cases h
      refine .go ?_ ?_ ?_ ?_ ?_ _ _ <;> simp [hp]
    case makePin e n =>
      split at h
      · obtain ⟨b, hb, rfl⟩ := Option.map_eq_some_iff.mp h
        exact .makePin e n b hp hb rfl
      · cases h
  | call =>
    cases hp : s.pc w <;> simp only [ExtendPool.step, hp, reduceCtorEq] at h
    cases h
    refine .go ?_ ?_ ?_ ?_ ?_ _ _ <;> simp
  | vacate e =>
    cases hp : s.pc w <;> simp only [ExtendPool.step, hp, reduceCtorEq] at h
    split at h
    · rename_i b hb
      split at h <;> cases h
      rename_i hn
      exact .vacate e b hp hb hn rfl
    · cases h
  | forget e =>
    cases hp : s.pc w <;> simp only [ExtendPool.step, hp, reduceCtorEq] at h
    split at h <;> cases h
    rename_i hc
    exact .forget e hp hc.1 hc.2.1 hc.2.2 rfl
  | evict e =>
    cases hp : s.pc w <;> simp only [ExtendPool.step, hp, reduceCtorEq] at h
    split at h <;> cases h
    rename_i hc
    exact .evict e hp hc.1 hc.2 rfl
  | noEntry =>
    cases hp : s.pc w <;> simp only [ExtendPool.step, hp, reduceCtorEq] at h
    cases h
    refine .go ?_ ?_ ?_ ?_ ?_ _ _ <;> simp
  | openFails =>
    cases hp : s.pc w <;> simp only [ExtendPool.step, hp, reduceCtorEq] at h
    cases h
    refine .go ?_ ?_ ?_ ?_ ?_ _ _ <;> simp
  | takeBuffer b =>
    cases hp : s.pc w <;> simp only [ExtendPool.step, hp, reduceCtorEq] at h
    split at h <;> cases h
    rename_i hc
    exact .take _ _ b hp hc.1 hc.2.1 rfl
  | noBuffer =>
    cases hp : s.pc w <;> simp only [ExtendPool.step, hp, reduceCtorEq] at h
    split at h <;> cases h
    rename_i hc
    exact .noBuffer _ _ hp hc rfl
  | write bytes =>
    cases hp : s.pc w <;> simp only [ExtendPool.step, hp, reduceCtorEq] at h
    split at h
    · rename_i b hb
      split at h <;> cases h
      exact .write _ _ bytes b rfl hp hb rfl
    · cases h
  | writeFails =>
    cases hp : s.pc w <;> simp only [ExtendPool.step, hp, reduceCtorEq] at h
    split at h
    · split at h <;> cases h
      refine .go ?_ ?_ ?_ ?_ ?_ _ _ <;> simp
    · cases h
  | initPage =>
    cases hp : s.pc w <;> simp only [ExtendPool.step, hp, reduceCtorEq] at h
    obtain ⟨b, hb, h⟩ := Option.bind_eq_some_iff.mp h
    split at h <;> cases h
    · rename_i hg; exact .initPage _ _ b hp hb hg rfl
    · exact .move rfl rfl rfl rfl rfl rfl rfl rfl rfl rfl (fun _ => id) (fun _ => id) (fun _ => id)
        (fun _ => id) (.inr rfl) fun _ _ => rfl
  | insertTuple x =>
    cases hp : s.pc w <;> simp only [ExtendPool.step, hp, reduceCtorEq] at h
    obtain ⟨b, hb, h⟩ := Option.bind_eq_some_iff.mp h
    obtain ⟨xs, hg, rfl⟩ := Option.map_eq_some_iff.mp h
    exact .insertTuple _ _ b x xs hp hb hg rfl
  | returnBuffer =>
    cases hp : s.pc w <;> simp only [ExtendPool.step, hp, reduceCtorEq] at h
    cases h
    exact .unpin _ _ hp rfl

theorem ExtendEffect.pc_ne {s t : ExtendPool W E B τ} {w v : W} {op : ExtendOp E B τ}
    (h : ExtendEffect s t w op) (hv : v ≠ w) : t.pc v = s.pc v := by
  cases h with
  | move _ _ _ _ _ _ _ _ _ _ _ _ _ _ _ hne => exact hne v hv
  | vacate _ _ _ _ _ ht | forget _ _ _ _ _ ht | evict _ _ _ _ ht | count _ _ _ ht | join _ _ _ _ _ ht
  | take _ _ _ _ _ _ ht | noBuffer _ _ _ _ ht | write _ _ _ _ _ _ _ ht | zero _ _ _ _ _ ht
  | makePin _ _ _ _ _ ht | initPage _ _ _ _ _ _ ht | insertTuple _ _ _ _ _ _ _ _ ht | unpin _ _ _ ht =>
    subst ht
    simp [hv]

/-! ## Entries and buffers -/

omit [DecidableEq W] [DecidableEq E] [DecidableEq B] in
/-- What the worker of a step has if it had it before, each worker has if it had it before. -/
theorem had_of_ne {β : Type} {s t : ExtendPool W E B τ} {w : W} (f : ExtendPc E → Option β)
    (hne : ∀ v, v ≠ w → t.pc v = s.pc v) (hw : ∀ x, f (t.pc w) = some x → f (s.pc w) = some x) (v : W) (x : β)
    (hv : f (t.pc v) = some x) : f (s.pc v) = some x := by
  by_cases e : v = w
  · subst e
    exact hw x hv
  · rwa [hne v e] at hv

omit [DecidableEq E] [DecidableEq B] in
theorem EntryInv.goto {s : ExtendPool W E B τ} {w : W} {p : ExtendPc E} (hi : EntryInv s)
    (ho : ∀ e, p.own = some e → (s.pc w).own = some e) (hj : ∀ j, p.job = some j → (s.pc w).job = some j) :
    EntryInv (s.goto w p) := by
  have hne : ∀ v, v ≠ w → (s.goto w p).pc v = s.pc v := fun v hv => Function.update_of_ne hv _ _
  have hself : (s.goto w p).pc w = p := Function.update_self _ _ _
  have hown := had_of_ne ExtendPc.own hne (hself.symm ▸ ho)
  have hjob := had_of_ne ExtendPc.job hne (hself.symm ▸ hj)
  exact ⟨hi.tag, hi.free, fun v e hv => hi.own v e (hown v e hv),
    fun v u e hv hu => hi.ownOne v u e (hown v e hv) (hown u e hu), fun v e n hv => hi.job v e n (hjob v _ hv)⟩

omit [DecidableEq W] [DecidableEq B] in
theorem EntryInv.forget {s : ExtendPool W E B τ} {e : E} (hi : EntryInv s) (hn : s.pins e = [])
    (hm : s.map (s.tag e) = some e) : EntryInv ((s.setMap (s.tag e) none).setFreeEntry e true) := by
  obtain ⟨htag, hfree, hown, hownOne, hjob⟩ := hi
  constructor <;> simp only [setMap, setFreeEntry, Function.update_apply] <;> grind

omit [DecidableEq B] in
theorem EntryInv.evict {s : ExtendPool W E B τ} {w : W} {e : E} (hi : EntryInv s) (hf : s.freeEntry e = true) :
    EntryInv ((((s.setFreeEntry e false).setValid e false).setIo e false).goto w (.count e)) := by
  obtain ⟨htag, hfree, hown, hownOne, hjob⟩ := hi
  constructor <;> simp only [setFreeEntry, setValid, setIo, ExtendPool.goto, Function.update_apply] <;>
    grind [ExtendPc.own, ExtendPc.job]

omit [DecidableEq B] in
theorem EntryInv.join {s : ExtendPool W E B τ} {w : W} {e other : E} {n : Nat} (hi : EntryInv s)
    (hp : s.pc w = .insert e n) (hm : s.map n = some other) :
    EntryInv (((s.setPins other (w :: s.pins other)).setFreeEntry e true).goto w (.existing other n)) := by
  obtain ⟨htag, hfree, hown, hownOne, hjob⟩ := hi
  constructor <;> simp only [setPins, setFreeEntry, ExtendPool.goto, Function.update_apply] <;>
    grind [ExtendPc.own, ExtendPc.job]

theorem EntryInv.take {s : ExtendPool W E B τ} {w : W} {e : E} {n : Nat} {b : B} (hi : EntryInv s)
    (hp : s.pc w = .insert e n) (hm : s.map n = none) :
    EntryInv ((((((s.setMap n (some e)).setTag e n).setPins e (w :: s.pins e)).setBuffer e
      (some b)).setFreeBuffer b false).goto w (.inserted e n)) := by
  obtain ⟨htag, hfree, hown, hownOne, hjob⟩ := hi
  constructor <;> simp only [setMap, setTag, setPins, setBuffer, setFreeBuffer, ExtendPool.goto,
    Function.update_apply] <;> grind [ExtendPc.own, ExtendPc.job]

omit [DecidableEq B] in
theorem EntryInv.noBuffer {s : ExtendPool W E B τ} {w : W} {e : E} {n : Nat} (hi : EntryInv s)
    (hp : s.pc w = .insert e n) :
    EntryInv ((((s.setTag e n).setPins e (w :: s.pins e)).setFreeEntry e true).goto w .idle) := by
  obtain ⟨htag, hfree, hown, hownOne, hjob⟩ := hi
  constructor <;> simp only [setTag, setPins, setFreeEntry, ExtendPool.goto, Function.update_apply] <;>
    grind [ExtendPc.own, ExtendPc.job]

omit [DecidableEq B] in
theorem EntryInv.unpin {s : ExtendPool W E B τ} {w : W} {e : E} (hi : EntryInv s) :
    EntryInv ((s.setPins e ((s.pins e).erase w)).goto w .idle) := by
  have h := hi.goto (w := w) (p := .idle) (by simp) (by simp)
  refine ⟨h.tag, h.free, h.own, h.ownOne, fun v e' n hv => ?_⟩
  have hvw : v ≠ w := fun hvw => by simp [ExtendPool.goto, hvw] at hv
  obtain ⟨hmap, hmem⟩ := h.job v e' n hv
  refine ⟨hmap, ?_⟩
  simp only [ExtendPool.goto, setPins, Function.update_apply]
  split
  · rename_i he
    subst he
    exact (List.mem_erase_of_ne hvw).mpr hmem
  · exact hmem

theorem EntryInv.step {s t : ExtendPool W E B τ} {w : W} {op : ExtendOp E B τ}
    (hi : EntryInv s) (h : ExtendEffect s t w op) : EntryInv t := by
  obtain ⟨htag, hfree, hown, hownOne, hjob⟩ := hi
  have hi : EntryInv s := ⟨htag, hfree, hown, hownOne, hjob⟩
  cases h with
  | move hm ht hp hb hfe hfb hg hs hr hst ho hj hpe hl hh hne =>
    have hown' := had_of_ne ExtendPc.own hne ho
    refine ⟨by rw [hm, ht]; exact htag, by rw [hm, hfe]; exact hfree, fun v e hv => ?_,
      fun v u e hv hu => hownOne v u e (hown' v e hv) (hown' u e hu), fun v e n hv => ?_⟩
    · rw [hm, hfe]
      exact hown v e (hown' v e hv)
    · rw [hm, hp]
      exact hjob v e n (had_of_ne ExtendPc.job hne hj v _ hv)
  | vacate e b hp hb hn ht => subst ht; exact ⟨htag, hfree, hown, hownOne, hjob⟩
  | forget e hp hn hb hm ht => subst ht; exact hi.forget hn hm
  | evict e hp hf hn ht => subst ht; exact hi.evict hf
  | count e hop hp ht =>
    subst ht
    exact hi.goto (by simp [hp]) (by simp)
  | join e other n hp hm ht => subst ht; exact hi.join hp hm
  | take e n b hp hm hf ht => subst ht; exact hi.take hp hm
  | noBuffer e n hp hm ht => subst ht; exact hi.noBuffer hp
  | write e n bytes b hop hp hb ht =>
    subst ht
    exact EntryInv.goto (s := { s with size := s.extendedSize n bytes }.setLatch b true) (w := w) (p := .zero e n)
      ⟨htag, hfree, hown, hownOne, hjob⟩ (by simp) (by simp [setLatch, hp])
  | zero e n b hp hb ht =>
    subst ht
    exact EntryInv.goto (s := s.setPage b none) (w := w) (p := .finish e n) ⟨htag, hfree, hown, hownOne, hjob⟩
      (by simp) (by simp [setPage, hp])
  | makePin e n b hp hb ht =>
    subst ht
    exact EntryInv.goto (s := { s with returned := s.tag e :: s.returned }.setLatch b false) (w := w)
      (p := .holds e n)
      ⟨htag, hfree, hown, hownOne, hjob⟩ (by simp) (by simp [setLatch, hp])
  | initPage e n b hp hb hg ht => subst ht; exact ⟨htag, hfree, hown, hownOne, hjob⟩
  | insertTuple e n b x xs hp hb hg ht => subst ht; exact ⟨htag, hfree, hown, hownOne, hjob⟩
  | unpin e n hp ht => subst ht; exact hi.unpin

theorem BufferInv.step {s t : ExtendPool W E B τ} {w : W} {op : ExtendOp E B τ}
    (hi : BufferInv s) (h : ExtendEffect s t w op) : BufferInv t := by
  obtain ⟨hfree, hone⟩ := hi
  cases h with
  | move hm ht hp hb hfe hfb => exact ⟨by rw [hb, hfb]; exact hfree, by rw [hb]; exact hone⟩
  | vacate e b hp hb hn ht =>
    subst ht
    constructor <;> simp only [setBuffer, setFreeBuffer, Function.update_apply] <;> grind
  | take e n b hp hm hf ht =>
    subst ht
    constructor <;> simp only [setMap, setTag, setPins, setBuffer, setFreeBuffer, goto,
      Function.update_apply] <;> grind
  | forget _ _ _ _ _ ht | evict _ _ _ _ ht | count _ _ _ ht | join _ _ _ _ _ ht
  | noBuffer _ _ _ _ ht | write _ _ _ _ _ _ _ ht | zero _ _ _ _ _ ht
  | makePin _ _ _ _ _ ht | initPage _ _ _ _ _ _ ht | insertTuple _ _ _ _ _ _ _ _ ht | unpin _ _ _ ht =>
    subst ht
    exact ⟨hfree, hone⟩

/-! ## Pages -/

omit [DecidableEq W] [DecidableEq E] [DecidableEq B] in
theorem extendedSize_pages {s : ExtendPool W E B τ} {n : Nat} (hn : n = s.pages) (hlt : n < 2 ^ 19) :
    s.extendedSize n Config.PageSize / Config.PageSize = s.pages + 1 := by
  simp only [pages, extendedSize, Config.PageSize] at hn ⊢
  omega

omit [DecidableEq W] [DecidableEq E] [DecidableEq B] in
theorem PageInv.go {s t : ExtendPool W E B τ} {w : W} (hi : PageInv s) (hne : ∀ v, v ≠ w → t.pc v = s.pc v)
    (hs : t.size = s.size) (hr : t.returned = s.returned)
    (hpe : ∀ n, (t.pc w).pending = some n → (s.pc w).pending = some n)
    (hl : ∀ n, (t.pc w).late = some n → (s.pc w).late = some n) : PageInv t := by
  have hpages : t.pages = s.pages := by rw [pages, hs, pages]
  have hpend := had_of_ne ExtendPc.pending hne hpe
  have hlate := had_of_ne ExtendPc.late hne hl
  refine ⟨fun v n hv => ?_, fun v u n m hv hu => hi.pendingOne v u n m (hpend v n hv) (hpend u m hu),
    fun v n hv => ?_, fun v u n hv hu => hi.lateOne v u n (hlate v n hv) (hlate u n hu), fun p hp => ?_, ?_⟩
  · rw [hpages]
    exact hi.pending v n (hpend v n hv)
  · rw [hpages, hr]
    exact hi.late v n (hlate v n hv)
  · rw [hr] at hp
    rw [hpages]
    exact hi.returned p hp
  · rw [hr]
    exact hi.nodup

theorem PageInv.step {s t : ExtendPool W E B τ} {w : W} {op : ExtendOp E B τ} (hi : PageInv s)
    (he : EntryInv s) (hc : extendAlone s (w, op)) (h : ExtendEffect s t w op) : PageInv t := by
  have hpc_ne : ∀ v, v ≠ w → t.pc v = s.pc v := fun v => h.pc_ne
  have hne : ∀ v, v = w ∨ t.pc v = s.pc v := fun v => or_iff_not_imp_left.mpr h.pc_ne
  have hsize : t.size = s.size → t.pages = s.pages := fun e => by rw [pages, e, pages]
  obtain ⟨hpend, hpendOne, hlate, hlateOne, hret, hnd⟩ := hi
  have hi : PageInv s := ⟨hpend, hpendOne, hlate, hlateOne, hret, hnd⟩
  cases h with
  | move hm ht hp hb hfe hfb hg hsz hr hst ho hj hpe hl => exact hi.go hpc_ne hsz hr hpe hl
  | vacate _ _ _ _ _ ht | forget _ _ _ _ _ ht | initPage _ _ _ _ _ _ ht
  | insertTuple _ _ _ _ _ _ _ _ ht =>
    subst ht
    exact ⟨hpend, hpendOne, hlate, hlateOne, hret, hnd⟩
  | evict e hp _ _ ht => exact hi.go hpc_ne (by rw [ht]; rfl) (by rw [ht]; rfl) (by simp [ht]) (by simp [ht])
  | join e other n hp hm ht =>
    exact hi.go hpc_ne (by rw [ht]; rfl) (by rw [ht]; rfl) (by simp [ht, hp]) (by simp [ht])
  | take e n b hp hm hf ht =>
    exact hi.go hpc_ne (by rw [ht]; rfl) (by rw [ht]; rfl) (by simp [ht, hp]) (by simp [ht])
  | noBuffer e n hp hm ht => exact hi.go hpc_ne (by rw [ht]; rfl) (by rw [ht]; rfl) (by simp [ht]) (by simp [ht])
  | zero e n b hp hb ht => exact hi.go hpc_ne (by rw [ht]; rfl) (by rw [ht]; rfl) (by simp [ht]) (by simp [ht, hp])
  | unpin e n hp ht => exact hi.go hpc_ne (by rw [ht]; rfl) (by rw [ht]; rfl) (by simp [ht]) (by simp [ht])
  | count e hop hp ht =>
    have hpages := hsize (by rw [ht]; rfl)
    obtain ⟨halone, hlt⟩ := hc.1 (by simp [hp, hop])
    have hcount : s.getPagesCount = s.pages := Nat.mod_eq_of_lt (Nat.lt_trans hlt (by decide))
    have hpc : t.pc w = .insert e s.pages := by rw [ht, hcount]; simp
    have hr : t.returned = s.returned := by rw [ht]; rfl
    constructor <;> grind [ExtendPc.pending, ExtendPc.late]
  | write e n bytes b hop hp hb ht =>
    obtain ⟨hn, hlt⟩ := hpend w n (by simp [hp])
    have hpages : t.pages = s.pages + 1 := by
      have hw : bytes = Config.PageSize := by simpa [hop] using hc.2
      rw [← extendedSize_pages hn hlt, pages, ht, hw]
      rfl
    have hpc : t.pc w = .zero e n := by rw [ht]; simp
    have hr : t.returned = s.returned := by rw [ht]; rfl
    -- the other calls have their page behind them, and nobody else counts
    constructor <;> grind [ExtendPc.pending, ExtendPc.late]
  | makePin e n b hp hb ht =>
    have hpages := hsize (by rw [ht]; rfl)
    have hpc : t.pc w = .holds e n := by rw [ht]; simp
    have htag : s.tag e = n := he.tag n e (he.job w e n (by simp [hp])).1
    have hr : t.returned = n :: s.returned := by rw [ht, ← htag]; rfl
    constructor <;> grind [ExtendPc.pending, ExtendPc.late]

/-! ## Stored tuples -/

theorem StoredInv.step {s t : ExtendPool W E B τ} {w : W} {op : ExtendOp E B τ} (hi : StoredInv s)
    (he : EntryInv s) (hb : BufferInv s) (hp : PageInv s) (h : ExtendEffect s t w op) :
    StoredInv t := by
  have hne : ∀ v, v = w ∨ t.pc v = s.pc v := fun v => or_iff_not_imp_left.mpr h.pc_ne
  obtain ⟨hholds, hstored⟩ := hi
  cases h with
  | move hm ht hpn hbf hfe hfb hg hsz hr hst ho hj hpe hl hh =>
    refine ⟨fun v e n hv => ?_, ?_⟩
    · rw [hr]
      rcases hne v with rfl | e'
      · rcases hh with hh | hh
        · exact absurd hv (hh e n)
        · exact hholds v e n (hh ▸ hv)
      · exact hholds v e n (e' ▸ hv)
    · rw [hst, hr, hm, hbf, hg]; exact hstored
  | vacate e b _ _ _ ht =>
    subst ht
    refine ⟨hholds, fun p x hx => ⟨(hstored p x hx).1, fun e' b' hm hb' => ?_⟩⟩
    by_cases ee : e' = e
    · subst ee; simp at hb'
    · exact (hstored p x hx).2 e' b' hm (by simpa [ee] using hb')
  | forget e _ _ _ _ ht =>
    subst ht
    refine ⟨hholds, fun p x hx => ⟨(hstored p x hx).1, fun e' b' hm hb' => ?_⟩⟩
    by_cases ep : p = s.tag e
    · subst ep; simp at hm
    · exact (hstored p x hx).2 e' b' (by simpa [ep] using hm) hb'
  | evict e _ _ _ ht | count e _ _ ht | join e _ _ _ _ ht | noBuffer e _ _ _ ht
  | write e _ _ _ _ _ _ ht | unpin e _ _ ht =>
    subst ht
    refine ⟨fun v e' n' hv => ?_, hstored⟩
    by_cases ev : v = w
    · simp [ev] at hv
    · exact hholds v e' n' (by simpa [ev] using hv)
  | take e n b hpc hm hf ht =>
    subst ht
    refine ⟨fun v e' n' hv => ?_, fun p x hx => ⟨(hstored p x hx).1, fun e' b' hm' hb' => ?_⟩⟩
    · by_cases ev : v = w
      · simp [ev] at hv
      · exact hholds v e' n' (by simpa [ev] using hv)
    · -- the new page is not among those returned
      have hlt := hp.returned p (hstored p x hx).1
      have hn := (hp.pending w n (by simp [hpc])).1
      have ep : p ≠ n := by omega
      have hm' : s.map p = some e' := by simpa [ep] using hm'
      have ee : e' ≠ e := fun ee => (he.own w e (by simp [hpc])).2 p (ee ▸ hm')
      exact (hstored p x hx).2 e' b' hm' (by simpa [ee] using hb')
  | zero e n b hpc hbe ht =>
    subst ht
    refine ⟨fun v e' n' hv => ?_, fun p x hx => ⟨(hstored p x hx).1, fun e' b' hm' hb' => ?_⟩⟩
    · by_cases ev : v = w
      · simp [ev] at hv
      · exact hholds v e' n' (by simpa [ev] using hv)
    · -- the buffer that is cleared belongs to a page not yet returned
      have ebb : b' ≠ b := fun ebb => by
        have ee := hb.one e' e b (ebb ▸ hb') hbe
        have hpn : p = n := by
          rw [← he.tag p e' hm', ee, he.tag n e (he.job w e n (by simp [hpc])).1]
        exact (hp.late w n (by simp [hpc])).2 (hpn ▸ (hstored p x hx).1)
      simpa [ebb] using (hstored p x hx).2 e' b' hm' hb'
  | makePin e n b hpc hbe ht =>
    have htag : s.tag e = n := he.tag n e (he.job w e n (by simp [hpc])).1
    subst ht
    refine ⟨fun v e' n' hv => ?_, fun p x hx => ⟨?_, (hstored p x hx).2⟩⟩
    · by_cases ev : v = w
      · have : n = n' := by
          have : e = e' ∧ n = n' := by simpa [ev] using hv
          exact this.2
        simp [htag, this]
      · exact List.mem_cons_of_mem _ (hholds v e' n' (by simpa [ev] using hv))
    · exact List.mem_cons_of_mem _ (hstored p x hx).1
  | initPage e n b hpc hbe hg ht =>
    subst ht
    refine ⟨hholds, fun p x hx => ⟨(hstored p x hx).1, fun e' b' hm' hb' => ?_⟩⟩
    obtain ⟨xs, hxs, hmem⟩ := (hstored p x hx).2 e' b' hm' hb'
    have ebb : b' ≠ b := fun ebb => by rw [ebb, hg] at hxs; cases hxs
    exact ⟨xs, by simpa [ebb] using hxs, hmem⟩
  | insertTuple e n b y xs hpc hbe hg ht =>
    have hjob := he.job w e n (by simp [hpc])
    have htag : s.tag e = n := he.tag n e hjob.1
    subst ht
    refine ⟨hholds, fun p x hx => ?_⟩
    have hold : (p, x) ∈ s.stored → p ∈ s.returned ∧ ∀ e' b', s.map p = some e' →
        s.buffer e' = some b' → ∃ ys, Function.update s.page b (some (y :: xs)) b' = some ys ∧ x ∈ ys :=
      fun hx => ⟨(hstored p x hx).1, fun e' b' hm' hb' => by
        obtain ⟨ys, hys, hmem⟩ := (hstored p x hx).2 e' b' hm' hb'
        by_cases ebb : b' = b
        · rw [ebb, hg] at hys
          cases hys
          exact ⟨y :: xs, by simp [ebb], List.mem_cons_of_mem _ hmem⟩
        · exact ⟨ys, by simpa [ebb] using hys, hmem⟩⟩
    rcases List.mem_cons.mp hx with hx | hx
    · cases hx
      refine ⟨by rw [htag]; exact hholds w e n hpc, fun e' b' hm' hb' => ?_⟩
      have ee : e = e' := by
        rw [htag] at hm'
        exact Option.some.inj (hjob.1.symm.trans hm')
      have ebb : b = b' := Option.some.inj (hbe.symm.trans (by rw [ee]; exact hb'))
      exact ⟨y :: xs, by simp [ebb], List.mem_cons_self⟩
    · exact hold hx

/-! ## Runs -/

structure ExtendInv (s : ExtendPool W E B τ) : Prop where
  entry : EntryInv s
  buffer : BufferInv s
  page : PageInv s
  stored : StoredInv s

omit [DecidableEq W] [DecidableEq E] [DecidableEq B] in
theorem ExtendInv.init (size : Nat) : ExtendInv (init size : ExtendPool W E B τ) where
  entry := by constructor <;> simp [ExtendPool.init]
  buffer := by constructor <;> simp [ExtendPool.init]
  page := by constructor <;> simp [ExtendPool.init]
  stored := by constructor <;> simp [ExtendPool.init]

theorem ExtendInv.step {s t : ExtendPool W E B τ} {a : W × ExtendOp E B τ} (hi : ExtendInv s)
    (hc : extendAlone s a) (h : s.step a = some t) : ExtendInv t := by
  obtain ⟨w, op⟩ := a
  have he := extend_effect h
  exact ⟨hi.entry.step he, hi.buffer.step he, hi.page.step hi.entry hc he,
    hi.stored.step hi.entry hi.buffer hi.page he⟩

/-- Calls returned different pages, no call is about to clear a returned page, and every tuple put
on a returned page is on it as long as the page has its buffer. -/
structure ExtendSafe (s : ExtendPool W E B τ) : Prop where
  distinct : s.returned.Nodup
  spared : ∀ w e n b, s.pc w = .zero e n → s.buffer e = some b →
    ∀ p ∈ s.returned, ∀ e', s.map p = some e' → s.buffer e' ≠ some b
  kept : ∀ p x, (p, x) ∈ s.stored → p ∈ s.returned ∧
    ∀ e b, s.map p = some e → s.buffer e = some b → ∃ xs, s.page b = some xs ∧ x ∈ xs

omit [DecidableEq W] [DecidableEq E] [DecidableEq B] in
theorem ExtendInv.safe {s : ExtendPool W E B τ} (hi : ExtendInv s) : ExtendSafe s where
  distinct := hi.page.nodup
  spared w e n b hp hb p hpr e' hm hb' := by
    have ee := hi.buffer.one e' e b hb' hb
    have hpn : p = n := by
      rw [← hi.entry.tag p e' hm, ee, hi.entry.tag n e (hi.entry.job w e n (by simp [hp])).1]
    exact (hi.page.late w n (by simp [hp])).2 (hpn ▸ hpr)
  kept := hi.stored.stored

/-- Extensions are safe in every run whose calls count pages alone and write whole pages. -/
theorem extend_safe {size : Nat} {s : ExtendPool W E B τ}
    (h : Reach ExtendPool.step extendAlone (init size) s) : ExtendSafe s := by
  have hi : ExtendInv s :=
    h.inv (I := ExtendInv) (fun _ _ _ hi hc h => ExtendInv.step hi hc h) (ExtendInv.init size)
  exact hi.safe

end

/-- The sections of one call that takes a new entry, up to its return. -/
def extendTrace (w : Fin 2) (e b : Fin 4) : List (Fin 2 × ExtendOp (Fin 4) (Fin 4) Unit) :=
  [.call, .evict e, .run, .takeBuffer b, .run, .write 8192, .run, .run, .run].map (w, ·)

/-- Two calls one after the other, with a tuple on the first page. -/
theorem extend_safe_twice : ∃ s : ExtendPool (Fin 2) (Fin 4) (Fin 4) Unit,
    Reach ExtendPool.step extendAlone (init 0) s ∧ (s.returned = [1, 0] ∧ s.stored = [(0, ())]) ∧
    ExtendSafe s := by
  have h : (exec (guarded extendAlone ExtendPool.step) (init 0)
      (extendTrace 0 0 0 ++ [(0, .initPage), (0, .insertTuple ())] ++ extendTrace 1 1 1)).map
      (fun s => decide (s.returned = [1, 0] ∧ s.stored = [(0, ())])) = some true := by
    decide +kernel
  obtain ⟨s, hr, hs⟩ := reach_of_test h
  exact ⟨s, hr.of_guarded, of_decide_eq_true hs, extend_safe hr.of_guarded⟩

/-- Both calls count no pages; the second one finds the entry of the first in the map. -/
def overlapTrace : List (Fin 2 × ExtendOp (Fin 4) (Fin 4) Unit) :=
  [(1, .call), (1, .evict 1), (1, .run)] ++ extendTrace 0 0 0 ++ [(0, .initPage), (0, .insertTuple ())] ++
  [.run, .run, .run, .write 8192, .run, .run, .run].map (1, ·)

/-- The same page is returned twice and its tuple is wiped. -/
theorem extend_overlap : ∃ s : ExtendPool (Fin 2) (Fin 4) (Fin 4) Unit,
    Reach ExtendPool.step anyStep (init 0) s ∧ s.returned = [0, 0] ∧ s.stored = [(0, ())] ∧
    s.map 0 = some 0 ∧ s.buffer 0 = some 0 ∧ s.page 0 = none := by
  have h : (exec ExtendPool.step (init 0) overlapTrace).map (fun s => decide
      (s.returned = [0, 0] ∧ s.stored = [(0, ())] ∧ s.map 0 = some 0 ∧ s.buffer 0 = some 0 ∧
        s.page 0 = none)) = some true := by decide +kernel
  obtain ⟨s, hr, hs⟩ := reach_of_test h
  exact ⟨s, hr, of_decide_eq_true hs⟩

end ExtendPool

end Mimidb
