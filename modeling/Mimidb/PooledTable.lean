import Mimidb.BufferCapacity
import Mimidb.TableInsert

/-!
# A table behind the buffer pool

`InsertTuple` with the calls of the pool that it makes: `GetBuffer` for every
page the search looks at, `ExtendRelation` when none has room, and the pins that
are returned. Pages are read and changed in the buffer of their pin. The search
comes to the first page with room unless the pool is full before
(`searchPages_cases`).
-/

namespace Mimidb

structure PooledStore where
  pool : BufferManager Memory
  /-- The logs; its pages and its size are not used. -/
  logs : HeapStore
  /-- The pages that `ExtendRelation` returned, the last one first. -/
  added : List Nat

abbrev PooledM := Fallible PooledStore Fault

namespace PooledStore

open BufferManager

variable {α V : Type}

/-- A call of the pool; no file operation fails. -/
def onPool (m : PoolM Memory α) : PooledM α := fun s =>
  ((m { s.pool with io := [] }).1, { s with pool := (m { s.pool with io := [] }).2 })

/-- Work on the page of a pin, whose bytes are in the buffer of the entry. -/
def onPage (pageno e : Nat) (m : HeapM α) : PooledM α := fun s =>
  match s.pool.buffer e with
  | none => (.error .nullPointer, s)
  | some b =>
    let r := m { s.logs with page := fun _ => s.pool.contents b }
    (r.1, { s with
      pool := { s.pool with contents := Function.update s.pool.contents b (r.2.page pageno) }
      logs := { r.2 with page := s.logs.page } })

/-- A pin goes back when its scope is left, by an exception, too. -/
def withPin (dbg : Bool) (e : Nat) (m : PooledM α) : PooledM α := do
  let a ← tryCatch m fun err => do
    onPool (returnBuffer dbg e)
    throw err
  onPool (returnBuffer dbg e)
  return a

/-- The loop of the search; the result is the page of the pin and its entry. -/
def searchPages (dbg : Bool) (relid freeSpace : Nat) : (n pageno : Nat) → PooledM (Option (Nat × Nat))
  | 0, _ => pure none
  | n + 1, pageno => do
    let (tag, e) ← onPool (getBuffer dbg ⟨relid, pageno⟩)
    let page ← onPage tag.pageno e (HeapStore.getPage tag.pageno)
    if HeapPage.getFreeSpace page < freeSpace then
      onPool (returnBuffer dbg e)
      searchPages dbg relid freeSpace n (pageno + 1)
    else return some (tag.pageno, e)

/-- `GetPagesCount` of the file. -/
def pagesCount (s : PooledStore) (relid : Nat) : Nat := s.pool.fileSize relid / Config.PageSize % counter

/-- The end of `searchPageFreeSpace`: all pages are full, a new one is started. -/
def startNewPage (t : HeapTable V) (freeSpace : Nat) : PooledM (Nat × Nat) := do
  let (tag, e) ← onPool (extendRelation t.dbg t.tableId)
  modify fun s => { s with added := tag.pageno :: s.added }
  onPage tag.pageno e (HeapStore.changePage tag.pageno fun page =>
    .ok (if HeapPage.isNew page then HeapPage.init page else page))
  let page ← onPage tag.pageno e (HeapStore.getPage tag.pageno)
  Fallible.ofExcept (assert t.dbg (HeapPage.getFreeSpace page < freeSpace))
  return (tag.pageno, e)

def searchPageFreeSpace (t : HeapTable V) (freeSpace : Nat) : PooledM (Nat × Nat) := do
  let s ← get
  match ← searchPages t.dbg t.tableId freeSpace (s.pagesCount t.tableId) 0 with
  | some pin => return pin
  | none => startNewPage t freeSpace

/-- `fuel` bounds the rounds of the loop. -/
def insertTuple (t : HeapTable V) (values : V) : Nat → PooledM Unit
  | 0 => throw .diverges
  | fuel + 1 => do
    let heapTuple ← Fallible.ofExcept (t.serialize (t.newHeader values) values)
    let freeSpace := heapTuple.length + ItemId.size
    let (pageno, e) ← searchPageFreeSpace t freeSpace
    let page ← onPage pageno e (HeapStore.getPage pageno)
    if HeapPage.getFreeSpace page < freeSpace then
      onPool (returnBuffer t.dbg e)
      insertTuple t values fuel
    else withPin t.dbg e (onPage pageno e (t.performInsert pageno heapTuple))

/-! ## The pages of a table -/

/-- The bytes of a page, in its buffer or in the file. -/
def page (s : PooledStore) (relid pageno : Nat) : Memory :=
  match (s.pool.map ⟨relid, pageno⟩).bind s.pool.buffer with
  | some b => s.pool.contents b
  | none => s.pool.disk ⟨relid, pageno⟩

/-- The table as it would be without a pool. -/
def view (s : PooledStore) (relid : Nat) : HeapStore :=
  { s.logs with size := s.pool.fileSize relid, page := s.page relid }

/-- The pages of the `n` from `k` on that are not in the pool. -/
def absent (s : PooledStore) (relid k n : Nat) : Nat :=
  (List.range' k n).countP fun pageno => (s.pool.map ⟨relid, pageno⟩).isNone

/-- The entries in the top lists once the pages below `n` have been read. -/
def needed (s : PooledStore) (relid n : Nat) : Nat :=
  (s.pool.lists .T1).size + (s.pool.lists .T2).size + s.absent relid 0 n

/-- A pool in which `used` pages are cached, some of them pinned; `plain` are the pages without a cache. -/
def Cached (s : PooledStore) (pins : List (PageTag × Nat)) (plain : PageTag → Memory) (used : Nat) : Prop :=
  ∃ t1 t2 fr, PoolRun.CacheInv ⟨s.pool, pins, plain, false, false⟩ t1 t2 fr ∧ t1.length + t2.length = used

/-- What a call of the pool leaves alone as long as it replaces no page. -/
structure Same (s u : PooledStore) : Prop where
  logs : u.logs = s.logs
  added : u.added = s.added
  npages : u.pool.npages = s.pool.npages
  fileSize : u.pool.fileSize = s.pool.fileSize

variable {s u v : PooledStore} {pins : List (PageTag × Nat)} {plain : PageTag → Memory}
  {used relid p e b k n need : Nat} {tag : PageTag}
  {dbg : Bool}

theorem Same.refl (s : PooledStore) : Same s s := ⟨rfl, rfl, rfl, rfl⟩

theorem Same.trans (h : Same s u) (h' : Same u v) : Same s v :=
  ⟨h'.logs.trans h.logs, h'.added.trans h.added, h'.npages.trans h.npages, h'.fileSize.trans h.fileSize⟩

theorem onPool_eq {m : PoolM Memory α} {r : Except Fault α} {pool : BufferManager Memory}
    (h : m { s.pool with io := [] } = (r, pool)) : onPool m s = (r, { s with pool := pool }) := by
  rw [onPool, h]

theorem onPage_getPage (hb : s.pool.buffer e = some b) :
    onPage p e (HeapStore.getPage p) s = (.ok (s.pool.contents b), s) := by
  simp only [onPage, hb, HeapStore.getPage, Function.update_eq_self]

theorem Cached.page (h : Cached s pins plain used) : s.page relid p = plain ⟨relid, p⟩ := by
  obtain ⟨t1, t2, fr, hc, -⟩ := h
  unfold PooledStore.page
  cases hm : s.pool.map ⟨relid, p⟩ with
  | none => exact hc.disk _ hm
  | some e =>
    obtain ⟨he, htag⟩ := hc.map _ e hm
    obtain ⟨b, hb, hcont⟩ := (hc.holds he).buffer
    change s.pool.buffer e = some b at hb
    rw [Option.bind_some, hb]
    exact hcont.trans (congrArg plain htag)

theorem Cached.contents (h : Cached s pins plain used) (hm : s.pool.map tag = some e) :
    ∃ b, s.pool.buffer e = some b ∧ s.pool.contents b = plain tag := by
  obtain ⟨t1, t2, fr, hc, -⟩ := h
  obtain ⟨he, htag⟩ := hc.map tag e hm
  obtain ⟨b, hb, hcont⟩ := (hc.holds he).buffer
  exact ⟨b, hb, hcont.trans (congrArg plain htag)⟩

theorem Cached.used_eq (h : Cached s pins plain used) :
    (s.pool.lists .T1).size + (s.pool.lists .T2).size = used := by
  obtain ⟨t1, t2, fr, hc, rfl⟩ := h
  rw [show (s.pool.lists .T1).size = t1.length from hc.sizeT1,
    show (s.pool.lists .T2).size = t2.length from hc.sizeT2]

theorem Cached.used_le (h : Cached s pins plain used) : used ≤ s.pool.npages := by
  obtain ⟨t1, t2, fr, hc, rfl⟩ := h
  exact hc.buffers.2 ▸ Nat.le_add_left ..

/-! ## Calls of the pool -/

theorem Cached.fetch (dbg : Bool) (h : Cached s pins plain used) (hcount : ∀ e, pins.countP (·.2 = e) + 1 < 2 ^ 20)
    (hp : tag.pageno ≠ PageNumber.Invalid) (hroom : s.pool.map tag = none → used < s.pool.npages) :
    ∃ e u, onPool (getBuffer dbg tag) s = (.ok (tag, e), u) ∧ Same s u ∧
    u.pool.map = Function.update s.pool.map tag (some e) ∧
      Cached u ((tag, e) :: pins) plain (used + if (s.pool.map tag).isNone then 1 else 0) := by
  obtain ⟨t1, t2, fr, hc, rfl⟩ := h
  cases hm : s.pool.map tag with
  | some e =>
    obtain ⟨d, hst⟩ := (hc.holds (hc.map tag e hm).1).state
    have hlt : (s.pool.state e).refCount + 1 < 2 ^ 20 := by
      change s.pool.state e = _ at hst
      rw [hst]
      exact hcount e
    obtain ⟨pool, t1', t2', hu, hmap, hnp, hsize, hlen, hc'⟩ := hc.hit dbg hm hlt []
    refine ⟨e, _, onPool_eq hu, ⟨rfl, rfl, hnp, hsize⟩, ?_, t1', t2', fr, hc', by simpa using hlen⟩
    show pool.map = _
    rw [hmap, ← hm, Function.update_eq_self]
  | none =>
    obtain ⟨pool, e, t1', fr', hu, hmap, hnp, hsize, hlen, hc'⟩ :=
      hc.miss dbg hm (hroom hm) (List.forall_mem_nil _) hp
    refine ⟨e, _, onPool_eq hu, ⟨rfl, rfl, hnp, hsize⟩, hmap, t1', t2, fr', hc', ?_⟩
    simp only [Option.isNone_none, if_true]
    omega

theorem Cached.release (dbg : Bool) (h : Cached s ((tag, e) :: pins) plain used) :
    ∃ u, onPool (returnBuffer dbg e) s = (.ok (), u) ∧ Same s u ∧ u.pool.map = s.pool.map ∧
    Cached u pins plain used := by
  obtain ⟨t1, t2, fr, hc, rfl⟩ := h
  obtain ⟨pool, hu, hmap, hnp, hsize, hc'⟩ := (hc.withIo []).return dbg List.mem_cons_self
  refine ⟨_, onPool_eq hu, ⟨rfl, rfl, hnp, hsize⟩, hmap, t1, t2, fr, ?_, rfl⟩
  simpa using hc'

theorem Cached.unfetched (dbg : Bool) (h : Cached s pins plain used)
    (hv : ∀ tag e, s.pool.map tag = some e → tag.pageno ≠ PageNumber.Invalid) (hpos : 0 < s.pool.npages)
    (hm : s.pool.map tag = none) (hn : s.pool.npages ≤ used) :
    ∃ u, onPool (getBuffer dbg tag) s = (.error (noEntry dbg), u) ∧ u.added = s.added := by
  obtain ⟨t1, t2, fr, hc, rfl⟩ := h
  obtain ⟨pool, hsearch⟩ := hc.search_full dbg hn hpos hv
  have hfind : findEntry dbg tag { s.pool with io := [] } = (.error (noEntry dbg), pool) := by
    rw [findEntry, Fallible.bind_ok (Fallible.get_apply _)]
    simp only [hm]
    exact search_bind_error hsearch _
  exact ⟨_, onPool_eq (Fallible.bind_error hfind), rfl⟩

/-! ## The search -/

theorem absent_one : s.absent relid k 1 = if (s.pool.map ⟨relid, k⟩).isNone then 1 else 0 := by
  rw [absent, List.range'_one, List.countP_singleton]

theorem absent_append (m n : Nat) : s.absent relid k (m + n) = s.absent relid k m + s.absent relid (k + m) n := by
  unfold absent
  rw [← List.range'_append_1, List.countP_append]

theorem absent_mono {m : Nat} (h : n ≤ m) : s.absent relid k n ≤ s.absent relid k m := by
  rw [← Nat.add_sub_cancel' h, absent_append]
  exact Nat.le_add_right ..

/-- None of the pages from `k` up to `p` has room. -/
def Crowded (plain : PageTag → Memory) (relid need k p : Nat) : Prop :=
  ∀ q, k ≤ q → q < p → HeapPage.getFreeSpace (plain ⟨relid, q⟩) < need

theorem Crowded.cons (hk : HeapPage.getFreeSpace (plain ⟨relid, k⟩) < need)
    (h : Crowded plain relid need (k + 1) p) :
    Crowded plain relid need k p := by
  intro q hq hqp
  rcases Nat.eq_or_lt_of_le hq with rfl | hq
  · exact hk
  · exact h q hq hqp

/-- The `n` pages from `k` on are in the pool now. -/
structure Passed (s u : PooledStore) (relid k n : Nat) : Prop where
  same : Same s u
  cached : ∀ q, k ≤ q → q < k + n → u.pool.map ⟨relid, q⟩ ≠ none
  keeps : ∀ tag, s.pool.map tag ≠ none → u.pool.map tag ≠ none
  only : ∀ tag, u.pool.map tag ≠ none → s.pool.map tag ≠ none ∨ tag.relid = relid ∧ k ≤ tag.pageno ∧
    tag.pageno < k + n

theorem Passed.refl (s : PooledStore) (relid k : Nat) : Passed s s relid k 0 :=
  ⟨.refl s, fun q h1 h2 => by omega, fun _ => id, fun _ => .inl⟩

theorem Passed.append {m : Nat} (h : Passed s u relid k m) (h' : Passed u v relid (k + m) n) :
    Passed s v relid k (m + n) := by
  refine ⟨h.same.trans h'.same, fun q h1 h2 => ?_, fun tag ht => h'.keeps tag (h.keeps tag ht), fun tag ht => ?_⟩
  · by_cases hq : q < k + m
    · exact h'.keeps _ (h.cached q h1 hq)
    · exact h'.cached q (Nat.le_of_not_lt hq) (by omega)
  · rcases h'.only tag ht with ht | ht
    · rcases h.only tag ht with ht | ht
      · exact .inl ht
      · exact .inr ⟨ht.1, ht.2.1, by omega⟩
    · exact .inr ⟨ht.1, by omega, by omega⟩

theorem Passed.absent {m : Nat} (h : Passed s u relid k m) (n : Nat) :
    s.absent relid k m + u.absent relid (k + m) n = s.absent relid k (m + n) := by
  rw [absent_append]
  congr 1
  refine List.countP_congr fun q hq => ?_
  have hq := (List.mem_range'_1.1 hq).1
  rw [Option.isNone_iff_eq_none, Option.isNone_iff_eq_none]
  refine ⟨fun hu => by_contra fun hs => h.keeps _ hs hu, fun hs => by_contra fun hu => ?_⟩
  rcases h.only _ hu with hm | ⟨-, -, hlt⟩
  · exact hm hs
  · exact absurd hq (Nat.not_le.2 hlt)

/-- A page of the loop is read, and returned when it has no room. -/
theorem Cached.readPage (dbg : Bool) (h : Cached s pins plain used)
    (hcount : ∀ e, pins.countP (·.2 = e) + 1 < 2 ^ 20) (hk : k ≠ PageNumber.Invalid)
    (hroom : s.pool.map ⟨relid, k⟩ = none → used < s.pool.npages) :
    ∃ e u w, onPool (getBuffer dbg ⟨relid, k⟩) s = (.ok (⟨relid, k⟩, e), u) ∧
      onPage k e (HeapStore.getPage k) u = (.ok (plain ⟨relid, k⟩), u) ∧
      onPool (returnBuffer dbg e) u = (.ok (), w) ∧ Same s u ∧
      Cached u ((⟨relid, k⟩, e) :: pins) plain (used + s.absent relid k 1) ∧
      Passed s w relid k 1 ∧ Cached w pins plain (used + s.absent relid k 1) := by
  obtain ⟨e, u, hu, hsame, hmap, hc⟩ := h.fetch dbg hcount (show (⟨relid, k⟩ : PageTag).pageno ≠ _ from hk) hroom
  rw [← absent_one] at hc
  obtain ⟨b, hb, hcont⟩ := hc.contents (show u.pool.map ⟨relid, k⟩ = some e by rw [hmap, Function.update_self])
  obtain ⟨w, hw, hsame', hmap', hc'⟩ := hc.release dbg
  have hget : onPage k e (HeapStore.getPage k) u = (.ok (plain ⟨relid, k⟩), u) := by rw [onPage_getPage hb, hcont]
  have hwk : w.pool.map ⟨relid, k⟩ ≠ none := by
    rw [hmap', hmap, Function.update_self]
    exact Option.some_ne_none e
  have hwne : ∀ tag, tag ≠ ⟨relid, k⟩ → w.pool.map tag = s.pool.map tag := fun tag ht => by
    rw [hmap', hmap, Function.update_of_ne ht]
  refine ⟨e, u, w, hu, hget, hw, hsame, hc, ⟨hsame.trans hsame', fun q h1 h2 => ?_, fun tag ht => ?_,
    fun tag ht => ?_⟩, hc'⟩
  · obtain rfl : q = k := by omega
    exact hwk
  · by_cases heq : tag = ⟨relid, k⟩
    · exact heq ▸ hwk
    · rwa [hwne tag heq]
  · by_cases heq : tag = ⟨relid, k⟩
    · exact .inr (heq ▸ ⟨rfl, Nat.le_refl k, Nat.lt_succ_self k⟩)
    · rw [hwne tag heq] at ht
      exact .inl ht

/-- The page at which a search stops is the first one with room, or the first one that the pool has no room for. -/
theorem searchPages_cases (dbg : Bool) (relid need : Nat) (hcount : ∀ e, pins.countP (·.2 = e) + 1 < 2 ^ 20) :
    ∀ n k {s : PooledStore} {used : Nat}, Cached s pins plain used →
      (∀ tag e, s.pool.map tag = some e → tag.pageno ≠ PageNumber.Invalid) → 0 < s.pool.npages →
      k + n ≤ PageNumber.Invalid →
    (∃ p e u, searchPages dbg relid need n k s = (.ok (some (p, e)), u) ∧ (k ≤ p ∧ p < k + n) ∧
        need ≤ HeapPage.getFreeSpace (plain ⟨relid, p⟩) ∧ Crowded plain relid need k p ∧ Same s u ∧
        Cached u ((⟨relid, p⟩, e) :: pins) plain (used + s.absent relid k (p + 1 - k))) ∨
    (∃ u, searchPages dbg relid need n k s = (.ok none, u) ∧ Crowded plain relid need k (k + n) ∧
      Passed s u relid k n ∧
        Cached u pins plain (used + s.absent relid k n)) ∨
    ∃ u p, searchPages dbg relid need n k s = (.error (noEntry dbg), u) ∧ u.added = s.added ∧ (k ≤ p ∧ p < k + n) ∧
        Crowded plain relid need k p ∧ s.pool.npages < used + s.absent relid k (p + 1 - k)
  | 0, k, s, used, h, _, _, _ => .inr (.inl ⟨s, rfl, fun q h1 h2 => by omega, .refl s relid k, h⟩)
  | n + 1, k, s, used, h, hv, hpos, hn => by
    have hone : k + 1 - k = 1 := Nat.add_sub_cancel_left k 1
    by_cases hfull : s.pool.map ⟨relid, k⟩ = none ∧ s.pool.npages ≤ used
    · obtain ⟨u, hu, hadded⟩ := h.unfetched dbg hv hpos hfull.1 hfull.2
      refine .inr (.inr ⟨u, k, ?_, hadded, ⟨Nat.le_refl k, by omega⟩, fun q h1 h2 => by omega, ?_⟩)
      · rw [searchPages, Fallible.bind_error hu]
      · rw [hone, absent_one, hfull.1]
        exact Nat.lt_succ_of_le hfull.2
    have hkn : k ≠ PageNumber.Invalid := by omega
    obtain ⟨e, u, w, hu, hget, hw, hsame, hc, hpass, hc'⟩ := h.readPage dbg hcount hkn
      fun hm => Nat.lt_of_not_le fun hle => hfull ⟨hm, hle⟩
    have hrun : searchPages dbg relid need (n + 1) k s = if HeapPage.getFreeSpace (plain ⟨relid, k⟩) < need
        then searchPages dbg relid need n (k + 1) w else (.ok (some (k, e)), u) := by
      rw [searchPages, Fallible.bind_ok hu]
      dsimp only
      rw [Fallible.bind_ok hget]
      split_ifs
      · rw [Fallible.bind_ok hw]
      · rfl
    rw [hrun]
    split_ifs with hfit
    · have hvw : ∀ tag e, w.pool.map tag = some e → tag.pageno ≠ PageNumber.Invalid := fun tag e' hm => by
        rcases hpass.only tag (by rw [hm]; exact Option.some_ne_none e') with hs | ⟨-, h1, h2⟩
        · obtain ⟨e'', hs⟩ := Option.ne_none_iff_exists'.1 hs
          exact hv tag e'' hs
        · omega
      have hused : ∀ m, used + s.absent relid k 1 + w.absent relid (k + 1) m = used + s.absent relid k (1 + m) :=
        fun m => by rw [Nat.add_assoc, hpass.absent]
      have hlast : ∀ p, k + 1 ≤ p → 1 + (p + 1 - (k + 1)) = p + 1 - k := fun p hp => by omega
      rcases searchPages_cases dbg relid need hcount n (k + 1) hc' hvw (hpass.same.npages ▸ hpos) (by omega) with
        ⟨p, e', v, hv', hp, hfit', hcrowd, hsame', hc''⟩ | ⟨v, hv', hcrowd, hpass', hc''⟩ |
        ⟨v, p, hv', hadded, hp, hcrowd, hlt⟩
      · rw [hused, hlast p hp.1] at hc''
        exact .inl ⟨p, e', v, hv', by omega, hfit', hcrowd.cons hfit, hpass.same.trans hsame', hc''⟩
      · rw [hused, Nat.add_comm 1 n] at hc''
        rw [show k + 1 + n = k + (n + 1) by omega] at hcrowd
        exact .inr (.inl ⟨v, hv', hcrowd.cons hfit, Nat.add_comm 1 n ▸ hpass.append hpass', hc''⟩)
      · rw [hused, hlast p hp.1, hpass.same.npages] at hlt
        exact .inr (.inr ⟨v, p, hv', hadded.trans hpass.same.added, by omega, hcrowd.cons hfit, hlt⟩)
    · exact .inl ⟨k, e, u, rfl, ⟨Nat.le_refl k, by omega⟩, Nat.le_of_not_lt hfit, fun q h1 h2 => by omega, hsame,
        by rwa [hone]⟩

/-! ## Work on one page -/

/-- The program reads and changes no page but `p`, and not the size of the file. -/
def OnlyPage (p : Nat) (m : HeapM α) : Prop :=
  ∀ (s : HeapStore) (page' : Nat → Memory) (size : Nat), page' p = s.page p →
  m { s with page := page', size := size } =
    ((m s).1, { (m s).2 with page := Function.update page' p ((m s).2.page p), size := size })

theorem OnlyPage.bind {β : Type} {m : HeapM α} {f : α → HeapM β} (hm : OnlyPage p m) (hf : ∀ a, OnlyPage p (f a)) :
    OnlyPage p (m >>= f) := by
  intro s page' size h
  rw [Fallible.bind_apply, Fallible.bind_apply, hm s page' size h]
  rcases m s with ⟨err | a, s'⟩
  · rfl
  · dsimp only
    rw [hf a s' _ size (Function.update_self ..)]
    simp only [Function.update_idem]

theorem OnlyPage.of_logs {m : HeapM α} (h : ∀ (s : HeapStore) page' size, (m s).2.page = s.page ∧
    m { s with page := page', size := size } = ((m s).1, { (m s).2 with page := page', size := size })) : OnlyPage p
      m := by
  intro s page' size hp
  rw [(h s page' size).2, (h s page' size).1, ← hp, Function.update_eq_self]

theorem getPage_onlyPage (p : Nat) : OnlyPage p (HeapStore.getPage p) := by
  intro s page' size h
  simp only [HeapStore.getPage, h]
  rw [← h, Function.update_eq_self]

theorem setPage_onlyPage (p : Nat) (page : Memory) : OnlyPage p (HeapStore.setPage p page) := by
  intro s page' size h
  simp only [HeapStore.setPage, Function.update_self]

theorem changePage_onlyPage (p : Nat) (f : Memory → Except Fault Memory) : OnlyPage p (HeapStore.changePage p f) :=
  (getPage_onlyPage p).bind fun _ => (OnlyPage.of_logs fun _ _ _ => ⟨rfl, rfl⟩).bind fun page =>
  setPage_onlyPage p page

theorem performInsert_onlyPage (t : HeapTable V) (p : Nat) (bytes : List UInt8) :
    OnlyPage p (t.performInsert p bytes) :=
  (getPage_onlyPage p).bind fun _ => (OnlyPage.of_logs fun _ _ _ => ⟨rfl, rfl⟩).bind fun _ =>
    (OnlyPage.of_logs fun _ _ _ => ⟨rfl, rfl⟩).bind fun _ => changePage_onlyPage p _

/-- A pin for a page, whose buffer is that of no other page. -/
structure PinFor (s : PooledStore) (relid p e b : Nat) : Prop where
  map : s.pool.map ⟨relid, p⟩ = some e
  buffer : s.pool.buffer e = some b
  pinned : (s.pool.state e).pinned = true
  other : ∀ q e', q ≠ p → s.pool.map ⟨relid, q⟩ = some e' → s.pool.buffer e' ≠ some b

theorem Cached.pinFor (h : Cached s ((⟨relid, p⟩, e) :: pins) plain used) : ∃ b, s.PinFor relid p e b := by
  obtain ⟨t1, t2, fr, hc, -⟩ := h
  have hm := hc.pins _ _ List.mem_cons_self
  obtain ⟨he, htag⟩ := hc.map _ e hm
  have hh := hc.holds he
  obtain ⟨b, hb, -⟩ := hh.buffer
  obtain ⟨d, hst⟩ := hh.state
  have hlt := hh.count
  have hpos : 0 < (⟨s.pool, (⟨relid, p⟩, e) :: pins, plain, false, false⟩ : PoolRun Memory).holders e :=
    List.countP_pos_iff.2 ⟨_, List.mem_cons_self, by simp⟩
  refine ⟨b, hm, hb, ?_, fun q e' hq hm' hb' => ?_⟩
  · change s.pool.state e = _ at hst
    rw [hst]
    simp only [EntryState.pinned, bne_iff_ne]
    omega
  · obtain rfl := hc.inj e' e b hb' hb
    have htag' := (hc.map _ e' hm').2
    rw [htag] at htag'
    injection htag' with _ htag'
    exact hq htag'.symm

theorem PinFor.page (h : s.PinFor relid p e b) : s.page relid p = s.pool.contents b := by
  unfold PooledStore.page
  rw [h.map, Option.bind_some, h.buffer]

/-- Work on the page of a pin does to the table what it does without a pool. -/
theorem PinFor.onPage {m : HeapM α} (h : s.PinFor relid p e b) (hm : OnlyPage p m) :
    ∃ u, onPage p e m s = ((m (s.view relid)).1, u) ∧ u.view relid = (m (s.view relid)).2 ∧ u.added = s.added ∧
      u.pool = { s.pool with contents := Function.update s.pool.contents b ((m (s.view relid)).2.page p) } := by
  let base : HeapStore := { s.logs with page := fun _ => s.pool.contents b }
  have hview : s.view relid = { base with page := s.page relid, size := s.pool.fileSize relid } := rfl
  have hrun := hm base (s.page relid) (s.pool.fileSize relid) h.page
  rw [← hview] at hrun
  have hpage : (m (s.view relid)).2.page p = (m base).2.page p := by
    rw [hrun]
    exact Function.update_self ..
  refine ⟨{ s with
    pool := { s.pool with contents := Function.update s.pool.contents b ((m base).2.page p) }
    logs := { (m base).2 with page := s.logs.page } }, ?_, ?_, rfl, by rw [hpage]⟩
  · unfold PooledStore.onPage
    rw [h.buffer, hrun]
  · rw [hrun]
    show HeapStore.mk .. = HeapStore.mk ..
    congr 1
    funext q
    by_cases hq : q = p
    · subst hq
      rw [Function.update_self]
      unfold PooledStore.page
      rw [h.map, Option.bind_some, h.buffer]
      exact Function.update_self ..
    · rw [Function.update_of_ne hq]
      unfold PooledStore.page
      cases hmap : s.pool.map ⟨relid, q⟩ with
      | none => rfl
      | some e' =>
        have hne := h.other q e' hq hmap
        rw [Option.bind_some]
        cases hb : s.pool.buffer e' with
        | none => rfl
        | some b' => exact Function.update_of_ne (fun hbb => hne (by rw [hb, hbb])) ..

theorem returnBuffer_view (relid : Nat) (h : onPool (returnBuffer dbg e) s = (.ok (), u)) :
    u.view relid = s.view relid ∧ u.added = s.added := by
  have hrun : returnBuffer dbg e { s.pool with io := [] } = (.ok (), u.pool) := by
    have hfst : (onPool (returnBuffer dbg e) s).1 = .ok () := by rw [h]
    have hsnd : (onPool (returnBuffer dbg e) s).2.pool = u.pool := by rw [h]
    exact Prod.ext hfst hsnd
  obtain ⟨_, _, hget, hrun⟩ := Fallible.bind_eq_ok.1 hrun
  cases hget
  obtain ⟨_, _, hcheck, hrun⟩ := Fallible.bind_eq_ok.1 hrun
  obtain ⟨-, rfl⟩ := Fallible.ofExcept_eq_ok.1 hcheck
  obtain ⟨_, _, hget, hrun⟩ := Fallible.bind_eq_ok.1 hrun
  cases hget
  obtain ⟨_, _, hset, hrun⟩ := Fallible.bind_eq_ok.1 hrun
  cases hset
  have hpool := (Fallible.ofExcept_eq_ok.1 hrun).2
  obtain rfl := (Prod.ext_iff.1 h).2
  refine ⟨?_, rfl⟩
  change _ = (onPool (returnBuffer dbg e) s).2.pool at hpool
  unfold view PooledStore.page
  rw [← hpool]
  rfl

theorem withPin_eq {m : PooledM α} {r : Except Fault α} (hm : m s = (r, u))
    (hr : onPool (returnBuffer dbg e) u = (.ok (), v)) :
    withPin dbg e m s = (r, v) := by
  unfold withPin
  cases r with
  | ok a => simp only [Fallible.bind_apply, Fallible.tryCatch_apply, hm, hr, Fallible.pure_apply]
  | error err => simp only [Fallible.bind_apply, Fallible.tryCatch_apply, hm, hr, Fallible.throw_apply]

theorem PinFor.release (dbg : Bool) (h : s.PinFor relid p e b) :
    ∃ u, onPool (returnBuffer dbg e) s = (.ok (), u) := by
  have hret : returnBuffer dbg e { s.pool with io := [] } =
    (.ok (), ({ s.pool with io := [] } : BufferManager Memory).withState e
      { s.pool.state e with refCount := (s.pool.state e).refCount - 1 }) := by
    simp only [returnBuffer, unpin, Fallible.bind_apply, getState_apply, check_ok h.pinned, setState_apply]
  exact ⟨_, onPool_eq hret⟩

/-- The change of an insert through a pin, which is returned then. -/
theorem PinFor.performInsert (h : s.PinFor relid p e b) (t : HeapTable V) (bytes : List UInt8) :
    ∃ u, withPin t.dbg e (PooledStore.onPage p e (t.performInsert p bytes)) s =
    ((t.performInsert p bytes (s.view relid)).1, u) ∧
      u.view relid = (t.performInsert p bytes (s.view relid)).2 ∧ u.added = s.added := by
  obtain ⟨u, hu, hview, hadded, hpool⟩ := h.onPage (performInsert_onlyPage t p bytes)
  have hpin : u.PinFor relid p e b := by
    refine ⟨?_, ?_, ?_, ?_⟩
    all_goals rw [hpool]
    exacts [h.map, h.buffer, h.pinned, h.other]
  obtain ⟨w, hw⟩ := hpin.release t.dbg
  obtain ⟨hview', hadded'⟩ := returnBuffer_view relid hw
  exact ⟨w, withPin_eq hu hw, hview'.trans hview, hadded'.trans hadded⟩

end PooledStore

end Mimidb
