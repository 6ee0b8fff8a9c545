import Mimidb.BufferLists

/-!
# Cache misses and hits

What `GetBuffer` does to a pool with room for the page, and to the entry of a
page that is in the cache. Both are put together from what each section does.
-/

namespace Mimidb

namespace BufferManager

variable {β : Type} {dbg : Bool} {s t : BufferManager β} {e b : Nat} {l : ListId} {tag : PageTag}
  {xs ys as bs : List Nat}

/-! ## File operations -/

section
variable {r : Nat} {tv it fl d dv : Bool}

@[simp] theorem shouldStartIo_with :
    shouldStartIo dbg e true (s.withState e ⟨r, false, tv, it, fl, false, d, false⟩) =
    (.ok true, s.withState e ⟨r, false, tv, it, fl, true, d, false⟩) := by
  simp [shouldStartIo, Fallible.bind_apply]

theorem terminateBufferIo_with (dbg setError setValid : Bool) (hb : s.buffer e = some b) :
    terminateBufferIo dbg e setError setValid (s.withState e ⟨r, false, tv, it, fl, true, d, dv⟩) =
      (.ok (), s.withState e ⟨r, false, tv, it, fl, false, setError, dv || setValid⟩) := by
  simp [terminateBufferIo, Fallible.bind_apply, hb]

end

theorem attached_ok (hb : s.buffer e = some b) : attached dbg e s = (.ok b, s) := by
  simp [attached, Fallible.bind_apply, hb]

theorem nextIo_cases (s : BufferManager β) : ∃ io, nextIo s = (.ok (), { s with io := io }) ∨
    nextIo s = (.error (.runtimeError "file operation failed"), { s with io := io }) ∧ ∃ ok ∈ s.io, ok = false := by
  cases hio : s.io with
  | nil =>
    have heq : ({ s with io := [] } : BufferManager β) = s := by rw [← hio]
    refine ⟨[], .inl ?_⟩
    rw [heq]
    simp only [nextIo, Fallible.bind_apply, Fallible.get_apply, hio, Fallible.pure_apply]
  | cons ok io =>
    cases ok with
    | true => exact ⟨io, .inl (by simp [nextIo, Fallible.bind_apply, hio])⟩
    | false => exact ⟨io, .inr ⟨by simp [nextIo, Fallible.bind_apply, hio], false, by simp, rfl⟩⟩

theorem readPage_cases (s : BufferManager β) (tag : PageTag) :
    ∃ io, readPage tag s = (.ok (s.disk tag), { s with io := io }) ∨
      (∃ what, readPage tag s = (.error (.runtimeError what), { s with io := io })) ∧
        ((∃ ok ∈ s.io, ok = false) ∨ tag.pageno = PageNumber.Invalid) := by
  obtain ⟨io, h | ⟨h, hio⟩⟩ := nextIo_cases s
  · refine ⟨io, ?_⟩
    by_cases hp : tag.pageno = PageNumber.Invalid
    · exact .inr ⟨⟨_, by simp [readPage, Fallible.bind_apply, h, hp]; rfl⟩, .inr hp⟩
    · exact .inl (by simp [readPage, Fallible.bind_apply, h, hp])
  · exact ⟨io, .inr ⟨⟨_, by simp [readPage, Fallible.bind_apply, h]; rfl⟩, .inl hio⟩⟩

theorem writePage_cases (s : BufferManager β) (tag : PageTag) (page : β) : ∃ r disk size io,
    writePage tag page s = (r, { s with disk := disk, fileSize := size, io := io }) ∧
      (r = .ok () ∨ ∃ what, r = .error (.runtimeError what)) := by
  obtain ⟨io, h | ⟨h, -⟩⟩ := nextIo_cases s
  · by_cases hp : tag.pageno = PageNumber.Invalid
    · exact ⟨.error (.runtimeError _), s.disk, s.fileSize, io, by simp [writePage, Fallible.bind_apply, h, hp]; rfl,
        .inr ⟨_, rfl⟩⟩
    · exact ⟨.ok (), _, _, io, by simp [writePage, Fallible.bind_apply, h, hp]; exact ⟨rfl, rfl⟩, .inl rfl⟩
  · exact ⟨.error (.runtimeError _), s.disk, s.fileSize, io, by simp [writePage, Fallible.bind_apply, h]; rfl,
      .inr ⟨_, rfl⟩⟩

section
variable {r : Nat} {tv it fl d : Bool} {page : β} {io : List Bool} {what : String}

theorem readBuffer_read (dbg : Bool) (hb : s.buffer e = some b)
    (h : readPage (s.tag e) (s.withState e ⟨r, false, tv, it, fl, true, d, false⟩) =
      (.ok page, { s.withState e ⟨r, false, tv, it, fl, true, d, false⟩ with io := io })) :
    readBuffer dbg e (s.withState e ⟨r, false, tv, it, fl, false, d, false⟩) =
      (.ok (), { s.withState e ⟨r, false, tv, it, fl, false, false, true⟩ with
        contents := Function.update s.contents b page, io := io }) := by
  have hatt : attached dbg e (s.withState e ⟨r, false, tv, it, fl, true, d, false⟩) = (.ok b, _) := attached_ok hb
  let u : BufferManager β := { s with contents := Function.update s.contents b page, io := io }
  have hterm : terminateBufferIo dbg e false true (u.withState e ⟨r, false, tv, it, fl, true, d, false⟩) = _ :=
    terminateBufferIo_with dbg false true hb
  simp only [readBuffer, Fallible.bind_apply, getState_apply, withState_state, Function.update_self,
    Bool.false_eq_true, if_false,
    shouldStartIo_with, Bool.not_true, hatt, Fallible.tryCatch_apply, Fallible.get_apply, withState_tag, h,
    Fallible.modify_apply]
  exact hterm

theorem readBuffer_failed (dbg : Bool) (hb : s.buffer e = some b)
    (h : readPage (s.tag e) (s.withState e ⟨r, false, tv, it, fl, true, d, false⟩) =
      (.error (.runtimeError what), { s.withState e ⟨r, false, tv, it, fl, true, d, false⟩ with io := io })) :
    readBuffer dbg e (s.withState e ⟨r, false, tv, it, fl, false, d, false⟩) =
      (.error (.runtimeError what),
        { s.withState e ⟨r, false, tv, it, fl, false, true, false⟩ with io := io }) := by
  have hatt : attached dbg e (s.withState e ⟨r, false, tv, it, fl, true, d, false⟩) = (.ok b, _) := attached_ok hb
  let u : BufferManager β := { s with io := io }
  have hterm : terminateBufferIo dbg e true false (u.withState e ⟨r, false, tv, it, fl, true, d, false⟩) = _ :=
    terminateBufferIo_with dbg true false hb
  have hterm' : terminateBufferIo dbg e true false
      { s.withState e ⟨r, false, tv, it, fl, true, d, false⟩ with io := io } = _ := hterm
  simp only [readBuffer, Fallible.bind_apply, getState_apply, withState_state, Function.update_self,
    Bool.false_eq_true, if_false,
    shouldStartIo_with, Bool.not_true, hatt, Fallible.tryCatch_apply, Fallible.get_apply, withState_tag, h, hterm',
    Fallible.throw_apply]
  rfl

end

theorem readBuffer_cases (dbg : Bool) (r : Nat) (tv it fl d : Bool) (hb : s.buffer e = some b) :
    ∃ io, readBuffer dbg e (s.withState e ⟨r, false, tv, it, fl, false, d, false⟩) =
        (.ok (), { s.withState e ⟨r, false, tv, it, fl, false, false, true⟩ with
          contents := Function.update s.contents b (s.disk (s.tag e)), io := io }) ∨
      (∃ what, readBuffer dbg e (s.withState e ⟨r, false, tv, it, fl, false, d, false⟩) =
        (.error (.runtimeError what), { s.withState e ⟨r, false, tv, it, fl, false, true, false⟩ with io := io })) ∧
        ((∃ ok ∈ s.io, ok = false) ∨ (s.tag e).pageno = PageNumber.Invalid) := by
  obtain ⟨io, h | ⟨⟨what, h⟩, hio⟩⟩ :=
    readPage_cases (s.withState e ⟨r, false, tv, it, fl, true, d, false⟩) (s.tag e)
  · exact ⟨io, .inl (readBuffer_read dbg hb h)⟩
  · exact ⟨io, .inr ⟨⟨what, readBuffer_failed dbg hb h⟩, hio⟩⟩

/-! ## A miss with room for the page -/

/-- The pool may take the entry `e` and the buffer `b` without replacing a page. -/
structure Room (s : BufferManager β) (e b : Nat) (xs as bs : List Nat) : Prop where
  free : s.Chain .FreeList (as ++ [e])
  more : as ≠ []
  size : 2 ≤ (s.lists .FreeList).size ∧ (s.lists .FreeList).size < counter
  fresh : s.state e = .empty
  bare : s.buffer e = none
  recent : s.Chain .T1 xs
  sizeT1 : (s.lists .T1).size = xs.length
  apart : ∀ z ∈ as ++ [e], z ∉ xs
  buffers : s.freeBuffers = b :: bs
  quiet : (s.lists .T1).size + (s.lists .B1).size + (s.lists .T2).size + (s.lists .B2).size < s.npages
  small : s.npages < counter

/-- The pool after the page took the entry and the buffer. -/
structure Missed (s t : BufferManager β) (tag : PageTag) (e b : Nat) (xs as bs : List Nat) : Prop where
  eq : t = { s with
    map := Function.update s.map tag (some e)
    tag := Function.update s.tag e tag
    state := Function.update s.state e ⟨1, false, true, true, false, false, false, false⟩
    buffer := Function.update s.buffer e (some b)
    freeBuffers := bs
    prev := t.prev, next := t.next, lists := t.lists }
  lists : ∀ l, l ≠ .T1 → l ≠ .FreeList → t.lists l = s.lists l
  free : t.Chain .FreeList as
  sizeFree : (t.lists .FreeList).size = (s.lists .FreeList).size - 2
  recent : t.Chain .T1 (e :: xs)
  sizeT1 : (t.lists .T1).size = xs.length + 1
  links : ∀ z, z ∉ e :: xs → z ∉ as → t.prev z = s.prev z ∧ t.next z = s.next z

section
variable (h : Room s e b xs as bs)

include h

theorem Room.preinsertCleanup_ok : preinsertCleanup dbg s = (.ok (), s) := by
  have hq := h.quiet
  have hn := h.small
  have h1 : ¬ s.npages ≤ ((s.lists .T1).size + (s.lists .B1).size) % counter := by
    rw [Nat.mod_eq_of_lt (by omega)]; omega
  have h2 : ¬ s.npages ≤
      ((s.lists .T1).size + (s.lists .B1).size + (s.lists .T2).size + (s.lists .B2).size) % counter := by
    rw [Nat.mod_eq_of_lt (by omega)]; omega
  simp only [preinsertCleanup, Fallible.bind_apply, Fallible.get_apply, h1, h2, if_false, Fallible.pure_apply]

theorem Room.evictCacheEntry_ok (dbg : Bool) : ∃ t, evictCacheEntry dbg s = (.ok (some e), t) ∧
    Relinked s t .FreeList (as ++ [e]) ∧ t.Chain .FreeList as ∧ t.isRouge e = true ∧
    (t.lists .FreeList).size = (s.lists .FreeList).size - 2 := by
  obtain ⟨t, ht, hrel, hch, hrg, hsz⟩ := popTail_ok dbg h.free h.size.1 h.size.2 h.more h.fresh
  refine ⟨t, ?_, hrel, hch, hrg, hsz⟩
  have hte : t.state e = .empty := by rw [hrel.state]; exact h.fresh
  have htear : tearDown dbg e t = (.ok (), t) := by
    have htop : check dbg (!EntryState.empty.isTopList) t = (.ok (), t) := check_ok rfl
    have hlk : check dbg (!EntryState.empty.locked) t = (.ok (), t) := check_ok rfl
    simp only [tearDown, Fallible.bind_apply, getState_apply, hte, htop, hlk, setState_apply, withState_eq hte]
  simp only [evictCacheEntry, Fallible.bind_apply, ht, htear, Fallible.pure_apply]

end

theorem Relinked.withState (h : Relinked s t l xs) (st : EntryState) :
    Relinked (s.withState e st) (t.withState e st) l xs := by
  refine ⟨?_, h.prev, h.next⟩
  conv_lhs => rw [h.eq]
  rfl

theorem createEntry_ok (dbg : Bool) (tag : PageTag)
    (hs : s.state e = ⟨0, false, true, false, false, false, false, false⟩) (hb : s.freeBuffers = b :: bs)
    (hc : s.Chain .T1 xs) (hz : (s.lists .T1).size = xs.length) (hr : s.isRouge e = true)
    (he : e ∉ xs) : ∃ t, createEntry dbg tag e s = (.ok (), t) ∧
      Relinked ({ s.withState e ⟨1, false, true, true, false, false, false, false⟩ with
        buffer := Function.update s.buffer e (some b), freeBuffers := bs } : BufferManager β) t .T1 (e :: xs) ∧
      t.Chain .T1 (e :: xs) ∧ (t.lists .T1).size = if xs = [] then 1 else (xs.length + 1) % counter := by
  let w : BufferManager β := { s with buffer := Function.update s.buffer e (some b), freeBuffers := bs }
  have hpin : pin dbg e (s.withState e ⟨0, false, true, true, false, false, false, false⟩) =
      (.ok (), s.withState e ⟨1, false, true, true, false, false, false, false⟩) := pin_with (by decide)
  have hlock : lockEntry e (w.withState e ⟨1, false, true, true, false, false, false, false⟩) = _ := lockEntry_with
  obtain ⟨t, ht, hrel, hch, hsz⟩ : ∃ t, insertMRU dbg .T1 e
      (w.withState e ⟨1, true, true, true, false, false, false, false⟩) = (.ok (), t) ∧ _ :=
    insertMRU_ok dbg (show (w.withState e _).Chain .T1 xs from hc)
      (by show (s.lists .T1).size = 0 ↔ _; rw [hz, List.length_eq_zero_iff]) hr he
  have hte : t.state e = ⟨1, true, true, true, false, false, false, false⟩ := by
    rw [hrel.state]; exact Function.update_self ..
  have hunlock : unlockEntry dbg e t =
      (.ok (), t.withState e ⟨1, false, true, true, false, false, false, false⟩) := by
    conv_lhs => rw [← withState_eq hte]
    exact unlockEntry_with
  refine ⟨t.withState e ⟨1, false, true, true, false, false, false, false⟩, ?_, ?_, hch, ?_⟩
  · simp only [withState, w] at hlock ht
    simp only [createEntry, Fallible.bind_apply, getState_apply, setState_apply, hs, hpin, takeFreeBuffer,
      Fallible.get_apply, withState_freeBuffers, hb, Fallible.set_apply, Fallible.pure_apply, setBuffer,
      Fallible.modify_apply]
    simp only [withState, hlock, ht]
    exact hunlock
  · have h := hrel.withState (e := e) ⟨1, false, true, true, false, false, false, false⟩
    rw [withState_withState] at h
    exact h
  · rw [← hz]; exact hsz

theorem Room.missEntry_ok (dbg : Bool) (h : Room s e b xs as bs) (hm : s.map tag = none) :
    ∃ t, missEntry dbg tag s = (.ok (e, true), t) ∧ Missed s t tag e b xs as bs := by
  obtain ⟨u, hu, hrel, hfree, hrg, hsz⟩ := h.evictCacheEntry_ok dbg
  have hbare : u.buffer e = none := by rw [hrel.eq]; exact h.bare
  have hmap : u.map tag = none := by rw [hrel.eq]; exact hm
  have hbufs : u.freeBuffers = b :: bs := by rw [hrel.eq]; exact h.buffers
  have hexs : e ∉ xs := h.apart e (by simp)
  -- the pool in which `createEntry` runs
  let v : BufferManager β := ({ u with
    map := Function.update u.map tag (some e), tag := Function.update u.tag e tag } : BufferManager β).withState e
    ⟨0, false, true, false, false, false, false, false⟩
  have hcu : u.Chain .T1 xs := hrel.chain (by decide) h.recent fun z hz hz' => h.apart z hz' hz
  have hsu : (u.lists .T1).size = xs.length := by rw [hrel.lists (by decide)]; exact h.sizeT1
  obtain ⟨t, ht, hrel', hrec, hsz'⟩ := createEntry_ok dbg tag (Function.update_self ..)
    (show v.freeBuffers = b :: bs from hbufs) (show v.Chain .T1 xs from hcu) hsu hrg hexs
  have hlen : xs.length + 1 < counter := by have := h.quiet; have := h.small; have := h.sizeT1; omega
  refine ⟨t, ?_, ⟨?_, fun l h1 h2 => ?_, ?_, ?_, hrec, ?_, fun z h1 h2 => ?_⟩⟩
  · have hbare' : (check dbg (u.buffer e).isNone : PoolM β Unit) = check dbg true := by rw [hbare]; rfl
    simp only [v, withState] at ht
    simp only [missEntry, Fallible.bind_apply, h.preinsertCleanup_ok, hu, Fallible.modify_apply, setState_apply,
      Fallible.get_apply, withState, hbare', check_true, hmap, EntryState.empty, ht, Fallible.pure_apply]
  · rw [hrel'.eq]
    simp only [v, withState]
    rw [hrel.eq]
    simp only [Function.update_idem]
  · rw [hrel'.lists h1]; exact hrel.lists h2
  · refine hrel'.chain (by decide) hfree fun z hz hz' => ?_
    rcases List.mem_cons.1 hz' with rfl | hz'
    · exact (List.nodup_append.1 h.free.nodup).2.2 z hz z (by simp) rfl
    · exact h.apart z (by simp [hz]) hz'
  · rw [hrel'.lists (by decide)]; exact hsz
  · rw [hsz']
    split
    · rename_i hx; rw [hx]; rfl
    · exact Nat.mod_eq_of_lt hlen
  · rw [hrel'.prev z h1, hrel'.next z h1]
    have hz : z ∉ as ++ [e] := by
      simp only [List.mem_cons, List.mem_append, not_or, List.not_mem_nil, not_false_eq_true, and_true] at h1 ⊢
      exact ⟨h2, h1.1⟩
    exact ⟨hrel.prev z hz, hrel.next z hz⟩

theorem makeBufferPin_ok (dbg : Bool) (hv : (s.state e).dataValid = true) (hp : (s.state e).pinned = true)
    (hb : s.buffer e = some b) : makeBufferPin dbg e s = (.ok (s.tag e, e), s) := by
  simp only [makeBufferPin, Fallible.bind_apply, Fallible.get_apply, check_ok hv, check_ok hp, hb,
    Option.isSome_some, check_true, Fallible.pure_apply]

theorem Room.getBuffer_miss (dbg : Bool) (h : Room s e b xs as bs) (hm : s.map tag = none) :
    ∃ t io, Missed s t tag e b xs as bs ∧
      (getBuffer dbg tag s = (.ok (tag, e), { t.withState e ⟨1, false, true, true, false, false, false, true⟩ with
          contents := Function.update s.contents b (s.disk tag), io := io }) ∨
        (∃ what, getBuffer dbg tag s = (.error (.runtimeError what),
          { t.withState e ⟨1, false, true, true, false, false, true, false⟩ with io := io })) ∧
        ((∃ ok ∈ s.io, ok = false) ∨ tag.pageno = PageNumber.Invalid)) := by
  obtain ⟨t, ht, hmiss⟩ := h.missEntry_ok dbg hm
  have hst : t.state e = ⟨1, false, true, true, false, false, false, false⟩ := by
    rw [hmiss.eq]; exact Function.update_self ..
  have hb : t.buffer e = some b := by rw [hmiss.eq]; exact Function.update_self ..
  have htag : t.tag e = tag := by rw [hmiss.eq]; exact Function.update_self ..
  have hdisk : t.disk = s.disk := by rw [hmiss.eq]
  have hcont : t.contents = s.contents := by rw [hmiss.eq]
  have hio : t.io = s.io := by rw [hmiss.eq]
  have hread := readBuffer_cases dbg 1 true true false false hb
  rw [withState_eq hst, htag, hdisk, hcont, hio] at hread
  obtain ⟨io, hr | ⟨⟨what, hr⟩, hio'⟩⟩ := hread
  · refine ⟨t, io, hmiss, .inl ?_⟩
    let u : BufferManager β := { t.withState e ⟨1, false, true, true, false, false, false, true⟩ with
      contents := Function.update s.contents b (s.disk tag), io := io }
    have hu : u.state e = ⟨1, false, true, true, false, false, false, true⟩ := Function.update_self ..
    have hpin : makeBufferPin dbg e u = (.ok (u.tag e, e), u) :=
      makeBufferPin_ok dbg (by rw [hu]) (by rw [hu]; rfl) hb
    have hvalid : check dbg (u.state e).dataValid u = (.ok (), u) := check_ok (by rw [hu])
    rw [show u.tag e = tag from htag] at hpin
    simp only [getBuffer, findEntry, Fallible.bind_apply, Fallible.get_apply, hm, ht, Bool.not_true,
      Bool.false_eq_true, if_false, hb, Option.isSome_some, check_true, getState_apply, hst, hr]
    simp only [u, withState] at hvalid hpin
    simp only [withState, hvalid, hpin]
  · refine ⟨t, io, hmiss, .inr ⟨⟨what, ?_⟩, hio'⟩⟩
    simp only [getBuffer, findEntry, Fallible.bind_apply, Fallible.get_apply, hm, ht, Bool.not_true,
      Bool.false_eq_true, if_false, hb, Option.isSome_some, check_true, getState_apply, hst, hr]

/-! ## A hit -/

theorem moveMRU_ok (dbg : Bool) (hc : s.Chain l (as ++ e :: bs)) (hz : (s.lists l).size = (as ++ e :: bs).length)
    (hlt : (s.lists l).size < counter) : ∃ t, moveMRU dbg l e s = (.ok (), t) ∧
      Relinked s t l (as ++ e :: bs) ∧ t.Chain l (e :: (as ++ bs)) ∧ (t.lists l).size = (s.lists l).size := by
  have hlen : (as ++ e :: bs).length = (as ++ bs).length + 1 := by simp; omega
  have hpos : decide (0 < (s.lists l).size) = true := decide_eq_true (by omega)
  by_cases h1 : (s.lists l).size = 1
  · obtain ⟨rfl, rfl⟩ : as = [] ∧ bs = [] := List.append_eq_nil_iff.1 (List.length_eq_zero_iff.1 (by omega))
    have hrg : s.isRouge e = true := isRouge_iff.2 ⟨hc.links.1, hc.links.2.1⟩
    refine ⟨s, ?_, ⟨?_, fun _ _ => rfl, fun _ _ => rfl⟩, hc, rfl⟩
    · rw [h1] at hpos
      simp only [moveMRU, Fallible.bind_apply, Fallible.get_apply, h1, check_ok hpos, if_true, check_ok hrg]
    · rw [Function.update_eq_self]
  · have hne : as ++ bs ≠ [] := fun h => h1 (by rw [hz, hlen, h]; rfl)
    obtain ⟨u, hu, hrel, hch, hrg, hsz⟩ := removeEntry_ok dbg hc (.inr ⟨by omega, hne⟩)
    have hmem : e ∉ as ++ bs := fun h => by
      have hn := hc.nodup
      rw [List.nodup_append] at hn
      rcases List.mem_append.1 h with h | h
      · exact hn.2.2 e h e List.mem_cons_self rfl
      · exact (List.nodup_cons.1 hn.2.1).1 h
    obtain ⟨t, ht, hrel', hch', hsz'⟩ := insertMRU_ok dbg hch
      (by rw [hsz, hz, hlen]; exact List.length_eq_zero_iff) hrg hmem
    have hrg' := hc.not_isRouge hne
    refine ⟨t, ?_, ⟨?_, ?_, ?_⟩, hch', ?_⟩
    · simp only [moveMRU, Fallible.bind_apply, Fallible.get_apply, check_ok hpos, h1, if_false, check_ok hrg', hu,
        ht]
    · rw [hrel'.eq, hrel.eq]; simp only [Function.update_idem, Function.update_self]
    · intro z hz'
      rw [hrel'.prev z ?_, hrel.prev z hz']
      simpa [not_or, and_comm, and_left_comm] using hz'
    · intro z hz'
      rw [hrel'.next z ?_, hrel.next z hz']
      simpa [not_or, and_comm, and_left_comm] using hz'
    · rw [hsz', if_neg hne, hsz, Nat.mod_eq_of_lt (by omega)]; omega

/-- The pool after a hit of `e`; `xs` and `ys` were the nodes of `T1` and `T2`. -/
structure Hit (s t : BufferManager β) (e : Nat) (xs ys xs' ys' : List Nat) : Prop where
  eq : t = { s.withState e { s.state e with isFrequencyList := true } with
    prev := t.prev, next := t.next, lists := t.lists }
  lists : ∀ l, l ≠ .T1 → l ≠ .T2 → t.lists l = s.lists l
  links : ∀ z, z ∉ xs → z ∉ ys → t.prev z = s.prev z ∧ t.next z = s.next z
  recent : t.Chain .T1 xs'
  frequent : t.Chain .T2 ys'
  sizeT1 : (t.lists .T1).size = xs'.length
  sizeT2 : (t.lists .T2).size = ys'.length
  memT1 : ∀ z, z ∈ xs' ↔ z ∈ xs ∧ z ≠ e
  memT2 : ∀ z, z ∈ ys' ↔ z ∈ ys ∨ z = e
  length : xs'.length + ys'.length = xs.length + ys.length

section
variable {r : Nat} {tv io d dv : Bool} (hx : s.Chain .T1 xs) (hy : s.Chain .T2 ys)
  (hsx : (s.lists .T1).size = xs.length) (hsy : (s.lists .T2).size = ys.length)
  (hlt : xs.length + ys.length < counter) (hd : ∀ z ∈ xs, z ∉ ys)

include hx hy hsx hsy hlt hd

theorem hit_recent (dbg : Bool) (hs : s.state e = ⟨r, false, tv, true, false, io, d, dv⟩) (he : e ∈ xs) :
    ∃ t xs' ys', handleCacheHit dbg e s = (.ok (), t) ∧ Hit s t e xs ys xs' ys' := by
  obtain ⟨as, bs, rfl⟩ := List.append_of_mem he
  have hmem : e ∉ as ++ bs := fun h => by
    have hn := List.nodup_append.1 hx.nodup
    rcases List.mem_append.1 h with h | h
    · exact hn.2.2 e h e List.mem_cons_self rfl
    · exact (List.nodup_cons.1 hn.2.1).1 h
  let v := s.withState e ⟨r, true, tv, true, false, io, d, dv⟩
  obtain ⟨u, hu, hrel, hch, hrg, hsz⟩ := removeEntry_ok dbg (show v.Chain .T1 (as ++ e :: bs) from hx) (by
    show (s.lists .T1).size = 1 ∧ _ ∨ 2 ≤ (s.lists .T1).size ∧ _
    rw [hsx, ← List.length_eq_zero_iff, ne_eq, ← List.length_eq_zero_iff]
    simp only [List.length_append, List.length_cons]; omega)
  have hyu : u.Chain .T2 ys := hrel.chain (by decide) hy fun z hz hz' => hd z hz' hz
  have hsyu : (u.lists .T2).size = ys.length := by rw [hrel.lists (by decide)]; exact hsy
  obtain ⟨t, ht, hrel', hch', hsz'⟩ := insertMRU_ok dbg hyu (by rw [hsyu, List.length_eq_zero_iff]) hrg (hd e he)
  have hte : t.state e = ⟨r, true, tv, true, false, io, d, dv⟩ := by
    rw [hrel'.state, hrel.state]; exact Function.update_self ..
  have hlock : lockEntry e s = (.ok ⟨r, true, tv, true, false, io, d, dv⟩, v) := by
    conv_lhs => rw [← withState_eq hs]
    exact lockEntry_with
  refine ⟨t.withState e ⟨r, false, tv, true, true, io, d, dv⟩, as ++ bs, e :: ys, ?_, ?_⟩
  · simp only [handleCacheHit, Fallible.bind_apply, getState_apply, hs, check_true, Bool.false_eq_true, if_false,
      hlock, Bool.not_true, Bool.and_false, Bool.not_false, if_true, hu, ht, hte, setState_apply, unlockEntry_with]
  · refine ⟨?_, fun l h1 h2 => ?_, fun z h1 h2 => ?_, ?_, hch', ?_, ?_, fun z => ?_, fun z => ?_, ?_⟩
    · simp only [withState]
      rw [hrel'.eq]
      simp only
      rw [hrel.eq]
      simp only [v, withState, Function.update_idem, hs]
    · exact (hrel'.lists h2).trans (hrel.lists h1)
    · have h3 : z ∉ e :: ys := by
        rw [List.mem_cons, not_or]; exact ⟨fun h => h1 (by simp [h]), h2⟩
      exact ⟨(hrel'.prev z h3).trans (hrel.prev z h1), (hrel'.next z h3).trans (hrel.next z h1)⟩
    · refine hrel'.chain (by decide) hch fun z hz hz' => ?_
      rcases List.mem_cons.1 hz' with rfl | hz'
      · exact hmem hz
      · exact hd z (by simp only [List.mem_append, List.mem_cons] at hz ⊢; tauto) hz'
    · show (t.lists .T1).size = _
      rw [hrel'.lists (by decide), hsz]
      show (s.lists .T1).size - 1 = _
      rw [hsx]; simp only [List.length_append, List.length_cons]; omega
    · show (t.lists .T2).size = _
      rw [hsz', hsyu]
      split
      · rename_i h; rw [h]; rfl
      · simp only [List.length_append, List.length_cons] at hlt ⊢; exact Nat.mod_eq_of_lt (by omega)
    · have : z ∈ as ++ bs → z ≠ e := fun h h' => hmem (h' ▸ h)
      simp only [List.mem_append, List.mem_cons] at this ⊢; tauto
    · simp only [List.mem_cons]; tauto
    · simp only [List.length_append, List.length_cons]; omega

theorem hit_frequent (dbg : Bool) (hs : s.state e = ⟨r, false, tv, true, true, io, d, dv⟩) (he : e ∈ ys) :
    ∃ t xs' ys', handleCacheHit dbg e s = (.ok (), t) ∧ Hit s t e xs ys xs' ys' := by
  obtain ⟨as, bs, rfl⟩ := List.append_of_mem he
  let v := s.withState e ⟨r, true, tv, true, true, io, d, dv⟩
  obtain ⟨t, ht, hrel, hch, hsz⟩ := moveMRU_ok dbg (show v.Chain .T2 (as ++ e :: bs) from hy) hsy
    (by show (s.lists .T2).size < _; omega)
  have hte : t.state e = ⟨r, true, tv, true, true, io, d, dv⟩ := by rw [hrel.state]; exact Function.update_self ..
  have hlock : lockEntry e s = (.ok ⟨r, true, tv, true, true, io, d, dv⟩, v) := by
    conv_lhs => rw [← withState_eq hs]
    exact lockEntry_with
  have hunlock : unlockEntry dbg e t = (.ok (), t.withState e ⟨r, false, tv, true, true, io, d, dv⟩) := by
    conv_lhs => rw [← withState_eq hte]
    exact unlockEntry_with
  have hmem : ∀ z, z ∈ e :: (as ++ bs) ↔ z ∈ as ++ e :: bs := fun z => by
    simp only [List.mem_append, List.mem_cons]; tauto
  refine ⟨t.withState e ⟨r, false, tv, true, true, io, d, dv⟩, xs, e :: (as ++ bs), ?_, ?_⟩
  · simp only [handleCacheHit, Fallible.bind_apply, getState_apply, hs, check_true, if_true, hlock, Bool.and_self,
      ht, hunlock]
  · refine ⟨?_, fun l _ h2 => hrel.lists h2, fun z _ h2 => ⟨hrel.prev z h2, hrel.next z h2⟩, ?_, hch, ?_, ?_,
      fun z => ?_, fun z => ?_, ?_⟩
    · simp only [withState]
      rw [hrel.eq]
      simp only [v, withState, Function.update_idem, hs]
    · exact hrel.chain (by decide) hx hd
    · show (t.lists .T1).size = _
      rw [hrel.lists (by decide)]; exact hsx
    · show (t.lists .T2).size = _
      rw [hsz]
      show (s.lists .T2).size = _
      rw [hsy]; simp only [List.length_append, List.length_cons]; omega
    · exact ⟨fun h => ⟨h, fun h' => hd z h (h' ▸ he)⟩, fun h => h.1⟩
    · rw [hmem]
      exact ⟨.inl, fun h => h.elim id fun h' => h' ▸ he⟩
    · simp only [List.length_append, List.length_cons]; omega

theorem getBuffer_hit {fl : Bool} (dbg : Bool) (hm : s.map tag = some e)
    (hs : s.state e = ⟨r, false, tv, true, fl, io, d, true⟩) (hr : r + 1 < 2 ^ 20) (hb : s.buffer e = some b)
    (he : if fl then e ∈ ys else e ∈ xs) : ∃ t xs' ys', getBuffer dbg tag s = (.ok (s.tag e, e), t) ∧
      Hit (s.withState e ⟨r + 1, false, tv, true, fl, io, d, true⟩) t e xs ys xs' ys' := by
  let v := s.withState e ⟨r + 1, false, tv, true, fl, io, d, true⟩
  have hpin : pin dbg e s = (.ok (), v) := by
    conv_lhs => rw [← withState_eq hs]
    exact pin_with hr
  have hv : v.state e = ⟨r + 1, false, tv, true, fl, io, d, true⟩ := Function.update_self ..
  obtain ⟨t, xs', ys', ht, hhit⟩ : ∃ t xs' ys', handleCacheHit dbg e v = (.ok (), t) ∧ Hit v t e xs ys xs' ys' := by
    cases fl with
    | false => exact hit_recent (s := v) hx hy hsx hsy hlt hd dbg hv he
    | true => exact hit_frequent (s := v) hx hy hsx hsy hlt hd dbg hv he
  refine ⟨t, xs', ys', ?_, hhit⟩
  have hts : t.state e = ⟨r + 1, false, tv, true, true, io, d, true⟩ := by
    rw [hhit.eq]; simp only [withState, Function.update_self, hv]
  have htb : t.buffer e = some b := by rw [hhit.eq]; exact hb
  have htag : t.tag e = s.tag e := by rw [hhit.eq]; rfl
  have hp : (t.state e).pinned = true := by
    rw [hts]; simp only [EntryState.pinned, bne_iff_ne]; omega
  have hmk := makeBufferPin_ok dbg (by rw [hts]) hp htb
  have hlock : lockEntry e v = _ := lockEntry_with
  have hunlock : unlockEntry dbg e (s.withState e ⟨r + 1, true, tv, true, fl, io, d, true⟩) = (.ok (), v) :=
    unlockEntry_with
  simp only [getBuffer, findEntry, Fallible.bind_apply, Fallible.get_apply, hm, hpin, Fallible.pure_apply,
    Bool.not_false,
    if_true, handleHit, hlock, hunlock, getState_apply, hv, ht, htb, Option.isSome_some, check_true, hts, hmk, htag]

end

end BufferManager

end Mimidb
