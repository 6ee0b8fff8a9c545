import Mimidb.BufferAvailable
import Mimidb.BufferWalks
import Mimidb.DirtyState

/-!
# The capacity of the pool

With no file operation that fails: a full pool gives out no entry, since
`PopTail` takes none from a free list that is counted as empty
(`search_full`), and with room for one more page `ExtendRelation` adds one, as
far as no assertion notices that it pushes the new entry twice (`extend`).
-/

namespace Mimidb

namespace BufferManager

variable {β : Type} {dbg fl d f : Bool} {s t : BufferManager β} {e b top relid : Nat} {l : ListId}
  {xs as bs : List Nat}
  {tag : PageTag}

/-! ## A page to replace -/

theorem flushBuffer_quiet (dbg fl d : Bool) (r : Nat) (hb : s.buffer e = some b) (h : s.io = [])
    (hp : (s.tag e).pageno ≠ PageNumber.Invalid) :
    ∃ disk size, flushBuffer dbg e (s.withState e ⟨r, false, true, true, fl, false, d, true⟩) =
      (.ok (), ({ s with disk := disk, fileSize := size } : BufferManager β).withState e
        ⟨r, false, true, true, fl, false, false, true⟩) := by
  cases d with
  | false => exact ⟨_, _, flushBuffer_clean dbg r true true fl true⟩
  | true => exact ⟨_, _, flushBuffer_writes dbg r true true fl true hb h hp⟩

theorem insertMRU_empty (dbg : Bool) (hz : (s.lists l).size = 0) :
    insertMRU dbg l e s = (.ok (), { s with lists := Function.update s.lists l ⟨some e, some e, 1⟩ }) ∨
    dbg = true ∧ insertMRU dbg l e s = (.error .assertion, s) := by
  cases hr : s.isRouge e with
  | true => exact .inl (by simp [insertMRU, Fallible.bind_apply, hr, hz, setList])
  | false =>
    cases dbg with
    | false => exact .inl (by simp [insertMRU, Fallible.bind_apply, hz, setList, check, Fallible.ofExcept, assert])
    | true => exact .inr ⟨rfl, by simp [insertMRU, Fallible.bind_apply, hr, check, Fallible.ofExcept, assert]⟩

/-- A page with no pin is vacated; a build with assertions may stop since it is still linked in its top list. -/
theorem tryVacateEntry_unpinned (hst : s.state e = ⟨0, false, true, true, fl, false, d, true⟩)
    (hb : s.buffer e = some b) (hio : s.io = []) (hp : (s.tag e).pageno ≠ PageNumber.Invalid)
    (hz : (s.lists (ghostList f)).size = 0) :
    (tryVacateEntry dbg e f s).1 = .ok true ∨ dbg = true ∧ (tryVacateEntry dbg e f s).1 = .error .assertion := by
  obtain ⟨disk, size, hflush⟩ := flushBuffer_quiet dbg fl d 1 hb hio hp
  let v : BufferManager β := { s with disk := disk, fileSize := size }
  have hlock : lockEntry e s = (.ok ⟨0, true, true, true, fl, false, d, true⟩,
      s.withState e ⟨0, true, true, true, fl, false, d, true⟩) := by
    conv_lhs => rw [← withState_eq hst]
    exact lockEntry_with
  have hpin : pin dbg e (s.withState e ⟨0, true, true, true, fl, false, d, true⟩) =
      (.ok (), s.withState e ⟨1, true, true, true, fl, false, d, true⟩) := by
    simp [pin, Fallible.bind_apply, EntryState.refMask]
  have hatt : attached dbg e (v.withState e ⟨1, true, true, true, fl, false, false, true⟩) = (.ok b, _) :=
    attached_ok hb
  let w : BufferManager β := { v with buffer := Function.update s.buffer e none }
  have hunpin : unpin dbg e (w.withState e ⟨1, true, true, true, fl, false, false, true⟩) =
      (.ok (), w.withState e ⟨0, true, true, true, fl, false, false, true⟩) := by
    simp [unpin, Fallible.bind_apply, EntryState.pinned]
  have hfree : EntryState.pinned ⟨0, true, true, true, fl, false, d, true⟩ = false := rfl
  have hone : ¬ 1 % 2 ^ 20 ≠ 1 := by decide
  rw [tryVacateEntry, Fallible.bind_ok hlock, hfree, if_neg (by simp), Fallible.bind_ok hpin,
    Fallible.bind_ok unlockEntry_with, Fallible.bind_ok hflush, Fallible.bind_ok lockEntry_with,
    Fallible.bind_ok unlockEntry_with, if_neg hone, Fallible.bind_ok lockEntry_with, Fallible.bind_ok hatt,
    Fallible.bind_ok (show setBuffer e none (v.withState e ⟨1, true, true, true, fl, false, false, true⟩) =
    (.ok (), w.withState e _) from rfl),
    Fallible.bind_ok hunpin, Fallible.bind_ok (getState_apply ..), Fallible.bind_ok (setState_apply ..)]
  rcases insertMRU_empty dbg (e := e) (l := ghostList f)
    (s := (w.withState e ⟨0, true, true, true, fl, false, false, true⟩).withState e
      { (w.withState e ⟨0, true, true, true, fl, false, false, true⟩).state e with
        isTopList := false, isFrequencyList := f }) hz with hins | ⟨hd, hins⟩
  · rw [ghostList] at hins
    rw [Fallible.bind_ok hins]
    left
    simp [unlockEntry, Fallible.bind_apply]
  · rw [ghostList] at hins
    rw [Fallible.bind_error hins]
    exact .inr ⟨hd, rfl⟩

theorem vacateFrom_ends {as : List Nat} {n : Option Nat} {fuel : Nat} (hseg : Segment s.prev s.next none as n)
    (hlen : as.length ≤ fuel) (hv : ∀ x ∈ as, tryVacateEntry dbg x f s = (.ok false, s) ∨
      (tryVacateEntry dbg x f s).1 = .ok true ∨ dbg = true ∧ (tryVacateEntry dbg x f s).1 = .error .assertion) :
    (vacateFrom dbg f fuel as.getLast? s).1 = .ok () ∨ dbg = true ∧
    (vacateFrom dbg f fuel as.getLast? s).1 = .error .assertion := by
  induction as using List.reverseRecOn generalizing n fuel with
  | nil => cases fuel <;> exact .inl rfl
  | append_singleton as x ih =>
    obtain ⟨has, hx, -⟩ := Segment.append.1 hseg
    rw [Option.or_none] at hx
    rw [List.length_append] at hlen
    rw [List.getLast?_concat]
    cases fuel with
    | zero => exact absurd hlen (by simp)
    | succ fuel =>
      rw [vacateFrom]
      rcases hv x (by simp) with h | h | ⟨hd, h⟩
      · rw [Fallible.bind_ok h, if_neg (by simp), Fallible.bind_ok (Fallible.get_apply s), hx]
        exact ih has (Nat.le_of_succ_le_succ hlen) fun y hy => hv y (List.mem_append_left _ hy)
      · obtain ⟨u, hu⟩ : ∃ u, tryVacateEntry dbg x f s = (.ok true, u) := ⟨_, Prod.ext h rfl⟩
        rw [Fallible.bind_ok hu]
        exact .inl rfl
      · obtain ⟨u, hu⟩ : ∃ u, tryVacateEntry dbg x f s = (.error .assertion, u) := ⟨_, Prod.ext h rfl⟩
        rw [Fallible.bind_error hu]
        exact .inr ⟨hd, rfl⟩

theorem search_bind_error {α : Type} {err : Fault} {u : BufferManager β} (h : search dbg s = (.error err, u))
    (k : Option Nat → PoolM β α) :
    (preinsertCleanup dbg >>= fun _ => evictCacheEntry dbg >>= k) s = (.error err, u) := by
  have hbind := Fallible.bind_error (f := k) h
  rwa [search, Fallible.bind_bind] at hbind

/-! ## Extensions -/

theorem insertMRU_again (dbg : Bool) (hz : (s.lists l).size ≠ 0) (hh : (s.lists l).head = some top) :
    (∃ prev next list, insertMRU dbg l e s =
      (.ok (), { s with prev := prev, next := next, lists := Function.update s.lists l list })) ∨
    dbg = true ∧ insertMRU dbg l e s = (.error .assertion, s) := by
  have hgo : insertMRU false l e s = (.ok (), { s with
      prev := Function.update s.prev top (some e), next := Function.update s.next e (some top)
      lists := Function.update s.lists l ⟨some e, (s.lists l).tail, ((s.lists l).size + 1) % counter⟩ }) := by
    simp [insertMRU, Fallible.bind_apply, check, Fallible.ofExcept, assert, hz, hh, setLinks, setList]
  cases dbg with
  | false => exact .inl ⟨_, _, _, hgo⟩
  | true =>
    cases hr : s.isRouge e with
    | false => exact .inr ⟨rfl, by simp [insertMRU, Fallible.bind_apply, hr, check, Fallible.ofExcept, assert]⟩
    | true =>
      refine .inl ⟨_, _, _, Eq.trans ?_ hgo⟩
      simp [insertMRU, Fallible.bind_apply, hr, check, Fallible.ofExcept, assert]

/-- The new entry of an extension is a node of `T1` twice then, which a build with assertions may notice. -/
theorem extendEntry_ends (dbg : Bool) (tag : PageTag) (hs : s.state e = .empty) (hb : s.freeBuffers = b :: bs)
    (hc : s.Chain .T1 xs) (hz : (s.lists .T1).size = xs.length) (hlt : xs.length + 1 < counter)
    (hr : s.isRouge e = true) (he : e ∉ xs) :
    (∃ prev next lists, extendEntry dbg tag e s = (.ok (), { s with
      tag := Function.update s.tag e tag
      state := Function.update s.state e ⟨1, false, true, true, false, true, false, false⟩
      buffer := Function.update s.buffer e (some b)
      freeBuffers := bs, prev := prev, next := next, lists := lists })) ∨
    dbg = true ∧ (extendEntry dbg tag e s).1 = .error .assertion := by
  let w : BufferManager β := { s with tag := Function.update s.tag e tag }
  let v : BufferManager β := { w with buffer := Function.update s.buffer e (some b), freeBuffers := bs }
  have hpin : pin dbg e (w.withState e ⟨0, false, true, false, false, false, false, false⟩) =
      (.ok (), w.withState e ⟨1, false, true, false, false, false, false, false⟩) := pin_with (by decide)
  have htake : takeFreeBuffer (w.withState e ⟨1, false, true, false, false, false, false, false⟩) =
      (.ok (some b),
        { w.withState e ⟨1, false, true, false, false, false, false, false⟩ with freeBuffers := bs }) := by
    simp [takeFreeBuffer, Fallible.bind_apply, w, hb]
  obtain ⟨t, ht, hrel, hch, hsz⟩ :=
    insertMRU_ok dbg (s := v.withState e ⟨1, false, true, false, false, false, false, false⟩)
    (l := .T1) (e := e) hc (by show (s.lists .T1).size = 0 ↔ _; rw [hz, List.length_eq_zero_iff]) hr he
  have hte : t.state e = ⟨1, false, true, false, false, false, false, false⟩ := by
    rw [hrel.state]
    exact Function.update_self ..
  have hsize : ((t.withState e ⟨1, true, true, true, false, false, false, false⟩).lists .T1).size ≠ 0 := by
    show (t.lists .T1).size ≠ 0
    rw [hsz]
    split
    · decide
    · show ((s.lists .T1).size + 1) % counter ≠ 0
      rw [hz, Nat.mod_eq_of_lt hlt]
      omega
  have hhead : ((t.withState e ⟨1, true, true, true, false, false, false, false⟩).lists .T1).head = some e :=
    hch.head
  have hfirst : check dbg (!((s.state e).dataValid || (s.state e).tagValid || (s.state e).dirty)) s = (.ok (), s) :=
    check_ok (by rw [hs]; rfl)
  have hset : setState e { s.state e with tagValid := true } w =
      (.ok (), w.withState e ⟨0, false, true, false, false, false, false, false⟩) := by
    rw [hs]
    rfl
  have hbuf : setBuffer e (some b)
    ({ w.withState e ⟨1, false, true, false, false, false, false, false⟩ with freeBuffers := bs } : BufferManager
      β) =
      (.ok (), v.withState e ⟨1, false, true, false, false, false, false, false⟩) := rfl
  have hrun : extendEntry dbg tag e s = (do
      insertMRU dbg .T1 e
      unlockEntry dbg e
      let started ← shouldStartIo dbg e true
      check dbg started) (t.withState e ⟨1, true, true, true, false, false, false, false⟩) := by
    rw [extendEntry, Fallible.bind_ok getState_apply, Fallible.bind_ok hfirst,
      Fallible.bind_ok (show (modify fun s => { s with tag := Function.update s.tag e tag } : PoolM β Unit) s =
      (.ok (), w) from rfl), Fallible.bind_ok hset, Fallible.bind_ok hpin, Fallible.bind_ok htake]
    simp only
    rw [Fallible.bind_ok hbuf, Fallible.bind_ok ht, Fallible.bind_ok getState_apply, hte,
      Fallible.bind_ok (setState_apply _), Fallible.bind_ok lockEntry_with]
  rw [hrun]
  rcases insertMRU_again dbg (e := e) hsize hhead with ⟨prev, next, list, hins⟩ | ⟨hd, hins⟩
  · left
    let x : BufferManager β := { t with prev := prev, next := next, lists := Function.update t.lists .T1 list }
    have hx : insertMRU dbg .T1 e (t.withState e ⟨1, true, true, true, false, false, false, false⟩) =
      (.ok (), x.withState e ⟨1, true, true, true, false, false, false, false⟩) := hins
    refine ⟨x.prev, x.next, x.lists, ?_⟩
    rw [Fallible.bind_ok hx, Fallible.bind_ok unlockEntry_with, Fallible.bind_ok shouldStartIo_with, check_true]
    simp only [withState, x]
    rw [hrel.eq]
    simp only [withState, Function.update_idem, v, w]
  · exact .inr ⟨hd, by rw [Fallible.bind_error hins]⟩

theorem writeExtension_ok [Inhabited β] (dbg : Bool) (hio : s.io = []) (hp : tag.pageno ≠ PageNumber.Invalid)
    (hb : s.buffer e = some b) (ht : s.tag e = tag)
    (hs : s.state e = ⟨1, false, true, true, false, true, false, false⟩) :
    writeExtension dbg tag e s = (.ok (tag, e), { s with
      state := Function.update s.state e ⟨1, false, true, true, false, false, false, true⟩
      contents := Function.update s.contents b default
      disk := Function.update s.disk ⟨tag.relid, offset tag / Config.PageSize⟩ default
      fileSize :=
        Function.update s.fileSize tag.relid (max (s.fileSize tag.relid) (offset tag + Config.PageSize)) }) := by
  have hatt : attached dbg e s = (.ok b, s) := attached_ok hb
  let v : BufferManager β := { s with
    disk := Function.update s.disk ⟨tag.relid, offset tag / Config.PageSize⟩ default
    fileSize := Function.update s.fileSize tag.relid (max (s.fileSize tag.relid) (offset tag + Config.PageSize)) }
  have hwrite : writePage tag default s = (.ok (), v) := writePage_quiet hio hp
  let w : BufferManager β := { v with contents := Function.update s.contents b default }
  have hterm : terminateBufferIo dbg e false true w =
      (.ok (), w.withState e ⟨1, false, true, true, false, false, false, true⟩) := by
    conv_lhs => rw [← withState_eq (show w.state e = _ from hs)]
    exact terminateBufferIo_with dbg false true hb
  have hpin := makeBufferPin_ok (s := w.withState e ⟨1, false, true, true, false, false, false, true⟩) (e := e) dbg
    (by simp) (by simp [EntryState.pinned]) hb
  rw [writeExtension, Fallible.bind_ok hatt]
  simp only [Fallible.bind_apply, Fallible.tryCatch_apply, hwrite, Fallible.modify_apply]
  have hterm' :
    terminateBufferIo dbg e false true { v with contents := Function.update v.contents b default } = _ := hterm
  rw [hterm']
  simp only [hpin]
  rw [show (w.withState e ⟨1, false, true, true, false, false, false, true⟩).tag e = tag from ht]
  rfl

/-- The pool after an extension of a relation by the page `tag`. -/
structure Extended [Inhabited β] (s t : BufferManager β) (tag : PageTag) (e b : Nat) : Prop where
  npages : t.npages = s.npages
  state : t.state e = ⟨1, false, true, true, false, false, false, true⟩
  map : t.map = Function.update s.map tag (some e)
  buffer : t.buffer = Function.update s.buffer e (some b)
  contents : t.contents = Function.update s.contents b default
  disk : t.disk = Function.update s.disk ⟨tag.relid, offset tag / Config.PageSize⟩ default
  fileSize :
    t.fileSize = Function.update s.fileSize tag.relid (max (s.fileSize tag.relid) (offset tag + Config.PageSize))

theorem Room.extendRelation [Inhabited β] (dbg : Bool) (h : Room s e b xs as bs) (hio : s.io = [])
    (ht : tag = ⟨relid, s.fileSize relid / Config.PageSize % counter⟩) (hm : s.map tag = none)
    (hp : tag.pageno ≠ PageNumber.Invalid) :
    (∃ u, extendRelation dbg relid s = (.ok (tag, e), u) ∧ Extended s u tag e b) ∨
      dbg = true ∧ (extendRelation dbg relid s).1 = .error .assertion := by
  obtain ⟨t, hevict, hrel, hfree, hrg, hsz⟩ := h.evictCacheEntry_ok dbg
  let w : BufferManager β := { t with map := Function.update t.map tag (some e) }
  have hq := h.quiet
  have hn := h.small
  have hsize := h.sizeT1
  have hstate : w.state e = .empty := (congrFun hrel.state e).trans h.fresh
  have hbufs : w.freeBuffers = b :: bs := by
    show t.freeBuffers = _
    rw [hrel.eq]
    exact h.buffers
  have hchain : w.Chain .T1 xs := hrel.chain (by decide) h.recent fun z hz hz' => h.apart z hz' hz
  have hsizeT1 : (w.lists .T1).size = xs.length := by
    show (t.lists .T1).size = _
    rw [hrel.lists (by decide), hsize]
  have htio : t.io = [] := by
    rw [hrel.eq]
    exact hio
  have htag : ⟨relid, t.fileSize relid / Config.PageSize % counter⟩ = tag := by
    rw [ht, hrel.eq]
  have hmap : t.map tag = none := by
    rw [hrel.eq]
    exact hm
  by_cases hrelid : decide (relid ≠ 0) = true ∨ dbg = false
  · have hcheck : check dbg (decide (relid ≠ 0)) s = (.ok (), s) := by
      rcases hrelid with hr | rfl
      · exact check_ok hr
      · rfl
    have hrun : BufferManager.extendRelation dbg relid s = (do
        extendEntry dbg tag e
        writeExtension dbg tag e) w := by
      rw [BufferManager.extendRelation, Fallible.bind_ok hcheck, Fallible.bind_ok h.preinsertCleanup_ok,
        Fallible.bind_ok hevict]
      simp only
      rw [Fallible.bind_ok (nextIo_quiet htio), Fallible.bind_ok (Fallible.get_apply t), htag]
      simp only [Fallible.bind_apply, Fallible.get_apply, hmap, Fallible.modify_apply]
      rcases extendEntry dbg tag e w with ⟨_ | _, _⟩ <;> rfl
    rw [hrun]
    rcases extendEntry_ends dbg tag hstate hbufs hchain hsizeT1 (by omega) hrg (h.apart e (by simp)) with
      ⟨prev, next, lists, hext⟩ | ⟨hd, hext⟩
    · left
      let x : BufferManager β := { w with
        tag := Function.update w.tag e tag
        state := Function.update w.state e ⟨1, false, true, true, false, true, false, false⟩
        buffer := Function.update w.buffer e (some b)
        freeBuffers := bs, prev := prev, next := next, lists := lists }
      have hwrite :=
        writeExtension_ok (s := x) (e := e) (b := b) dbg htio hp (Function.update_self ..) (Function.update_self ..)
        (Function.update_self ..)
      rw [Fallible.bind_ok (show extendEntry dbg tag e w = (.ok (), x) from hext), hwrite]
      refine ⟨_, rfl, ?_, Function.update_self .., ?_, ?_, ?_, ?_, ?_⟩
      all_goals
        simp only [x, w]
        rw [hrel.eq]
    · rcases hcases : extendEntry dbg tag e w with ⟨r, v⟩
      rw [hcases] at hext
      cases hext
      exact .inr ⟨hd, by rw [Fallible.bind_error hcases]⟩
  · simp only [not_or, Bool.not_eq_true, Bool.not_eq_false] at hrelid
    obtain ⟨hr, rfl⟩ := hrelid
    right
    rw [BufferManager.extendRelation, hr]
    exact ⟨rfl, rfl⟩

end BufferManager

namespace PoolRun

open BufferManager

variable {β : Type} {dbg : Bool} {s : PoolRun β} {t1 t2 fr : List Nat} {tag : PageTag} {e relid : Nat}

theorem CacheInv.preinsertCleanup_full (dbg : Bool) (h : CacheInv s t1 t2 fr)
    (hn : s.pool.npages ≤ t1.length + t2.length) (hpos : 0 < s.pool.npages)
    (io : List Bool) : ∃ l, (l = .T1 ∨ l = .T2) ∧
      BufferManager.preinsertCleanup dbg { s.pool with io := io } = vacateIn dbg l { s.pool with io := io } := by
  have hbuf := h.buffers.2
  have hsmall := h.small
  have hmod1 : (t1.length + 0) % counter = t1.length := Nat.mod_eq_of_lt (by omega)
  have hmod2 : (t1.length + 0 + t2.length + 0) % counter = t1.length + t2.length := Nat.mod_eq_of_lt (by omega)
  have hmod3 : s.pool.npages * 2 % counter = s.pool.npages * 2 := Nat.mod_eq_of_lt hsmall
  rw [preinsertCleanup_eq]
  simp only [forgetList, victimList, h.sizeT1, h.sizeT2, h.ghosts.1, h.ghosts.2, hmod1, hmod2, hmod3]
  have hsum : ¬ (s.pool.npages ≤ t1.length + t2.length ∧ t1.length + t2.length = s.pool.npages * 2) := by omega
  by_cases hfull : s.pool.npages ≤ t1.length
  · simp only [if_pos hfull, if_neg (Nat.not_lt.2 hfull)]
    exact ⟨.T1, .inl rfl, rfl⟩
  · simp only [if_neg hfull, if_neg hsum, if_pos hn]
    exact ⟨_, replaced_top _, rfl⟩

theorem CacheInv.tryVacateEntry (dbg f : Bool) (h : CacheInv s t1 t2 fr)
    (hv : ∀ tag e, s.pool.map tag = some e → tag.pageno ≠ PageNumber.Invalid) (he : e ∈ t1 ∨ e ∈ t2) :
    BufferManager.tryVacateEntry dbg e f { s.pool with io := [] } = (.ok false, { s.pool with io := [] }) ∨
      (BufferManager.tryVacateEntry dbg e f { s.pool with io := [] }).1 = .ok true ∨
      dbg = true ∧ (BufferManager.tryVacateEntry dbg e f { s.pool with io := [] }).1 = .error .assertion := by
  have hh := h.holds he
  obtain ⟨d, hst⟩ := hh.state
  obtain ⟨b, hb, -⟩ := hh.buffer
  have hcount := hh.count
  by_cases hz : s.holders e = 0
  · rw [hz] at hst
    refine .inr (tryVacateEntry_unpinned hst hb rfl (hv _ e hh.map) ?_)
    cases f
    · exact h.ghosts.1
    · exact h.ghosts.2
  · refine .inl (tryVacateEntry_pinned ?_ ?_)
    · show (s.pool.state e).pinned = true
      rw [hst]
      simp only [EntryState.pinned, bne_iff_ne]
      omega
    · show (s.pool.state e).locked = false
      rw [hst]

theorem CacheInv.search_full (dbg : Bool) (h : CacheInv s t1 t2 fr) (hn : s.pool.npages ≤ t1.length + t2.length)
    (hpos : 0 < s.pool.npages) (hv : ∀ tag e, s.pool.map tag = some e → tag.pageno ≠ PageNumber.Invalid) :
    ∃ u, search dbg { s.pool with io := [] } = (.error (noEntry dbg), u) := by
  obtain ⟨e, he, hs⟩ := h.stuck hn hpos []
  have hclean := h.preinsertCleanup dbg hn hpos he hs _ rfl
  obtain ⟨l, hl, hvac⟩ := h.preinsertCleanup_full dbg hn hpos []
  have hbound : t1.length ≤ ({ s.pool with io := [] } : BufferManager β).walkBound ∧
      t2.length ≤ ({ s.pool with io := [] } : BufferManager β).walkBound := by
    have := h.buffers.2
    show t1.length ≤ 2 * s.pool.npages + 1 ∧ t2.length ≤ 2 * s.pool.npages + 1
    omega
  have hends : (BufferManager.preinsertCleanup dbg { s.pool with io := [] }).1 = .ok () ∨
      dbg = true ∧ (BufferManager.preinsertCleanup dbg { s.pool with io := [] }).1 = .error .assertion := by
    rw [hvac, vacateIn, Fallible.bind_ok (Fallible.get_apply _)]
    rcases hl with rfl | rfl
    · rw [show (({ s.pool with io := [] } : BufferManager β).lists .T1).tail = t1.getLast? from h.recent.tail]
      exact vacateFrom_ends h.recent.links hbound.1 fun x hx => h.tryVacateEntry dbg _ hv (.inl hx)
    · rw [show (({ s.pool with io := [] } : BufferManager β).lists .T2).tail = t2.getLast? from h.frequent.tail]
      exact vacateFrom_ends h.frequent.links hbound.2 fun x hx => h.tryVacateEntry dbg _ hv (.inr hx)
  unfold search
  rcases hrun : BufferManager.preinsertCleanup dbg { s.pool with io := [] } with ⟨r, u⟩
  rw [hrun] at hclean hends
  rcases hends with hr | ⟨rfl, hr⟩
  · cases hr
    obtain ⟨v, hpop⟩ := hclean.popTail dbg
    have hevict : evictCacheEntry dbg u = (.error (noEntry dbg), v) := Fallible.bind_error hpop
    exact ⟨v, by rw [Fallible.bind_ok hrun, hevict]⟩
  · cases hr
    exact ⟨u, Fallible.bind_error hrun⟩

theorem CacheInv.extend_full [Inhabited β] (dbg : Bool) (relid : Nat) (h : CacheInv s t1 t2 fr)
    (hn : s.pool.npages ≤ t1.length + t2.length) (hpos : 0 < s.pool.npages)
    (hv : ∀ tag e, s.pool.map tag = some e → tag.pageno ≠ PageNumber.Invalid) :
    ∃ u, extendRelation dbg relid { s.pool with io := [] } = (.error (noEntry dbg), u) := by
  obtain ⟨u, hsearch⟩ := h.search_full dbg hn hpos hv
  by_cases hrelid : dbg = true ∧ relid = 0
  · refine ⟨{ s.pool with io := [] }, ?_⟩
    rw [extendRelation, hrelid.1, hrelid.2]
    rfl
  · have hcheck : check dbg (decide (relid ≠ 0)) { s.pool with io := [] } = (.ok (), { s.pool with io := [] }) := by
      cases dbg with
      | true => exact check_ok (decide_eq_true fun h0 => hrelid ⟨rfl, h0⟩)
      | false => rfl
    exact ⟨u, by rw [extendRelation, Fallible.bind_ok hcheck]; exact search_bind_error hsearch _⟩

/-- A relation gets one more page from a pool with room for it. -/
theorem CacheInv.extend [Inhabited β] (dbg : Bool) (tag : PageTag) (h : CacheInv s t1 t2 fr)
    (hn : t1.length + t2.length < s.pool.npages)
    (ht : tag = ⟨relid, s.pool.fileSize relid / Config.PageSize % counter⟩) (hm : s.pool.map tag = none)
    (hp : tag.pageno ≠ PageNumber.Invalid) :
    (∃ u e b, extendRelation dbg relid { s.pool with io := [] } = (.ok (tag, e), u) ∧ Extended s.pool u tag e b ∧
      (∀ tag', s.pool.map tag' ≠ some e) ∧ ∀ z, s.pool.buffer z ≠ some b) ∨
      dbg = true ∧ (extendRelation dbg relid { s.pool with io := [] }).1 = .error .assertion := by
  obtain ⟨e, b, as, bs, rfl, hroom⟩ := h.room hn []
  rcases hroom.extendRelation dbg rfl ht hm hp with ⟨u, hu, hext⟩ | herr
  · refine .inl
      ⟨u, e, b, hu, ⟨hext.npages, hext.state, hext.map, hext.buffer, hext.contents, hext.disk, hext.fileSize⟩,
      fun tag' hmap => ?_, fun z hz => h.attached z b hz ?_⟩
    · rcases (h.map tag' e hmap).1 with he | he
      · exact h.apart.2.1 e (by simp) he
      · exact h.apart.2.2 e (by simp) he
    · rw [show s.pool.freeBuffers = b :: bs from hroom.buffers]
      exact List.mem_cons_self
  · exact .inr herr

end PoolRun

end Mimidb
