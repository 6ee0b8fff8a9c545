import Mathlib.Data.List.Perm.Lattice
import Mimidb.BufferRun

/-!
# What the pool promises between calls

`PoolInvariant` puts the lists, flags, buffers and the page map of a pool
together. A new pool has it. `PopTail` counts the entry it takes twice, so the
first call that needs an entry breaks it (`consistent_iff`).
-/

namespace Mimidb

namespace ListId

def isTop : ListId → Bool
  | T1 | T2 => true
  | B1 | B2 | FreeList => false

def isFrequency : ListId → Bool
  | T2 | B2 => true
  | T1 | B1 | FreeList => false

end ListId

namespace BufferManager

variable {β : Type} {dbg : Bool} {s t : BufferManager β} {nodes : ListId → List Nat}

/-- `nodes l` are the nodes of the list `l`. -/
structure PoolInvariant (s : BufferManager β) (nodes : ListId → List Nat) : Prop where
  chain : ∀ l, s.Chain l (nodes l)
  size : ∀ l, (s.lists l).size = (nodes l).length
  entry : ∀ l, ∀ e ∈ nodes l, e < s.npages * 2
  one : ∀ e < s.npages * 2, ∃! l, e ∈ nodes l
  flags : ∀ l, ∀ e ∈ nodes l, (s.state e).isTopList = l.isTop ∧ (s.state e).isFrequencyList = l.isFrequency
  buffer : ∀ e < s.npages * 2, (s.buffer e).isSome = true ↔ e ∈ nodes .T1 ∨ e ∈ nodes .T2
  buffers : ∀ b < s.npages,
    (∃! e, e < s.npages * 2 ∧ s.buffer e = some b) ∧ b ∉ s.freeBuffers ∨
    (∀ e < s.npages * 2, s.buffer e ≠ some b) ∧ s.freeBuffers.count b = 1
  map : ∀ tag e, s.map tag = some e ↔ (∃ l, l ≠ .FreeList ∧ e ∈ nodes l) ∧ s.tag e = tag

def Consistent (s : BufferManager β) : Prop := ∃ nodes, PoolInvariant s nodes

/-- The number of nodes of all lists. -/
def total (s : BufferManager β) : Nat :=
  (s.lists .T1).size + (s.lists .T2).size + (s.lists .B1).size + (s.lists .B2).size + (s.lists .FreeList).size

theorem PoolInvariant.total_eq (h : PoolInvariant s nodes) : s.total = s.npages * 2 := by
  let all := nodes .T1 ++ (nodes .T2 ++ (nodes .B1 ++ (nodes .B2 ++ nodes .FreeList)))
  have hex : ∀ {l l' e}, e ∈ nodes l → e ∈ nodes l' → l = l' := fun {l l' e} hl hl' =>
    (h.one e (h.entry l e hl)).unique hl hl'
  have hdis : ∀ {l l'}, l ≠ l' → ∀ a ∈ nodes l, ∀ b ∈ nodes l', a ≠ b := fun hne a ha b hb hab =>
    hne (hex ha (hab ▸ hb))
  have hnd : all.Nodup := by
    simp only [all, List.nodup_append, List.mem_append]
    have hc := fun l => (h.chain l).nodup
    refine ⟨hc _, ⟨hc _, ⟨hc _, ⟨hc _, hc _, hdis (by decide)⟩, ?_⟩, ?_⟩, ?_⟩
    · rintro a ha b (hb | hb) <;> exact hdis (by decide) a ha b hb
    · rintro a ha b (hb | hb | hb) <;> exact hdis (by decide) a ha b hb
    · rintro a ha b (hb | hb | hb | hb) <;> exact hdis (by decide) a ha b hb
  have hperm : all.Perm (List.range (s.npages * 2)) := by
    refine (List.perm_ext_iff_of_nodup hnd List.nodup_range).2 fun e => ?_
    rw [List.mem_range]
    constructor
    · simp only [all, List.mem_append]
      rintro (he | he | he | he | he) <;> exact h.entry _ e he
    · intro he
      obtain ⟨l, hl, -⟩ := h.one e he
      cases l <;> simp only [all, List.mem_append, hl, true_or, or_true]
  have hlen := hperm.length_eq
  simp only [all, List.length_append, List.length_range] at hlen
  simp only [total, h.size]
  omega

/-! ## A new pool -/

section
variable [Inhabited β] {npages : Nat} {disk : PageTag → β} {fileSize : Nat → Nat} (h : Fresh s npages disk fileSize)

include h

theorem Fresh.npages_eq : s.npages = npages := by rw [h.eq]; rfl

theorem Fresh.state_eq (e : Nat) : s.state e = .empty := by rw [h.eq]; rfl

theorem Fresh.buffer_eq (e : Nat) : s.buffer e = none := by rw [h.eq]; rfl

theorem Fresh.map_eq (tag : PageTag) : s.map tag = none := by rw [h.eq]; rfl

theorem Fresh.freeBuffers_eq : s.freeBuffers = (List.range npages).reverse := by rw [h.eq]

def freshNodes (npages : Nat) : ListId → List Nat
  | .FreeList => (List.range (npages * 2)).reverse
  | _ => []

theorem Fresh.invariant : PoolInvariant s (freshNodes npages) where
  chain l := by
    cases l
    case FreeList => exact h.chain
    all_goals
      unfold Chain
      rw [h.lists _ (by decide)]
      exact .empty
  size l := by
    cases l
    case FreeList => rw [h.size]; simp [freshNodes]
    all_goals rw [h.lists _ (by decide)]; rfl
  entry l e he := by
    rw [h.npages_eq]
    cases l <;> simp [freshNodes] at he
    exact he
  one e he := by
    rw [h.npages_eq] at he
    refine ⟨.FreeList, by simp [freshNodes, he], fun l hl => ?_⟩
    cases l <;> simp [freshNodes] at hl ⊢
  flags l e he := by
    rw [h.state_eq]
    cases l <;> simp [freshNodes] at he
    exact ⟨rfl, rfl⟩
  buffer e _ := by simp [h.buffer_eq, freshNodes]
  buffers b hb := by
    rw [h.npages_eq] at hb
    refine .inr ⟨fun e _ => by simp [h.buffer_eq], ?_⟩
    rw [h.freeBuffers_eq, List.count_reverse]
    exact List.count_eq_one_of_mem List.nodup_range (List.mem_range.2 hb)
  map tag e := by
    rw [h.map_eq]
    refine ⟨fun h => (nomatch h), fun ⟨⟨l, hl, he⟩, _⟩ => ?_⟩
    cases l <;> simp [freshNodes] at he hl

theorem Fresh.room (hn : npages ≠ 0) (io : List Bool) :
    ∃ e b as bs, Room { s with io := io } e b [] as bs := by
  obtain ⟨n, rfl⟩ := Nat.exists_eq_succ_of_ne_zero hn
  have hrev : (List.range ((n + 1) * 2)).reverse =
      ((List.range (n * 2 + 1)).map Nat.succ).reverse ++ [0] := by
    rw [show (n + 1) * 2 = n * 2 + 1 + 1 by omega, List.range_succ_eq_map, List.reverse_cons]
  have hbuf : (List.range (n + 1)).reverse = n :: (List.range n).reverse := by
    rw [List.range_succ, List.reverse_append]; rfl
  have hlist := fun l (hl : l ≠ .FreeList) => h.lists l hl
  have hsmall := h.small
  refine ⟨0, n, ((List.range (n * 2 + 1)).map Nat.succ).reverse, (List.range n).reverse, ?_⟩
  refine ⟨hrev ▸ h.chain, by simp, ?_, h.state_eq 0, h.buffer_eq 0, ?_, ?_, fun _ _ => List.not_mem_nil, ?_, ?_, ?_⟩
  · show 2 ≤ (s.lists .FreeList).size ∧ (s.lists .FreeList).size < counter
    rw [h.size]; simp only [counter]; omega
  · show Linked s.prev s.next (s.lists .T1).head (s.lists .T1).tail []
    rw [hlist _ (by decide)]
    exact .empty
  · show (s.lists .T1).size = 0
    rw [hlist _ (by decide)]
  · rw [← hbuf]; exact h.freeBuffers_eq
  · show (s.lists .T1).size + (s.lists .B1).size + (s.lists .T2).size + (s.lists .B2).size < s.npages
    simp only [hlist .T1 (by decide), hlist .B1 (by decide), hlist .T2 (by decide), hlist .B2 (by decide),
      h.npages_eq]
    omega
  · show s.npages < counter
    rw [h.npages_eq]; simp only [counter]; omega

end

/-! ## The first page -/

/-- The lists of a pool that gave away its first entry to a page. -/
theorem Room.getBuffer_breaks {e b : Nat} {as bs : List Nat} {tag : PageTag} (dbg : Bool) (h : Room s e b [] as bs)
    (hm : s.map tag = none) (ht : s.total = s.npages * 2) : ∃ r t, getBuffer dbg tag s = (r, t) ∧
      ((∃ p, r = .ok p) ∨ ∃ what, r = .error (.runtimeError what)) ∧ t.npages = s.npages ∧
      t.total + 1 = t.npages * 2 := by
  obtain ⟨t, io, hmiss, hr⟩ := h.getBuffer_miss dbg hm
  have hnp : t.npages = s.npages := by rw [hmiss.eq]
  have htot : t.total + 1 = t.npages * 2 := by
    have hs := hmiss.sizeFree
    have h1 := hmiss.sizeT1
    have h1' := h.sizeT1
    have h2 := h.size.1
    rw [hnp, ← ht]
    simp only [total, hmiss.lists .T2 (by decide) (by decide), hmiss.lists .B1 (by decide) (by decide),
      hmiss.lists .B2 (by decide) (by decide)]
    simp only [List.length_nil] at h1 h1'
    omega
  rcases hr with hr | ⟨⟨what, hr⟩, -⟩
  · exact ⟨_, _, hr, .inl ⟨_, rfl⟩, hnp, htot⟩
  · exact ⟨_, _, hr, .inr ⟨what, rfl⟩, hnp, htot⟩

theorem insertMRU_first {l : ListId} {e : Nat} (dbg : Bool) (hz : (s.lists l).size = 0) (hr : s.isRouge e = true) :
    insertMRU dbg l e s = (.ok (), { s with lists := Function.update s.lists l ⟨some e, some e, 1⟩ }) := by
  simp only [insertMRU, Fallible.bind_apply, Fallible.get_apply, check_ok hr, hz, if_true, setList,
    Fallible.modify_apply]

theorem insertMRU_twice {l : ListId} {e : Nat} (dbg : Bool) (hl : s.lists l = ⟨some e, some e, 1⟩)
    (hr : s.isRouge e = true) : insertMRU dbg l e s = (.ok (), { s with
      prev := Function.update s.prev e (some e), next := Function.update s.next e (some e)
      lists := Function.update s.lists l ⟨some e, some e, 2⟩ }) := by
  have h2 : (1 + 1) % counter = 2 := rfl
  simp only [insertMRU, Fallible.bind_apply, Fallible.get_apply, check_ok hr, hl, Nat.one_ne_zero, if_false,
    setLinks, setList, Fallible.modify_apply, h2]

theorem extendEntry_ok {e b : Nat} {bs : List Nat} (dbg : Bool) (tag : PageTag) (hs : s.state e = .empty)
    (hb : s.freeBuffers = b :: bs) (hz : (s.lists .T1).size = 0) (hr : s.isRouge e = true) :
    extendEntry dbg tag e s = (.ok (), ({ s with
      tag := Function.update s.tag e tag, buffer := Function.update s.buffer e (some b), freeBuffers := bs
      prev := Function.update s.prev e (some e), next := Function.update s.next e (some e)
      lists := Function.update s.lists .T1 ⟨some e, some e, 2⟩ } : BufferManager β).withState e
        ⟨1, false, true, true, false, true, false, false⟩) := by
  let u : BufferManager β := ({ s with
    tag := Function.update s.tag e tag, buffer := Function.update s.buffer e (some b), freeBuffers := bs } :
      BufferManager β).withState e ⟨1, false, true, false, false, false, false, false⟩
  have hfirst := insertMRU_first (s := u) (e := e) (l := .T1) dbg hz hr
  let v : BufferManager β := { u with
    state := Function.update s.state e ⟨1, true, true, true, false, false, false, false⟩
    lists := Function.update s.lists .T1 ⟨some e, some e, 1⟩ }
  have htwice := insertMRU_twice (s := v) (e := e) (l := .T1) dbg (by simp [v]) hr
  simp only [u, v, withState] at hfirst htwice
  simp [extendEntry, Fallible.bind_apply, hs, EntryState.empty, pin, EntryState.refMask, takeFreeBuffer, hb,
    setBuffer, withState, hfirst, lockEntry, htwice, unlockEntry, shouldStartIo]

theorem writeExtension_cases [Inhabited β] {e b : Nat} (dbg : Bool) (tag : PageTag) (hb : s.buffer e = some b)
    (hs : s.state e = ⟨1, false, true, true, false, true, false, false⟩) :
    ∃ r t, writeExtension dbg tag e s = (r, t) ∧ ((∃ p, r = .ok p) ∨ ∃ what, r = .error (.runtimeError what)) ∧
      t.npages = s.npages ∧ t.lists = s.lists := by
  obtain ⟨r, disk, size, io, hw, rfl | ⟨what, rfl⟩⟩ := writePage_cases s tag default
  · let x : BufferManager β := { s with
      disk := disk, fileSize := size, io := io, contents := Function.update s.contents b default }
    let y := x.withState e ⟨1, false, true, true, false, false, false, true⟩
    have hterm : terminateBufferIo dbg e false true x = (.ok (), y) := by
      conv_lhs => rw [← withState_eq (show x.state e = _ from hs)]
      exact terminateBufferIo_with dbg false true (show x.buffer e = some b from hb)
    have hy : y.state e = ⟨1, false, true, true, false, false, false, true⟩ := Function.update_self ..
    have hpin : makeBufferPin dbg e y = (.ok (y.tag e, e), y) :=
      makeBufferPin_ok dbg (by rw [hy]) (by rw [hy]; rfl) hb
    refine ⟨.ok (y.tag e, e), y, ?_, .inl ⟨_, rfl⟩, rfl, rfl⟩
    simp only [x] at hterm
    simp only [writeExtension, Fallible.bind_apply, attached_ok hb, Fallible.tryCatch_apply, hw,
      Fallible.modify_apply, hterm, hpin]
  · let x : BufferManager β := { s with disk := disk, fileSize := size, io := io }
    have hterm : terminateBufferIo dbg e true false x =
        (.ok (), x.withState e ⟨1, false, true, true, false, false, true, false⟩) := by
      conv_lhs => rw [← withState_eq (show x.state e = _ from hs)]
      exact terminateBufferIo_with dbg true false (show x.buffer e = some b from hb)
    refine ⟨.error (.runtimeError what), x.withState e ⟨1, false, true, true, false, false, true, false⟩, ?_,
      .inr ⟨what, rfl⟩, rfl, rfl⟩
    simp only [x] at hterm
    simp only [writeExtension, Fallible.bind_apply, attached_ok hb, Fallible.tryCatch_apply, hw, hterm,
      Fallible.throw_apply, x]

/-- The entry of the first extension is counted twice in `T1`, or it is in no list. -/
theorem Room.extendRelation_breaks [Inhabited β] {relid e b : Nat} {as bs : List Nat} (h : Room s e b [] as bs)
    (hm : ∀ tag, s.map tag = none) (htot : s.total = s.npages * 2) (hrel : (!dbg || relid ≠ 0) = true) :
    ∃ r t, extendRelation dbg relid s = (r, t) ∧ ((∃ p, r = .ok p) ∨ ∃ what, r = .error (.runtimeError what)) ∧
      t.npages = s.npages ∧ (t.total + 2 = t.npages * 2 ∨ t.lists .T1 = ⟨some e, some e, 2⟩) := by
  obtain ⟨u, hu, hrl, hfree, hrg, hsz⟩ := h.evictCacheEntry_ok dbg
  have hchk : check dbg (decide (relid ≠ 0)) s = (.ok (), s) := by
    cases dbg with
    | false => rfl
    | true => exact check_ok (by simpa using hrel)
  obtain ⟨io, hio | ⟨hio, -⟩⟩ := nextIo_cases u
  · obtain ⟨tag, htag⟩ : ∃ tag : PageTag, tag = ⟨relid, u.fileSize relid / Config.PageSize % counter⟩ := ⟨_, rfl⟩
    let v : BufferManager β := { u with io := io, map := Function.update u.map tag (some e) }
    let w : BufferManager β := ({ v with
      tag := Function.update v.tag e tag, buffer := Function.update v.buffer e (some b), freeBuffers := bs
      prev := Function.update v.prev e (some e), next := Function.update v.next e (some e)
      lists := Function.update v.lists .T1 ⟨some e, some e, 2⟩ } : BufferManager β).withState e
        ⟨1, false, true, true, false, true, false, false⟩
    have hmap : u.map tag = none := by rw [hrl.eq]; exact hm tag
    have hext : extendEntry dbg tag e v = (.ok (), w) :=
      extendEntry_ok dbg tag (by rw [hrl.state]; exact h.fresh)
        (by show u.freeBuffers = _; rw [hrl.eq]; exact h.buffers)
        (by show (u.lists .T1).size = 0; rw [hrl.lists (by decide)]; exact h.sizeT1) hrg
    obtain ⟨r, t, hw, hr, hnp, hls⟩ := writeExtension_cases (s := w) (e := e) (b := b) dbg tag
      (by simp [w]) (by simp [w])
    refine ⟨r, t, ?_, hr, hnp.trans (by show u.npages = _; rw [hrl.eq]), .inr (by rw [hls]; simp [w])⟩
    simp only [v] at hext
    simp only [extendRelation, Fallible.bind_apply, hchk, h.preinsertCleanup_ok, hu, hio, Fallible.get_apply]
    simp only [← htag, hmap, Fallible.bind_apply, Fallible.modify_apply, hext, Fallible.pure_apply, hw]
  · refine ⟨_, { u with io := io }, ?_, .inr ⟨"file operation failed", rfl⟩, by rw [hrl.eq], .inl ?_⟩
    · simp only [extendRelation, Fallible.bind_apply, hchk, h.preinsertCleanup_ok, hu, hio]
    · have h2 := h.size.1
      show u.total + 2 = u.npages * 2
      rw [show u.npages = s.npages by rw [hrl.eq], ← htot]
      have hl : ∀ l, l ≠ .FreeList → u.lists l = s.lists l := fun l => hrl.lists
      simp only [total, hl .T1 (by decide), hl .T2 (by decide), hl .B1 (by decide), hl .B2 (by decide)]
      omega

theorem PoolInvariant.not_twice {e : Nat} (h : PoolInvariant s nodes) : s.lists .T1 ≠ ⟨some e, some e, 2⟩ := by
  intro hl
  have hz := h.size .T1
  have hc := h.chain .T1
  unfold Chain at hc
  rw [hl] at hz hc
  obtain ⟨x, y, hxy⟩ := List.length_eq_two.1 hz.symm
  rw [hxy] at hc
  have hx : e = x := Option.some.inj hc.head
  have hy : e = y := Option.some.inj hc.tail
  exact (List.nodup_cons.1 hc.nodup).1 (by simp [← hx, hy])

/-! ## A pool without pages -/

/-- Every list is empty and the page map too. -/
structure Bare (s : BufferManager β) : Prop where
  npages : s.npages = 0
  lists : ∀ l, s.lists l = ⟨none, none, 0⟩
  map : ∀ tag, s.map tag = none

theorem Bare.preinsertCleanup_ok (h : Bare s) : preinsertCleanup dbg s = (.ok (), s) := by
  simp [preinsertCleanup, Fallible.bind_apply, h.lists, h.npages, vacateFrom]

theorem Bare.evictCacheEntry_ok (h : Bare s) : evictCacheEntry dbg s = (.ok none, s) := by
  have hw : s.walkBound = 1 := by rw [walkBound, h.npages]
  simp [evictCacheEntry, Fallible.bind_apply, popTail, h.lists, hw, popFrom, evictFrom]

theorem Bare.getBuffer_throws {tag : PageTag} (h : Bare s) :
    getBuffer dbg tag s = (.error (.runtimeError "no free cache entries found"), s) := by
  simp [getBuffer, findEntry, missEntry, Fallible.bind_apply, h.map, h.preinsertCleanup_ok, h.evictCacheEntry_ok]

theorem Bare.extendRelation_throws [Inhabited β] {relid : Nat} (h : Bare s) :
    ∃ err, extendRelation dbg relid s = (.error err, s) := by
  by_cases hc : (dbg && !decide (relid ≠ 0)) = true
  · exact ⟨.assertion, by
      simp only [extendRelation, Fallible.bind_apply, check, Fallible.ofExcept, assert, hc, if_true]⟩
  · refine ⟨.runtimeError "no free cache entry found", ?_⟩
    simp only [extendRelation, Fallible.bind_apply, check, Fallible.ofExcept, assert, hc, Bool.false_eq_true,
      if_false, h.preinsertCleanup_ok, h.evictCacheEntry_ok, Fallible.throw_apply]

end BufferManager

/-- Whether a call asks the pool for an entry; an assertion refuses the invalid relation. -/
def PoolOp.takesEntry {β : Type} (dbg : Bool) : PoolOp β → Bool
  | .getBuffer _ _ => true
  | .extendRelation relid _ => !dbg || relid ≠ 0
  | .write _ _ _ | .returnBuffer _ _ => false

namespace PoolRun

open BufferManager

variable {β : Type} [Inhabited β] {dbg : Bool} {pool : BufferManager β} {npages : Nat} {disk : PageTag → β}
  {fileSize : Nat → Nat} {s t : PoolRun β} {op : PoolOp β} {ops : List (PoolOp β)}

/-- Between any two calls of the run the pool is as promised. -/
def StaysConsistent (dbg : Bool) (pool : BufferManager β) (ops : List (PoolOp β)) : Prop :=
  ∀ before after t, ops = before ++ after → exec (step dbg) (init pool) before = some t → t.dead = false →
    t.pool.Consistent

/-- Nothing happened to the pool yet. -/
def Idle (pool : BufferManager β) (s : PoolRun β) : Prop := s.pins = [] ∧ ∃ io, s.pool = { pool with io := io }

omit [Inhabited β] in
theorem Idle.fault (err : Fault) (io : List Bool) (h : Idle pool s) (hs : t = s.fault { pool with io := io } err) :
    Idle pool t := by
  subst hs
  cases err <;> exact ⟨h.1, io, rfl⟩

theorem Idle.step (hf : Fresh pool npages disk fileSize) (hop : npages = 0 ∨ op.takesEntry dbg = false)
    (h : Idle pool s) (hs : step dbg s op = some t) : Idle pool t := by
  obtain ⟨hpins, io, hpool⟩ := h
  have bare : npages = 0 → ∀ io, Bare { pool with io := io } := fun hn io => by
    refine ⟨hf.npages_eq.trans hn, fun l => ?_, hf.map_eq⟩
    cases l
    case FreeList =>
      have hc := hf.chain
      have hz := hf.size
      unfold Chain at hc
      rw [hn] at hc hz
      show pool.lists .FreeList = _
      cases hl : pool.lists .FreeList
      rw [hl] at hc hz
      simp only [CacheEntryList.mk.injEq]
      exact ⟨hc.head, hc.tail, hz⟩
    all_goals exact hf.lists _ (by decide)
  cases op with
  | getBuffer tag io' =>
    have hn := hop.resolve_right (by simp [PoolOp.takesEntry])
    refine Idle.fault (s := s) (.runtimeError "no free cache entries found") io' ⟨hpins, io, hpool⟩ ?_
    rw [step_getBuffer hs, hpool]
    show s.gotBuffer tag (getBuffer dbg tag { pool with io := io' }) = _
    rw [(bare hn io').getBuffer_throws]
    rfl
  | extendRelation relid io' =>
    obtain ⟨err, herr⟩ : ∃ err, extendRelation dbg relid { s.pool with io := io' } =
        (.error err, { pool with io := io' }) := by
      rw [hpool]
      by_cases hn : npages = 0
      · exact (bare hn io').extendRelation_throws
      · have hrel : (dbg && !decide (relid ≠ 0)) = true := by
          simpa [PoolOp.takesEntry] using hop.resolve_left hn
        exact ⟨.assertion, by
          simp only [extendRelation, Fallible.bind_apply, check, Fallible.ofExcept, assert, hrel, if_true]⟩
    refine Idle.fault (s := s) err io' ⟨hpins, io, hpool⟩ ?_
    rw [step_extendRelation hs, herr]
    rfl
  | write tag e page => exact absurd (step_write hs).1 (by simp [hpins])
  | returnBuffer tag e => exact absurd (step_returnBuffer hs).1 (by simp [hpins])

theorem Idle.consistent (hf : Fresh pool npages disk fileSize) (h : Idle pool s) : s.pool.Consistent := by
  obtain ⟨-, io, hpool⟩ := h
  rw [hpool]
  have hi := hf.invariant
  exact ⟨_, hi.chain, hi.size, hi.entry, hi.one, hi.flags, hi.buffer, hi.buffers, hi.map⟩

theorem Idle.exec (hf : Fresh pool npages disk fileSize) (hop : npages = 0 ∨ ∀ op ∈ ops, op.takesEntry dbg = false)
    (h : Idle pool s) (hs : exec (PoolRun.step dbg) s ops = some t) : Idle pool t := by
  induction ops generalizing s with
  | nil =>
    simp only [Mimidb.exec, Option.some.injEq] at hs
    exact hs ▸ h
  | cons op ops ih =>
    simp only [Mimidb.exec, Option.bind_eq_some_iff] at hs
    obtain ⟨u, hu, hs⟩ := hs
    exact ih (hop.imp_right fun h op hm => h op (List.mem_cons_of_mem _ hm))
      (h.step hf (hop.imp_right fun h => h op List.mem_cons_self) hu) hs

/-- The first call that takes an entry of a pool with pages leaves it inconsistent, and the worker goes on. -/
theorem first_breaks (hf : Fresh pool npages disk fileSize) (hn : npages ≠ 0) (hop : op.takesEntry dbg = true)
    (hs : step dbg (init pool) op = some t) : t.dead = false ∧ ¬ t.pool.Consistent := by
  have htot : pool.total = pool.npages * 2 := hf.invariant.total_eq
  have live : ∀ {r : Except Fault (PageTag × Nat)}, ((∃ p, r = .ok p) ∨ ∃ what, r = .error (.runtimeError what)) →
      ∀ u tag, ((init pool).gotBuffer tag (r, u)).dead = false ∧ ((init pool).gotBuffer tag (r, u)).pool = u ∧
        ((init pool).extended (r, u)).dead = false ∧ ((init pool).extended (r, u)).pool = u := by
    rintro r (⟨p, rfl⟩ | ⟨what, rfl⟩) u tag
    · by_cases hp : p.1 = tag
      · simp [gotBuffer, hp, pinned, extended, init]
      · simp [gotBuffer, hp, pinned, extended, init]
    · exact ⟨rfl, rfl, rfl, rfl⟩
  cases op with
  | getBuffer tag io =>
    obtain ⟨e, b, as, bs, hroom⟩ := hf.room hn io
    obtain ⟨r, u, hr, hok, hnp, hbad⟩ := hroom.getBuffer_breaks dbg (hf.map_eq tag) htot
    have ht := step_getBuffer hs
    rw [show ({ (init pool).pool with io := io } : BufferManager β) = { pool with io := io } from rfl, hr] at ht
    subst ht
    obtain ⟨hd, hp, -⟩ := live hok u tag
    refine ⟨hd, fun ⟨nodes, hi⟩ => ?_⟩
    rw [hp] at hi
    have := hi.total_eq
    omega
  | extendRelation relid io =>
    obtain ⟨e, b, as, bs, hroom⟩ := hf.room hn io
    obtain ⟨r, u, hr, hok, hnp, hbad⟩ := hroom.extendRelation_breaks hf.map_eq htot hop
    have ht := step_extendRelation hs
    rw [show ({ (init pool).pool with io := io } : BufferManager β) = { pool with io := io } from rfl, hr] at ht
    subst ht
    obtain ⟨-, -, hd, hp⟩ := live hok u ⟨0, 0⟩
    refine ⟨hd, fun ⟨nodes, hi⟩ => ?_⟩
    rw [hp] at hi
    have htot' := hi.total_eq
    exact hbad.elim (fun h => by omega) hi.not_twice
  | write tag e page => cases hop
  | returnBuffer tag e => cases hop

theorem refused_dead (hop : op.takesEntry dbg = false) (hs : step dbg (init pool) op = some t) : t.dead = true := by
  cases op with
  | getBuffer tag io => cases hop
  | extendRelation relid io =>
    have hrel : (dbg && !decide (relid ≠ 0)) = true := by simpa [PoolOp.takesEntry] using hop
    rw [step_extendRelation hs]
    simp only [extendRelation, Fallible.bind_apply, check, Fallible.ofExcept, assert, hrel, if_true]
    rfl
  | write tag e page => exact absurd (step_write hs).1 (by simp [init])
  | returnBuffer tag e => exact absurd (step_returnBuffer hs).1 (by simp [init])

/-- A run keeps the pool consistent exactly when no call of it takes an entry, or there are none. -/
theorem consistent_iff (h : create dbg npages disk fileSize = .ok pool)
    (hrun : ∃ t, exec (step dbg) (init pool) ops = some t) :
    StaysConsistent dbg pool ops ↔ npages = 0 ∨ ∀ op ∈ ops, op.takesEntry dbg = false := by
  have hf := create_fresh h
  have hidle : Idle pool (init pool) := ⟨rfl, pool.io, rfl⟩
  constructor
  · intro hst
    by_contra hno
    obtain ⟨hn, hop'⟩ := not_or.1 hno
    obtain ⟨op, hop'⟩ := not_forall.1 hop'
    obtain ⟨hmem, hop⟩ := Classical.not_imp.1 hop'
    cases ops with
    | nil => cases hmem
    | cons first rest =>
      obtain ⟨t, ht⟩ := hrun
      simp only [exec, Option.bind_eq_some_iff] at ht
      obtain ⟨u, hu, ht⟩ := ht
      cases hfirst : first.takesEntry dbg with
      | true =>
        obtain ⟨hd, hbad⟩ := first_breaks hf hn hfirst hu
        exact hbad (hst [first] rest u rfl (by simp only [exec, hu, Option.bind_some]) hd)
      | false =>
        rcases List.mem_cons.1 hmem with rfl | hmem
        · exact hop hfirst
        · cases rest with
          | nil => cases hmem
          | cons next rest =>
            simp only [exec, step, refused_dead hfirst hu, if_true, Option.bind_none, reduceCtorEq] at ht
  · intro hno before after t hops hs _
    subst hops
    exact (hidle.exec hf (hno.imp_right fun h op hm => h op (List.mem_append_left _ hm)) hs).consistent hf

/-- One page of a pool of one page. -/
theorem consistent_iff_one : ∃ pool : BufferManager Nat, create true 1 (fun _ => 0) (fun _ => 8192) = .ok pool ∧
    (StaysConsistent true pool [.getBuffer ⟨1, 0⟩ [], .returnBuffer ⟨1, 0⟩ 0] ↔
      1 = 0 ∨ ∀ op ∈ [.getBuffer ⟨1, 0⟩ [], .returnBuffer ⟨1, 0⟩ 0], PoolOp.takesEntry (β := Nat) true op =
      false) :=
  ⟨_, rfl, consistent_iff rfl ⟨_, rfl⟩⟩

/-- After one `GetBuffer` the free list of two entries is counted as empty. -/
theorem getBuffer_miscounts : ∃ pool : BufferManager Nat, create true 1 (fun _ => 0) (fun _ => 8192) = .ok pool ∧
    ∃ t, exec (step true) (init pool) [.getBuffer ⟨1, 0⟩ []] = some t ∧ t.failed = false ∧ t.dead = false ∧
      t.pool.Chain .FreeList [1] ∧ (t.pool.lists .FreeList).size = 0 ∧ ¬ t.pool.Consistent := by
  refine ⟨_, rfl, _, rfl, rfl, rfl, ?_, rfl, fun ⟨nodes, hi⟩ => ?_⟩
  · exact ⟨by simp, rfl, rfl, rfl, rfl, trivial⟩
  · exact absurd hi.total_eq (by decide)

end PoolRun

end Mimidb
