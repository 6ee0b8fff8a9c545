import Mimidb.BufferLedger
import Mimidb.BufferTransparent

/-!
# Pages for everybody

`GetBuffer` finds an entry and a buffer exactly as long as there is no need to replace
a page: `PopTail` counts every entry it takes twice, so the free list is counted as
empty when half of it is left, and the next call throws.
-/

namespace Mimidb

namespace BufferManager

variable {β : Type}

/-- The free list is counted as empty although it ends with the entry `e`, to which no
link of the entries `xs` leads. -/
structure Stuck (xs : List Nat) (e : Nat) (s : BufferManager β) : Prop where
  size : (s.lists .FreeList).size = 0
  tail : (s.lists .FreeList).tail = some e
  state : s.state e = .empty
  closed : ∀ x ∈ xs, ∀ y, s.prev x = some y → y ∈ xs

section
variable {xs : List Nat} {e x : Nat} {dbg : Bool} {l : ListId}

theorem Stuck.withState {s : BufferManager β} (h : Stuck xs e s) (he : e ∉ xs) (hx : x ∈ xs) (st : EntryState) :
    Stuck xs e (s.withState x st) := by
  have hne : e ≠ x := fun heq => he (heq ▸ hx)
  exact ⟨h.size, h.tail, (Function.update_of_ne hne ..).trans h.state, h.closed⟩

section
variable (he : e ∉ xs) (hx : x ∈ xs)
include he hx

theorem setState_stuck (st : EntryState) : Fallible.Maintains (Stuck (β := β) xs e) (setState x st) :=
  .modify fun _ hs => hs.withState he hx st

theorem lockEntry_stuck : Fallible.Maintains (Stuck (β := β) xs e) (lockEntry x) := by
  unfold lockEntry
  exact .bind (fun _ => id) fun _ => .ite (fun _ _ hs => hs) fun _ => .bind (setState_stuck he hx _) fun _ => .pure

theorem unlockEntry_stuck : Fallible.Maintains (Stuck (β := β) xs e) (unlockEntry dbg x) := by
  unfold unlockEntry
  exact .bind (fun _ => id) fun _ => .bind (setState_stuck he hx _) fun _ => check_ledger _

theorem pin_stuck : Fallible.Maintains (Stuck (β := β) xs e) (pin dbg x) := by
  unfold pin
  exact .bind (fun _ => id) fun _ => .bind (setState_stuck he hx _) fun _ => check_ledger _

theorem unpin_stuck : Fallible.Maintains (Stuck (β := β) xs e) (unpin dbg x) := by
  unfold unpin
  exact .bind (fun _ => id) fun _ => .bind (setState_stuck he hx _) fun _ => check_ledger _

omit he in
theorem insertMRU_stuck (hl : l ≠ .FreeList) : Fallible.Maintains (Stuck (β := β) xs e) (insertMRU dbg l x) := by
  have hlist : ∀ list, Fallible.Maintains (Stuck (β := β) xs e) (setList l list) := by
    intro list
    refine .modify fun s hs => ⟨?_, ?_, hs.state, hs.closed⟩
    · show (Function.update s.lists l list .FreeList).size = 0
      rw [Function.update_of_ne (Ne.symm hl)]
      exact hs.size
    · show (Function.update s.lists l list .FreeList).tail = some e
      rw [Function.update_of_ne (Ne.symm hl)]
      exact hs.tail
  unfold insertMRU
  refine Fallible.Spec.getBind fun s hs => ?_
  have hclosed : ∀ h, ∀ z ∈ xs, ∀ y, Function.update s.prev h (some x) z = some y → y ∈ xs := by
    intro h z hz y hy
    by_cases hzh : z = h
    · rw [hzh, Function.update_self] at hy
      exact Option.some.inj hy ▸ hx
    · rw [Function.update_of_ne hzh] at hy
      exact hs.closed z hz y hy
  -- what is left of the insertion keeps the list, whatever its head is
  refine Fallible.Spec.conseq (P := Stuck xs e) ?_ (fun t ht => ht ▸ hs) (fun _ _ => id) fun _ _ => id
  refine Fallible.Maintains.bind (check_ledger _) fun _ => .ite (fun _ => hlist _) fun _ => ?_
  cases (s.lists l).head with
  | none => exact .throw
  | some h => exact .bind (.modify fun t ht => ⟨ht.size, ht.tail, ht.state, hclosed h⟩) fun _ => hlist _

theorem shouldStartIo_stuck (forInput : Bool) :
    Fallible.Maintains (Stuck (β := β) xs e) (shouldStartIo dbg x forInput) := by
  unfold shouldStartIo
  refine .bind (lockEntry_stuck he hx) fun st => .ite (fun _ _ hs => hs) fun _ => .ite (fun _ => ?_) fun _ => ?_
  · exact .bind (unlockEntry_stuck he hx) fun _ => .pure
  · exact .bind (setState_stuck he hx _) fun _ => .bind (unlockEntry_stuck he hx) fun _ => .pure

theorem terminateBufferIo_stuck (setError setValid : Bool) :
    Fallible.Maintains (Stuck (β := β) xs e) (terminateBufferIo dbg x setError setValid) := by
  unfold terminateBufferIo
  refine .bind (lockEntry_stuck he hx) fun st => .bind (check_ledger _) fun _ => .bind (setState_stuck he hx _)
    fun _ => ?_
  exact .bind (unlockEntry_stuck he hx) fun _ => .bind .get fun _ => check_ledger _

omit he hx in
theorem nextIo_stuck : Fallible.Maintains (Stuck (β := β) xs e) nextIo := by
  intro s hs
  obtain ⟨io, h | ⟨h, -⟩⟩ := nextIo_cases s
  · rw [h]
    exact ⟨hs.size, hs.tail, hs.state, hs.closed⟩
  · rw [h]
    exact ⟨hs.size, hs.tail, hs.state, hs.closed⟩

omit he hx in
theorem writePage_stuck (tag : PageTag) (page : β) : Fallible.Maintains (Stuck xs e) (writePage tag page) := by
  unfold writePage
  refine .bind nextIo_stuck fun _ => .ite (fun _ _ hs => hs) fun _ => .modify fun _ hs => ?_
  exact ⟨hs.size, hs.tail, hs.state, hs.closed⟩

omit he hx in
theorem attached_stuck : Fallible.Maintains (Stuck (β := β) xs e) (attached dbg x) := by
  unfold attached
  refine .bind .get fun s => .bind (check_ledger _) fun _ => ?_
  cases s.buffer x with
  | some b => exact .pure
  | none => exact .throw

theorem flushBuffer_stuck : Fallible.Maintains (Stuck (β := β) xs e) (flushBuffer dbg x) := by
  unfold flushBuffer
  refine .bind (shouldStartIo_stuck he hx _) fun started => .ite (fun _ => .pure) fun _ => .bind attached_stuck
    fun b => ?_
  refine .bind (.tryCatch ?_ fun err => ?_) fun _ => terminateBufferIo_stuck he hx _ _
  · exact .bind .get fun _ => .bind (writePage_stuck _ _) fun _ => nextIo_stuck
  · exact .bind (terminateBufferIo_stuck he hx _ _) fun _ => .throw

theorem tryVacateEntry_stuck (isFrequency : Bool) :
    Fallible.Maintains (Stuck (β := β) xs e) (tryVacateEntry dbg x isFrequency) := by
  unfold tryVacateEntry
  refine .bind (lockEntry_stuck he hx) fun st => .ite (fun _ => .bind (unlockEntry_stuck he hx) fun _ => .pure)
    fun _ => ?_
  refine .bind (pin_stuck he hx) fun _ => .bind (unlockEntry_stuck he hx) fun _ => .bind (flushBuffer_stuck he hx)
    fun _ => ?_
  refine .bind (lockEntry_stuck he hx) fun st => .bind (unlockEntry_stuck he hx) fun _ => .ite (fun _ => .pure)
    fun _ => ?_
  refine .bind (lockEntry_stuck he hx) fun _ => .bind attached_stuck fun b => ?_
  refine .bind (.modify fun _ hs => ⟨hs.size, hs.tail, hs.state, hs.closed⟩) fun _ => .bind (unpin_stuck he hx)
    fun _ => ?_
  refine .bind (fun _ => id) fun st => .bind (setState_stuck he hx _) fun _ => ?_
  refine .bind (insertMRU_stuck hx (by cases isFrequency <;> decide)) fun _ => .bind (unlockEntry_stuck he hx)
    fun _ => ?_
  exact .bind (.modify fun _ hs => ⟨hs.size, hs.tail, hs.state, hs.closed⟩) fun _ => .pure

end

theorem vacateFrom_stuck (he : e ∉ xs) (isFrequency : Bool) (fuel : Nat) :
    ∀ o : Option Nat, (∀ x, o = some x → x ∈ xs) →
    Fallible.Maintains (Stuck (β := β) xs e) (vacateFrom dbg isFrequency fuel o) := by
  induction fuel with
  | zero =>
    intro o _
    cases o with
    | none => exact .pure
    | some x => exact .throw
  | succ fuel ih =>
    intro o ho
    cases o with
    | none => exact .pure
    | some x =>
      have hx := ho x rfl
      unfold vacateFrom
      refine .bind (tryVacateEntry_stuck he hx _) fun _ => .ite (fun _ => .pure) fun _ => Fallible.Spec.getBind
        fun s hs => ?_
      exact Fallible.Spec.conseq (ih (s.prev x) (hs.closed x hx)) (fun t ht => ht ▸ hs) (fun _ _ => id) fun _ _ =>
        id

/-- What the removal of an entry from a list that is counted as empty ends with. -/
def noEntry (dbg : Bool) : Fault :=
  if dbg then .assertion else .runtimeError "can not remove entry from list: list is empty"

theorem Stuck.popTail {s : BufferManager β} (dbg : Bool) (h : Stuck xs e s) :
    ∃ u, popTail dbg .FreeList s = (.error (noEntry dbg), u) := by
  have hlock :
      lockEntry e s = (.ok { s.state e with locked := true }, s.withState e { s.state e with locked := true }) := by
    simp [lockEntry, Fallible.bind_apply, h.state, EntryState.empty]
  have hunpinned : EntryState.pinned { s.state e with locked := true } = false := by rw [h.state]; rfl
  have hsize : ((s.withState e { s.state e with locked := true }).lists .FreeList).size = 0 := h.size
  have hremove : ∃ u, removeEntry dbg .FreeList e (s.withState e { s.state e with locked := true }) =
      (.error (noEntry dbg), u) := by
    unfold removeEntry
    rw [Fallible.bind_ok (Fallible.get_apply _), hsize]
    cases dbg with
    | true => exact ⟨_, rfl⟩
    | false => exact ⟨_, rfl⟩
  obtain ⟨u, hu⟩ := hremove
  refine ⟨u, ?_⟩
  unfold BufferManager.popTail
  rw [Fallible.bind_ok (Fallible.get_apply s), h.tail, walkBound, popFrom, Fallible.bind_ok hlock, hunpinned,
    if_neg (by decide), Fallible.bind_error hu]

end

end BufferManager

namespace PoolRun

open BufferManager

variable {β : Type} {dbg : Bool} {s : PoolRun β} {t1 t2 fr : List Nat} {tag : PageTag}

/-- There is no room for a page, but the list to replace one of is not looked for in the free list. -/
theorem CacheInv.stuck (h : CacheInv s t1 t2 fr) (hn : s.pool.npages ≤ t1.length + t2.length)
    (hpos : 0 < s.pool.npages)
    (io : List Bool) : ∃ e, e ∉ t1 ++ t2 ∧ Stuck (t1 ++ t2) e { s.pool with io := io } := by
  have hlen := h.length
  have hbuf := h.buffers.2
  have hsize := h.sizeFree
  have hfr : fr ≠ [] := by
    intro hnil
    rw [hnil, List.length_nil] at hlen
    omega
  have hmem := List.getLast_mem hfr
  refine ⟨fr.getLast hfr, ?_, ?_, ?_, (h.fresh _ hmem).1, ?_⟩
  · rw [List.mem_append]
    exact fun he => he.elim (h.apart.2.1 _ hmem) (h.apart.2.2 _ hmem)
  · show (s.pool.lists .FreeList).size = 0
    omega
  · show (s.pool.lists .FreeList).tail = some (fr.getLast hfr)
    rw [h.free.tail, List.getLast?_eq_some_getLast hfr]
  · intro x hx y hy
    change s.pool.prev x = some y at hy
    rw [List.mem_append] at hx ⊢
    rcases hx with hx | hx
    · rcases h.recent.links.prev_mem hx hy with he | hm
      · cases he
      · exact .inl hm
    · rcases h.frequent.links.prev_mem hx hy with he | hm
      · cases he
      · exact .inr hm

theorem CacheInv.preinsertCleanup (dbg : Bool) (h : CacheInv s t1 t2 fr)
    (hn : s.pool.npages ≤ t1.length + t2.length) (hpos : 0 < s.pool.npages) {io : List Bool} {e : Nat}
    (he : e ∉ t1 ++ t2)
    (hs : Stuck (t1 ++ t2) e { s.pool with io := io }) :
    Fallible.Spec (fun u => u = { s.pool with io := io }) (preinsertCleanup dbg) (fun _ => Stuck (t1 ++ t2) e)
      fun _ => Stuck (t1 ++ t2) e := by
  have hbuf := h.buffers.2
  have hsmall := h.small
  have hsum : t1.length + t2.length = s.pool.npages := by omega
  have htail1 : ∀ x, (s.pool.lists .T1).tail = some x → x ∈ t1 ++ t2 := by
    intro x hx
    rw [h.recent.tail] at hx
    exact List.mem_append_left _ (List.mem_of_getLast? hx)
  have htail2 : ∀ x, (s.pool.lists .T2).tail = some x → x ∈ t1 ++ t2 := by
    intro x hx
    rw [h.frequent.tail] at hx
    exact List.mem_append_right _ (List.mem_of_getLast? hx)
  have hmod1 : (t1.length + 0) % counter = t1.length := Nat.mod_eq_of_lt (by omega)
  have hmod2 : (t1.length + 0 + t2.length + 0) % counter = t1.length + t2.length := Nat.mod_eq_of_lt (by omega)
  have hmod3 : s.pool.npages * 2 % counter = s.pool.npages * 2 := Nat.mod_eq_of_lt hsmall
  unfold BufferManager.preinsertCleanup
  refine Fallible.Spec.getBind fun u hu => ?_
  subst hu
  simp only [h.sizeT1, h.sizeT2, h.ghosts.1, h.ghosts.2, hmod1, hmod2, hmod3]
  by_cases hfull : s.pool.npages ≤ t1.length
  · rw [if_pos hfull, if_neg (by omega)]
    exact Fallible.Spec.conseq (vacateFrom_stuck he _ _ _ htail1) (fun t ht => ht ▸ hs) (fun _ _ => id) fun _ _ =>
      id
  · rw [if_neg hfull, if_pos hn, if_neg (by omega)]
    refine Fallible.Spec.getBind fun u hu => ?_
    subst hu
    unfold adjust
    refine Fallible.Spec.getBind fun u hu => ?_
    subst hu
    refine Fallible.Spec.ite (fun _ => ?_) fun _ => ?_
    · exact Fallible.Spec.conseq (vacateFrom_stuck he _ _ _ htail1) (fun t ht => ht ▸ hs) (fun _ _ => id) fun _ _ =>
        id
    · exact Fallible.Spec.conseq (vacateFrom_stuck he _ _ _ htail2) (fun t ht => ht ▸ hs) (fun _ _ => id) fun _ _ =>
        id

theorem CacheInv.getBuffer_full (dbg : Bool) (h : CacheInv s t1 t2 fr) (hm : s.pool.map tag = none)
    (hn : s.pool.npages ≤ t1.length + t2.length) (hpos : 0 < s.pool.npages) (io : List Bool) :
    ∃ err u, getBuffer dbg tag { s.pool with io := io } = (.error err, u) := by
  obtain ⟨e, he, hs⟩ := h.stuck hn hpos io
  have hclean := h.preinsertCleanup dbg hn hpos he hs _ rfl
  have hmiss : ∃ err u, missEntry dbg tag { s.pool with io := io } = (.error err, u) := by
    unfold missEntry
    cases hrun : BufferManager.preinsertCleanup dbg { s.pool with io := io } with
    | mk r u =>
      rw [hrun] at hclean
      cases r with
      | error err => exact ⟨err, u, Fallible.bind_error hrun⟩
      | ok _ =>
        obtain ⟨v, hpop⟩ := hclean.popTail dbg
        have hevict : evictCacheEntry dbg u = (.error (noEntry dbg), v) := by
          unfold evictCacheEntry
          exact Fallible.bind_error hpop
        exact ⟨noEntry dbg, v, by rw [Fallible.bind_ok hrun, Fallible.bind_error hevict]⟩
  obtain ⟨err, u, hu⟩ := hmiss
  have hfind : findEntry dbg tag { s.pool with io := io } = (.error err, u) := by
    unfold findEntry
    rw [Fallible.bind_ok (Fallible.get_apply _)]
    simp only [hm]
    exact hu
  exact ⟨err, u, by unfold getBuffer; exact Fallible.bind_error hfind⟩

/-- The pages that are pinned. -/
def pinnedPages (s : PoolRun β) : List PageTag := (s.pins.map Prod.fst).dedup

/-- After calls that all found room, the next one succeeds exactly if it finds room, too. -/
theorem getBuffer_available [Inhabited β] {pool : BufferManager β} {npages : Nat} {disk : PageTag → β}
    {fileSize : Nat → Nat} (h : create dbg npages disk fileSize = .ok pool)
    (hr : Reach (PoolRun.step dbg) staysInPool (PoolRun.init pool) s)
    (tag : PageTag) (hp : tag.pageno ≠ PageNumber.Invalid) {io : List Bool} (hio : ∀ ok ∈ io, ok = true)
    (hcount : ∀ e, s.pool.map tag = some e → (s.pool.state e).refCount + 1 < 2 ^ 20)
    (hfew : s.pinnedPages.length < s.pool.npages) : s.failed = false ∧
      ((∃ e u, getBuffer dbg tag { s.pool with io := io } = (.ok (tag, e), u)) ↔
        (s.pool.map tag = none → (s.pool.lists .T1).size + (s.pool.lists .T2).size < s.pool.npages)) := by
  obtain ⟨t1, t2, fr, hi⟩ := hr.inv (I := fun s => ∃ t1 t2 fr, CacheInv s t1 t2 fr)
    (fun _ _ _ ⟨_, _, _, hi⟩ hc hs => hi.step hc hs) ⟨_, _, _, CacheInv.init (create_fresh h)⟩
  rw [hi.sizeT1, hi.sizeT2]
  refine ⟨hi.alive.1, ?_⟩
  constructor
  · rintro ⟨e, u, hok⟩ hm
    by_contra hn
    obtain ⟨err, v, herr⟩ :=
      hi.getBuffer_full dbg hm (Nat.le_of_not_lt hn) (Nat.lt_of_le_of_lt (Nat.zero_le _) hfew) io
    rw [hok] at herr
    cases herr
  · intro hroom
    cases hm : s.pool.map tag with
    | some e =>
      obtain ⟨u, _, _, hu, -⟩ := hi.hit dbg hm (hcount e hm) io
      exact ⟨e, u, hu⟩
    | none =>
      obtain ⟨u, e, _, _, hu, -⟩ := hi.miss dbg hm (hroom hm) hio hp
      exact ⟨e, u, hu⟩

/-- The second of two pages is not in the cache and finds room. -/
theorem second_page_available : ∃ s, Reach (step true) staysInPool (init (twoPages true)) s ∧
    (s.pinnedPages = [⟨1, 0⟩] ∧ s.pool.map ⟨1, 1⟩ = none) ∧ s.failed = false ∧
      ((∃ e u, getBuffer true ⟨1, 1⟩ { s.pool with io := [] } = (.ok (⟨1, 1⟩, e), u)) ↔
        (s.pool.map ⟨1, 1⟩ = none → (s.pool.lists .T1).size + (s.pool.lists .T2).size < s.pool.npages)) := by
  have h : (exec (guarded staysInPool (step true)) (init (twoPages true)) [.getBuffer ⟨1, 0⟩ []]).map (fun s =>
      decide ((s.pinnedPages = [⟨1, 0⟩] ∧ s.pool.map ⟨1, 1⟩ = none) ∧ s.pool.npages = 2)) = some true := by
    decide +kernel
  obtain ⟨s, hr, hs⟩ := reach_of_test h
  obtain ⟨hs, hnp⟩ := of_decide_eq_true hs
  refine ⟨s, hr.of_guarded, hs, getBuffer_available (create_twoPages true) hr.of_guarded ⟨1, 1⟩ (by decide)
    (by simp) ?_ ?_⟩
  · intro e he
    rw [hs.2] at he
    cases he
  · rw [hs.1, hnp]
    decide

/-- No page is pinned when the third one is asked for. -/
theorem third_page_unavailable :
    (∃ s, Reach (step true) anyStep (init (twoPages true)) s ∧ s.pinnedPages.length < s.pool.npages ∧
      (getBuffer true ⟨1, 2⟩ { s.pool with io := [] }).1 = .error .assertion) ∧
    ∃ s, Reach (step false) anyStep (init (twoPages false)) s ∧ s.pinnedPages.length < s.pool.npages ∧
      (getBuffer false ⟨1, 2⟩ { s.pool with io := [] }).1 =
        .error (.runtimeError "can not remove entry from list: list is empty") := by
  constructor
  · have h : (exec (step true) (init (twoPages true)) (threePages.take 4)).map
      (fun s => decide (s.pinnedPages.length < s.pool.npages ∧
        (getBuffer true ⟨1, 2⟩ { s.pool with io := [] }).1 = .error .assertion)) = some true := by
      decide +kernel
    obtain ⟨s, hr, hs⟩ := reach_of_test h
    exact ⟨s, hr, of_decide_eq_true hs⟩
  · have h : (exec (step false) (init (twoPages false)) (threePages.take 4)).map
      (fun s => decide (s.pinnedPages.length < s.pool.npages ∧
        (getBuffer false ⟨1, 2⟩ { s.pool with io := [] }).1 =
          .error (.runtimeError "can not remove entry from list: list is empty"))) = some true := by
      decide +kernel
    obtain ⟨s, hr, hs⟩ := reach_of_test h
    exact ⟨s, hr, of_decide_eq_true hs⟩

end PoolRun

end Mimidb
