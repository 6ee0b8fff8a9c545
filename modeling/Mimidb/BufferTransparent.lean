import Mimidb.BufferInvariant

/-!
# A cache that nobody sees

As long as every page fits in the pool, a pin of a page leads to what was last
written to the page (`cache_transparent`). A page more than that needs a replacement,
and `PopTail` throws, since the free list is counted as empty by then.
-/

namespace Mimidb

namespace PoolRun

open BufferManager

variable {β : Type} {dbg : Bool} {s t : PoolRun β} {t1 t2 fr : List Nat} {e b : Nat} {tag : PageTag}

/-- No call failed, and every pin leads to the page as it would be without a cache. -/
def Transparent (s : PoolRun β) : Prop :=
  s.failed = false ∧ ∀ tag e, (tag, e) ∈ s.pins →
    ∃ b, s.pool.buffer e = some b ∧ s.pool.contents b = s.plain tag

/-- A page comes from the cache, where its count may grow, or there is room for one more page. -/
def staysInPool (s : PoolRun β) : PoolOp β → Prop
  | .getBuffer tag io => (∀ ok ∈ io, ok = true) ∧ tag.pageno ≠ PageNumber.Invalid ∧
    match s.pool.map tag with
    | some e => (s.pool.state e).refCount + 1 < 2 ^ 20
    | none => (s.pool.lists .T1).size + (s.pool.lists .T2).size < s.pool.npages
  | .extendRelation _ _ => False
  | .write _ _ _ | .returnBuffer _ _ => True

def holders (s : PoolRun β) (e : Nat) : Nat := s.pins.countP (·.2 = e)

/-- The entry holds a page. -/
structure Holds (s : PoolRun β) (e : Nat) (fl : Bool) : Prop where
  state : ∃ d, s.pool.state e = ⟨s.holders e, false, true, true, fl, false, d, true⟩
  count : s.holders e < 2 ^ 20
  buffer : ∃ b, s.pool.buffer e = some b ∧ s.pool.contents b = s.plain (s.pool.tag e)
  map : s.pool.map (s.pool.tag e) = some e

/-- `t1` and `t2` are the entries with a page, `fr` those without. -/
structure CacheInv (s : PoolRun β) (t1 t2 fr : List Nat) : Prop where
  small : s.pool.npages * 2 < counter
  recent : s.pool.Chain .T1 t1
  frequent : s.pool.Chain .T2 t2
  free : s.pool.Chain .FreeList fr
  sizeT1 : (s.pool.lists .T1).size = t1.length
  sizeT2 : (s.pool.lists .T2).size = t2.length
  ghosts : (s.pool.lists .B1).size = 0 ∧ (s.pool.lists .B2).size = 0
  sizeFree : (s.pool.lists .FreeList).size + 2 * (t1.length + t2.length) = s.pool.npages * 2
  length : fr.length + (t1.length + t2.length) = s.pool.npages * 2
  apart : (∀ z ∈ t1, z ∉ t2) ∧ (∀ z ∈ fr, z ∉ t1) ∧ ∀ z ∈ fr, z ∉ t2
  holdsT1 : ∀ z ∈ t1, Holds s z false
  holdsT2 : ∀ z ∈ t2, Holds s z true
  fresh : ∀ z ∈ fr, s.pool.state z = .empty ∧ s.pool.buffer z = none
  inj : ∀ z z' b, s.pool.buffer z = some b → s.pool.buffer z' = some b → z = z'
  attached : ∀ z b, s.pool.buffer z = some b → b ∉ s.pool.freeBuffers
  buffers : s.pool.freeBuffers.Nodup ∧ s.pool.freeBuffers.length + (t1.length + t2.length) = s.pool.npages
  map : ∀ tag e, s.pool.map tag = some e → (e ∈ t1 ∨ e ∈ t2) ∧ s.pool.tag e = tag
  disk : ∀ tag, s.pool.map tag = none → s.pool.disk tag = s.plain tag
  pins : ∀ tag e, (tag, e) ∈ s.pins → s.pool.map tag = some e
  alive : s.failed = false ∧ s.dead = false

theorem CacheInv.holds (h : CacheInv s t1 t2 fr) (he : e ∈ t1 ∨ e ∈ t2) : Holds s e (decide (e ∈ t2)) := by
  rcases he with he | he
  · rw [decide_eq_false (h.apart.1 e he)]; exact h.holdsT1 e he
  · rw [decide_eq_true he]; exact h.holdsT2 e he

theorem CacheInv.transparent (h : CacheInv s t1 t2 fr) : Transparent s := by
  refine ⟨h.alive.1, fun tag e hp => ?_⟩
  obtain ⟨he, htag⟩ := h.map tag e (h.pins tag e hp)
  obtain ⟨b, hb, hc⟩ := (h.holds he).buffer
  exact ⟨b, hb, htag ▸ hc⟩

theorem CacheInv.init [Inhabited β] {pool : BufferManager β} {npages : Nat} {disk : PageTag → β}
    {fileSize : Nat → Nat} (hf : Fresh pool npages disk fileSize) :
    CacheInv (init pool) [] [] (List.range (npages * 2)).reverse where
  small := by
    have := hf.small
    simp only [PoolRun.init, hf.npages_eq, counter]; omega
  recent := hf.invariant.chain .T1
  frequent := hf.invariant.chain .T2
  free := hf.chain
  sizeT1 := hf.invariant.size .T1
  sizeT2 := hf.invariant.size .T2
  ghosts := ⟨hf.invariant.size .B1, hf.invariant.size .B2⟩
  sizeFree := by simp only [PoolRun.init, hf.size, hf.npages_eq]; rfl
  length := by simp [PoolRun.init, hf.npages_eq]
  apart := by simp
  holdsT1 := by simp
  holdsT2 := by simp
  fresh z _ := ⟨hf.state_eq z, hf.buffer_eq z⟩
  inj z z' b hb := by simp [PoolRun.init, hf.buffer_eq] at hb
  attached z b hb := by simp [PoolRun.init, hf.buffer_eq] at hb
  buffers := by
    simp only [PoolRun.init, hf.freeBuffers_eq, hf.npages_eq]
    exact ⟨List.nodup_reverse.2 List.nodup_range, by simp⟩
  map tag e he := by simp [PoolRun.init, hf.map_eq] at he
  disk _ _ := rfl
  pins := by simp [PoolRun.init]
  alive := ⟨rfl, rfl⟩

/-! ## Steps -/

/-- What a step leaves alone at an entry with a page. -/
structure Untouched (s t : PoolRun β) (e : Nat) : Prop where
  state : t.pool.state e = s.pool.state e
  holders : t.holders e = s.holders e
  buffer : t.pool.buffer e = s.pool.buffer e
  tag : t.pool.tag e = s.pool.tag e
  map : t.pool.map (s.pool.tag e) = s.pool.map (s.pool.tag e)
  contents : ∀ b, s.pool.buffer e = some b → t.pool.contents b = s.pool.contents b
  plain : t.plain (s.pool.tag e) = s.plain (s.pool.tag e)

theorem Holds.frame {fl : Bool} (h : Holds s e fl) (hu : Untouched s t e) : Holds t e fl where
  state := by rw [hu.state, hu.holders]; exact h.state
  count := by rw [hu.holders]; exact h.count
  buffer := by
    obtain ⟨b, hb, hc⟩ := h.buffer
    exact ⟨b, by rw [hu.buffer, hb], by rw [hu.contents b hb, hc, hu.tag, hu.plain]⟩
  map := by rw [hu.tag, hu.map, h.map]

theorem holders_cons (pool : BufferManager β) (tag : PageTag) (z : Nat) :
    (s.pinned pool tag e).holders z = s.holders z + if e = z then 1 else 0 := by
  simp only [holders, pinned, List.countP_cons, decide_eq_true_eq]

theorem gotBuffer_pinned {u : BufferManager β} {r : Except Fault (PageTag × Nat) × BufferManager β}
    (h : r = (.ok (tag, e), u)) :
    s.gotBuffer tag r = s.pinned u tag e := by
  rw [h]
  simp only [gotBuffer, if_true]

theorem CacheInv.withIo (h : CacheInv s t1 t2 fr) (io : List Bool) :
    CacheInv { s with pool := { s.pool with io := io } } t1 t2 fr :=
  { h with
    holdsT1 := fun z hz => (h.holdsT1 z hz).frame ⟨rfl, rfl, rfl, rfl, rfl, fun _ _ => rfl, rfl⟩
    holdsT2 := fun z hz => (h.holdsT2 z hz).frame ⟨rfl, rfl, rfl, rfl, rfl, fun _ _ => rfl, rfl⟩ }

theorem CacheInv.hit (dbg : Bool) (h : CacheInv s t1 t2 fr) (hm : s.pool.map tag = some e)
    (hc : (s.pool.state e).refCount + 1 < 2 ^ 20) (io : List Bool) :
    ∃ u t1' t2', getBuffer dbg tag { s.pool with io := io } = (.ok (tag, e), u) ∧ u.map = s.pool.map ∧
      u.npages = s.pool.npages ∧ u.fileSize = s.pool.fileSize ∧ t1'.length + t2'.length = t1.length + t2.length ∧
      CacheInv (s.pinned u tag e) t1' t2' fr := by
  obtain ⟨he, htag⟩ := h.map tag e hm
  have hh := h.holds he
  obtain ⟨d, hst⟩ := hh.state
  obtain ⟨b, hb, hcont⟩ := hh.buffer
  rw [hst] at hc
  have hlen : t1.length + t2.length < counter := by
    have := h.small
    have := h.buffers.2
    omega
  obtain ⟨u, t1', t2', hu, hhit⟩ := getBuffer_hit (s := { s.pool with io := io }) h.recent h.frequent
    h.sizeT1 h.sizeT2 hlen h.apart.1 dbg hm hst hc hb (by
      rcases he with he | he
      · rw [decide_eq_false (h.apart.1 e he)]; exact he
      · rw [decide_eq_true he]; exact he)
  rw [htag] at hu
  have hnp : u.npages = s.pool.npages := by rw [hhit.eq]; rfl
  have hut : u.tag = s.pool.tag := by rw [hhit.eq]; rfl
  have hum : u.map = s.pool.map := by rw [hhit.eq]; rfl
  have hub : u.buffer = s.pool.buffer := by rw [hhit.eq]; rfl
  have huc : u.contents = s.pool.contents := by rw [hhit.eq]; rfl
  have huf : u.freeBuffers = s.pool.freeBuffers := by rw [hhit.eq]; rfl
  have hud : u.disk = s.pool.disk := by rw [hhit.eq]; rfl
  have hus : ∀ z, z ≠ e → u.state z = s.pool.state z := fun z hz => by
    rw [hhit.eq]; simp only [withState, Function.update_of_ne hz]
  have hunt : ∀ z, z ≠ e → Untouched s (s.pinned u tag e) z := fun z hz =>
    ⟨hus z hz, by rw [holders_cons, if_neg (Ne.symm hz)]; rfl, congrFun hub z, congrFun hut z, congrFun hum _,
      fun b _ => congrFun huc b, rfl⟩
  have hfr : ∀ z ∈ fr, z ≠ e := fun z hz hze => he.elim (hze ▸ h.apart.2.1 z hz) (hze ▸ h.apart.2.2 z hz)
  have hall : ∀ z, z ∈ t1' ∨ z ∈ t2' ↔ z ∈ t1 ∨ z ∈ t2 := fun z => by
    rw [hhit.memT1, hhit.memT2]
    by_cases hz : z = e
    · subst hz; tauto
    · tauto
  have hlist : ∀ l, l ≠ .T1 → l ≠ .T2 → u.lists l = s.pool.lists l := hhit.lists
  refine ⟨u, t1', t2', hu, hum, hnp, by rw [hhit.eq]; rfl, hhit.length, ?_⟩
  refine
    { small := hnp ▸ h.small, recent := hhit.recent, frequent := hhit.frequent, free := ?_, sizeT1 := hhit.sizeT1
      sizeT2 := hhit.sizeT2, ghosts := ?_, sizeFree := ?_, length := ?_, apart := ⟨?_, ?_, ?_⟩, holdsT1 := ?_
      holdsT2 := ?_, fresh := ?_, inj := ?_, attached := ?_, buffers := ?_, map := ?_, disk := ?_
      pins := ?_, alive := h.alive }
  · show Linked u.prev u.next (u.lists .FreeList).head (u.lists .FreeList).tail fr
    rw [hlist .FreeList (by decide) (by decide)]
    exact h.free.congr (fun z hz => (hhit.links z (h.apart.2.1 z hz) (h.apart.2.2 z hz)).1)
      fun z hz => (hhit.links z (h.apart.2.1 z hz) (h.apart.2.2 z hz)).2
  · show (u.lists .B1).size = 0 ∧ (u.lists .B2).size = 0
    rw [hlist .B1 (by decide) (by decide), hlist .B2 (by decide) (by decide)]
    exact h.ghosts
  · show (u.lists .FreeList).size + 2 * (t1'.length + t2'.length) = u.npages * 2
    rw [hlist .FreeList (by decide) (by decide), hhit.length, hnp]
    exact h.sizeFree
  · show fr.length + (t1'.length + t2'.length) = u.npages * 2
    rw [hhit.length, hnp]
    exact h.length
  · intro z hz hz'
    rw [hhit.memT1] at hz
    exact ((hhit.memT2 z).1 hz').elim (h.apart.1 z hz.1) hz.2
  · exact fun z hz hz' => h.apart.2.1 z hz ((hhit.memT1 z).1 hz').1
  · exact fun z hz hz' => ((hhit.memT2 z).1 hz').elim (h.apart.2.2 z hz) (hfr z hz)
  · intro z hz
    rw [hhit.memT1] at hz
    exact (h.holdsT1 z hz.1).frame (hunt z hz.2)
  · intro z hz
    by_cases hze : z = e
    · subst hze
      refine ⟨⟨d, ?_⟩, ?_, ⟨b, ?_, ?_⟩, ?_⟩
      · show u.state z = _
        rw [holders_cons, if_pos rfl, hhit.eq]
        simp only [withState, Function.update_self]
      · rw [holders_cons, if_pos rfl]; exact hc
      · show u.buffer z = _; rw [hub]; exact hb
      · show u.contents b = s.plain (u.tag z); rw [huc, hut]; exact hcont
      · show u.map (u.tag z) = _; rw [hum, hut]; exact hh.map
    · exact (h.holdsT2 z (((hhit.memT2 z).1 hz).resolve_right hze)).frame (hunt z hze)
  · intro z hz
    show u.state z = _ ∧ u.buffer z = _
    rw [hus z (hfr z hz), hub]
    exact h.fresh z hz
  · intro z z' b
    show u.buffer z = _ → u.buffer z' = _ → _
    rw [hub]
    exact h.inj z z' b
  · intro z b
    show u.buffer z = _ → b ∉ u.freeBuffers
    rw [hub, huf]
    exact h.attached z b
  · show u.freeBuffers.Nodup ∧ u.freeBuffers.length + (t1'.length + t2'.length) = u.npages
    rw [huf, hhit.length, hnp]
    exact h.buffers
  · intro tag' e' hm'
    rw [show (s.pinned u tag e).pool.map = s.pool.map from hum] at hm'
    show _ ∧ u.tag e' = tag'
    rw [hall, hut]
    exact h.map tag' e' hm'
  · intro tag' hm'
    rw [show (s.pinned u tag e).pool.map = s.pool.map from hum] at hm'
    show u.disk tag' = s.plain tag'
    rw [hud]
    exact h.disk tag' hm'
  · intro tag' e' hp
    show u.map tag' = _
    rw [hum]
    rcases List.mem_cons.1 hp with hp | hp
    · cases hp; exact hm
    · exact h.pins tag' e' hp

theorem CacheInv.room (h : CacheInv s t1 t2 fr) (hn : t1.length + t2.length < s.pool.npages) (io : List Bool) :
    ∃ e b as bs, fr = as ++ [e] ∧ Room { s.pool with io := io } e b t1 as bs := by
  have hlen := h.length
  have hsf := h.sizeFree
  have hbuf := h.buffers.2
  have hsmall := h.small
  have hfr : fr ≠ [] := fun hnil => by rw [hnil] at hlen; simp only [List.length_nil] at hlen; omega
  obtain ⟨as, e, rfl⟩ : ∃ as e, fr = as ++ [e] := ⟨_, _, (List.dropLast_append_getLast hfr).symm⟩
  cases hbs : s.pool.freeBuffers with
  | nil => rw [hbs] at hbuf; simp only [List.length_nil] at hbuf; omega
  | cons b bs =>
    refine ⟨e, b, as, bs, rfl, h.free, fun hnil => ?_, ?_, (h.fresh e (by simp)).1, (h.fresh e (by simp)).2,
      h.recent, h.sizeT1, h.apart.2.1, hbs, ?_, ?_⟩
    · subst hnil
      simp only [List.nil_append, List.length_singleton] at hlen
      omega
    · show 2 ≤ (s.pool.lists .FreeList).size ∧ (s.pool.lists .FreeList).size < counter
      omega
    · show (s.pool.lists .T1).size + (s.pool.lists .B1).size + (s.pool.lists .T2).size + (s.pool.lists .B2).size < _
      rw [h.sizeT1, h.sizeT2, h.ghosts.1, h.ghosts.2]
      exact hn
    · show s.pool.npages < counter
      omega

theorem CacheInv.miss (dbg : Bool) (h : CacheInv s t1 t2 fr) (hm : s.pool.map tag = none)
    (hn : t1.length + t2.length < s.pool.npages) {io : List Bool} (hio : ∀ ok ∈ io, ok = true)
    (hp : tag.pageno ≠ PageNumber.Invalid) :
    ∃ u e t1' fr', getBuffer dbg tag { s.pool with io := io } = (.ok (tag, e), u) ∧
      u.map = Function.update s.pool.map tag (some e) ∧ u.npages = s.pool.npages ∧ u.fileSize = s.pool.fileSize ∧
      t1'.length = t1.length + 1 ∧
      CacheInv (s.pinned u tag e) t1' t2 fr' := by
  obtain ⟨e, b, as, bs, rfl, hroom⟩ := h.room hn io
  obtain ⟨u, io', hmiss, hr | ⟨-, ⟨ok, hok, hf⟩ | hf⟩⟩ := hroom.getBuffer_miss dbg hm
  · have hbuf : s.pool.freeBuffers = b :: bs := hroom.buffers
    have hbnd : b ∉ bs ∧ bs.Nodup := List.nodup_cons.1 (hbuf ▸ h.buffers.1)
    have hcached : ∀ z, z ∈ t1 ∨ z ∈ t2 → z ≠ e := fun z hz hze =>
      hz.elim (hze ▸ h.apart.2.1 e (by simp)) (hze ▸ h.apart.2.2 e (by simp))
    have hholders : s.holders e = 0 := List.countP_eq_zero.2 fun q hq => by
      have := hcached _ (h.map q.1 q.2 (h.pins q.1 q.2 hq)).1
      simpa using this
    let v : BufferManager β := { u.withState e ⟨1, false, true, true, false, false, false, true⟩ with
      contents := Function.update s.pool.contents b (s.pool.disk tag), io := io' }
    have hnp : v.npages = s.pool.npages := by show u.npages = _; rw [hmiss.eq]
    have hvm : v.map = Function.update s.pool.map tag (some e) := by show u.map = _; rw [hmiss.eq]
    have hvt : v.tag = Function.update s.pool.tag e tag := by show u.tag = _; rw [hmiss.eq]
    have hvb : v.buffer = Function.update s.pool.buffer e (some b) := by show u.buffer = _; rw [hmiss.eq]
    have hvf : v.freeBuffers = bs := by show u.freeBuffers = _; rw [hmiss.eq]
    have hvd : v.disk = s.pool.disk := by show u.disk = _; rw [hmiss.eq]
    have hvs : v.state = Function.update s.pool.state e ⟨1, false, true, true, false, false, false, true⟩ := by
      show Function.update u.state e _ = _
      rw [hmiss.eq]; simp only [Function.update_idem]
    have hunt : ∀ z fl, z ∈ t1 ∨ z ∈ t2 → Holds s z fl → Untouched s (s.pinned v tag e) z := fun z fl hz hh => by
      have hze := hcached z hz
      have htz : s.pool.tag z ≠ tag := fun ht => by
        have := hh.map
        rw [ht, hm] at this
        cases this
      refine ⟨?_, by rw [holders_cons, if_neg (Ne.symm hze)]; rfl, ?_, ?_, ?_, fun b' hb' => ?_, rfl⟩
      · show v.state z = _; rw [hvs, Function.update_of_ne hze]
      · show v.buffer z = _; rw [hvb, Function.update_of_ne hze]
      · show v.tag z = _; rw [hvt, Function.update_of_ne hze]
      · show v.map _ = _; rw [hvm, Function.update_of_ne htz]
      · exact Function.update_of_ne (fun hbb => h.attached z b' hb' (by simp [hbuf, hbb])) ..
    have hlist : ∀ l, l ≠ .T1 → l ≠ .FreeList → v.lists l = s.pool.lists l := hmiss.lists
    refine ⟨v, e, e :: t1, as, hr, hvm, hnp, by show u.fileSize = _; rw [hmiss.eq], rfl, ?_⟩
    refine
      { small := hnp ▸ h.small, recent := hmiss.recent, frequent := ?_, free := hmiss.free, sizeT1 := hmiss.sizeT1
        sizeT2 := ?_, ghosts := ?_, sizeFree := ?_, length := ?_, apart := ⟨?_, ?_, ?_⟩, holdsT1 := ?_
        holdsT2 := ?_, fresh := ?_, inj := ?_, attached := ?_, buffers := ?_, map := ?_, disk := ?_
        pins := ?_, alive := h.alive }
    · show Linked u.prev u.next (u.lists .T2).head (u.lists .T2).tail t2
      rw [hmiss.lists .T2 (by decide) (by decide)]
      have hl : ∀ z ∈ t2, u.prev z = s.pool.prev z ∧ u.next z = s.pool.next z := fun z hz =>
        hmiss.links z (by rw [List.mem_cons, not_or]; exact ⟨hcached z (.inr hz), fun hz' => h.apart.1 z hz' hz⟩)
          fun hz' => h.apart.2.2 z (by simp [hz']) hz
      exact h.frequent.congr (fun z hz => (hl z hz).1) fun z hz => (hl z hz).2
    · show (v.lists .T2).size = _
      rw [hlist .T2 (by decide) (by decide)]; exact h.sizeT2
    · show (v.lists .B1).size = 0 ∧ (v.lists .B2).size = 0
      rw [hlist .B1 (by decide) (by decide), hlist .B2 (by decide) (by decide)]; exact h.ghosts
    · show (u.lists .FreeList).size + 2 * ((e :: t1).length + t2.length) = v.npages * 2
      rw [hmiss.sizeFree, hnp, ← h.sizeFree]
      have : 2 ≤ (s.pool.lists .FreeList).size := hroom.size.1
      simp only [List.length_cons]
      omega
    · show as.length + ((e :: t1).length + t2.length) = v.npages * 2
      rw [hnp, ← h.length]
      simp only [List.length_cons, List.length_append, List.length_nil]
      omega
    · rintro z hz hz'
      rcases List.mem_cons.1 hz with rfl | hz
      · exact hcached z (.inr hz') rfl
      · exact h.apart.1 z hz hz'
    · rintro z hz hz'
      rcases List.mem_cons.1 hz' with rfl | hz'
      · exact (List.nodup_append.1 h.free.nodup).2.2 z hz z (by simp) rfl
      · exact h.apart.2.1 z (by simp [hz]) hz'
    · exact fun z hz => h.apart.2.2 z (by simp [hz])
    · intro z hz
      rcases List.mem_cons.1 hz with rfl | hz
      · refine ⟨⟨false, ?_⟩, ?_, ⟨b, ?_, ?_⟩, ?_⟩
        · show v.state z = _
          rw [hvs, Function.update_self, holders_cons, if_pos rfl, hholders]
        · rw [holders_cons, if_pos rfl, hholders]; decide
        · show v.buffer z = _; rw [hvb, Function.update_self]
        · show v.contents b = s.plain (v.tag z)
          rw [hvt, Function.update_self, ← h.disk tag hm]
          exact Function.update_self ..
        · show v.map (v.tag z) = _
          rw [hvt, Function.update_self, hvm, Function.update_self]
      · exact (h.holdsT1 z hz).frame (hunt z _ (.inl hz) (h.holdsT1 z hz))
    · exact fun z hz => (h.holdsT2 z hz).frame (hunt z _ (.inr hz) (h.holdsT2 z hz))
    · intro z hz
      have hze : z ≠ e := fun hze => (List.nodup_append.1 h.free.nodup).2.2 z hz e (by simp) hze
      show v.state z = _ ∧ v.buffer z = _
      rw [hvs, hvb, Function.update_of_ne hze, Function.update_of_ne hze]
      exact h.fresh z (by simp [hz])
    · intro z z' b'
      show v.buffer z = _ → v.buffer z' = _ → _
      rw [hvb]
      have hold : ∀ z, s.pool.buffer z ≠ some b := fun z hz => h.attached z b hz (by simp [hbuf])
      intro hz hz'
      by_cases hze : z = e
      · by_cases hze' : z' = e
        · rw [hze, hze']
        · rw [hze, Function.update_self] at hz
          rw [Function.update_of_ne hze'] at hz'
          exact absurd (hz'.trans hz.symm) (hold z')
      · rw [Function.update_of_ne hze] at hz
        by_cases hze' : z' = e
        · rw [hze', Function.update_self] at hz'
          exact absurd (hz.trans hz'.symm) (hold z)
        · rw [Function.update_of_ne hze'] at hz'
          exact h.inj z z' b' hz hz'
    · intro z b'
      show v.buffer z = _ → b' ∉ v.freeBuffers
      rw [hvb, hvf]
      intro hz
      by_cases hze : z = e
      · rw [hze, Function.update_self] at hz
        exact Option.some.inj hz ▸ hbnd.1
      · rw [Function.update_of_ne hze] at hz
        exact fun hm' => h.attached z b' hz (by simp [hbuf, hm'])
    · show v.freeBuffers.Nodup ∧ v.freeBuffers.length + ((e :: t1).length + t2.length) = v.npages
      rw [hvf, hnp, ← h.buffers.2, hbuf]
      refine ⟨hbnd.2, ?_⟩
      simp only [List.length_cons]
      omega
    · intro tag' e' hm'
      rw [show (s.pinned v tag e).pool.map = _ from hvm] at hm'
      show _ ∧ v.tag e' = tag'
      rw [hvt]
      by_cases ht : tag' = tag
      · subst ht
        rw [Function.update_self] at hm'
        cases hm'
        exact ⟨.inl List.mem_cons_self, Function.update_self ..⟩
      · rw [Function.update_of_ne ht] at hm'
        obtain ⟨hc, ht'⟩ := h.map tag' e' hm'
        rw [Function.update_of_ne (hcached e' hc)]
        exact ⟨hc.imp_left (List.mem_cons_of_mem _), ht'⟩
    · intro tag' hm'
      rw [show (s.pinned v tag e).pool.map = _ from hvm] at hm'
      show v.disk tag' = s.plain tag'
      rw [hvd]
      by_cases ht : tag' = tag
      · subst ht
        rw [Function.update_self] at hm'
        cases hm'
      · rw [Function.update_of_ne ht] at hm'
        exact h.disk tag' hm'
    · intro tag' e' hp'
      show v.map tag' = _
      rw [hvm]
      rcases List.mem_cons.1 hp' with hp' | hp'
      · cases hp'; exact Function.update_self ..
      · have hm' := h.pins tag' e' hp'
        rw [Function.update_of_ne fun ht => by rw [ht, hm] at hm'; cases hm']
        exact hm'
  · exact absurd (hio ok hok) (by simp [hf])
  · exact absurd hf hp

/-- The page of a pin is written, and marked dirty or not. -/
theorem CacheInv.rewrite (h : CacheInv s t1 t2 fr) (hp : (tag, e) ∈ s.pins) (hb : s.pool.buffer e = some b)
    (page : β) (dirty : Bool) :
    CacheInv { s with
      pool := { s.pool.withState e { s.pool.state e with dirty := dirty } with
        contents := Function.update s.pool.contents b page }
      plain := Function.update s.plain tag page } t1 t2 fr := by
  obtain ⟨he, htag⟩ := h.map tag e (h.pins tag e hp)
  have hne : ∀ z, z ∈ t1 ∨ z ∈ t2 → z ≠ e → s.pool.tag z ≠ tag := fun z hz hze ht => by
    have := (h.holds hz).map
    rw [ht, h.pins tag e hp] at this
    exact hze (Option.some.inj this).symm
  let v : PoolRun β := { s with
    pool := { s.pool.withState e { s.pool.state e with dirty := dirty } with
      contents := Function.update s.pool.contents b page }
    plain := Function.update s.plain tag page }
  have hunt : ∀ z, z ∈ t1 ∨ z ∈ t2 → z ≠ e → Untouched s v z := fun z hz hze =>
    ⟨Function.update_of_ne hze .., rfl, rfl, rfl, rfl,
      fun b' hb' => Function.update_of_ne (fun hbb => hze (h.inj z e b' hb' (hb.trans (congrArg _ hbb.symm)))) ..,
      Function.update_of_ne (hne z hz hze) ..⟩
  have hself : ∀ fl, Holds s e fl → Holds v e fl := fun fl hh => by
    obtain ⟨d, hst⟩ := hh.state
    refine ⟨⟨dirty, ?_⟩, hh.count, ⟨b, hb, ?_⟩, hh.map⟩
    · show Function.update s.pool.state e _ e = _
      rw [Function.update_self, hst]; rfl
    · show Function.update s.pool.contents b page b = Function.update s.plain tag page (s.pool.tag e)
      rw [htag, Function.update_self, Function.update_self]
  refine { h with
    holdsT1 := fun z hz => ?_, holdsT2 := fun z hz => ?_, fresh := fun z hz => ?_, disk := fun tag' hm => ?_ }
  · by_cases hze : z = e
    · subst hze; exact hself _ (h.holdsT1 z hz)
    · exact (h.holdsT1 z hz).frame (hunt z (.inl hz) hze)
  · by_cases hze : z = e
    · subst hze; exact hself _ (h.holdsT2 z hz)
    · exact (h.holdsT2 z hz).frame (hunt z (.inr hz) hze)
  · have hze : z ≠ e := fun hze => he.elim (hze ▸ h.apart.2.1 z hz) (hze ▸ h.apart.2.2 z hz)
    exact ⟨(Function.update_of_ne hze ..).trans (h.fresh z hz).1, (h.fresh z hz).2⟩
  · show s.pool.disk tag' = Function.update s.plain tag page tag'
    have htt : tag' ≠ tag := fun ht => by
      have hm : s.pool.map tag' = none := hm
      rw [ht, h.pins tag e hp] at hm
      cases hm
    rw [Function.update_of_ne htt]
    exact h.disk tag' hm

theorem CacheInv.write (h : CacheInv s t1 t2 fr) (hp : (tag, e) ∈ s.pins) (page : β) :
    CacheInv (s.written tag e page) t1 t2 fr := by
  obtain ⟨he, -⟩ := h.map tag e (h.pins tag e hp)
  obtain ⟨b, hb, -⟩ := (h.holds he).buffer
  simp only [written, hb]
  exact h.rewrite hp hb page true

theorem CacheInv.return (dbg : Bool) (h : CacheInv s t1 t2 fr) (hp : (tag, e) ∈ s.pins) :
    ∃ u, returnBuffer dbg e s.pool = (.ok (), u) ∧ u.map = s.pool.map ∧ u.npages = s.pool.npages ∧
      u.fileSize = s.pool.fileSize ∧ CacheInv { s with pool := u, pins := s.pins.erase (tag, e) } t1 t2 fr := by
  obtain ⟨he, htag⟩ := h.map tag e (h.pins tag e hp)
  have hh := h.holds he
  obtain ⟨d, hst⟩ := hh.state
  have hpos : 0 < s.holders e := List.countP_pos_iff.2 ⟨_, hp, by simp⟩
  have hlt := hh.count
  have hpin : (s.pool.state e).pinned = true := by
    rw [hst]; simp only [EntryState.pinned, bne_iff_ne]; omega
  let v := s.pool.withState e { s.pool.state e with refCount := (s.pool.state e).refCount - 1 }
  have hret : returnBuffer dbg e s.pool = (.ok (), v) := by
    simp only [returnBuffer, unpin, Fallible.bind_apply, getState_apply, check_ok hpin, setState_apply, v]
  refine ⟨v, hret, rfl, rfl, rfl, ?_⟩
  let w : PoolRun β := { s with pool := v, pins := s.pins.erase (tag, e) }
  have hcount : ∀ z, w.holders z = s.holders z - if e = z then 1 else 0 := fun z => by
    show (s.pins.erase (tag, e)).countP _ = s.pins.countP _ - _
    rw [(List.perm_cons_erase hp).countP_eq, List.countP_cons]
    simp
  have hunt : ∀ z, z ≠ e → Untouched s w z := fun z hze =>
    ⟨Function.update_of_ne hze .., by rw [hcount, if_neg (Ne.symm hze)]; rfl, rfl, rfl, rfl, fun _ _ => rfl, rfl⟩
  have hself : ∀ fl, Holds s e fl → Holds w e fl := fun fl hh => by
    obtain ⟨d, hst⟩ := hh.state
    refine ⟨⟨d, ?_⟩, ?_, hh.buffer, hh.map⟩
    · show Function.update s.pool.state e _ e = _
      rw [Function.update_self, hst, hcount, if_pos rfl]
    · rw [hcount, if_pos rfl]; omega
  refine { h with
    holdsT1 := fun z hz => ?_, holdsT2 := fun z hz => ?_, fresh := fun z hz => ?_, pins := fun tag' e' hm => ?_ }
  · by_cases hze : z = e
    · subst hze; exact hself _ (h.holdsT1 z hz)
    · exact (h.holdsT1 z hz).frame (hunt z hze)
  · by_cases hze : z = e
    · subst hze; exact hself _ (h.holdsT2 z hz)
    · exact (h.holdsT2 z hz).frame (hunt z hze)
  · have hze : z ≠ e := fun hze => he.elim (hze ▸ h.apart.2.1 z hz) (hze ▸ h.apart.2.2 z hz)
    exact ⟨(Function.update_of_ne hze ..).trans (h.fresh z hz).1, (h.fresh z hz).2⟩
  · exact h.pins tag' e' (List.mem_of_mem_erase hm)

theorem CacheInv.step [Inhabited β] {op : PoolOp β} (h : CacheInv s t1 t2 fr) (hc : s.staysInPool op)
    (hs : step dbg s op = some t) : ∃ t1 t2 fr, CacheInv t t1 t2 fr := by
  cases op with
  | getBuffer tag io =>
    obtain ⟨hio, hp, hroom⟩ := hc
    rw [step_getBuffer hs]
    cases hm : s.pool.map tag with
    | some e =>
      rw [hm] at hroom
      obtain ⟨u, t1', t2', hu, -, -, -, -, h'⟩ := h.hit dbg hm hroom io
      exact ⟨t1', t2', fr, gotBuffer_pinned hu ▸ h'⟩
    | none =>
      rw [hm] at hroom
      simp only [h.sizeT1, h.sizeT2] at hroom
      obtain ⟨u, e, t1', fr', hu, -, -, -, -, h'⟩ := h.miss dbg hm hroom hio hp
      exact ⟨t1', t2, fr', gotBuffer_pinned hu ▸ h'⟩
  | extendRelation relid io => exact hc.elim
  | write tag e page =>
    obtain ⟨hp, rfl⟩ := step_write hs
    exact ⟨t1, t2, fr, h.write hp page⟩
  | returnBuffer tag e =>
    obtain ⟨hp, rfl⟩ := step_returnBuffer hs
    obtain ⟨u, hu, -, -, -, h'⟩ := h.return dbg hp
    rw [hu]
    exact ⟨t1, t2, fr, h'⟩

/-- Nobody sees the cache as long as every page fits in it. -/
theorem cache_transparent [Inhabited β] {pool : BufferManager β} {npages : Nat} {disk : PageTag → β}
    {fileSize : Nat → Nat} (h : create dbg npages disk fileSize = .ok pool)
    (hr : Reach (PoolRun.step dbg) staysInPool (PoolRun.init pool) t) : Transparent t := by
  obtain ⟨t1, t2, fr, hi⟩ := hr.inv (I := fun s => ∃ t1 t2 fr, CacheInv s t1 t2 fr)
    (fun _ _ _ ⟨_, _, _, hi⟩ hc hs => hi.step hc hs) ⟨_, _, _, CacheInv.init (create_fresh h)⟩
  exact hi.transparent

instance (s : PoolRun β) (op : PoolOp β) : Decidable (s.staysInPool op) :=
  match op with
  | .getBuffer tag _ =>
    have : Decidable (match s.pool.map tag with
        | some e => (s.pool.state e).refCount + 1 < 2 ^ 20
        | none => (s.pool.lists .T1).size + (s.pool.lists .T2).size < s.pool.npages) :=
      match s.pool.map tag with
      | some _ => inferInstance
      | none => inferInstance
    inferInstanceAs (Decidable (_ ∧ _ ∧ _))
  | .extendRelation _ _ => isFalse id
  | .write _ _ _ => isTrue trivial
  | .returnBuffer _ _ => isTrue trivial

/-- A new pool of two pages over files of zeros. -/
def twoPages (dbg : Bool) : BufferManager Nat :=
  (create dbg 2 (fun _ => 0) (fun _ => 24576)).toOption.getD (blank 2 (fun _ => 0) (fun _ => 24576))

theorem create_twoPages (dbg : Bool) : create dbg 2 (fun _ => 0) (fun _ => 24576) = .ok (twoPages dbg) := by
  obtain ⟨p, hp⟩ : ∃ p : BufferManager Nat, create dbg 2 (fun _ => 0) (fun _ => 24576) = .ok p := by
    obtain ⟨t, ht, -⟩ := insertEntries_ok dbg (s := blank 2 (fun _ => 0) (fun _ => 24576)) (2 * 2) (by decide)
      rfl rfl rfl
    exact ⟨_, by simp only [create, ht]; rfl⟩
  simp only [twoPages, hp, Except.toOption, Option.getD_some]

/-- The first page is written, returned and got again from the cache. -/
theorem transparent_hit : ∃ t, Reach (step true) staysInPool (init (twoPages true)) t ∧
    (t.pins = [(⟨1, 0⟩, 0), (⟨1, 1⟩, 1)] ∧ t.plain ⟨1, 0⟩ = 7) ∧ Transparent t := by
  have h : (exec (guarded staysInPool (step true)) (init (twoPages true)) [.getBuffer ⟨1, 0⟩ [],
      .write ⟨1, 0⟩ 0 7, .returnBuffer ⟨1, 0⟩ 0, .getBuffer ⟨1, 1⟩ [], .getBuffer ⟨1, 0⟩ []]).map (fun t =>
      decide (t.pins = [(⟨1, 0⟩, 0), (⟨1, 1⟩, 1)] ∧ t.plain ⟨1, 0⟩ = 7)) = some true := by decide +kernel
  obtain ⟨t, hr, ht⟩ := reach_of_test h
  exact ⟨t, hr.of_guarded, of_decide_eq_true ht, cache_transparent (create_twoPages true) hr.of_guarded⟩

/-- Three pages, one after the other, through a pool of two. -/
def threePages : List (PoolOp Nat) :=
  [.getBuffer ⟨1, 0⟩ [], .returnBuffer ⟨1, 0⟩ 0, .getBuffer ⟨1, 1⟩ [], .returnBuffer ⟨1, 1⟩ 1, .getBuffer ⟨1, 2⟩ []]

theorem threePages_fail (dbg : Bool) : ∃ t, Reach (step dbg) anyStep (init (twoPages dbg)) t ∧ t.pins = [] ∧
    ¬ Transparent t := by
  have h : (exec (step dbg) (init (twoPages dbg)) threePages).map
      (fun t => decide (t.pins = [] ∧ t.failed = true)) = some true := by
    cases dbg <;> decide +kernel
  obtain ⟨t, hr, ht⟩ := reach_of_test h
  obtain ⟨hp, hf⟩ := of_decide_eq_true ht
  exact ⟨t, hr, hp, fun h => by cases h.1.symm.trans hf⟩

/-- The third page needs a replacement and the call fails, with assertions and without. -/
theorem replacement_fails :
    (∃ t, Reach (step true) anyStep (init (twoPages true)) t ∧ t.pins = [] ∧ ¬ Transparent t) ∧
    ∃ t, Reach (step false) anyStep (init (twoPages false)) t ∧ t.pins = [] ∧ ¬ Transparent t :=
  ⟨threePages_fail true, threePages_fail false⟩

end PoolRun

end Mimidb
