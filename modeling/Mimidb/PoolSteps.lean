import Mimidb.PoolInvariant

/-!
# The steps of the pool's workers

What each kind of step changes in the invariant: the locks, the stages of a
hit and of an eviction, the bits of a state word and the ways of a data
buffer.
-/

namespace Mimidb

open PoolLock PoolProg

section
variable {W : Type} [DecidableEq W] {v : PoolView} {r : PoolRecord W} {H : W → List PoolLock} {γ : W → PoolNote}
  {w : W}
  {e b : Nat} {k : Hand} {f : Bool}

/-! ## Stages of a call -/

/-- Past the latch of the list. -/
def Hand.beyond : Hand → Bool
  | .found | .seen | .hit _ => false
  | .passed | .ready | .input | .valid => true

theorem Vac.allows_beyond {x : Vac} (hk : k.beyond = true) (h : x.allows k) (k' : Hand) : x.allows k' := by
  cases x with
  | observed e =>
    cases (show k = .found from h)
    cases hk
  | pinned e f b fl =>
    rcases (show k = .found ∨ k = .seen ∨ k = .hit f from h) with rfl | rfl | rfl <;> cases hk
  | detached e => trivial
  | unpinned e => trivial

omit [DecidableEq W] in
theorem PoolInv.lets {u : W} {x : Vac} (h : PoolInv v r H γ) (hh : (γ w).hand = some (e, k))
    (hx : (γ u).vac = some x) (he : x.entry = e) : x.allows k := h.vacating.waiting u w x k hx (he ▸ hh)

omit [DecidableEq W] in
/-- A worker with the entry locked, or with the latch of its list, is the one that vacates it. -/
theorem PoolInv.unneeded {l : PoolLock} {u : W} {x : Vac} (h : PoolInv v r H γ) (hl : l.listed = true)
    (hw : l ∈ H w) (hv : (γ w).vac = none) (hx : (γ u).vac = some x) : ¬ x.needs l := by
  intro hn
  obtain rfl : u = w := h.locks.own u w l hl (h.vacating.lock u x l hx hn) hw
  rw [hv] at hx
  cases hx

theorem PoolInv.see (h : PoolInv v r H γ) (hh : (γ w).hand = some (e, .found)) (hl : .entry e ∈ H w)
    (hv : (γ w).vac = none) :
    PoolInv v r H (Function.update γ w { γ w with hand := some (e, .seen) }) := by
  refine h.rehand hh (fun u x hx he => ?_) nofun nofun nofun
  have hn := h.unneeded rfl hl hv hx
  cases x with
  | observed e' => exact absurd (congrArg PoolLock.entry he.symm) hn
  | pinned e' f b fl => exact .inr (.inl rfl)
  | detached e' => trivial
  | unpinned e' => trivial

theorem PoolInv.hit (h : PoolInv v r H γ) (hh : (γ w).hand = some (e, .seen)) (hf : v.freq e = f) :
    PoolInv v r H (Function.update γ w { γ w with hand := some (e, .hit f) }) := by
  refine h.rehand hh (fun u x hx he => ?_) nofun nofun nofun
  have ha := h.lets hh hx he
  cases x with
  | observed e' => cases ha
  | pinned e' f' b fl =>
    obtain rfl : e' = e := he
    obtain ⟨-, hf', -⟩ := h.vacating.listed u e' f' b fl hx
    exact .inr (.inr (by rw [← hf, hf']))
  | detached e' => trivial
  | unpinned e' => trivial

/-- With the latch of its list the call is past every eviction of the entry. -/
theorem PoolInv.pass (h : PoolInv v r H γ) (hh : (γ w).hand = some (e, .hit f)) (hl : .list (topList f) ∈ H w)
    (hv : (γ w).vac = none) : PoolInv v r H (Function.update γ w { γ w with hand := some (e, .passed) }) := by
  refine h.rehand hh (fun u x hx he => ?_) nofun nofun nofun
  have ha := h.lets hh hx he
  have hn := h.unneeded rfl hl hv hx
  cases x with
  | observed e' => cases ha
  | pinned e' f' b fl =>
    rcases ha with ha | ha | ha
    · cases ha
    · cases ha
    · cases ha
      exact absurd (.inl rfl) hn
  | detached e' => trivial
  | unpinned e' => trivial

/-- An entry that is on no top list is not being vacated. -/
theorem PoolInv.passGhost (h : PoolInv v r H γ) (hh : (γ w).hand = some (e, k)) (ht : v.top e = false)
    (hk : k = .found → .entry e ∈ H w ∧ (γ w).vac = none) :
    PoolInv v r H (Function.update γ w { γ w with hand := some (e, .passed) }) := by
  refine h.rehand hh (fun u x hx he => ?_) nofun nofun nofun
  have ha := h.lets hh hx he
  cases x with
  | observed e' =>
    obtain rfl : e' = e := he
    obtain ⟨hl, hv⟩ := hk ha
    exact absurd rfl (h.unneeded rfl hl hv hx)
  | pinned e' f' b fl =>
    obtain rfl : e' = e := he
    obtain ⟨ht', -⟩ := h.vacating.listed u e' f' b fl hx
    rw [ht] at ht'
    cases ht'
  | detached e' => trivial
  | unpinned e' => trivial

theorem PoolInv.ready (h : PoolInv v r H γ) (hh : (γ w).hand = some (e, k)) (hk : k.beyond = true)
    (hl : .entry e ∈ H w) (hi : v.io e = false) (hd : v.valid e = false) :
    PoolInv v r H (Function.update γ w { γ w with hand := some (e, .ready) }) :=
  h.rehand hh (fun _ _ hx he => Vac.allows_beyond hk (h.lets hh hx he) _) nofun (fun _ => ⟨hl, hi, hd⟩) nofun

theorem PoolInv.read (h : PoolInv v r H γ) (hh : (γ w).hand = some (e, k)) (hk : k.beyond = true)
    (hd : v.valid e = true) :
    PoolInv v r H (Function.update γ w { γ w with hand := some (e, .valid) }) :=
  h.rehand hh (fun _ _ hx he => Vac.allows_beyond hk (h.lets hh hx he) _) nofun nofun fun _ => hd

theorem PoolInv.back (h : PoolInv v r H γ) (hh : (γ w).hand = some (e, k)) (hk : k.beyond = true) :
    PoolInv v r H (Function.update γ w { γ w with hand := some (e, .passed) }) :=
  h.rehand hh (fun _ _ hx he => Vac.allows_beyond hk (h.lets hh hx he) _) nofun nofun nofun

/-! ## Pins -/

theorem PoolInv.pin (h : PoolInv v r H γ) (hh : (γ w).hand = none) (hs : v.refCount e + 1 < 2 ^ 20) :
    PoolInv { v with refCount := Function.update v.refCount e (v.refCount e + 1) } r H
      (Function.update γ w { γ w with hand := some (e, .found) }) where
  locks := h.locks
  counts := by
    rw [pinsOf_update]
    refine h.counts.update_at hs ?_ fun x hx => ?_
    · simp only [pinsOf, PoolNote.pins, hh]
      grind
    · simp only [pinsOf, PoolNote.pins, hh]
      grind
  vacating := by
    simp only [vac_update, hand_update, Function.update_eq_self]
    have hf : ∀ x : Vac, x.allows .found := fun x => by cases x <;> simp [Vac.allows]
    refine h.vacating.rehand fun u x i _ ho => ?_
    obtain ⟨-, rfl⟩ := Prod.mk.inj (Option.some.inj ho)
    exact hf x
  reading := by
    simp only [hand_update]
    exact h.reading.rehand (by simp) (by simp) (by simp)
  written := by
    simp only [vac_update, Function.update_eq_self]
    exact h.written
  buffers := by
    simp only [data_update, took_update, uses_update, Function.update_eq_self]
    exact h.buffers
  detaches := h.detaches

theorem PoolInv.unpin (h : PoolInv v r H γ) (hh : (γ w).hand = some (e, k)) :
    PoolInv { v with refCount := Function.update v.refCount e (v.refCount e - 1) } r H
      (Function.update γ w { γ w with hand := none }) where
  locks := h.locks
  counts := by
    rw [pinsOf_update]
    have hs := h.counts.small e
    have hle : pinsOf γ r w e ≤ v.refCount e := h.counts.le
    simp only [pinsOf, PoolNote.pins, hh] at hle
    refine h.counts.update_at (by omega) ?_ fun x hx => ?_
    · simp only [pinsOf, PoolNote.pins, hh]
      grind
    · simp only [pinsOf, PoolNote.pins, hh]
      grind
  vacating := by
    simp only [vac_update, hand_update, Function.update_eq_self]
    exact h.vacating.rehand fun _ _ _ _ ho => by cases ho
  reading := by
    simp only [hand_update]
    exact h.reading.rehand (fun _ ho => by cases ho) (fun _ ho => by cases ho) fun _ ho => by cases ho
  written := by
    simp only [vac_update, Function.update_eq_self]
    exact h.written
  buffers := by
    simp only [data_update, took_update, uses_update, Function.update_eq_self]
    exact h.buffers
  detaches := h.detaches

/-! ## Stages of an eviction -/

theorem PoolInv.observe (h : PoolInv v r H γ) (hv : (γ w).vac = none) (hl : .entry e ∈ H w)
    (h0 : v.refCount e = 0) :
    PoolInv v r H (Function.update γ w { γ w with vac := some (.observed e) }) where
  locks := h.locks
  counts := by
    rw [pinsOf_same (by funext x; simp [PoolNote.pins, hv, Vac.counted])]
    exact h.counts
  vacating := by
    obtain ⟨hn, hc, hp⟩ := h.unpinned h0
    -- another eviction of the entry would have it pinned or locked
    have hother : ∀ u x, (γ u).vac = some x → x.entry ≠ e := fun u x hx he => by
      have hneed := h.unneeded rfl hl hv hx
      cases x with
      | observed e' => exact hneed (congrArg PoolLock.entry he.symm)
      | pinned e' f b fl => exact hc u _ hx rfl he
      | detached e' => exact hc u _ hx rfl he
      | unpinned e' => exact hneed (congrArg PoolLock.entry he.symm)
    simp only [vac_update, hand_update, Function.update_eq_self]
    have h := h.vacating
    have hne : ∀ l, (Vac.observed e).needs l ↔ l = .entry e := fun l => Iff.rfl
    have hen : (Vac.observed e).entry = e := rfl
    exact ⟨by grind [h.lock], by grind [h.own], by grind [h.listed], by grind [h.waiting], by grind [h.unused]⟩
  reading := by
    simp only [hand_update, Function.update_eq_self]
    exact h.reading
  written := by
    simp only [vac_update]
    exact h.written.renote (fun e f b hu => by rw [hv] at hu; cases hu) fun _ _ _ hc => by cases hc
  buffers := by
    simp only [data_update, took_update, uses_update, Function.update_eq_self]
    exact h.buffers
  detaches := h.detaches

theorem PoolInv.revac {x y : Vac} (h : PoolInv v r H γ) (hx : (γ w).vac = some x) (he : y.entry = x.entry)
    (hc : y.counted = x.counted) (hg : y.guards = true → x.guards = true) (hn : ∀ l, y.needs l → l ∈ H w)
    (hl : ∀ e f b k, y = .pinned e f b k → v.top e = true ∧ v.freq e = f ∧ v.buffer e = some b)
    (ha : ∀ k, x.allows k → y.allows k) (hf : ∀ e f b, x = .pinned e f b .failing → ∃ f b,
      y = .pinned e f b .failing)
    (hw : ∀ e f b, y = .pinned e f b .clean → r.unwritten b = false) :
    PoolInv v r H (Function.update γ w { γ w with vac := some y }) where
  locks := h.locks
  counts := by
    rw [pinsOf_same (by funext x; simp [PoolNote.pins, hx, hc, he])]
    exact h.counts
  vacating := by
    simp only [vac_update, hand_update, Function.update_eq_self]
    exact h.vacating.revac hx he hg hn hl ha
  reading := by
    simp only [hand_update, Function.update_eq_self]
    exact h.reading
  written := by
    simp only [vac_update]
    refine h.written.renote (fun e f b hu => ?_) fun e f b hu => hw e f b (Option.some.inj hu)
    obtain ⟨f', b', hy⟩ := hf e f b (Option.some.inj (hx.symm.trans hu))
    exact ⟨f', b', congrArg some hy⟩
  buffers := by
    simp only [data_update, took_update, uses_update, Function.update_eq_self]
    exact h.buffers
  detaches := h.detaches

theorem PoolInv.vacate (h : PoolInv v r H γ) (hx : (γ w).vac = some (.observed e)) (hl : .list (topList f) ∈ H w)
    (ht : v.top e = true) (hf : v.freq e = f) (hb : v.buffer e = some b) (hs : v.refCount e + 1 < 2 ^ 20) :
    PoolInv { v with refCount := Function.update v.refCount e (v.refCount e + 1) } r H
      (Function.update γ w { γ w with vac := some (.pinned e f b .secure) }) where
  locks := h.locks
  counts := by
    rw [pinsOf_update]
    refine h.counts.update_at hs ?_ fun x hxe => ?_
    · simp only [pinsOf, PoolNote.pins, hx, Vac.counted, Vac.entry]
      grind
    · simp only [pinsOf, PoolNote.pins, hx, Vac.counted, Vac.entry]
      grind
  vacating := by
    simp only [vac_update, hand_update, Function.update_eq_self]
    refine h.vacating.revac hx rfl (fun _ => rfl) (fun l hn => ?_) (fun e' f' b' k hy => ?_) fun k hk => .inl hk
    · rcases hn with rfl | ⟨hn, -⟩
      · exact hl
      · cases hn
    · cases hy
      exact ⟨ht, hf, hb⟩
  reading := by
    simp only [hand_update, Function.update_eq_self]
    exact h.reading
  written := by
    simp only [vac_update]
    exact h.written.renote (fun e f b hu => by rw [hx] at hu; cases hu) fun _ _ _ hc => by cases hc
  buffers := by
    simp only [data_update, took_update, uses_update, Function.update_eq_self]
    exact h.buffers
  detaches := h.detaches

omit [DecidableEq W] in
/-- Nobody who pinned an entry that is being vacated is past the latch of its list. -/
theorem PoolInv.behind {u : W} {fl : Flush} (h : PoolInv v r H γ) (hx : (γ w).vac = some (.pinned e f b fl))
    (hk : (γ u).hand = some (e, k)) : k.beyond = false := by
  rcases h.lets hk hx rfl with rfl | rfl | rfl <;> rfl

/-- With the entry locked and not dirty, its changes are in the file. -/
theorem PoolInv.cleaned (h : PoolInv v r H γ) (hx : (γ w).vac = some (.pinned e f b .secure)) (hl : .entry e ∈ H w)
    (hd : v.dirty e = false) :
    PoolInv v r H (Function.update γ w { γ w with vac := some (.pinned e f b .clean) }) := by
  have hb := h.vacating.listed w e f b _ hx
  have hw : r.unwritten b = false := by
    by_contra hw
    rcases h.written.marked e b hb.2.2 (Bool.not_eq_false _ ▸ hw) with hm | ⟨u, hm⟩ | ⟨u, f', b', hu⟩
    · rw [hd] at hm
      cases hm
    · obtain ⟨tag, ht⟩ := h.written.pinned u e hm
      exact h.vacating.unused w u _ hx rfl tag ht
    · obtain rfl : u = w := h.vacating.own u w _ _ hu hx rfl
      rw [hx] at hu
      cases hu
  refine h.revac hx rfl rfl id (fun l hn => ?_) (fun e' f' b' k' hp => ?_) (fun k hk => hk) nofun fun e' f' b' hp =>
    ?_
  · rcases hn with rfl | ⟨hn, -⟩
    · exact h.vacating.lock w _ _ hx (.inl rfl)
    · cases hn
  · cases hp
    exact hb
  · cases hp
    exact hw

theorem PoolInv.detach (h : PoolInv v r H γ) (hx : (γ w).vac = some (.pinned e f b .clean)) (hl : .entry e ∈ H w) :
    PoolInv { v with buffer := Function.update v.buffer e none }
      { r with detaches := ⟨e, v.buffer e, r.pins, r.unwritten⟩ :: r.detaches } H
      (Function.update γ w { γ w with vac := some (.detached e), data := some b }) where
  locks := h.locks
  counts := by
    rw [pinsOf_same (by funext x; simp [PoolNote.pins, hx, Vac.counted, Vac.entry])]
    exact h.counts
  vacating := by
    have hn : ∀ l, (Vac.detached e).needs l ↔ l = .entry e := fun l => Iff.rfl
    have hen : (Vac.detached e).entry = e := rfl
    have hen' : (Vac.pinned e f b .clean).entry = e := rfl
    have hep : ∀ f b k, (Vac.pinned e f b k).entry = e := fun _ _ _ => rfl
    have ha : ∀ k, (Vac.detached e).allows k := fun _ => trivial
    simp only [vac_update, hand_update, Function.update_eq_self]
    have h := h.vacating
    refine ⟨by grind [h.lock], by grind [h.own],
      fun u e' f' b' k hu => ?_, by grind [h.waiting], by grind [h.unused, Vac.guards]⟩
    by_cases huw : u = w
    · subst huw
      rw [Function.update_self] at hu
      cases hu
    · rw [Function.update_of_ne huw] at hu
      have hne : e' ≠ e := fun he => huw (h.own u w _ _ hu hx he)
      obtain ⟨ht, hf, hb⟩ := h.listed u e' f' b' k hu
      exact ⟨ht, hf, by rwa [Function.update_of_ne hne]⟩
  reading := by
    simp only [hand_update, Function.update_eq_self]
    exact h.reading
  written := by
    simp only [vac_update]
    refine Written.renote ?_ (fun e f b hu => by rw [hx] at hu; cases hu) fun _ _ _ hc => by cases hc
    have h := h.written
    exact { h with marked := by grind [h.marked], read := by grind [h.read] }
  buffers := by
    simp only [data_update, took_update, uses_update, Function.update_eq_self]
    obtain ⟨ht, hf, hb⟩ := h.vacating.listed w e f b _ hx
    have hw := h.written.clean w e f b hx
    have hun : ∀ u tag, (tag, e) ∉ r.pins u := fun u tag => h.vacating.unused w u _ hx rfl tag
    have h := h.buffers
    have hno : ∀ u, (γ u).data ≠ some b := fun u hu => (h.inHand u b hu).1 e hb
    exact ⟨by grind [h.attached], by grind [h.free],
      h.nodup, by grind [h.inHand, h.attached, h.free], by grind [h.inHandOwn],
      by grind [h.written], by grind [h.detached], h.own, by grind [h.used]⟩
  detaches := by
    have hb := h.vacating.listed w e f b _ hx
    intro d hd
    rcases List.mem_cons.1 hd with rfl | hd
    · intro b' hb'
      obtain rfl : b = b' := Option.some.inj (hb.2.2.symm.trans hb')
      exact ⟨fun u tag => h.vacating.unused w u _ hx rfl tag, h.written.clean w e f b hx⟩
    · exact h.detaches d hd

theorem PoolInv.unpinVac (h : PoolInv v r H γ) (hx : (γ w).vac = some (.detached e)) :
    PoolInv { v with refCount := Function.update v.refCount e (v.refCount e - 1) } r H
      (Function.update γ w { γ w with vac := some (.unpinned e) }) where
  locks := h.locks
  counts := by
    rw [pinsOf_update]
    have hs := h.counts.small e
    have hle : pinsOf γ r w e ≤ v.refCount e := h.counts.le
    simp only [pinsOf, PoolNote.pins, hx] at hle
    refine h.counts.update_at (by omega) ?_ fun x hxe => ?_
    · simp only [pinsOf, PoolNote.pins, hx, Vac.counted, Vac.entry]
      grind [Vac.counted, Vac.entry]
    · simp only [pinsOf, PoolNote.pins, hx, Vac.counted, Vac.entry]
      grind
  vacating := by
    simp only [vac_update, hand_update, Function.update_eq_self]
    exact h.vacating.revac hx rfl (fun hg => by cases hg) (fun l hn => h.vacating.lock w _ l hx hn)
      (fun _ _ _ _ hl => by cases hl)
      fun _ _ => trivial
  reading := by
    simp only [hand_update, Function.update_eq_self]
    exact h.reading
  written := by
    simp only [vac_update]
    exact h.written.renote (fun e f b hu => by rw [hx] at hu; cases hu) fun _ _ _ hc => by cases hc
  buffers := by
    simp only [data_update, took_update, uses_update, Function.update_eq_self]
    exact h.buffers
  detaches := h.detaches

/-! ## State words -/

omit [DecidableEq W] in
theorem PoolInv.flags {t f : Bool} (h : PoolInv v r H γ)
    (ht : ∀ u f' b fl, (γ u).vac = some (.pinned e f' b fl) → t = true ∧ f = f') :
    PoolInv { v with top := Function.update v.top e t, freq := Function.update v.freq e f } r H γ where
  locks := h.locks
  counts := h.counts
  vacating := by
    refine { h.vacating with listed := fun u e' f' b fl hu => ?_ }
    obtain ⟨ht', hf', hb⟩ := h.vacating.listed u e' f' b fl hu
    by_cases he : e' = e
    · subst he
      obtain ⟨rfl, rfl⟩ := ht u f' b fl hu
      exact ⟨Function.update_self .., Function.update_self .., hb⟩
    · exact ⟨(Function.update_of_ne he ..).trans ht', (Function.update_of_ne he ..).trans hf', hb⟩
  reading := h.reading
  written := h.written
  buffers := h.buffers
  detaches := h.detaches

omit [DecidableEq W] in
theorem PoolInv.lastFlags {x : Vac} {t : Bool} (h : PoolInv v r H γ) (hx : (γ w).vac = some x) (he : x.entry = e)
    (hg : x.guards = false) :
    PoolInv { v with top := Function.update v.top e t, freq := Function.update v.freq e f } r H γ :=
  h.flags fun u f' b fl hu => by
    obtain rfl : u = w := h.vacating.own u w _ _ hu hx he.symm
    rw [hx] at hu
    cases hu
    cases hg

theorem PoolInv.startInput (h : PoolInv v r H γ) (hh : (γ w).hand = some (e, .ready)) :
    PoolInv { v with io := Function.update v.io e true } r H
      (Function.update γ w { γ w with hand := some (e, .input) }) where
  locks := h.locks
  counts := by
    rw [pinsOf_same (by funext x; simp [PoolNote.pins, hh])]
    exact h.counts
  vacating := by
    simp only [vac_update, hand_update, Function.update_eq_self]
    have ha : ∀ u x, (γ u).vac = some x → x.entry = e → x.allows .input :=
      fun _ _ hx he => Vac.allows_beyond rfl (h.lets hh hx he) _
    have h := h.vacating
    exact { h with waiting := by grind [h.waiting] }
  reading := by
    simp only [hand_update]
    obtain ⟨hl, hi, hd⟩ := h.reading.ready w e hh
    have hown : ∀ u, .entry e ∈ H u → u = w := fun u hu => h.locks.own u w _ rfl hu hl
    have h := h.reading
    exact { h with
      ready := by grind [h.ready], input := by grind [h.input], own := by grind [h.own, h.input],
      read := by grind [h.read] }
  written := by
    simp only [vac_update, Function.update_eq_self]
    exact h.written
  buffers := by
    simp only [data_update, took_update, uses_update, Function.update_eq_self]
    exact h.buffers
  detaches := h.detaches

omit [DecidableEq W] in
theorem PoolInv.startWrite {fl : Flush} (h : PoolInv v r H γ) (hx : (γ w).vac = some (.pinned e f b fl)) :
    PoolInv { v with io := Function.update v.io e true } r H γ where
  locks := h.locks
  counts := h.counts
  vacating := h.vacating
  reading := by
    have hb : ∀ u, (γ u).hand ≠ some (e, .ready) := fun u hu => nomatch h.behind hx hu
    have hi := h.reading.input
    have h := h.reading
    exact { h with ready := by grind [h.ready], input := by grind }
  written := h.written
  buffers := h.buffers
  detaches := h.detaches

theorem PoolInv.endRead (h : PoolInv v r H γ) (hh : (γ w).hand = some (e, .input)) (hl : .entry e ∈ H w) :
    PoolInv { v with io := Function.update v.io e false, dirty := Function.update v.dirty e false } r H
      (Function.update γ w { γ w with hand := some (e, .ready) }) where
  locks := h.locks
  counts := by
    rw [pinsOf_same (by funext x; simp [PoolNote.pins, hh])]
    exact h.counts
  vacating := by
    simp only [vac_update, hand_update, Function.update_eq_self]
    have ha : ∀ u x, (γ u).vac = some x → x.entry = e → x.allows .ready :=
      fun _ _ hx he => Vac.allows_beyond rfl (h.lets hh hx he) _
    have h := h.vacating
    exact { h with waiting := by grind [h.waiting] }
  reading := by
    simp only [hand_update]
    have h := h.reading
    exact { h with
      ready := by grind [h.ready, h.input], input := by grind [h.input, h.own], own := by grind [h.own],
      read := by grind [h.read] }
  written := by
    simp only [vac_update, Function.update_eq_self]
    obtain ⟨-, hd⟩ := h.reading.input w e hh
    have h := h.written
    exact { h with marked := by grind [h.marked, h.read] }
  buffers := by
    simp only [data_update, took_update, uses_update, Function.update_eq_self]
    exact h.buffers
  detaches := h.detaches

omit [DecidableEq W] in
theorem PoolInv.endWrite (h : PoolInv v r H γ) (hx : (γ w).vac = some (.pinned e f b .clean)) :
    PoolInv { v with io := Function.update v.io e false, dirty := Function.update v.dirty e false } r H γ where
  locks := h.locks
  counts := h.counts
  vacating := h.vacating
  reading := by
    have hb : ∀ u, (γ u).hand ≠ some (e, .input) := fun u hu => nomatch h.behind hx hu
    have h := h.reading
    exact { h with ready := by grind [h.ready], input := by grind [h.input] }
  written := by
    obtain ⟨-, -, hb⟩ := h.vacating.listed w e f b _ hx
    have hw := h.written.clean w e f b hx
    have h := h.written
    exact { h with marked := by grind [h.marked] }
  buffers := h.buffers
  detaches := h.detaches

theorem PoolInv.failWrite (h : PoolInv v r H γ) (hx : (γ w).vac = some (.pinned e f b .secure))
    (hl : .entry e ∈ H w) :
    PoolInv { v with io := Function.update v.io e false, dirty := Function.update v.dirty e false } r H
      (Function.update γ w { γ w with vac := some (.pinned e f b .failing) }) where
  locks := h.locks
  counts := by
    rw [pinsOf_same (by funext x; simp [PoolNote.pins, hx, Vac.counted, Vac.entry])]
    exact h.counts
  vacating := by
    have hk : ∀ k, (Vac.pinned e f b .secure).allows k → (Vac.pinned e f b .failing).allows k := fun k hk => hk
    refine (h.revac (y := .pinned e f b .failing) hx rfl rfl id (fun l hn => ?_) (fun e' f' b' k' hp => ?_) hk
      (fun _ _ _ hy => by cases hy) fun _ _ _ hy => by cases hy).vacating
    · rcases hn with rfl | ⟨-, rfl⟩
      · exact h.vacating.lock w _ _ hx (.inl rfl)
      · exact hl
    · cases hp
      exact h.vacating.listed w e f b _ hx
  reading := by
    simp only [hand_update, Function.update_eq_self]
    have hb : ∀ u, (γ u).hand ≠ some (e, .input) := fun u hu => Bool.noConfusion (h.behind hx hu)
    have h := h.reading
    exact { h with ready := by grind [h.ready], input := by grind [h.input] }
  written := by
    simp only [vac_update]
    have h := h.written
    have hw :
      Function.update (fun u => (γ u).vac) w (some (Vac.pinned e f b .failing)) w = some (.pinned e f b .failing) :=
      Function.update_self ..
    refine { h with marked := fun e' b' hb hd => ?_, clean := by grind [h.clean] }
    by_cases he : e' = e
    · exact .inr (.inr ⟨w, f, b, he ▸ hw⟩)
    · rw [Function.update_of_ne he]
      rcases h.marked e' b' hb hd with hm | hm | ⟨u, f', b'', hu⟩
      · exact .inl hm
      · exact .inr (.inl hm)
      · exact .inr (.inr ⟨u, f', b'', by rwa [Function.update_of_ne (by rintro rfl; simp [hx] at hu)]⟩)
  buffers := by
    simp only [data_update, took_update, uses_update, Function.update_eq_self]
    exact h.buffers
  detaches := h.detaches

omit [DecidableEq W] in
theorem PoolInv.soil (h : PoolInv v r H γ) : PoolInv { v with dirty := Function.update v.dirty e true } r H γ where
  locks := h.locks
  counts := h.counts
  vacating := h.vacating
  reading := h.reading
  written := by
    have h := h.written
    exact { h with marked := by grind [h.marked] }
  buffers := h.buffers
  detaches := h.detaches

omit [DecidableEq W] in
/-- A page becomes valid while nobody reads it in. -/
theorem PoolInv.validate (h : PoolInv v r H γ)
    (hh : ∀ u, (γ u).hand ≠ some (e, .ready) ∧ (γ u).hand ≠ some (e, .input)) :
    PoolInv { v with valid := Function.update v.valid e true } r H γ where
  locks := h.locks
  counts := h.counts
  vacating := h.vacating
  reading := by
    have h := h.reading
    exact { h with
      ready := by
        grind [h.ready], input := by grind [h.input], read := by grind [h.read], pinned := by grind [h.pinned] }
  written := by
    have h := h.written
    exact { h with read := by grind [h.read] }
  buffers := h.buffers
  detaches := h.detaches

/-- The page that was read in is valid; it is still nobody else's to read in. -/
theorem PoolInv.readIn (h : PoolInv v r H γ) (hh : (γ w).hand = some (e, .ready)) :
    PoolInv { v with valid := Function.update v.valid e true } r H
      (Function.update γ w { γ w with hand := some (e, .valid) }) := by
  obtain ⟨hl, hi, -⟩ := h.reading.ready w e hh
  have h' := (h.back hh rfl).validate (e := e) fun u => by
    by_cases hu : u = w
    · subst hu
      simp
    · rw [Function.update_of_ne hu]
      refine ⟨fun hr => hu ?_, fun hr => ?_⟩
      · exact h.locks.own u w _ rfl (h.reading.ready u e hr).1 hl
      · cases (h.reading.input u e hr).1.symm.trans hi
  have h'' := h'.read (w := w) (e := e) (k := .passed) (by simp) rfl (Function.update_self ..)
  rwa [Function.update_idem, Function.update_self] at h''

theorem PoolInv.failed (h : PoolInv v r H γ) (hx : (γ w).vac = some (.pinned e f b .failing)) :
    PoolInv { v with dirty := Function.update v.dirty e true } r H
      (Function.update γ w { γ w with vac := some (.pinned e f b .secure) }) where
  locks := h.locks
  counts := by
    rw [pinsOf_same (by funext x; simp [PoolNote.pins, hx, Vac.counted, Vac.entry])]
    exact h.counts
  vacating := by
    simp only [vac_update, hand_update, Function.update_eq_self]
    refine h.vacating.revac hx rfl id (fun l hn => h.vacating.lock w _ l hx ?_) (fun e' f' b' k hy => ?_) fun _ =>
      id
    · exact hn.imp_right fun hn => by cases hn.1
    · cases hy
      exact h.vacating.listed w e f b _ hx
  reading := by
    simp only [hand_update, Function.update_eq_self]
    exact h.reading
  written := by
    simp only [vac_update]
    have h := h.written
    refine { h with marked := fun e' b' hb hd => ?_, clean := by grind [h.clean] }
    by_cases he : e' = e
    · exact .inl (by rw [he]; exact Function.update_self ..)
    · refine (h.marked e' b' hb hd).imp (Function.update_of_ne he ..).trans (.imp_right ?_)
      rintro ⟨u, f', b'', hu⟩
      refine ⟨u, f', b'', ?_⟩
      rwa [Function.update_of_ne]
      rintro rfl
      rw [hx] at hu
      cases hu
      exact he rfl
  buffers := by
    simp only [data_update, took_update, uses_update, Function.update_eq_self]
    exact h.buffers
  detaches := h.detaches

/-! ## Entries -/

/-- An entry that nobody has anything to do with, with its state word cleared. -/
def PoolView.blank (v : PoolView) (e : Nat) : PoolView := { v with
  refCount := Function.update v.refCount e 0
  top := Function.update v.top e false
  freq := Function.update v.freq e false
  io := Function.update v.io e false
  dirty := Function.update v.dirty e false
  valid := Function.update v.valid e false
  isFree := Function.update v.isFree (.entry e) true }

omit [DecidableEq W] in
theorem PoolInv.blank (h : PoolInv v r H γ) (h0 : v.refCount e = 0) (hf : v.isFree (.entry e) = true)
    (hb : v.buffer e = none) :
    PoolInv (v.blank e) r H γ where
  locks := by
    have : (v.blank e).isFree = v.isFree :=
      (congrArg (Function.update v.isFree (.entry e)) hf.symm).trans (Function.update_eq_self ..)
    rw [this]
    exact h.locks
  counts := by
    have : (v.blank e).refCount = v.refCount :=
      (congrArg (Function.update v.refCount e) h0.symm).trans (Function.update_eq_self ..)
    rw [this]
    exact h.counts
  vacating := by
    have hne : ∀ u e' f b fl, (γ u).vac = some (.pinned e' f b fl) → e' ≠ e := fun u e' f b fl hu he => by
      obtain ⟨-, -, hb'⟩ := h.vacating.listed u e' f b fl hu
      rw [he, hb] at hb'
      cases hb'
    refine { h.vacating with listed := fun u e' f b fl hu => ?_ }
    obtain ⟨ht, hf, hb⟩ := h.vacating.listed u e' f b fl hu
    have he := hne u e' f b fl hu
    exact ⟨(Function.update_of_ne he ..).trans ht, (Function.update_of_ne he ..).trans hf, hb⟩
  reading := by
    obtain ⟨hh, -, hp⟩ := h.unpinned h0
    have h := h.reading
    have hne : ∀ u e' k, (γ u).hand = some (e', k) → e' ≠ e := fun u e' k hu he => hh u k (he ▸ hu)
    refine ⟨fun u e' hu => ?_, fun u e' hu => ?_, h.own, fun u e' hu => ?_, fun u tag e' hm => ?_⟩
    · obtain ⟨hl, hi, hd⟩ := h.ready u e' hu
      exact ⟨hl, (Function.update_of_ne (hne u e' _ hu) ..).trans hi,
        (Function.update_of_ne (hne u e' _ hu) ..).trans hd⟩
    · obtain ⟨hi, hd⟩ := h.input u e' hu
      exact ⟨(Function.update_of_ne (hne u e' _ hu) ..).trans hi,
        (Function.update_of_ne (hne u e' _ hu) ..).trans hd⟩
    · exact (Function.update_of_ne (hne u e' _ hu) ..).trans (h.read u e' hu)
    · exact (Function.update_of_ne (by rintro rfl; exact hp u tag hm) ..).trans (h.pinned u tag e' hm)
  written := by
    have hne : ∀ e' b, v.buffer e' = some b → e' ≠ e := fun e' b hb' he => by rw [he, hb] at hb'; cases hb'
    refine ⟨fun e' b hb' hd => ?_, fun e' b hb' hd => ?_, h.written.clean, h.written.pinned⟩
    · exact (h.written.marked e' b hb' hd).imp_left (Function.update_of_ne (hne e' b hb') ..).trans
    · exact (Function.update_of_ne (hne e' b hb') ..).trans (h.written.read e' b hb' hd)
  buffers := h.buffers
  detaches := h.detaches

theorem PoolInv.takeEntry (h : PoolInv v r H γ) (hb : v.buffer e = none) (ht : r.taken e = false) :
    PoolInv v { r with taken := Function.update r.taken e true } H
      (Function.update γ w { γ w with took := some e }) := by
  refine h.ofBuffers rfl rfl ?_
  simp only [Function.update_eq_self]
  have hno : ∀ u, (γ u).took ≠ some e := fun u hu => by
    obtain ⟨-, hu⟩ := h.buffers.detached u e hu
    rw [ht] at hu
    cases hu
  have h := h.buffers
  exact { h with detached := by grind [h.detached], own := by grind [h.own] }

theorem PoolInv.freed (h : PoolInv v r H γ) (ht : (γ w).took = some e) :
    PoolInv v { r with taken := Function.update r.taken e false } H
      (Function.update γ w { γ w with took := none }) := by
  refine h.ofBuffers rfl rfl ?_
  simp only [Function.update_eq_self]
  have h := h.buffers
  have hown : ∀ u, (γ u).took = some e → u = w := fun u hu => h.own u w e hu ht
  exact { h with detached := by grind [h.detached], own := by grind [h.own] }

theorem PoolInv.takeBuffer {bs : List Nat} (h : PoolInv v r H γ) (hb : v.freeBuffers = b :: bs) :
    PoolInv { v with freeBuffers := bs } r H (Function.update γ w { γ w with data := some b }) := by
  refine h.ofBuffers rfl rfl ?_
  simp only [Function.update_eq_self]
  have h := h.buffers
  have hn := List.nodup_cons.1 (hb ▸ h.nodup)
  have hm : ∀ x, x ∈ v.freeBuffers ↔ x = b ∨ x ∈ bs := fun x => by rw [hb, List.mem_cons]
  have hno : ∀ u, (γ u).data ≠ some b := fun u hu => (h.inHand u b hu).2 ((hm b).2 (.inl rfl))
  exact { h with
    free := by grind [h.free], nodup := hn.2, inHand := by grind [h.inHand, h.free]
    inHandOwn := by grind [h.inHandOwn], written := by grind [h.written] }

theorem PoolInv.pushBuffer (h : PoolInv v r H γ) (hd : (γ w).data = some b) :
    PoolInv { v with freeBuffers := b :: v.freeBuffers } r H (Function.update γ w { γ w with data := none }) := by
  refine h.ofBuffers rfl rfl ?_
  simp only [Function.update_eq_self]
  have h := h.buffers
  obtain ⟨ho, hf⟩ := h.inHand w b hd
  have hown : ∀ u, (γ u).data = some b → u = w := fun u hu => h.inHandOwn u w b hu hd
  exact { h with
    free := by grind [h.free], nodup := List.nodup_cons.2 ⟨hf, h.nodup⟩, inHand := by grind [h.inHand]
    inHandOwn := by grind [h.inHandOwn], written := by grind [h.written] }

/-- A new entry gets its buffer; it is past every eviction, for nobody has it locked. -/
theorem PoolInv.attach (h : PoolInv v r H γ) (hh : (γ w).hand = some (e, .found)) (ht : (γ w).took = some e)
    (hd : (γ w).data = some b) (hf : v.isFree (.entry e) = true) :
    PoolInv { v with buffer := Function.update v.buffer e (some b) }
      { r with
        taken := Function.update r.taken e false, detaches := ⟨e, v.buffer e, r.pins, r.unwritten⟩ :: r.detaches } H
      (Function.update γ w { γ w with hand := some (e, .passed), took := none, data := none }) where
  locks := h.locks
  counts := by
    have : { γ w with hand := some (e, .passed), took := none, data := none }.pins = (γ w).pins := by
      funext x
      simp [PoolNote.pins, hh]
    rw [pinsOf_update, this]
    exact (Function.update_eq_self w (pinsOf γ r)).symm ▸ h.counts
  vacating := by
    obtain ⟨hb, -⟩ := h.buffers.detached w e ht
    have hv : ∀ u x, (γ u).vac = some x → x.entry = e → x.guards = false := fun u x hx he => by
      cases x with
      | observed e' =>
        obtain rfl : e' = e := he
        have := h.locks.taken u _ rfl (h.vacating.lock u _ _ hx rfl)
        rw [hf] at this
        cases this
      | pinned e' f b' fl =>
        obtain rfl : e' = e := he
        obtain ⟨-, -, hb'⟩ := h.vacating.listed u e' f b' fl hx
        rw [hb] at hb'
        cases hb'
      | detached e' => rfl
      | unpinned e' => rfl
    have ha : ∀ x : Vac, x.guards = false → x.allows .passed := fun x hx => by
      cases x <;> trivial
    have hp : ∀ e f b fl, (Vac.pinned e f b fl).guards = true := fun _ _ _ _ => rfl
    have hpe : ∀ e f b fl, (Vac.pinned e f b fl).entry = e := fun _ _ _ _ => rfl
    simp only [vac_update, hand_update, Function.update_eq_self]
    have hl := h.vacating.listed
    have h := h.vacating
    exact { h with listed := by grind, waiting := by grind [h.waiting] }
  reading := by
    simp only [hand_update]
    exact h.reading.rehand (by simp) (by simp) (by simp)
  written := by
    simp only [vac_update, Function.update_eq_self]
    have hw := h.buffers.written b (.inr ⟨w, hd⟩)
    have h := h.written
    exact { h with marked := by grind [h.marked], read := by grind [h.read] }
  buffers := by
    simp only [data_update, took_update, uses_update, Function.update_eq_self]
    have h := h.buffers
    obtain ⟨hb, -⟩ := h.detached w e ht
    obtain ⟨ho, hfr⟩ := h.inHand w b hd
    have hown : ∀ u, (γ u).data = some b → u = w := fun u hu => h.inHandOwn u w b hu hd
    have htown : ∀ u, (γ u).took = some e → u = w := fun u hu => h.own u w e hu ht
    exact ⟨by grind [h.attached], by grind [h.free],
      h.nodup, by grind [h.inHand], by grind [h.inHandOwn], by grind [h.written],
      by grind [h.detached], by grind [h.own], by grind [h.used]⟩
  detaches := by
    obtain ⟨hb, -⟩ := h.buffers.detached w e ht
    intro d hd
    rcases List.mem_cons.1 hd with rfl | hd
    · intro b' hb'
      cases hb.symm.trans hb'
    · exact h.detaches d hd

/-! ## Pages -/

theorem PoolInv.write (h : PoolInv v r H γ) (hx : (γ w).vac = some (.pinned e f b .secure)) :
    PoolInv v { r with unwritten := Function.update r.unwritten b false } H
      (Function.update γ w { γ w with vac := some (.pinned e f b .clean) }) where
  locks := h.locks
  counts := by
    rw [pinsOf_same (by funext x; simp [PoolNote.pins, hx, Vac.counted, Vac.entry])]
    exact h.counts
  vacating := by
    simp only [vac_update, hand_update, Function.update_eq_self]
    refine h.vacating.revac hx rfl id (fun l hn => h.vacating.lock w _ l hx ?_) (fun e' f' b' k hy => ?_) fun _ =>
      id
    · exact hn.imp_right fun hn => by cases hn.1
    · cases hy
      exact h.vacating.listed w e f b _ hx
  reading := by
    simp only [hand_update, Function.update_eq_self]
    exact h.reading
  written := by
    simp only [vac_update]
    have hw : ∀ b', Function.update r.unwritten b false b' = true → r.unwritten b' = true := fun b' hb' => by grind
    refine Written.renote ?_ (fun e f b hu => by rw [hx] at hu; cases hu) fun e' f' b' hu => ?_
    · have h := h.written
      exact { h with marked := by grind [h.marked], read := by grind [h.read], clean := by grind [h.clean] }
    · cases hu
      exact Function.update_self ..
  buffers := by
    simp only [data_update, took_update, uses_update, Function.update_eq_self]
    have h := h.buffers
    exact { h with written := by grind [h.written] }
  detaches := h.detaches

omit [DecidableEq W] in
theorem PoolInv.used {tag : PageTag} (h : PoolInv v r H γ) (hm : (tag, e) ∈ r.pins w) :
    ∀ u x, (γ u).vac = some x → x.guards = true → x.entry ≠ e := fun u x hx hg he =>
  h.vacating.unused u w x hx hg tag (he ▸ hm)

theorem PoolInv.use {o : Option Nat} (h : PoolInv v r H γ) (hm : ∃ tag, (tag, e) ∈ r.pins w)
    (hb : ∀ b, o = some b → v.buffer e = some b) :
    PoolInv v r H (Function.update γ w { γ w with uses := some (e, o) }) := by
  refine h.ofBuffers rfl rfl ?_
  simp only [Function.update_eq_self]
  refine { h.buffers with used := fun u e' o' hu => ?_ }
  by_cases huw : u = w
  · subst huw
    rw [Function.update_self] at hu
    cases hu
    exact ⟨hm, hb⟩
  · rw [Function.update_of_ne huw] at hu
    exact h.buffers.used u e' o' hu

theorem PoolInv.modify (h : PoolInv v r H γ) (hu : (γ w).uses = some (e, some b)) :
    PoolInv v { r with
      unwritten := Function.update r.unwritten b true
      unmarked := Function.update r.unmarked w (e :: r.unmarked w) } H γ where
  locks := h.locks
  counts := h.counts
  vacating := h.vacating
  reading := h.reading
  written := by
    obtain ⟨⟨tag, ht⟩, hb⟩ := h.buffers.used w e _ hu
    have hb := hb b rfl
    have hv := h.reading.pinned w tag e ht
    have hatt := h.buffers.attached
    have hno : ∀ u e' f', (γ u).vac ≠ some (.pinned e' f' b .clean) := fun u e' f' hx => by
      obtain ⟨-, -, hb'⟩ := h.vacating.listed u e' f' b _ hx
      obtain rfl : e' = e := hatt e' e b hb' hb
      exact h.vacating.unused u w _ hx rfl tag ht
    have h := h.written
    refine ⟨fun e' b' hb' hd => ?_, by grind [h.read], by grind [h.clean], by grind [h.pinned]⟩
    by_cases he : e' = e
    · refine .inr (.inl ⟨w, ?_⟩)
      show e' ∈ Function.update r.unmarked w _ w
      grind
    · have hne : b' ≠ b := fun hbb => he (hatt e' e b (hbb ▸ hb') hb)
      have hd := (Function.update_of_ne hne ..).symm.trans hd
      rcases h.marked e' b' hb' hd with hm | ⟨u, hm⟩ | hm
      · exact .inl hm
      · refine .inr (.inl ⟨u, ?_⟩)
        show e' ∈ Function.update r.unmarked w _ u
        grind
      · exact .inr (.inr hm)
  buffers := by
    obtain ⟨-, hb⟩ := h.buffers.used w e _ hu
    have hb := hb b rfl
    have h := h.buffers
    refine { h with written := fun b' hb' => ?_ }
    have hne : b' ≠ b := by
      rintro rfl
      rcases hb' with hb' | ⟨u, hb'⟩
      · exact h.free e b' hb' hb
      · exact (h.inHand u b' hb').1 e hb
    exact (Function.update_of_ne hne ..).trans (h.written b' hb')
  detaches := h.detaches

theorem PoolInv.mark (h : PoolInv v r H γ) :
    PoolInv { v with dirty := Function.update v.dirty e true }
      { r with unmarked := Function.update r.unmarked w ((r.unmarked w).filter (· ≠ e)) } H γ where
  locks := h.locks
  counts := h.counts
  vacating := h.vacating
  reading := h.reading
  written := by
    have h := h.written
    refine { h with marked := fun e' b hb hd => ?_, pinned := by grind [h.pinned] }
    by_cases he : e' = e
    · exact .inl (by rw [he]; exact Function.update_self ..)
    · rcases h.marked e' b hb hd with hm | ⟨u, hm⟩ | hm
      · exact .inl ((Function.update_of_ne he ..).trans hm)
      · refine .inr (.inl ⟨u, ?_⟩)
        show e' ∈ Function.update r.unmarked w _ u
        grind
      · exact .inr (.inr hm)
  buffers := h.buffers
  detaches := h.detaches

/-- `ExtendRelation` takes over an entry that it alone has pinned. -/
theorem PoolInv.restart (h : PoolInv v r H γ) (hh : (γ w).hand = some (e, k)) (hl : .entry e ∈ H w)
    (hv : (γ w).vac = none) (h1 : v.refCount e = 1) (hd : v.valid e = true → v.dirty e = false) :
    PoolInv { v with valid := Function.update v.valid e false } r H
      (Function.update γ w { γ w with hand := some (e, .passed) }) where
  locks := h.locks
  counts := by
    rw [pinsOf_same (by funext x; simp [PoolNote.pins, hh])]
    exact h.counts
  vacating := by
    obtain ⟨-, hc, -⟩ := h.alone h1 hh
    refine (h.rehand (j := .passed) hh (fun u x hx he => ?_) (by simp) (by simp) (by simp)).vacating
    have hn := h.unneeded rfl hl hv hx
    cases x with
    | observed e' => exact absurd (congrArg PoolLock.entry he.symm) hn
    | pinned e' f b fl => exact absurd he (hc u _ hx rfl)
    | detached e' => trivial
    | unpinned e' => trivial
  reading := by
    obtain ⟨ho, -, hp⟩ := h.alone h1 hh
    simp only [hand_update]
    have hi := h.reading.input
    have h := h.reading
    exact ⟨by grind [h.ready], by grind, by grind [h.own], by grind [h.read], by grind [h.pinned]⟩
  written := by
    obtain ⟨-, hc, hp⟩ := h.alone h1 hh
    simp only [vac_update, Function.update_eq_self]
    have h := h.written
    refine { h with read := fun e' b hb hw => ?_ }
    by_cases he : e' = e
    · subst he
      rcases h.marked e' b hb hw with hm | ⟨u, hm⟩ | ⟨u, f, b', hm⟩
      · rw [hd (h.read e' b hb hw)] at hm
        cases hm
      · obtain ⟨tag, ht⟩ := h.pinned u e' hm
        exact absurd ht (hp u tag)
      · exact absurd rfl (hc u _ hm rfl)
    · exact (Function.update_of_ne he ..).trans (h.read e' b hb hw)
  buffers := by
    simp only [data_update, took_update, uses_update, Function.update_eq_self]
    exact h.buffers
  detaches := h.detaches

/-! ## Calls -/

theorem PoolInv.giveUp (tag : PageTag) (h : PoolInv v r H γ) (hh : (γ w).hand = none) (hu : (γ w).uses = none)
    (hm : (tag, e) ∈ r.pins w) (hn : e ∉ r.unmarked w) :
    PoolInv v { r with pins := Function.update r.pins w ((r.pins w).erase (tag, e)) } H
      (Function.update γ w { γ w with hand := some (e, .passed) }) := by
  have hsub : ∀ u t, t ∈ Function.update r.pins w ((r.pins w).erase (tag, e)) u → t ∈ r.pins u := fun u t ht => by
    rw [Function.update_apply] at ht
    split at ht
    next huw => exact huw ▸ List.mem_of_mem_erase ht
    next => exact ht
  have hkeep : ∀ u t, t ∈ r.pins u → t.2 ≠ e → t ∈ Function.update r.pins w ((r.pins w).erase (tag, e)) u :=
    fun u t ht hte => by
    rw [Function.update_apply]
    split
    next huw => exact (List.mem_erase_of_ne (by rintro rfl; exact hte rfl)).2 (huw ▸ ht)
    next => exact ht
  have hfree : ∀ u x, (γ u).vac = some x → x.entry = e → x.allows .passed := fun u x hx he => by
    have := h.used hm u x hx
    cases x with
    | observed e' => exact absurd he (this rfl)
    | pinned e' f b fl => exact absurd he (this rfl)
    | detached e' => trivial
    | unpinned e' => trivial
  refine ⟨h.locks, ?_, ?_, ?_, ?_, ?_, h.detaches⟩
  · rw [pinsOf_updates rfl]
    refine h.counts.update h.counts.small fun x => ?_
    simp only [pinsOf, PoolNote.pins, hh, List.countP_erase, hm, true_and]
    have hc := one_le_countP hm
    grind
  · simp only [vac_update, hand_update, Function.update_eq_self]
    have h := h.vacating
    exact { h with
      waiting := by grind [h.waiting],
      unused := fun u u' x hx hg tag' ht => h.unused u u' x hx hg tag' (hsub u' _ ht) }
  · simp only [hand_update]
    have h := h.reading
    exact ⟨by grind [h.ready], by grind [h.input], by grind [h.own], by grind [h.read],
      fun u tag' e' ht => h.pinned u tag' e' (hsub u _ ht)⟩
  · simp only [vac_update, Function.update_eq_self]
    have h := h.written
    refine { h with pinned := fun u e' hm' => ?_ }
    obtain ⟨tag', ht⟩ := h.pinned u e' hm'
    by_cases huw : u = w
    · subst huw
      exact ⟨tag', hkeep u _ ht (by rintro rfl; exact hn hm')⟩
    · exact ⟨tag', (Function.update_of_ne huw ..).symm ▸ ht⟩
  · simp only [data_update, took_update, uses_update, Function.update_eq_self]
    have h := h.buffers
    refine { h with used := fun u e' o hu' => ?_ }
    obtain ⟨⟨tag', ht⟩, hb⟩ := h.used u e' o hu'
    have huw : u ≠ w := by
      rintro rfl
      rw [hu] at hu'
      cases hu'
    exact ⟨⟨tag', (Function.update_of_ne huw ..).symm ▸ ht⟩, hb⟩

theorem PoolInv.complete (tag : PageTag) (h : PoolInv v r H γ) (hh : (γ w).hand = some (e, .valid)) :
    PoolInv v { r with pins := Function.update r.pins w ((tag, e) :: r.pins w) } H
      (Function.update γ w { γ w with hand := none }) := by
  have hcase : ∀ u t, t ∈ Function.update r.pins w ((tag, e) :: r.pins w) u → t = (tag, e) ∨ t ∈ r.pins u :=
    fun u t ht => by
    rw [Function.update_apply] at ht
    split at ht
    next huw => exact (List.mem_cons.1 ht).imp_right fun ht => huw ▸ ht
    next => exact .inr ht
  have hkeep : ∀ u t, t ∈ r.pins u → t ∈ Function.update r.pins w ((tag, e) :: r.pins w) u := fun u t ht => by
    rw [Function.update_apply]
    split
    next huw => exact List.mem_cons_of_mem _ (huw ▸ ht)
    next => exact ht
  refine ⟨h.locks, ?_, ?_, ?_, ?_, ?_, h.detaches⟩
  · rw [pinsOf_updates rfl]
    refine h.counts.update h.counts.small fun x => ?_
    simp only [pinsOf, PoolNote.pins, hh, List.countP_cons]
    grind
  · simp only [vac_update, hand_update, Function.update_eq_self]
    refine { h.vacating with waiting := by grind [h.vacating.waiting], unused := fun u u' x hx hg tag' ht => ?_ }
    rcases hcase u' _ ht with ht | ht
    · obtain ⟨-, he⟩ := Prod.mk.inj ht
      have ha := h.lets hh hx he
      cases x with
      | observed e' => cases ha
      | pinned e' f b fl => rcases ha with ha | ha | ha <;> cases ha
      | detached e' => cases hg
      | unpinned e' => cases hg
    · exact h.vacating.unused u u' x hx hg tag' ht
  · simp only [hand_update]
    have hd := h.reading.read w e hh
    have h := h.reading
    refine ⟨by grind [h.ready], by grind [h.input], by grind [h.own], by grind [h.read], fun u tag' e' ht => ?_⟩
    rcases hcase u _ ht with ht | ht
    · cases ht
      exact hd
    · exact h.pinned u tag' e' ht
  · simp only [vac_update, Function.update_eq_self]
    refine { h.written with pinned := fun u e' hm => ?_ }
    obtain ⟨tag', ht⟩ := h.written.pinned u e' hm
    exact ⟨tag', hkeep u _ ht⟩
  · simp only [data_update, took_update, uses_update, Function.update_eq_self]
    refine { h.buffers with used := fun u e' o hu => ?_ }
    obtain ⟨⟨tag', ht⟩, hb⟩ := h.buffers.used u e' o hu
    exact ⟨⟨tag', hkeep u _ ht⟩, hb⟩

end

end Mimidb
