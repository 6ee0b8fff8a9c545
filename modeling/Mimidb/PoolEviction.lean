import Mimidb.PoolKeeps

/-!
# Evictions lose no pin and no change

The calls of the pool keep the invariant, and with it every run of any number
of workers does: a buffer that leaves its entry is in nobody's hands, and all
that was changed in it is in the file.
-/

namespace Mimidb

open PoolLock Prog PoolNote

namespace PoolProg

section
variable {W β α : Type} [DecidableEq W] {w : W} {c : PoolBuild} {held base : List PoolLock} {g : PoolNote} {e : Nat}
  {l : ListId} {f : Bool}

/-! ## Replacement -/

theorem sameList {p : PoolProg β α} (hg : g.Light) (hp : Does w p (.list l :: held) g fun _ g' => g' = g) :
    Does w (holding (.list l) p) held g fun _ g' => g' = g :=
  holding_list <| hp.monoEnds fun _ _ h => by
    rw [h]
    exact ⟨hg.calm, hg.drop⟩

theorem samePartition {i : Nat} {p : PoolProg β α} (hg : g.Light)
    (hp : Does w p (.partition i :: held) g fun _ g' => g' = g) :
    Does w (holding (.partition i) p) held g fun _ g' => g' = g :=
  holding_partition <| hp.monoEnds fun _ _ h => by
    rw [h]
    exact ⟨hg.calm, rfl⟩

theorem vacateFrom_does (hg : g.Light) (hl : .list (topList f) ∈ held) (n : Nat) : ∀ o,
    Does w (vacateFrom (β := β) c f n o) held g fun _ g' => g' = g := by
  induction n with
  | zero =>
    intro o
    cases o with
    | none => exact ⟨rfl, rfl⟩
    | some e => trivial
  | succ n ih =>
    intro o
    cases o with
    | none => exact ⟨rfl, rfl⟩
    | some e =>
      refine Keeps.bindEnds (tryVacateEntry_does hg hl) .rfl ?_
      rintro done _ rfl
      exact Keeps.ite (fun _ => ⟨rfl, rfl⟩) fun _ => read_kept fun prev => ih prev

theorem adjust_does {p : Nat} {fromB2 : Bool} (hg : g.Light) :
    Does w (adjust (β := β) c p fromB2) held g fun _ g' => g' = g := by
  refine Keeps.bindEnds (sameList hg read_ends) .rfl fun t1size g' h => ?_
  subst h
  have hlist : ∀ f : Bool, Does w (holding (.list (if f then .T2 else .T1)) do
      vacateFrom (β := β) c f c.rounds (← read fun s => (s.lists (if f then .T2 else .T1)).tail)) held g' fun _ g =>
      g = g' := fun f =>
    sameList hg <| read_kept fun tail => vacateFrom_does hg List.mem_cons_self _ _
  exact hlist _

theorem popFrom_does (hg : g.Light) (n : Nat) :
    ∀ o, Does w (popFrom (β := β) c l n o) held g fun _ g' => g' = g := by
  induction n with
  | zero =>
    intro o
    cases o with
    | none => exact ⟨rfl, rfl⟩
    | some e => trivial
  | succ n ih =>
    intro o
    cases o with
    | none => exact ⟨rfl, rfl⟩
    | some e =>
      refine lockEntry_kept fun st => Keeps.ite (fun _ => ?_) fun _ => ?_
      · exact unlockEntry_kept hg.calm (hg.frees e) (read_kept fun prev => ih prev)
      · refine Keeps.bindEnds (lift_ends BufferManager.quiet_removeEntry hg.calm) leaves_entry fun _ g' h => ?_
        subst h
        refine unlockEntry_kept hg.calm (hg.frees e) (Keeps.bindEnds (lift_ends (fun t => ?_) hg.calm) .rfl ?_)
        · exact .bind .get fun _ => BufferManager.quiet_modify (fun _ => ⟨rfl, rfl, rfl⟩) t
        · rintro _ _ rfl
          exact ⟨rfl, rfl⟩

theorem mapRemove_ends {tag : PageTag} {F : PoolNote → Prop} :
    Kept w (mapRemove (β := β) tag) held g (Ends IsEntry F held fun _ g' => g' = g) := by
  rintro s r H γ hI - rfl -
  exact ⟨γ w, inv_same hI, rfl, rfl⟩

theorem evictFrom_does (hg : g.Light) (n : Nat) :
    ∀ o, Does w (evictFrom (β := β) c l n o) held g fun _ g' => g' = g := by
  induction n with
  | zero =>
    intro o
    cases o with
    | none => exact ⟨rfl, rfl⟩
    | some e => trivial
  | succ n ih =>
    intro o
    cases o with
    | none => exact ⟨rfl, rfl⟩
    | some e =>
      refine lockEntry_kept fun st => unlockEntry_kept hg.calm (hg.frees e)
        (Keeps.ite (fun _ => read_kept fun prev => ih prev) fun _ => ?_)
      refine read_kept fun tag => Keeps.bindEnds (samePartition hg ?_) .rfl fun evicted g' h => ?_
      · refine read_kept fun st => Keeps.ite (fun _ => ⟨rfl, rfl⟩) fun _ => read_kept fun tag => ?_
        refine Keeps.bindEnds mapRemove_ends .rfl fun removed g' h => ?_
        subst h
        refine Keeps.ite (fun _ => ⟨.rfl, hg.calm⟩) fun _ =>
          Keeps.bindEnds (lift_ends BufferManager.quiet_removeEntry hg.calm) .rfl ?_
        rintro _ _ rfl
        exact ⟨rfl, rfl⟩
      · subst h
        exact Keeps.ite (fun _ => ⟨rfl, rfl⟩) fun _ => read_kept fun prev => ih prev

theorem tearDown_does (hg : g.vac = none) :
    Does w (tearDown (β := β) c e) held g fun _ g' => g' = { g with took := some e } := by
  refine read_kept fun _ => check_kept <| read_kept fun _ => check_kept ?_
  rintro s r H γ hI - rfl ⟨⟨h0, hl⟩, hb, ht⟩
  have hf : s.view.isFree (.entry e) = true := by simpa [SharedPool.view, Locks.free] using hl
  have hI' := (PoolInv.blank hI h0 hf hb).takeEntry (w := w) (e := e) hb ht
  rw [← view_blank false] at hI'
  exact ⟨_, hI', rfl, rfl⟩

/-- What `evictCacheEntry` returns is noted. -/
def Took (g : PoolNote) : Option Nat → PoolNote → Prop
  | some e, g' => g' = { g with took := some e }
  | none, g' => g' = g

theorem evictCacheEntry_does (hg : g.Light) : Does w (evictCacheEntry (β := β) c) held g (Took g) := by
  have htake : ∀ (held : List PoolLock) e, Does w (do tearDown (β := β) c e; return some e) held g (Took g) :=
    fun held e =>
    Keeps.bindEnds (tearDown_does hg.vac) .rfl fun _ _ h => ⟨rfl, h⟩
  have hevict :
    ∀ l, Does w (holding (.list l) do evictFrom (β := β) c l c.rounds (← read fun s => (s.lists l).tail)) held g
      fun _ g' => g' = g := fun l => sameList hg <| read_kept fun tail => evictFrom_does hg _ _
  refine Keeps.bindEnds (φ := Took g) (holding_list <| read_kept fun tail => ?_) .rfl fun free g' h => ?_
  · refine Keeps.bindEnds (popFrom_does hg _ _) .rfl fun o g' h => ?_
    subst h
    cases o with
    | none => exact ⟨rfl, hg.calm, hg.drop⟩
    | some e =>
      refine (htake _ e).monoEnds fun o g hg' => ?_
      cases o with
      | none =>
        rw [show g = g' from hg']
        exact ⟨hg.calm, hg.drop⟩
      | some e =>
        rw [show g = { g' with took := some e } from hg']
        refine ⟨calm_of_vac hg.vac, ?_⟩
        show PoolNote.drop _ = _
        rw [PoolNote.drop]
        exact congrArg (fun x => { g' with vac := x, took := some e }) hg.vac.symm
  cases free with
  | some e => exact ⟨rfl, h⟩
  | none =>
    obtain rfl : g' = g := h
    refine Keeps.bindEnds (hevict .B1) .rfl fun recent g h => ?_
    subst h
    cases recent with
    | some e => exact htake _ e
    | none =>
      refine Keeps.bindEnds (hevict .B2) .rfl fun frequent g' h => ?_
      subst h
      cases frequent with
      | some e => exact htake _ e
      | none => exact ⟨rfl, rfl⟩

theorem forgetFrom_does (hg : g.Light) (n : Nat) :
    ∀ o, Does w (forgetFrom (β := β) c n o) held g fun _ g' => g' = g := by
  induction n with
  | zero =>
    intro o
    cases o with
    | none => exact ⟨rfl, rfl⟩
    | some e => trivial
  | succ n ih =>
    intro o
    cases o with
    | none => exact ⟨rfl, rfl⟩
    | some e =>
      refine read_kept fun st => Keeps.ite (fun _ => read_kept fun prev => ih prev) fun _ => read_kept fun tag => ?_
      refine Keeps.bindEnds (samePartition hg ?_) .rfl fun forgotten g' h => ?_
      · refine read_kept fun st => Keeps.ite (fun _ => ⟨rfl, rfl⟩) fun _ => read_kept fun tag => ?_
        refine Keeps.bindEnds mapRemove_ends .rfl fun removed g' h => ?_
        subst h
        exact Keeps.ite (fun _ => ⟨.rfl, hg.calm⟩) fun _ => ⟨rfl, rfl⟩
      · subst h
        exact Keeps.ite (fun _ => ⟨rfl, rfl⟩) fun _ => read_kept fun prev => ih prev

theorem insertMRU_kept {k : Unit → PoolProg β α} {Q : Except String α → List PoolLock → PoolNote → Prop}
    (h : Kept w (k ()) held g Q) :
    Kept w (insertMRU c l e >>= k) held g Q := by
  refine lift_noted BufferManager.quiet_insertMRU fun s r H γ hI _ hγ => ⟨g, hγ ▸ inv_same hI, ?_⟩
  split
  · exact h
  · next what hm => exact absurd rfl ((insertMRU_silent c.dbg l e).error trivial (Prod.ext hm rfl) what)
  · trivial

theorem gives_same (hg : g.Light) (hm : .list l ∈ held) : Gives (poolLogic W β) w (.list l) held g g := by
  have := gives_list (β := β) (w := w) hm hg.calm
  rwa [hg.drop] at this

theorem forgetAnyEntry_does (hg : g.Light) (hl : l ≠ .FreeList) :
    Does w (forgetAnyEntry (β := β) c l) held g fun _ g' => g' = g := by
  have hforget : Does w (do forgetFrom (β := β) c c.rounds (← read fun s => (s.lists l).tail)) (.list l :: held) g
    fun _ g' => g' = g :=
    read_kept fun tail => forgetFrom_does hg _ _
  refine Keeps.acquire takes_lock (Keeps.bind (Keeps.tryCatch (hforget.mono fun res held' g' h => ?_)))
  cases res with
  | error err =>
    have hm : .list l ∈ held' := by
      obtain ⟨rs, -, rfl⟩ := h.1
      exact List.mem_append_right rs List.mem_cons_self
    exact Keeps.release (gives_list hm h.2) ⟨Leaves.erase id h.1, g'.drop_calm⟩
  | ok forgotten =>
    obtain ⟨rfl, rfl⟩ := h
    cases forgotten with
    | none => exact Keeps.release (gives_same hg List.mem_cons_self) ⟨List.erase_cons_head _ _, rfl⟩
    | some e =>
      refine Keeps.acquire takes_lock (Keeps.release (gives_same hg (List.mem_cons_of_mem _ List.mem_cons_self))
        (insertMRU_kept ?_))
      rw [List.erase_cons_tail (by simpa using fun h => hl h.symm), List.erase_cons_head]
      exact Keeps.release (gives_same hg List.mem_cons_self) ⟨List.erase_cons_head _ _, rfl⟩

theorem sizes_does {l' : ListId} (hg : g.Light) : Does w (holding (.list l') (holding (.list l) do
    return (← size (β := β) l, ← size l'))) held g fun _ g' => g' = g :=
  sameList hg <| sameList hg <| read_kept fun _ => read_kept fun _ => ⟨rfl, rfl⟩

theorem preinsertCleanup_does (hg : g.Light) : Does w (preinsertCleanup (β := β) c) held g fun _ g' => g' = g := by
  refine read_kept fun npages => Keeps.bindEnds (sizes_does hg) .rfl fun sizes g' h => ?_
  subst h
  have hadjust : Does w (do adjust (β := β) c (← read fun s => s.P) false) held g' fun _ g => g = g' :=
    read_kept fun p => adjust_does hg
  have hforget :
    ∀ l, l ≠ .FreeList → Does w (do forgetAnyEntry (β := β) c l; adjust c (← read fun s => s.P) false) held g'
      fun _ g => g = g' := fun l hl => Keeps.bindEnds (forgetAnyEntry_does hg hl) .rfl fun _ g h => by
    subst h
    exact hadjust
  refine Keeps.ite (fun _ => Keeps.ite (fun _ => hforget _ nofun) fun _ => ?_) fun _ => ?_
  · exact sameList hg <| read_kept fun tail => vacateFrom_does hg List.mem_cons_self _ _
  · refine Keeps.bindEnds (sizes_does hg) .rfl fun sizes g h => ?_
    subst h
    exact Keeps.ite (fun _ => Keeps.ite (fun _ => hforget _ nofun) fun _ => hadjust) fun _ => ⟨rfl, rfl⟩

/-! ## Hits -/

theorem takes_pass (hh : g.hand = some (e, .hit f)) (hv : g.vac = none) :
    Takes (poolLogic W β) w (.list (topList f)) held g { g with hand := some (e, .passed) } := by
  rintro s r H γ hI rfl rfl hf
  show PoolInv (Locks.take (PoolLock.list (topList f)) s).view r _ _
  rw [view_take]
  exact (hI.take hf).pass hh (by simp) hv

theorem holding_pass {p : PoolProg β α} {φ : α → PoolNote → Prop} (hh : g.hand = some (e, .hit f))
    (hv : g.vac = none)
    (hp : Kept w p (.list (topList f) :: held) { g with hand := some (e, .passed) }
      (Ends IsEntry PoolNote.calm (.list (topList f) :: held) fun a g => g.calm ∧ φ a g.drop)) :
    Does w (holding (.list (topList f)) p) held g φ :=
  Keeps.holdingEnds id (takes_pass hh hv) (fun _ _ hm hc => gives_list hm hc) (fun g _ => g.drop_calm) hp

theorem setFlags_last {F : EntryState → EntryState} {Q : Except String Unit → List PoolLock → PoolNote → Prop}
    (hh : g.hand = some (e, .passed)) (hF : ∀ st, ∃ t f, F st = { st with isTopList := t, isFrequencyList := f })
    (h : Q (.ok ()) held g) :
    Kept w (update (β := β) .other e F) held g Q := by
  rintro s r H γ hI - rfl -
  refine ⟨γ w, ?_, h⟩
  obtain ⟨t, f, hst⟩ := hF (s.pool.state e)
  show PoolInv (s.setState e (F (s.pool.state e))).view r H _
  rw [hst, view_flags]
  exact inv_same (PoolInv.flags hI fun u f' b fl hu => nomatch PoolInv.behind hI hu hh)

theorem setFlags_kept {F : EntryState → EntryState} {k : Unit → PoolProg β α}
    {Q : Except String α → List PoolLock → PoolNote → Prop} (hh : g.hand = some (e, .passed))
    (hF : ∀ st, ∃ t f, F st = { st with isTopList := t, isFrequencyList := f })
    (h : Kept w (k ()) held g Q) : Kept w (update .other e F >>= k) held g Q := Keeps.bind (setFlags_last hh hF h)

theorem handleCacheHit_does (hh : g.hand = some (e, .seen)) (hg : g.Light) :
    Does w (handleCacheHit (β := β) c e) held g fun _ g' => g' = { g with hand := some (e, .passed) } := by
  refine read_noted fun s r H γ hI _ hγ => ?_
  subst hγ
  refine ⟨_, hI.hit hh rfl, check_kept ?_⟩
  generalize hp : ({ γ w with hand := some (e, .passed) } : PoolNote) = g'
  have hg' : g'.Light := hp ▸ ⟨hg.vac, hg.data, nofun⟩
  have hh' : g'.hand = some (e, .passed) := by rw [← hp]
  have hend : ∀ held, Kept w (unlockEntry (β := β) c e) (.entry e :: held) g'
    (Ends IsEntry PoolNote.calm held fun _ g => g = g') :=
    fun held => unlockEntry_ends hg'.calm (hg'.frees e) rfl
  have hmove : ∀ held, Kept w (do moveMRU (β := β) c .T2 e; unlockEntry c e) (.entry e :: held) g'
      (Ends IsEntry PoolNote.calm held fun _ g => g = g') := fun held =>
    Keeps.bindEnds (lift_ends BufferManager.quiet_moveMRU hg'.calm) leaves_entry fun _ _ h => by
      subst h
      exact hend held
  have hdrop : ∀ g : PoolNote, g = g' → g.calm ∧ g.drop = g' := fun g h => by
    rw [h]
    exact ⟨hg'.calm, hg'.drop⟩
  cases hf : (s.pool.state e).isFrequencyList with
  | true =>
    refine Keeps.ite (fun _ => holding_pass (f := true) (by rw [← hf]; rfl) hg.vac ?_) fun hn => absurd rfl hn
    rw [hp]
    exact (lockEntry_kept fun st => check_kept (hmove _) : Does w _ _ g' fun _ g => g = g').monoEnds fun _ g h =>
      hdrop g h
  | false =>
    refine Keeps.ite (fun hn => (nomatch hn)) fun _ => holding_pass (f := false) (by rw [← hf]; rfl) hg.vac ?_
    rw [hp]
    refine (sameList hg' (lockEntry_kept fun st => Keeps.ite (fun _ => ?_) fun _ => hmove _) : Does w _ _ g'
      fun _ g => g = g').monoEnds
      fun _ g h => hdrop g h
    refine Keeps.bindEnds (lift_ends BufferManager.quiet_removeEntry hg'.calm) leaves_entry fun _ _ h => ?_
    subst h
    refine Keeps.bindEnds (lift_ends BufferManager.quiet_insertMRU hg'.calm) leaves_entry fun _ _ h => ?_
    subst h
    exact setFlags_kept hh' (fun st => ⟨st.isTopList, true, rfl⟩) (hend _)

theorem delta_kept {a b : Nat} {k : Nat → PoolProg β α} {Q : Except String α → List PoolLock → PoolNote → Prop}
    (h : ∀ d, Kept w (k d) held g Q) : Kept w (delta a b >>= k) held g Q := by
  unfold delta
  cases BufferManager.ghostDelta a b with
  | ok d => exact h d
  | error err => trivial

theorem exchangeP_kept {a b : Nat} {k : Nat → PoolProg β α} {Q : Except String α → List PoolLock → PoolNote → Prop}
    (h : ∀ p, Kept w (k p) held g Q) : Kept w (exchangeP a b >>= k) held g Q := by
  rintro s r H γ hI - rfl -
  refine ⟨γ w, ?_, h _⟩
  have hv : (if s.pool.P = a then { s with pool := { s.pool with P := b } } else s).view = s.view := by
    split <;> rfl
  show PoolInv (if s.pool.P = a then { s with pool := { s.pool with P := b } } else s).view r H _
  rw [hv]
  exact inv_same hI

/-- A ghost hit goes past every eviction when it finds the entry on no top list. -/
def Ghosted (g : PoolNote) (e : Nat) (g' : PoolNote) : Prop := g' = g ∨ g' = { g with hand := some (e, .passed) }

theorem handleGhostHit_does {k : Hand} (hh : g.hand = some (e, k)) (hg : g.Light) (isFrequency : Bool) :
    Does w (handleGhostHit (β := β) c e isFrequency) held g fun _ g' => Ghosted g e g' := by
  have hdrop : ∀ g', Ghosted g e g' → g'.calm ∧ Ghosted g e g'.drop := by
    rintro g' (rfl | rfl)
    · exact ⟨hg.calm, .inl hg.drop⟩
    · have hl : PoolNote.Light { g with hand := some (e, .passed) } := ⟨hg.vac, hg.data, nofun⟩
      exact ⟨hl.calm, .inr hl.drop⟩
  have hmove : ∀ l, Does w (holding (.list l) <| holding (.list .T2) do
      let st ← lockEntry (β := β) e
      if st.isTopList = false ∧ st.isFrequencyList = isFrequency then
        removeEntry c l e
        insertMRU c .T2 e
        update .other e fun st => { st with isTopList := true, isFrequencyList := true }
      unlockEntry c e) held g fun _ g' => Ghosted g e g' := fun l => by
    refine holding_list <| Keeps.monoEnds (fun _ g' h => hdrop g' h) <| holding_list <|
      Keeps.monoEnds (φ := fun _ g' => Ghosted g e g') (fun _ g' h => hdrop g' h) <| lockEntry_noted
        fun s r H γ hI hH hγ _ => ?_
    subst hγ
    cases ht : (s.pool.state e).isTopList with
    | true =>
      exact ⟨γ w, inv_same hI, Keeps.ite (fun hn => (nomatch hn.1)) fun _ => unlockEntry_ends hg.calm (hg.frees e)
        (.inl rfl)⟩
    | false =>
      refine ⟨_, hI.passGhost hh ht fun _ => ⟨hH ▸ List.mem_cons_self, hg.vac⟩, ?_⟩
      have hl : PoolNote.Light { γ w with hand := some (e, .passed) } := ⟨hg.vac, hg.data, nofun⟩
      refine Keeps.ite (fun _ => ?_) fun _ => unlockEntry_ends hl.calm (hl.frees e) (.inr rfl)
      refine Keeps.bindEnds (lift_ends BufferManager.quiet_removeEntry hl.calm) leaves_entry fun _ _ h => ?_
      subst h
      refine Keeps.bindEnds (lift_ends BufferManager.quiet_insertMRU hl.calm) leaves_entry fun _ _ h => ?_
      subst h
      exact setFlags_kept rfl (fun st => ⟨true, true, rfl⟩) (unlockEntry_ends hl.calm (hl.frees e) (.inr rfl))
  have hold : ∀ p, Does w (do
      adjust c p isFrequency
      let oldList : ListId := if isFrequency then .B1 else .B2
      holding (.list oldList) <| holding (.list .T2) do
        let st ← lockEntry (β := β) e
        if st.isTopList = false ∧ st.isFrequencyList = isFrequency then
          removeEntry c oldList e
          insertMRU c .T2 e
          update .other e fun st => { st with isTopList := true, isFrequencyList := true }
        unlockEntry c e) held g fun _ g' => Ghosted g e g' := fun p => by
    refine Keeps.bindEnds (adjust_does hg) .rfl fun _ g' h => ?_
    subst h
    exact hmove _
  have hsizes : Does w (holding (.list .B1) (holding (.list .B2) do
      return (← size (β := β) .B1, ← size .B2))) held g fun _ g' => g' = g :=
    sameList hg <| sameList hg <| read_kept fun _ => read_kept fun _ => ⟨rfl, rfl⟩
  refine read_kept fun npages => Keeps.bindEnds hsizes .rfl fun sizes g' h => read_kept fun p => ?_
  subst h
  exact Keeps.ite (fun _ => delta_kept fun _ => exchangeP_kept fun p => hold p) fun _ => delta_kept fun _ =>
    exchangeP_kept fun p => hold p

theorem handleHit_does (hh : g.hand = some (e, .found)) (hg : g.Light) :
    Does w (handleHit (β := β) c e) held g fun _ g' => g' = { g with hand := some (e, .passed) } := by
  refine lockEntry_noted fun s r H γ hI hH hγ _ => ?_
  subst hγ
  refine ⟨_, hI.see hh (hH ▸ List.mem_cons_self) hg.vac, ?_⟩
  have hl : ∀ k, k ≠ .ready → PoolNote.Light { γ w with hand := some (e, k) } := fun k hk =>
    ⟨hg.vac, hg.data, fun e' he => hk (by cases he; rfl)⟩
  refine unlockEntry_kept (hl .seen nofun).calm ((hl .seen nofun).frees e) (read_noted fun s r H γ' hI _ hγ => ?_)
  cases ht : (s.pool.state e).isTopList with
  | true =>
    refine ⟨_, inv_same hI, Keeps.ite (fun _ => ?_) fun hn => absurd rfl hn⟩
    rw [hγ]
    exact handleCacheHit_does rfl (hl .seen nofun)
  | false =>
    have hI' := hI.passGhost (w := w) (e := e) (k := .seen) (by rw [hγ]) ht nofun
    rw [hγ] at hI'
    refine ⟨_, hI', Keeps.ite (fun hn => (nomatch hn)) fun _ => ?_⟩
    refine (handleGhostHit_does rfl (hl .passed nofun) _).monoEnds ?_
    rintro _ _ (rfl | rfl) <;> rfl

/-! ## Calls -/

/-- The pin of a call that returns. -/
def Pinned (g : PoolNote) (p : PageTag × Nat) (g' : PoolNote) : Prop := g' = { g with hand := some (p.2, .valid) }

theorem makeBufferPin_tag (dbg : Bool) : Fallible.Spec (fun _ => True) (BufferManager.makeBufferPin (β := β) dbg e)
    (fun p _ => p.2 = e) fun _ _ => True := by
  have hcheck :
    ∀ b, Fallible.Spec (fun _ => True) (BufferManager.check (β := β) dbg b) (fun _ _ => True) fun _ _ => True :=
    fun b => BufferManager.check_ledger b
  exact .bind (.get fun _ => id) fun s => .bind (hcheck _) fun _ => .bind (hcheck _) fun _ => .bind (hcheck _)
    fun _ => .pure fun _ _ => rfl

theorem makeBufferPin_does (hh : g.hand = some (e, .valid)) (hv : g.vac = none) :
    Does w (makeBufferPin (β := β) c e) held g (Pinned g) := by
  rintro s r H γ hI rfl rfl -
  refine ⟨γ w, ?_, ?_⟩
  · show PoolInv (SharedPool.view { s with pool := (BufferManager.makeBufferPin c.dbg e s.pool).2 }) r H
      (Function.update γ w (γ w))
    rw [BufferManager.quiet_makeBufferPin.view s]
    exact inv_same hI
  · dsimp only
    split
    · next p hm =>
      have hp : p.2 = e := (makeBufferPin_tag c.dbg).ok trivial (Prod.ext hm rfl)
      refine ⟨rfl, ?_⟩
      rw [Pinned, hp, ← hh]
    · exact ⟨.rfl, calm_of_vac hv⟩
    · trivial

theorem finishGet_does (hh : g.hand = some (e, .passed)) (hv : g.vac = none) :
    Does w (finishGet (β := β) c e) held g (Pinned g) := by
  have hpin : Does w (makeBufferPin (β := β) c e) held { g with hand := some (e, .valid) } (Pinned g) :=
    makeBufferPin_does rfl hv
  refine read_kept fun _ => check_kept <| read_noted fun s r H γ hI _ hγ => ?_
  subst hγ
  cases hd : (s.pool.state e).dataValid with
  | true => exact ⟨_, hI.read hh rfl hd, Keeps.ite (fun _ => hpin) fun hn => absurd rfl hn⟩
  | false =>
    refine ⟨γ w, inv_same hI, Keeps.ite (fun hn => (nomatch hn)) fun _ => read_noted fun s r H γ' hI _ hγ => ?_⟩
    cases hd : (s.pool.state e).dataValid with
    | true =>
      have hI' := hI.read (w := w) (hγ ▸ hh) rfl hd
      rw [hγ] at hI'
      exact ⟨_, hI', Keeps.ite (fun hn => (nomatch hn)) fun _ => hpin⟩
    | false =>
      refine ⟨_, inv_same hI, Keeps.ite (fun _ => ?_) fun hn => absurd rfl hn⟩
      rw [hγ]
      refine Keeps.bindEnds (readBuffer_does hh hv) .rfl ?_
      rintro _ _ rfl
      exact read_kept fun st => check_kept hpin

/-! ## New entries -/

/-- What is noted of an entry that was taken, alone and with a pin. -/
def holds (e : Nat) : PoolNote := ⟨none, none, some e, none, none⟩

def pinsAndHolds (e e' : Nat) : PoolNote := ⟨some (e', .found), none, some e, none, none⟩

def pinsEntry (e : Nat) (k : Hand) : PoolNote := ⟨some (e, k), none, none, none, none⟩

/-- The end of `insertEntry`: a new entry stays locked. -/
def Inserting (held : List PoolLock) (e : Nat) : Except String Inserted → List PoolLock → PoolNote → Prop
  | .ok .created, held', g => held' = .entry e :: held ∧ g = pinsEntry e .passed
  | .ok .noBuffer, held', g => held' = held ∧ g = pinsAndHolds e e
  | .ok (.existing e'), held', g => held' = held ∧ g = pinsAndHolds e e'
  | .error _, held', g => Leaves IsEntry held held' ∧ g.calm

/-- What holds of it with the partition still locked. -/
def InPartition (i : Nat) (held : List PoolLock) (e : Nat) :
    Except String Inserted → List PoolLock → PoolNote → Prop
  | .ok a, held', g => .partition i ∈ held' ∧ g.calm ∧ Inserting held e (.ok a) (held'.erase (.partition i)) g
  | .error _, held', g => Leaves IsEntry (.partition i :: held) held' ∧ g.calm

variable {i : Nat} {tag : PageTag}

theorem mapInsert_kept {k : Option Nat → PoolProg β α} {Q : Except String α → List PoolLock → PoolNote → Prop}
    (h : ∀ o, Kept w (k o) held g Q) : Kept w (mapInsert tag e >>= k) held g Q := by
  rintro s r H γ hI - rfl -
  refine ⟨γ w, ?_, h _⟩
  dsimp only
  split
  · exact inv_same hI
  · exact inv_same hI

theorem pin_kept {k : Unit → PoolProg β α} {Q : Except String α → List PoolLock → PoolNote → Prop}
    (hh : g.hand = none)
    (h : Kept w (k ()) held { g with hand := some (e, .found) } Q) : Kept w (pin c e >>= k) held g Q :=
  count_kept (n := (· + 1)) (pin_run c.dbg) fun _ _ _ _ hI _ hγ ho => ⟨_, hγ ▸ hI.pin (hγ ▸ hh) ho, h⟩

theorem takeFree_kept {k : Option Nat → PoolProg β α} {Q : Except String α → List PoolLock → PoolNote → Prop}
    (hn : Kept w (k none) held g Q) (hs : ∀ b, Kept w (k (some b)) held { g with data := some b } Q) :
    Kept w (lift .other BufferManager.takeFreeBuffer >>= k) held g Q := by
  rintro s r H γ hI rfl rfl -
  cases hb : s.pool.freeBuffers with
  | nil =>
    have hrun : BufferManager.takeFreeBuffer s.pool = (.ok none, s.pool) := by
      simp [BufferManager.takeFreeBuffer, Fallible.bind_apply, hb]
    refine ⟨γ w, ?_, ?_⟩
    · show PoolInv (SharedPool.view { s with pool := (BufferManager.takeFreeBuffer s.pool).2 }) _ _ _
      rw [hrun]
      exact inv_same hI
    · dsimp only
      rw [hrun]
      exact hn
  | cons b bs =>
    have hrun : BufferManager.takeFreeBuffer s.pool = (.ok (some b), { s.pool with freeBuffers := bs }) := by
      simp [BufferManager.takeFreeBuffer, Fallible.bind_apply, hb]
    refine ⟨{ γ w with data := some b }, ?_, ?_⟩
    · show PoolInv (SharedPool.view { s with pool := (BufferManager.takeFreeBuffer s.pool).2 }) _ _ _
      rw [hrun]
      exact PoolInv.takeBuffer hI hb
    · dsimp only
      rw [hrun]
      exact hs b

theorem attach_kept {b : Nat} {k : Unit → PoolProg β α} {Q : Except String α → List PoolLock → PoolNote → Prop}
    (h : Kept w (k ()) held (pinsEntry e .passed) Q) :
    Kept w (setBuffer (.attach e) e (some b) >>= k) held ⟨some (e, .found), none, some e, some b, none⟩ Q := by
  rintro s r H γ hI - hγ ho
  have ho : (s.pool.state e).locked = false := ho
  have hf : s.view.isFree (.entry e) = true := by simpa [SharedPool.view, Locks.free] using ho
  have hI' := PoolInv.attach hI (w := w) (e := e) (b := b) (by rw [hγ]) (by rw [hγ]) (by rw [hγ]) hf
  rw [hγ] at hI'
  exact ⟨_, hI', h⟩

theorem setTop_kept {k : Unit → PoolProg β α} {Q : Except String α → List PoolLock → PoolNote → Prop}
    (ht : g.took = some e) (h : Kept w (k ()) held g Q) :
    Kept w (update .other e (fun st => { st with isTopList := true }) >>= k) held g Q := by
  refine update_kept fun s r H γ hI _ hγ _ => ⟨g, ?_, h⟩
  have hI' := inv_same (w := w) (hI.flags (e := e) (t := true) (f := s.view.freq e) fun u f' b fl hu => by
    obtain ⟨hb, -⟩ := hI.buffers.detached w e (by rw [hγ, ht])
    obtain ⟨-, -, hb'⟩ := hI.vacating.listed u e f' b fl hu
    cases hb.symm.trans hb')
  rw [← view_flags, hγ] at hI'
  exact hI'

theorem inserted_created :
    Kept w (do let _ ← lockEntry (β := β) e; return Inserted.created) (.partition i :: held) (pinsEntry e .passed)
    (InPartition i held e) := by
  refine lockEntry_kept fun st => ⟨List.mem_cons_of_mem _ List.mem_cons_self, nofun, ?_, rfl⟩
  rw [List.erase_cons_tail (by simp), List.erase_cons_head]

theorem inserted_noBuffer : Kept w (do
    check c.dbg (← mapRemove (β := β) tag)
    return Inserted.noBuffer) (.partition i :: held) (pinsAndHolds e e) (InPartition i held e) := by
  refine Keeps.bind (mapRemove_ends (F := PoolNote.calm).mono fun res held' g h => ?_)
  cases res with
  | ok removed =>
    obtain ⟨rfl, rfl⟩ := h
    exact check_kept ⟨List.mem_cons_self, nofun, List.erase_cons_head _ _, rfl⟩
  | error err => exact h

theorem inserted_existing {existing : Nat} : Kept w (do pin (β := β) c existing; return Inserted.existing existing)
    (.partition i :: held) (holds e) (InPartition i held e) :=
  pin_kept rfl ⟨List.mem_cons_self, nofun, List.erase_cons_head _ _, rfl⟩

theorem holding_insert {p : PoolProg β Inserted} (hp : Kept w p (.partition i :: held) g (InPartition i held e)) :
    Kept w (holding (.partition i) p) held g (Inserting held e) :=
  Keeps.holding (D := id) (C := PoolNote.calm) id takes_lock (fun _ _ hm hc => gives_partition hm hc)
    (fun _ hc => hc) (fun _ _ _ hl hc => ⟨hl, hc⟩) (hp.mono fun res held' g h => by
      cases res with
      | ok a => exact h
      | error err => exact h)

theorem insertEntry_does : Kept w (insertEntry (β := β) c tag e) held (holds e) (Inserting held e) := by
  refine holding_insert <| mapInsert_kept fun o => ?_
  cases o with
  | some existing => exact inserted_existing
  | none =>
    refine setTop_kept rfl <| pin_kept rfl <| takeFree_kept inserted_noBuffer fun b => attach_kept inserted_created

theorem Inserting.bind {m : PoolProg β Inserted} {k : Inserted → PoolProg β α} {φ : α → PoolNote → Prop}
    (hm : Kept w m held g (Inserting held e))
    (hc : Kept w (k .created) (.entry e :: held) (pinsEntry e .passed) (Ends IsEntry PoolNote.calm held φ))
    (hn : Does w (k .noBuffer) held (pinsAndHolds e e) φ)
    (he : ∀ existing, Does w (k (.existing existing)) held (pinsAndHolds e existing) φ) :
    Does w (m >>= k) held g φ := by
  refine Keeps.bind (hm.mono fun res held' g h => ?_)
  cases res with
  | error err => exact h
  | ok a =>
    cases a with
    | created =>
      obtain ⟨rfl, rfl⟩ := h
      exact hc
    | noBuffer =>
      obtain ⟨rfl, rfl⟩ := h
      exact hn
    | existing existing =>
      obtain ⟨rfl, rfl⟩ := h
      exact he existing

theorem putBack_does (ht : g.took = some e) (hg : g.vac = none) :
    Does w (putBack (β := β) c e) held g fun _ g' => g' = { g with took := none } := by
  rintro s r H γ hI rfl rfl -
  refine ⟨{ γ w with took := none }, ?_, ?_⟩
  · show PoolInv (SharedPool.view { s with pool := (BufferManager.insertMRU c.dbg .FreeList e s.pool).2 }) _ H _
    rw [BufferManager.quiet_insertMRU.view s]
    exact PoolInv.freed hI ht
  · dsimp only
    split
    · exact ⟨rfl, rfl⟩
    · exact ⟨.rfl, calm_of_vac hg⟩
    · trivial

theorem freeEntry_does {e' : Nat} :
    Does w (holding (.list .FreeList) (putBack (β := β) c e)) held (pinsAndHolds e e')
    fun _ g => g = pinsEntry e' .found :=
  holding_list <| (putBack_does rfl rfl).monoEnds fun _ g h => by
    rw [h]
    exact ⟨nofun, rfl⟩

theorem noBuffer_does {what : String} {e' : Nat} {φ : α → PoolNote → Prop} : Does w (holding (.list .FreeList) do
    putBack (β := β) c e
    MonadExcept.throw what : PoolProg β α) held (pinsAndHolds e e') φ :=
  holding_list <| Keeps.bindEnds (putBack_does rfl rfl) .rfl fun _ g h => by
    subst h
    exact ⟨.rfl, nofun⟩

theorem light_pinsEntry {k : Hand} (hk : k ≠ .ready) : (pinsEntry e k).Light :=
  ⟨rfl, rfl, fun e' h => hk (by cases h; rfl)⟩

theorem insertFirst_does : Kept w (holding (.list .T1) do
    insertMRU (β := β) c .T1 e
    unlockEntry c e) (.entry e :: held) (pinsEntry e .passed)
      (Ends IsEntry PoolNote.calm held fun _ g => g = pinsEntry e .passed) := by
  have hl : (pinsEntry e .passed).Light := light_pinsEntry nofun
  refine Keeps.holding id takes_lock (fun _ _ hm hc => gives_list hm hc) (fun g _ => g.drop_calm)
    (fun _ _ _ h hc => ⟨leaves_entry.trans h, hc⟩) (insertMRU_kept ?_)
  refine unlockEntry_last (List.mem_cons_of_mem _ List.mem_cons_self) hl.calm (hl.frees e) ?_
  rw [List.erase_cons_tail (by simp), List.erase_cons_head]
  exact ⟨List.mem_cons_self, hl.calm, List.erase_cons_head _ _, rfl⟩

theorem hit_does : Does w (do handleHit (β := β) c e; finishGet c e) held (pinsEntry e .found) (Pinned idle) := by
  refine Keeps.bindEnds (handleHit_does rfl (light_pinsEntry nofun)) .rfl ?_
  rintro _ _ rfl
  exact finishGet_does rfl rfl

theorem getWith_does : Does w (getWith (β := β) c tag e) held (holds e) (Pinned idle) := by
  refine Keeps.bindEnds (lift_ends (BufferManager.quiet_modify fun _ => ⟨rfl, rfl, rfl⟩) nofun) .rfl ?_
  rintro _ _ rfl
  refine update_kept fun s r H γ hI _ hγ ⟨h0, hl⟩ => ⟨holds e, ?_, read_kept fun _ => check_kept ?_⟩
  · have hf : s.view.isFree (.entry e) = true := by simpa [SharedPool.view, Locks.free] using hl
    have hI' := inv_same (w := w) (PoolInv.blank hI h0 hf (hI.buffers.detached w e (by rw [hγ]; rfl)).1)
    rw [← view_blank true, hγ] at hI'
    exact hI'
  · refine Inserting.bind insertEntry_does ?_ (read_kept fun st => check_kept noBuffer_does) fun existing => ?_
    · refine Keeps.bindEnds insertFirst_does .rfl ?_
      rintro _ _ rfl
      exact finishGet_does rfl rfl
    · refine Keeps.bindEnds freeEntry_does .rfl ?_
      rintro _ _ rfl
      exact hit_does

/-- What a lookup in the page map found is pinned. -/
def Found : Option Nat → PoolNote → Prop
  | some e, g => g = pinsEntry e .found
  | none, g => g = idle

theorem light_idle : idle.Light := ⟨rfl, rfl, nofun⟩

theorem getBuffer_does : Does w (getBuffer (β := β) c tag) held idle (Pinned idle) := by
  refine Keeps.bindEnds (φ := Found) (holding_partition <| read_kept fun o => ?_) .rfl fun found g h => ?_
  · cases o with
    | none => exact ⟨rfl, nofun, rfl⟩
    | some e => exact pin_kept rfl ⟨rfl, nofun, rfl⟩
  cases found with
  | some e =>
    obtain rfl : g = pinsEntry e .found := h
    exact hit_does
  | none =>
    obtain rfl : g = idle := h
    refine Keeps.bindEnds (preinsertCleanup_does light_idle) .rfl ?_
    rintro _ _ rfl
    refine Keeps.bindEnds (evictCacheEntry_does light_idle) .rfl fun o g h => ?_
    cases o with
    | some e =>
      obtain rfl : g = holds e := h
      exact getWith_does
    | none =>
      obtain rfl : g = idle := h
      refine holding_partition <| read_kept fun o => ?_
      cases o with
      | none => exact ⟨.rfl, nofun⟩
      | some e =>
        refine pin_kept rfl (hit_does.monoEnds fun p g h => ?_)
        obtain rfl : g = pinsEntry p.2 .valid := h
        exact ⟨nofun, rfl⟩

theorem returnBuffer_does : Does w (returnBuffer (β := β) c e) held (pinsEntry e .passed) fun _ g => g = idle := by
  refine read_kept fun st => check_kept ?_
  refine count_last (n := (· - 1)) (unpin_run c.dbg) fun s r H γ hI _ hγ _ => ?_
  have hI' := hI.unpin (w := w) (e := e) (k := .passed) (by rw [hγ]; rfl)
  rw [hγ] at hI'
  exact ⟨_, hI', rfl, rfl⟩

/-! ## New pages -/

theorem inPartition_bind {m : PoolProg β α} {k : α → PoolProg β Inserted} {φ : α → PoolNote → Prop}
    (hm : Does w m (.partition i :: held) g φ)
    (hk : ∀ a g', φ a g' → Kept w (k a) (.partition i :: held) g' (InPartition i held e)) :
    Kept w (m >>= k) (.partition i :: held) g (InPartition i held e) := by
  refine Keeps.bind (hm.mono fun res held' g' h => ?_)
  cases res with
  | ok a =>
    obtain ⟨rfl, h⟩ := h
    exact hk a g' h
  | error err => exact h

theorem insertTop_does : Does w (holding (.list .T1) do
    insertMRU (β := β) c .T1 e
    update .other e fun st => { st with isTopList := true }) held (pinsEntry e .passed) fun _ g => g =
    pinsEntry e .passed := by
  exact sameList (light_pinsEntry nofun) <| insertMRU_kept <| setFlags_last rfl
    (fun st => ⟨true, st.isFrequencyList, rfl⟩) ⟨rfl, rfl⟩

theorem insertExtension_does : Kept w (insertExtension (β := β) c tag e) held (holds e) (Inserting held e) := by
  refine holding_insert <| mapInsert_kept fun o => ?_
  cases o with
  | some existing => exact inserted_existing
  | none =>
    refine read_kept fun st => check_kept <| inPartition_bind
      (lift_ends (BufferManager.quiet_modify fun _ => ⟨rfl, rfl, rfl⟩) nofun) ?_
    rintro _ _ rfl
    refine update_kept fun s r H γ hI _ hγ _ => ⟨holds e, ?_, ?_⟩
    · have hI' := inv_same (w := w) hI
      rw [← view_tagValid true, hγ] at hI'
      exact hI'
    · refine pin_kept rfl <| takeFree_kept inserted_noBuffer fun b => attach_kept <|
        inPartition_bind insertTop_does ?_
      rintro _ _ rfl
      exact inserted_created

theorem restartIo_does (n : Nat) :
    ∀ k, Does w (restartIo (β := β) c e n) held (pinsEntry e k) fun _ g => g = pinsEntry e .input := by
  induction n with
  | zero => exact fun k => trivial
  | succ n ih =>
    intro k
    refine lockEntry_kept fun st => update_kept fun s r H γ hI hH hγ ⟨h1, hd⟩ => ?_
    have hI' :=
      hI.restart (w := w) (e := e) (k := k) (by rw [hγ]; rfl) (hH ▸ List.mem_cons_self) (by rw [hγ]; rfl) h1 hd
    rw [← view_valid, hγ] at hI'
    refine ⟨_, hI', unlockEntry_kept nofun (frees_of_vac rfl nofun) (Keeps.bindEnds (shouldRead_does rfl rfl) .rfl
      fun started g h => ?_)⟩
    subst h
    cases started with
    | true => exact ⟨rfl, rfl⟩
    | false => exact ih .valid

theorem writePage_does {page : BufferManager β → β} {F : PoolNote → Prop} (hg : F g) :
    Kept w (writePage .other tag page) held g (Ends IsEntry F held fun _ g' => g' = g) := by
  have hq : BufferManager.Quiet (β := β) (do
      BufferManager.nextIo
      if tag.pageno = PageNumber.Invalid then
        MonadExcept.throw (.runtimeError "could not write page: pageno is invalid")) := fun t =>
    .bind (BufferManager.quiet_nextIo t) fun _ => .ite (fun _ => .throw) fun _ => .pure
  refine Keeps.bindEnds (lift_ends hq hg) .rfl ?_
  rintro _ _ rfl
  exact lift_ends (BufferManager.quiet_modify fun _ => ⟨rfl, rfl, rfl⟩) hg

theorem writeExtension_does [Inhabited β] {k : Hand} (hk : k = .input ∨ k = .valid) :
    Does w (writeExtension (β := β) c tag e) held (pinsEntry e k) (Pinned idle) := by
  rintro s r H γ hI - hγ ho
  have hd : (s.pool.state e).dataValid = false := ho
  rcases hk with rfl | rfl
  · refine ⟨pinsEntry e .input, hγ ▸ inv_same hI, check_kept <| bufferOf_kept fun b => holding_page ?_⟩
    refine Keeps.bindEnds (φ := fun _ g => g = pinsEntry e .input)
      (Keeps.rethrow (F := (· = pinsEntry e .input)) (writePage_does rfl) ?_)
      .rfl ?_
    · rintro err held' _ rfl
      refine (endRead_error (g := pinsEntry e .input) rfl rfl).monoEnds ?_
      rintro _ _ rfl
      nofun
    · rintro _ _ rfl
      refine bufferOf_kept fun b => Keeps.bindEnds
        (lift_ends (BufferManager.quiet_modify fun _ => ⟨rfl, rfl, rfl⟩) nofun) .rfl ?_
      rintro _ _ rfl
      refine Keeps.bindEnds (endRead_valid rfl rfl) .rfl ?_
      rintro _ _ rfl
      refine (makeBufferPin_does rfl rfl).monoEnds fun p g h => ?_
      obtain rfl : g = pinsEntry p.2 .valid := h
      exact ⟨nofun, rfl⟩
  · have := PoolInv.reading hI |>.read w e (by rw [hγ]; rfl)
    cases hd.symm.trans this

theorem extendRelation_does [Inhabited β] {relid : Nat} :
    Does w (extendRelation (β := β) c relid) held idle (Pinned idle) := by
  refine check_kept <| Keeps.bindEnds (preinsertCleanup_does light_idle) .rfl ?_
  rintro _ _ rfl
  refine Keeps.bindEnds (evictCacheEntry_does light_idle) .rfl fun o g h => ?_
  cases o with
  | none => exact ⟨.rfl, h ▸ nofun⟩
  | some fresh =>
    obtain rfl : g = holds fresh := h
    refine Keeps.bindEnds (lift_ends BufferManager.quiet_nextIo nofun) .rfl ?_
    rintro _ _ rfl
    refine read_kept fun nblocks => Inserting.bind insertExtension_does ?_ noBuffer_does fun existing => ?_
    · refine Keeps.bindEnds insertTop_does leaves_entry ?_
      rintro _ _ rfl
      refine unlockEntry_kept nofun (frees_of_vac rfl nofun) (Keeps.bindEnds (shouldRead_does rfl rfl) .rfl
        fun started g h => ?_)
      subst h
      exact check_kept (writeExtension_does (by cases started <;> simp))
    · refine Keeps.bindEnds freeEntry_does .rfl ?_
      rintro _ _ rfl
      have hrest :
        ∀ k, Does w (do restartIo (β := β) c existing c.rounds; writeExtension c ⟨relid, nblocks⟩ existing) held
          (pinsEntry existing k) (Pinned idle) := fun k => Keeps.bindEnds (restartIo_does _ k) .rfl fun _ g h => by
        subst h
        exact writeExtension_does (.inl rfl)
      refine read_kept fun st => Keeps.ite (fun _ => ?_) fun _ => hrest _
      refine Keeps.bindEnds (handleGhostHit_does rfl (light_pinsEntry (k := .found) nofun) _) .rfl ?_
      rintro _ _ (rfl | rfl)
      · exact hrest _
      · exact hrest _

/-! ## Calls -/

/-- What is noted when a call begins. -/
def callNote : PoolCall β → PoolNote
  | .returnBuffer _ e => pinsEntry e .passed
  | .modify e _ => { idle with uses := some (e, none) }
  | _ => idle

/-- How a call ends: the page that it returns is pinned and valid. -/
def CallEnd : Except String PoolResult → List PoolLock → PoolNote → Prop
  | .ok res, _, g => g.calm ∧ ∀ p, res = some p → g.hand = some (p.2, .valid)
  | .error _, _, g => g.calm

theorem ofCall_kept [Inhabited β] (call : PoolCall β) : Kept w (ofCall c call) held (callNote call) CallEnd := by
  have hsome : ∀ p : PoolProg β (PageTag × Nat), Does w p held idle (Pinned idle) →
    Kept w (some <$> p) held idle CallEnd := fun p hp =>
    Keeps.bind (hp.mono fun res held' g h => by
      cases res with
      | ok a =>
        obtain ⟨-, rfl⟩ := h
        exact ⟨nofun, fun p hp => by cases hp; rfl⟩
      | error err => exact h.2)
  cases call with
  | getBuffer tag => exact hsome _ getBuffer_does
  | extendRelation relid => exact hsome _ extendRelation_does
  | returnBuffer tag e =>
    refine Keeps.bind ((returnBuffer_does (w := w) (c := c) (e := e)).mono fun res held' g h => ?_)
    cases res with
    | ok a =>
      obtain ⟨-, rfl⟩ := h
      exact ⟨nofun, nofun⟩
    | error err => exact h.2
  | lockPage e => exact bufferOf_kept fun b => Keeps.acquire takes_lock ⟨nofun, nofun⟩
  | modify e page =>
    refine read_kept fun _ => check_kept <| bufferOf_noted fun s r H γ b hI _ hγ hb => ?_
    obtain ⟨hm, -⟩ := hI.buffers.used w e none (by rw [hγ]; rfl)
    have hI' := hI.use (w := w) (o := some b) hm fun b' hb' => hb' ▸ hb
    rw [hγ] at hI'
    refine ⟨_, hI', ?_⟩
    rintro s r H γ hI - hγ -
    have hI' := inv_same (w := w) (PoolInv.modify hI (w := w) (e := e) (b := b) (by rw [hγ]))
    exact ⟨_, hI', by rw [hγ]; nofun, nofun⟩
  | markDirty e =>
    rintro s r H γ hI - hγ -
    have hI' := inv_same (w := w) (PoolInv.mark hI (w := w) (e := e))
    rw [← view_dirty, hγ] at hI'
    exact ⟨_, hI', nofun, nofun⟩
  | unlockPage e => exact bufferOf_kept fun b => Keeps.release (gives_page nofun) ⟨nofun, nofun⟩

end

end PoolProg

/-! ## Runs -/

open PoolProg

namespace PoolWorkers

variable {W β : Type} [DecidableEq W] {c : PoolBuild} {s t : PoolWorkers W β} {γ : W → PoolNote} {w : W}

/-- Every step meets its condition. -/
def StepsOrderly (s : PoolWorkers W β) : W × PoolStep β → Prop
  | (w, .run _) => Orderly s.shared s.record (s.worker w).prog.event
  | _ => True

/-- The invariant, with the notes of the workers that are in a call. -/
structure Noted (s : PoolWorkers W β) (γ : W → PoolNote) : Prop where
  inv : PoolInv s.shared.view s.record (fun w => (s.worker w).held) γ
  resting : ∀ w, s.calls w = none → γ w = idle
  running : ∀ w, s.calls w ≠ none → Kept w (s.worker w).prog (s.worker w).held (γ w) CallEnd

theorem Noted.of_other (h : Noted s γ) {v : PoolWorker β} {g : PoolNote}
    (hw : t.worker = Function.update s.worker w v) (hc : ∀ u, u ≠ w → t.calls u = s.calls u)
    (hI : PoolInv t.shared.view t.record (Function.update (fun w => (s.worker w).held) w v.held)
      (Function.update γ w g))
    (hi : t.calls w = none → g = idle) (hr : t.calls w ≠ none → Kept w v.prog v.held g CallEnd) :
    Noted t (Function.update γ w g) := by
  have hheld : (fun w => (t.worker w).held) = Function.update (fun w => (s.worker w).held) w v.held := by
    rw [hw]
    exact Function.comp_update Worker.held s.worker w v
  refine ⟨hheld ▸ hI, fun u hu => ?_, fun u hu => ?_⟩
  · by_cases e : u = w
    · subst e
      rw [Function.update_self]
      exact hi hu
    · rw [Function.update_of_ne e]
      exact h.resting u (hc u e ▸ hu)
  · by_cases e : u = w
    · subst e
      rw [hw, Function.update_self, Function.update_self]
      exact hr hu
    · rw [hw, Function.update_of_ne e, Function.update_of_ne e]
      exact h.running u (hc u e ▸ hu)

/-- The pin that a call is begun with is given up, or used. -/
theorem begin_inv {H : W → List PoolLock} {call : PoolCall β} (h : PoolInv s.shared.view s.record H γ)
    (hg : γ w = idle) (hp : s.permits w call = true) :
    PoolInv s.shared.view (giveUp s.record w call) H (Function.update γ w (callNote call)) := by
  cases call with
  | returnBuffer tag e =>
    simp only [permits, Bool.and_eq_true, Bool.not_eq_true', List.contains_eq_mem, decide_eq_true_eq,
      decide_eq_false_iff_not] at hp
    have hI' := h.giveUp (w := w) (e := e) tag (by rw [hg]; rfl) (by rw [hg]; rfl) hp.1 hp.2
    rw [hg] at hI'
    exact hI'
  | modify e page =>
    simp only [permits, Bool.and_eq_true, List.any_eq_true, beq_iff_eq] at hp
    obtain ⟨⟨⟨tag, e'⟩, hm, rfl⟩, -⟩ := hp
    have hI' := h.use (w := w) (o := none) ⟨tag, hm⟩ nofun
    rw [hg] at hI'
    exact hI'
  | _ =>
    have hI' := inv_same (w := w) h
    rw [hg] at hI'
    exact hI'

/-- The call is over: its page is pinned, and nothing else is noted. -/
theorem finish_inv {H : W → List PoolLock} {result : PoolResult} (h : PoolInv s.shared.view s.record H γ)
    (hc : (γ w).calm) (hr : ∀ p, result = some p → (γ w).hand = some (p.2, .valid)) :
    PoolInv s.shared.view { s.record with
      pins := Function.update s.record.pins w (result.toList ++ s.record.pins w) } H
      (Function.update γ w idle) := by
  have hidle : ∀ g : PoolNote, idle.Within g := fun g => ⟨.inl rfl, .inl rfl, .inl rfl, .inl rfl, .inl rfl⟩
  cases result with
  | none =>
    have hpins : Function.update s.record.pins w (([] : List (PageTag × Nat)) ++ s.record.pins w) = s.record.pins :=
      Function.update_eq_self w s.record.pins
    rw [Option.toList_none, hpins]
    exact h.forget (hidle _) hc
  | some p =>
    obtain ⟨tag, e⟩ := p
    have hI' := (h.complete tag (hr _ rfl)).forget (w := w) (hidle _) (by rw [Function.update_self]; exact hc)
    rwa [Function.update_idem] at hI'

variable [Inhabited β]

theorem Noted.step {op : W × PoolStep β} (h : Noted s γ) (ho : StepsOrderly s op)
    (hs : PoolWorkers.step c s op = some t) :
    ∃ γ', Noted t γ' := by
  obtain ⟨w, op⟩ := op
  cases op with
  | begin call =>
    obtain ⟨⟨-, hidle, hp⟩, hs⟩ := Option.ite_none_right_eq_some.1 hs
    cases hs
    have hg : γ w = idle := h.resting w (Option.isNone_iff_eq_none.1 hidle)
    refine ⟨_, h.of_other (w := w) (g := callNote call) rfl (fun u hu => Function.update_of_ne hu _ _) ?_ ?_
      fun _ => ofCall_kept call⟩
    · rw [Function.update_eq_self]
      exact begin_inv h.inv hg hp
    · intro hn
      cases (Function.update_self w (some call) s.calls).symm.trans hn
  | run io =>
    obtain ⟨⟨-, hcall⟩, hs⟩ := Option.ite_none_right_eq_some.1 hs
    obtain ⟨⟨shared, v⟩, hv, rfl⟩ := Option.map_eq_some_iff.1 hs
    have hcall : s.calls w ≠ none := fun hn => by
      rw [hn] at hcall
      cases hcall
    have hnote : (s.worker w).noted (poolLogic W β) w (withIo s.shared io) s.record =
        s.record.note w s.shared.pool (s.worker w).prog.event := by
      unfold Worker.noted
      cases (s.worker w).prog <;> rfl
    obtain ⟨g, hI, hk⟩ :=
      Worker.step_keeps (T := poolLogic W β) (w := w) (p := s.record) (h.running w hcall) hv h.inv rfl
      fun label next upd hp => by
        have ho : Orderly s.shared s.record (s.worker w).prog.event := ho
        rw [hp] at ho
        exact ho
    rw [hnote] at hI
    exact ⟨_, h.of_other (w := w) rfl (fun _ _ => rfl) hI (fun hn => absurd hn hcall) fun _ => hk⟩
  | finish =>
    obtain ⟨⟨-, hcall⟩, hs⟩ := Option.ite_none_right_eq_some.1 hs
    have hend := h.running w fun hn => by
      rw [hn] at hcall
      cases hcall
    have hheld : Function.update (fun w => (s.worker w).held) w (s.worker w).held = fun w => (s.worker w).held :=
      Function.update_eq_self w _
    have hover : ∀ u : PoolWorkers W β, u.calls = Function.update s.calls w none → u.calls w ≠ none → False :=
      fun u hu hn =>
      hn (hu ▸ Function.update_self ..)
    cases hprog : (s.worker w).prog with
    | done result =>
      simp only [hprog] at hs hend
      cases hs
      refine ⟨_, h.of_other (w := w) (v := s.worker w) (g := idle) (Function.update_eq_self w _).symm
        (fun u hu => Function.update_of_ne hu _ _) ?_ (fun _ => rfl) fun hn => (hover _ rfl hn).elim⟩
      rw [hheld]
      exact finish_inv h.inv hend.1 hend.2
    | throw err =>
      simp only [hprog] at hs hend
      cases hs
      refine ⟨_, h.of_other (w := w) (v := s.worker w) (g := idle) (Function.update_eq_self w _).symm
        (fun u hu => Function.update_of_ne hu _ _) ?_ (fun _ => rfl) fun hn => (hover _ rfl hn).elim⟩
      rw [hheld]
      exact h.inv.forget ⟨.inl rfl, .inl rfl, .inl rfl, .inl rfl, .inl rfl⟩ hend
    | _ =>
      simp only [hprog] at hs
      cases hs

theorem start_noted {npages : Nat} {disk : PageTag → β} {fileSize : Nat → Nat} {pool : BufferManager β}
    (hc : BufferManager.create c.dbg npages disk fileSize = .ok pool) :
    Noted (start pool : PoolWorkers W β) fun _ => idle := by
  have hf := BufferManager.create_fresh hc
  have hstate : pool.state = fun _ => .empty := by rw [hf.eq]; rfl
  have hbuffer : pool.buffer = fun _ => none := by rw [hf.eq]; rfl
  have hfree : pool.freeBuffers = (List.range npages).reverse := by rw [hf.eq]
  refine ⟨⟨⟨nofun, nofun, fun _ _ _ => Nat.zero_le _⟩, ⟨?_, ?_⟩, ⟨nofun, nofun, nofun, nofun, nofun⟩,
    ⟨nofun, nofun, nofun, nofun, nofun⟩,
    ⟨nofun, nofun, nofun, nofun⟩, ?_, nofun⟩, fun _ _ => rfl, fun w hw => absurd rfl hw⟩
  · intro e
    show (pool.state e).refCount < 2 ^ 20
    rw [hstate]
    exact Nat.two_pow_pos 20
  · intro e S
    exact (Finset.sum_eq_zero fun _ _ => rfl).trans_le (Nat.zero_le _)
  · have hb : ∀ e b, pool.buffer e ≠ some b := fun e b hb => by
      rw [hbuffer] at hb
      cases hb
    refine ⟨fun e _ b h => absurd h (hb e b), fun e b _ => hb e b, ?_, nofun, nofun, fun _ _ => rfl, nofun, nofun,
      nofun⟩
    show pool.freeBuffers.Nodup
    rw [hfree, List.nodup_reverse]
    exact List.nodup_range

/-- While the lists tell where the entries are, a buffer is detached from its entry only with no pin
of a returned call outstanding and with all its changes in the file. -/
theorem evictions_safe {npages : Nat} {disk : PageTag → β} {fileSize : Nat → Nat} {pool : BufferManager β}
    (hc : BufferManager.create c.dbg npages disk fileSize = .ok pool)
    (h : Reach (step c) StepsOrderly (start pool) s) :
    ∀ d ∈ s.record.detaches, d.Safe := by
  have hs : ∃ γ, Noted s γ :=
    h.inv (I := fun s => ∃ γ, Noted s γ) (fun _ _ _ ⟨_, hs⟩ ho ht => hs.step ho ht) ⟨_, start_noted hc⟩
  obtain ⟨γ, hs⟩ := hs
  exact hs.inv.detaches

instance (s : PoolWorkers W β) : ∀ op : W × PoolStep β, Decidable (StepsOrderly s op)
  | (w, .run _) => inferInstanceAs (Decidable (Orderly s.shared s.record (s.worker w).prog.event))
  | (_, .begin _) | (_, .finish) => inferInstanceAs (Decidable True)

/-- A whole call of a worker. -/
def called (w : Nat) (call : PoolCall Nat) (n : Nat) : List (Nat × PoolStep Nat) :=
  (w, .begin call) :: steps w n ++ [(w, .finish)]

theorem onePage_create : BufferManager.create true 1 (fun _ => 0) (fun _ => 24576) = .ok (onePage true) := rfl

/-- A page is changed and marked, and another one takes its buffer. -/
theorem evictions_safe_changed :
    ∃ s : PoolWorkers Nat Nat, Reach (step build) StepsOrderly (start (onePage true)) s ∧
    (∃ d ∈ s.record.detaches, d.buffer = some 0) ∧ ∀ d ∈ s.record.detaches, d.Safe := by
  have h : (exec (guarded StepsOrderly (step build)) (start (onePage true))
      (called 0 (.getBuffer ⟨1, 0⟩) 62 ++ called 0 (.lockPage 0) 2 ++ called 0 (.modify 0 7) 3 ++
        called 0 (.markDirty 0) 1 ++
        called 0 (.unlockPage 0) 2 ++ called 0 (.returnBuffer ⟨1, 0⟩ 0) 2 ++ [(0, .begin (.getBuffer ⟨1, 1⟩))] ++
        steps 0 40)).map
      (fun s => decide (∃ d ∈ s.record.detaches, d.buffer = some 0)) = some true := by decide +kernel
  obtain ⟨s, hr, hs⟩ := reach_of_test h
  exact ⟨s, hr.of_guarded, of_decide_eq_true hs, evictions_safe onePage_create hr.of_guarded⟩

/-- A pool of two pages over files of zeros. -/
def pagePair : BufferManager Nat :=
  (BufferManager.create true 2 (fun _ => 0) (fun _ => 81920)).toOption.getD
    (BufferManager.blank 2 (fun _ => 0) (fun _ => 81920))

/-- Two misses of one page leave its entries where they were vacated. One of them is used again and is
hit once, so it is on `T2` and still found on `T1`: a miss vacates it with the latch of `T1`, and with
the latch of `T2` the page is pinned, changed and given back after it was flushed. -/
theorem stale_entry_evicted : BufferManager.create true 2 (fun _ => 0) (fun _ => 81920) = .ok pagePair ∧
    ∃ s : PoolWorkers Nat Nat, Reach (step build) anyStep (start pagePair) s ∧ ¬ ∀ d ∈ s.record.detaches,
    d.Safe := by
  have h : (exec (step build) (start pagePair)
      ([(0, .begin (.getBuffer ⟨1, 0⟩)), (1, .begin (.getBuffer ⟨1, 0⟩))] ++ steps 0 4 ++ steps 1 4 ++ steps 0 25 ++
        steps 1 25 ++
        steps 0 33 ++ [(0, .finish)] ++ called 0 (.returnBuffer ⟨1, 0⟩ 0) 2 ++ steps 1 23 ++ [(1, .finish)] ++
        called 1 (.returnBuffer ⟨1, 0⟩ 0) 2 ++ called 0 (.getBuffer ⟨1, 1⟩) 62 ++
        called 0 (.returnBuffer ⟨1, 1⟩ 1) 2 ++
        called 0 (.getBuffer ⟨1, 2⟩) 95 ++ called 0 (.returnBuffer ⟨1, 2⟩ 1) 2 ++ called 0 (.getBuffer ⟨1, 2⟩) 20 ++
        called 0 (.returnBuffer ⟨1, 2⟩ 1) 2 ++ [(0, .begin (.getBuffer ⟨1, 3⟩))] ++ steps 0 29 ++
        called 1 (.getBuffer ⟨1, 2⟩) 16 ++
        called 1 (.lockPage 1) 2 ++ called 1 (.modify 1 7) 3 ++ called 1 (.markDirty 1) 1 ++
        called 1 (.unlockPage 1) 2 ++
        called 1 (.returnBuffer ⟨1, 2⟩ 1) 2 ++ steps 0 4)).map
      (fun s => decide (∃ d ∈ s.record.detaches, d.buffer = some 0 ∧ d.unwritten 0 = true)) = some true := by
        decide +kernel
  obtain ⟨s, hr, hs⟩ := reach_of_test h
  obtain ⟨d, hd, hb, hu⟩ := of_decide_eq_true hs
  refine ⟨rfl, s, hr, fun hsafe => ?_⟩
  obtain ⟨-, hw⟩ := hsafe d hd 0 hb
  cases hw.symm.trans hu

end PoolWorkers

end Mimidb
