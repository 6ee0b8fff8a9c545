import Mimidb.BufferSearch

/-!
# Searches that find nothing

`exhausted` reads off a pool that no entry can be taken: the walks of the
search meet pinned entries alone, and so does the walk of the cleanup for a
victim. A search in such a pool changes nothing. In a pool whose lists share
no entry, a search that finds nothing began in such a pool.
-/

namespace Mimidb

namespace BufferManager

variable {β : Type}

/-- A walk towards the head of a list ends and meets pinned entries alone, none of them locked. -/
def allPinned (s : BufferManager β) : Nat → Option Nat → Bool
  | _, none => true
  | 0, some _ => false
  | fuel + 1, some e => (s.state e).pinned && !(s.state e).locked && s.allPinned fuel (s.prev e)

def busy (s : BufferManager β) (l : ListId) : Bool := s.allPinned s.walkBound (s.lists l).tail

/-- The top list that the replacement of the cleanup shortens. -/
def replaced (s : BufferManager β) : ListId :=
  if 0 < (s.lists .T1).size ∧ s.P < (s.lists .T1).size then .T1 else .T2

/-- The list in which the cleanup looks for a victim. -/
def victimList (s : BufferManager β) : Option ListId :=
  let t1size := (s.lists .T1).size
  let b1size := (s.lists .B1).size
  if s.npages ≤ (t1size + b1size) % counter then some (if t1size < s.npages then s.replaced else .T1)
  else if s.npages ≤ (t1size + b1size + (s.lists .T2).size + (s.lists .B2).size) % counter then some s.replaced
  else none

/-- The ghost list from which the cleanup forgets an entry first. -/
def forgetList (s : BufferManager β) : Option ListId :=
  let t1size := (s.lists .T1).size
  let b1size := (s.lists .B1).size
  let sum := (t1size + b1size + (s.lists .T2).size + (s.lists .B2).size) % counter
  if s.npages ≤ (t1size + b1size) % counter then if t1size < s.npages then some .B1 else none
  else if s.npages ≤ sum ∧ sum = s.npages * 2 % counter then some .B2 else none

/-- No entry can be taken, nor a victim be vacated. -/
def exhausted (s : BufferManager β) : Bool :=
  s.busy .FreeList && s.busy .B1 && s.busy .B2 && s.victimList.all s.busy

variable {dbg isFrequency : Bool} {s t u : BufferManager β} {e fuel : Nat} {o : Option Nat} {l : ListId}

/-! ## Walks over pinned entries -/

theorem allPinned_succ (h : s.allPinned (fuel + 1) (some e) = true) :
    (s.state e).pinned = true ∧ (s.state e).locked = false ∧ s.allPinned fuel (s.prev e) = true := by
  simpa [allPinned, and_assoc] using h

theorem tryVacateEntry_pinned (hp : (s.state e).pinned = true) (hl : (s.state e).locked = false) :
    tryVacateEntry dbg e isFrequency s = (.ok false, s) := by
  have hpinned : EntryState.pinned { s.state e with locked := true } = true := hp
  rw [tryVacateEntry, Fallible.bind_ok (lockEntry_free hl), if_pos hpinned, Fallible.bind_ok (unlockEntry_back hl)]
  rfl

theorem vacateFrom_allPinned (h : s.allPinned fuel o = true) :
    vacateFrom dbg isFrequency fuel o s = (.ok (), s) := by
  induction fuel generalizing o with
  | zero =>
    cases o with
    | none => rfl
    | some e => cases h
  | succ fuel ih =>
    cases o with
    | none => rfl
    | some e =>
      obtain ⟨hp, hl, hrest⟩ := allPinned_succ h
      rw [vacateFrom, Fallible.bind_ok (tryVacateEntry_pinned hp hl)]
      exact ih hrest

theorem popFrom_allPinned (h : s.allPinned fuel o = true) : popFrom dbg l fuel o s = (.ok none, s) := by
  induction fuel generalizing o with
  | zero =>
    cases o with
    | none => rfl
    | some e => cases h
  | succ fuel ih =>
    cases o with
    | none => rfl
    | some e =>
      obtain ⟨hp, hl, hrest⟩ := allPinned_succ h
      have hpinned : EntryState.pinned { s.state e with locked := true } = true := hp
      rw [popFrom, Fallible.bind_ok (lockEntry_free hl), if_pos hpinned, Fallible.bind_ok (unlockEntry_back hl)]
      exact ih hrest

theorem evictFrom_allPinned (h : s.allPinned fuel o = true) : evictFrom dbg l fuel o s = (.ok none, s) := by
  induction fuel generalizing o with
  | zero =>
    cases o with
    | none => rfl
    | some e => cases h
  | succ fuel ih =>
    cases o with
    | none => rfl
    | some e =>
      obtain ⟨hp, hl, hrest⟩ := allPinned_succ h
      have hpinned : EntryState.pinned { s.state e with locked := true } = true := hp
      rw [evictFrom, Fallible.bind_ok (lockEntry_free hl), Fallible.bind_ok (unlockEntry_back hl), if_pos hpinned]
      exact ih hrest

theorem forgetFrom_allPinned (h : s.allPinned fuel o = true) : forgetFrom dbg fuel o s = (.ok (), s) := by
  induction fuel generalizing o with
  | zero =>
    cases o with
    | none => rfl
    | some e => cases h
  | succ fuel ih =>
    cases o with
    | none => rfl
    | some e =>
      obtain ⟨hp, -, hrest⟩ := allPinned_succ h
      rw [forgetFrom, Fallible.bind_ok (getState_apply (s := s)), if_pos hp]
      exact ih hrest

/-! ## The cleanup and the search -/

/-- The walk of the replacement over a top list. -/
def vacateIn (dbg : Bool) (l : ListId) : PoolM β Unit := do
  let s ← get
  vacateFrom dbg (l = .T2) s.walkBound (s.lists l).tail

theorem adjust_eq : adjust dbg s.P false s = vacateIn dbg s.replaced s := by
  rw [adjust, vacateIn, replaced, Fallible.bind_ok (Fallible.get_apply s), Fallible.bind_ok (Fallible.get_apply s)]
  by_cases h : 0 < (s.lists .T1).size ∧ s.P < (s.lists .T1).size
  · rw [if_pos h, if_pos ⟨h.1, .inl h.2⟩]
    rfl
  · rw [if_neg h, if_neg fun hc => h ⟨hc.1, hc.2.resolve_right fun hf => absurd hf.2 (by simp)⟩]
    rfl

/-- The cleanup forgets an entry of one ghost list at most and then vacates one of a top list at most. -/
theorem preinsertCleanup_eq : preinsertCleanup dbg s =
    match s.forgetList with
    | some l => (do forgetAnyEntry dbg l; adjust dbg (← get).P false) s
    | none =>
      match s.victimList with
      | some l => vacateIn dbg l s
      | none => (.ok (), s) := by
  rw [preinsertCleanup, Fallible.bind_ok (Fallible.get_apply s)]
  simp only [forgetList, victimList]
  split_ifs <;> first | rfl | omega | exact adjust_eq

theorem victimList_of_forget (h : s.forgetList = some l) :
    s.victimList = some s.replaced ∧ (l = .B1 ∨ l = .B2) := by
  simp only [forgetList] at h
  simp only [victimList]
  split_ifs at h ⊢ with h1 h2 h3
  · exact ⟨rfl, .inl (Option.some.inj h).symm⟩
  · exact ⟨rfl, .inr (Option.some.inj h).symm⟩
  next hsum => exact absurd hsum.1 h3

theorem evictCacheEntry_busy (hf : s.busy .FreeList = true) (h1 : s.busy .B1 = true) (h2 : s.busy .B2 = true) :
    evictCacheEntry dbg s = (.ok none, s) := by
  have hpop : popTail dbg .FreeList s = (.ok none, s) := by
    rw [popTail, Fallible.bind_ok (Fallible.get_apply s)]
    exact popFrom_allPinned hf
  rw [evictCacheEntry, Fallible.bind_ok hpop]
  have hone : evictFrom dbg .B1 s.walkBound (s.lists .B1).tail s = (.ok none, s) := evictFrom_allPinned h1
  simp only [Fallible.bind_apply, Fallible.get_apply, hone]
  exact evictFrom_allPinned h2

theorem vacateIn_busy (h : s.busy l = true) : vacateIn dbg l s = (.ok (), s) := by
  rw [vacateIn, Fallible.bind_ok (Fallible.get_apply s)]
  exact vacateFrom_allPinned h

theorem search_exhausted (h : s.exhausted = true) : search dbg s = (.ok none, s) := by
  simp only [exhausted, Bool.and_eq_true] at h
  obtain ⟨⟨⟨hf, h1⟩, h2⟩, hv⟩ := h
  have hcleanup : preinsertCleanup dbg s = (.ok (), s) := by
    rw [preinsertCleanup_eq]
    cases hg : s.forgetList with
    | none =>
      cases hl : s.victimList with
      | none => rfl
      | some l =>
        rw [hl] at hv
        exact vacateIn_busy hv
    | some l =>
      obtain ⟨hl, hghost⟩ := victimList_of_forget hg
      rw [hl] at hv
      have hforget : forgetAnyEntry dbg l s = (.ok (), s) := by
        rw [forgetAnyEntry, Fallible.bind_ok (Fallible.get_apply s)]
        rcases hghost with rfl | rfl
        · exact forgetFrom_allPinned h1
        · exact forgetFrom_allPinned h2
      simp only [Fallible.bind_apply, hforget, Fallible.get_apply]
      rw [adjust_eq]
      exact vacateIn_busy hv
  rw [search, Fallible.bind_ok hcleanup]
  exact evictCacheEntry_busy hf h1 h2

/-! ## Links and lists that stay -/

structure SameLinks (s t : BufferManager β) : Prop where
  prev : t.prev = s.prev
  next : t.next = s.next
  lists : t.lists = s.lists

theorem SameLinks.refl (s : BufferManager β) : SameLinks s s := ⟨rfl, rfl, rfl⟩

theorem SameLinks.trans (h : SameLinks s t) (h' : SameLinks t u) : SameLinks s u :=
  ⟨h'.prev.trans h.prev, h'.next.trans h.next, h'.lists.trans h.lists⟩

section
variable {e : Nat}

theorem setState_sameLinks (st : EntryState) : Fallible.Maintains (SameLinks s) (setState e st) :=
  .modify fun _ h => ⟨h.prev, h.next, h.lists⟩

theorem lockEntry_sameLinks : Fallible.Maintains (SameLinks s) (lockEntry e) :=
  .bind (fun _ h => h) fun _ => .ite (fun _ _ h => h) fun _ => .bind (setState_sameLinks _) fun _ => .pure

theorem unlockEntry_sameLinks : Fallible.Maintains (SameLinks s) (unlockEntry dbg e) :=
  .bind (fun _ h => h) fun _ => .bind (setState_sameLinks _) fun _ => check_ledger _

theorem pin_sameLinks : Fallible.Maintains (SameLinks s) (pin dbg e) :=
  .bind (fun _ h => h) fun _ => .bind (setState_sameLinks _) fun _ => check_ledger _

theorem unpin_sameLinks : Fallible.Maintains (SameLinks s) (unpin dbg e) :=
  .bind (fun _ h => h) fun _ => .bind (setState_sameLinks _) fun _ => check_ledger _

theorem nextIo_sameLinks : Fallible.Maintains (SameLinks s) nextIo := by
  intro t h
  obtain ⟨io, hio | ⟨hio, -⟩⟩ := nextIo_cases t
  · rw [hio]
    exact ⟨h.prev, h.next, h.lists⟩
  · rw [hio]
    exact ⟨h.prev, h.next, h.lists⟩

theorem attached_sameLinks : Fallible.Maintains (SameLinks s) (attached dbg e) := by
  refine .bind .get fun t => .bind (check_ledger _) fun _ => ?_
  cases t.buffer e with
  | some b => exact .pure
  | none => exact .throw

theorem flushBuffer_sameLinks : Fallible.Maintains (SameLinks s) (flushBuffer dbg e) := by
  have hend : ∀ err valid, Fallible.Maintains (SameLinks s) (terminateBufferIo dbg e err valid) := fun _ _ =>
    .bind lockEntry_sameLinks fun _ => .bind (check_ledger _) fun _ => .bind (setState_sameLinks _) fun _ =>
      .bind unlockEntry_sameLinks fun _ => .bind .get fun _ => check_ledger _
  have hstart : Fallible.Maintains (SameLinks s) (shouldStartIo dbg e false) :=
    .bind lockEntry_sameLinks fun _ => .ite (fun _ _ h => h) fun _ => .ite
      (fun _ => .bind unlockEntry_sameLinks fun _ => .pure)
      fun _ => .bind (setState_sameLinks _) fun _ => .bind unlockEntry_sameLinks fun _ => .pure
  refine .bind hstart fun _ => .ite (fun _ => .pure) fun _ => .bind attached_sameLinks fun b => ?_
  refine .bind (.tryCatch ?_ fun err => .bind (hend _ _) fun _ => .throw) fun _ => hend _ _
  refine .bind .get fun t => .bind (.bind nextIo_sameLinks fun _ => .ite (fun _ _ h => h) fun _ => ?_) fun _ =>
    nextIo_sameLinks
  exact .modify fun _ h => ⟨h.prev, h.next, h.lists⟩

end

/-! ## New heads -/

/-- `e` is put before the nodes of the list `l`; a list whose size is zero loses them. -/
structure Pushed (s u : BufferManager β) (l : ListId) (e : Nat) : Prop where
  others : ∀ l', l' ≠ l → u.lists l' = s.lists l'
  head : (u.lists l).head = some e
  links : (u.lists l).tail = some e ∧ u.prev = s.prev ∧ u.next = s.next ∨
    ∃ h, (s.lists l).head = some h ∧ (u.lists l).tail = (s.lists l).tail ∧
      u.prev = Function.update s.prev h (some e) ∧ u.next = Function.update s.next e (some h)

theorem insertMRU_pushed (h : insertMRU dbg l e s = (.ok (), u)) :
    Pushed s u l e ∧ u.state = s.state ∧ u.npages = s.npages ∧ u.P = s.P := by
  obtain ⟨_, _, hg, h⟩ := Fallible.bind_eq_ok.1 h
  cases hg
  obtain ⟨_, v, hc, h⟩ := Fallible.bind_eq_ok.1 h
  have hv : v = s := check_ledger (I := (· = s)) _ |>.ok rfl hc
  subst hv
  split_ifs at h with hz
  · cases h
    refine ⟨⟨fun l' hl => Function.update_of_ne hl _ _, ?_, .inl ⟨?_, rfl, rfl⟩⟩, rfl, rfl, rfl⟩ <;>
      simp only [Function.update_self]
  · cases hh : (v.lists l).head with
    | none =>
      rw [hh] at h
      cases h
    | some x =>
      rw [hh] at h
      cases h
      refine ⟨⟨fun l' hl => Function.update_of_ne hl _ _, ?_, .inr ⟨x, hh, ?_, rfl, rfl⟩⟩, rfl, rfl, rfl⟩ <;>
        simp only [Function.update_self]

theorem Pushed.of_sameLinks {v w : BufferManager β} (h : Pushed v w l e) (hv : SameLinks s v) (hw : SameLinks w u) :
    Pushed s u l e := by
  obtain ⟨ho, hh, hl⟩ := h
  rw [hv.lists, hv.prev, hv.next, ← hw.lists, ← hw.prev, ← hw.next] at hl
  exact ⟨fun l' hne => by rw [hw.lists, ← hv.lists, ho l' hne], by rw [hw.lists, hh], hl⟩

/-! ## Walks that meet an entry -/

/-- A walk over the list comes to `e` by way of the nodes `as`. -/
structure Leads (s : BufferManager β) (l : ListId) (e : Nat) (as : List Nat) : Prop where
  tail : (s.lists l).tail = as.getLast?.or (some e)
  links : ∃ n, Segment s.prev s.next (some e) as n

theorem Leads.not_busy {as : List Nat} (h : Leads s l e as) (he : (s.state e).pinned = false) :
    s.busy l = false := by
  obtain ⟨htail, n, hseg⟩ := h
  have hwalk : ∀ fuel, s.allPinned fuel (as.getLast?.or (some e)) = false := by
    clear htail
    induction as using List.reverseRecOn generalizing n with
    | nil =>
      intro fuel
      cases fuel with
      | zero => rfl
      | succ fuel => simp [allPinned, he]
    | append_singleton as x ih =>
      intro fuel
      obtain ⟨has, hx, -⟩ := Segment.append.1 hseg
      rw [List.getLast?_concat, Option.some_or]
      cases fuel with
      | zero => rfl
      | succ fuel => rw [allPinned, hx, ih _ has, Bool.and_false]
  rw [busy, htail]
  exact hwalk _

theorem Chain.head_pinned {as : List Nat} (h : s.Chain l as) (hb : s.busy l = true) {x : Nat}
    (hx : (s.lists l).head = some x) :
    (s.state x).pinned = true := by
  cases as with
  | nil => exact absurd (h.head.symm.trans hx) (by simp)
  | cons y as =>
    obtain rfl : y = x := Option.some.inj (h.head.symm.trans hx)
    have hleads : Leads s l y as :=
      ⟨by rw [h.tail, List.getLast?_cons]; cases as.getLast? <;> rfl, none, h.links.2.2⟩
    exact Bool.eq_true_of_not_eq_false fun hp => by
      rw [hleads.not_busy hp] at hb
      cases hb

theorem Pushed.leads {nodes : List Nat} (h : Pushed s u l e) (hc : s.Chain l nodes) (he : e ∉ nodes) :
    ∃ as, Leads u l e as ∧ ∀ x ∈ as, x ∈ nodes := by
  obtain ⟨ht, -, -⟩ | ⟨x, hx, ht, hp, hn⟩ := h.links
  · exact ⟨[], ⟨ht, none, trivial⟩, by simp⟩
  · have hhead : nodes.head? = some x := hc.head.symm.trans hx
    refine ⟨nodes, ⟨?_, none, ?_⟩, fun _ hx => hx⟩
    · rw [ht, hc.tail]
      cases nodes with
      | nil => cases hhead
      | cons y ys => rw [List.getLast?_cons]; rfl
    · rw [hp, hn]
      refine (hc.links.relinkHead hc.nodup hhead).congr (fun _ _ => rfl) fun z hz => ?_
      exact Function.update_of_ne (ne_of_mem_of_not_mem hz he) _ _

/-- A push to another list does not turn the walk aside. -/
theorem Leads.pushed {as : List Nat} {e' : Nat} {l' : ListId} (h : Leads s l e as) (hp : Pushed s u l' e')
    (hl : l ≠ l') (he : e' ∉ as) (hhead : ∀ x, (s.lists l').head = some x → x ∉ as) : Leads u l e as := by
  refine ⟨(congrArg _ (hp.others l hl)).trans h.tail, ?_⟩
  obtain ⟨n, hseg⟩ := h.links
  obtain ⟨-, hprev, hnext⟩ | ⟨x, hx, -, hprev, hnext⟩ := hp.links
  · rw [hprev, hnext]
    exact ⟨n, hseg⟩
  · refine ⟨n, ?_⟩
    rw [hprev, hnext]
    exact hseg.congr (fun z hz => Function.update_of_ne (ne_of_mem_of_not_mem hz (hhead x hx)) _ _)
      fun z hz => Function.update_of_ne (ne_of_mem_of_not_mem hz he) _ _

theorem Pushed.chain {nodes : List Nat} {l' : ListId} (h : Pushed s u l e) (hl : l' ≠ l) (hc : s.Chain l' nodes)
    (he : e ∉ nodes) (hhead : ∀ x, (s.lists l).head = some x → x ∉ nodes) : u.Chain l' nodes := by
  unfold Chain
  rw [h.others l' hl]
  obtain ⟨-, hprev, hnext⟩ | ⟨x, hx, -, hprev, hnext⟩ := h.links
  · rw [hprev, hnext]
    exact hc
  · rw [hprev, hnext]
    exact hc.congr (fun z hz => Function.update_of_ne (ne_of_mem_of_not_mem hz (hhead x hx)) _ _)
      fun z hz => Function.update_of_ne (ne_of_mem_of_not_mem hz he) _ _

/-! ## Victims -/

/-- The ghost list of a victim. -/
def ghostList (isFrequency : Bool) : ListId := if isFrequency then .B2 else .B1

theorem tryVacateEntry_ok {done : Bool} (h : tryVacateEntry dbg e isFrequency s = (.ok done, u)) :
    (done = false ∧ u = s ∧ (s.state e).pinned = true ∧ (s.state e).locked = false) ∨
    (done = true ∧ Pushed s u (ghostList isFrequency) e ∧ (u.state e).pinned = false) := by
  let refs : Nat → Nat := fun z => (s.state z).refCount
  have hrefs : Pins refs s := pins_of fun _ => rfl
  have hu : Pins refs u := (tryVacateEntry_ledger isFrequency).ok hrefs h
  obtain ⟨st, v, hlock, h⟩ := Fallible.bind_eq_ok.1 h
  cases hl : (s.state e).locked with
  | true =>
    have hrun : lockEntry e s = (.error .diverges, s) := by simp [lockEntry, Fallible.bind_apply, hl]
    rw [hrun] at hlock
    cases hlock
  | false =>
    rw [lockEntry_free hl] at hlock
    cases hlock
    cases hp : (s.state e).pinned with
    | true =>
      rw [if_pos (show EntryState.pinned { s.state e with locked := true } = true from hp),
        Fallible.bind_ok (unlockEntry_back hl)] at h
      cases h
      exact .inl ⟨rfl, rfl, rfl, rfl⟩
    | false =>
      have hfree : ¬ EntryState.pinned { s.state e with locked := true } = true := fun hc => by
        rw [show (s.state e).pinned = true from hc] at hp
        cases hp
      have hzero : refs e % 2 ^ 20 = 0 := by simpa [EntryState.pinned] using hp
      have hback : (u.state e).pinned = false := by
        rw [EntryState.pinned, hu.refs e, hzero]
        rfl
      rw [if_neg hfree] at h
      have h0 : Pins refs (s.withState e { s.state e with locked := true }) := hrefs.withFlags rfl
      have k0 : SameLinks s (s.withState e { s.state e with locked := true }) := ⟨rfl, rfl, rfl⟩
      obtain ⟨_, v1, h1, h⟩ := Fallible.bind_eq_ok.1 h
      obtain ⟨_, v2, h2, h⟩ := Fallible.bind_eq_ok.1 h
      obtain ⟨_, v3, h3, h⟩ := Fallible.bind_eq_ok.1 h
      obtain ⟨st, v4, h4, h⟩ := Fallible.bind_eq_ok.1 h
      obtain ⟨_, v5, h5, h⟩ := Fallible.bind_eq_ok.1 h
      have r1 : Pins (addRef refs e) v1 := (pin_ledger (E := Overpins refs)).ok h0 h1
      have r3 := flushBuffer_ledger.ok (unlockEntry_ledger.ok r1 h2) h3
      have hst : st.refCount = addRef refs e e := (lockEntry_ledger.ok r3 h4).2
      have k5 := unlockEntry_sameLinks.ok (lockEntry_sameLinks.ok (flushBuffer_sameLinks.ok
        (unlockEntry_sameLinks.ok (pin_sameLinks.ok k0 h1) h2) h3) h4) h5
      have hone : st.refCount % 2 ^ 20 = 1 := by
        rw [hst, addRef, Function.update_self]
        omega
      rw [if_neg (fun hne => hne hone)] at h
      obtain ⟨_, v6, h6, h⟩ := Fallible.bind_eq_ok.1 h
      obtain ⟨b, v7, h7, h⟩ := Fallible.bind_eq_ok.1 h
      obtain ⟨_, v8, h8, h⟩ := Fallible.bind_eq_ok.1 h
      obtain ⟨_, v9, h9, h⟩ := Fallible.bind_eq_ok.1 h
      obtain ⟨_, v10, h10, h⟩ := Fallible.bind_eq_ok.1 h
      obtain ⟨_, v11, h11, h⟩ := Fallible.bind_eq_ok.1 h
      obtain ⟨_, v12, h12, h⟩ := Fallible.bind_eq_ok.1 h
      obtain ⟨_, v13, h13, hend⟩ := Fallible.bind_eq_ok.1 h
      have k7 := attached_sameLinks.ok (lockEntry_sameLinks.ok k5 h6) h7
      cases h8
      have k8 : SameLinks s { v7 with buffer := Function.update v7.buffer e none } := ⟨k7.prev, k7.next, k7.lists⟩
      have k9 := unpin_sameLinks.ok k8 h9
      cases h10
      have k11 := (setState_sameLinks _).ok k9 h11
      have k13 := unlockEntry_sameLinks.ok (SameLinks.refl v12) h13
      cases hend
      exact .inr ⟨rfl, (insertMRU_pushed h12).1.of_sameLinks k11 ⟨k13.prev, k13.next, k13.lists⟩, hback⟩

theorem vacateFrom_ok {as : List Nat} {n : Option Nat} (hseg : Segment s.prev s.next none as n)
    (h : vacateFrom dbg isFrequency fuel as.getLast? s = (.ok (), u)) :
    (u = s ∧ s.allPinned fuel as.getLast? = true) ∨
      ∃ e ∈ as, Pushed s u (ghostList isFrequency) e ∧ (u.state e).pinned = false := by
  induction as using List.reverseRecOn generalizing n fuel with
  | nil => cases fuel <;> exact .inl ⟨(Prod.ext_iff.1 h).2.symm, rfl⟩
  | append_singleton as x ih =>
    obtain ⟨has, hx, -⟩ := Segment.append.1 hseg
    rw [Option.or_none] at hx
    rw [List.getLast?_concat] at h ⊢
    cases fuel with
    | zero => cases h
    | succ fuel =>
      obtain ⟨done, v, hv, hrun⟩ := Fallible.bind_eq_ok.1 h
      rcases tryVacateEntry_ok hv with ⟨rfl, rfl, hp, hl⟩ | ⟨rfl, hpush, hfree⟩
      · have hrest : vacateFrom dbg isFrequency fuel as.getLast? v = (.ok (), u) := by
          rw [← hx]
          exact hrun
        rcases ih has hrest with ⟨hu, ha⟩ | ⟨e, he, hpush⟩
        · exact .inl ⟨hu, by simp [allPinned, hp, hl, hx, ha]⟩
        · exact .inr ⟨e, List.mem_append_left _ he, hpush⟩
      · cases hrun
        exact .inr ⟨x, List.mem_append_right _ List.mem_cons_self, hpush, hfree⟩

theorem forgetFrom_ok {as : List Nat} {n : Option Nat} (hseg : Segment s.prev s.next none as n)
    (h : forgetFrom dbg fuel as.getLast? s = (.ok (), u)) :
    u = s ∨ ∃ e ∈ as, Pushed s u .FreeList e ∧ (s.state e).pinned = false ∧
      u.state = s.state ∧ u.npages = s.npages ∧ u.P = s.P := by
  induction as using List.reverseRecOn generalizing n fuel with
  | nil => cases fuel <;> exact .inl (Prod.ext_iff.1 h).2.symm
  | append_singleton as x ih =>
    obtain ⟨has, hx, -⟩ := Segment.append.1 hseg
    rw [Option.or_none] at hx
    rw [List.getLast?_concat] at h
    cases fuel with
    | zero => cases h
    | succ fuel =>
      rw [forgetFrom, Fallible.bind_ok (getState_apply (s := s))] at h
      cases hp : (s.state x).pinned with
      | true =>
        rw [hp, if_pos rfl] at h
        have hrest : forgetFrom dbg fuel as.getLast? s = (.ok (), u) := by
          rw [← hx]
          exact h
        rcases ih has hrest with hu | ⟨e, he, hpush⟩
        · exact .inl hu
        · exact .inr ⟨e, List.mem_append_left _ he, hpush⟩
      | false =>
        rw [hp, if_neg (by simp)] at h
        obtain ⟨_, _, hg, h⟩ := Fallible.bind_eq_ok.1 h
        cases hg
        obtain ⟨_, v, hm, h⟩ := Fallible.bind_eq_ok.1 h
        rw [mapRemove, Fallible.bind_ok (Fallible.get_apply s)] at hm
        split_ifs at hm
        · cases hm
        · cases hm
          obtain ⟨hpush, hst, hn, hP⟩ := insertMRU_pushed h
          exact .inr ⟨x, List.mem_append_right _ List.mem_cons_self,
            hpush.of_sameLinks ⟨rfl, rfl, rfl⟩ (SameLinks.refl u), hp, hst, hn, hP⟩

/-! ## Taken entries -/

/-- `e` has no links and is not the head of the free list. -/
structure Loose (s : BufferManager β) (e : Nat) : Prop where
  prev : s.prev e = none
  next : s.next e = none
  head : (s.lists .FreeList).head ≠ some e

theorem Loose.of_sameLinks (h : Loose s e) (hs : SameLinks s t) : Loose t e :=
  ⟨by rw [hs.prev, h.prev], by rw [hs.next, h.next], by rw [hs.lists]; exact h.head⟩

theorem Loose.resize (h : Loose s e) (n : Nat) :
    Loose { s with lists := Function.update s.lists .FreeList { s.lists .FreeList with size := n } } e :=
  ⟨h.prev, h.next, by simpa using h.head⟩

theorem Loose.not_mem {nodes : List Nat} (h : Loose s e) (hc : s.Chain .FreeList nodes) : e ∉ nodes := by
  intro he
  obtain ⟨as, bs, rfl⟩ := List.append_of_mem he
  obtain ⟨-, hprev, -⟩ := Segment.append.1 hc.links
  cases as with
  | nil => exact h.head hc.head
  | cons a as =>
    rw [h.prev, List.getLast?_cons] at hprev
    cases hprev

theorem removeEntry_loose (h : removeEntry dbg l e s = (.ok (), u))
    (hhead : (s.lists .FreeList).head = some e → l = .FreeList)
    (hnext : (s.lists .FreeList).head = some e → s.next e ≠ some e) : Loose u e := by
  have hlist : ∀ list : CacheEntryList, (l = .FreeList → list.head ≠ some e) →
      (Function.update s.lists l list .FreeList).head ≠ some e := by
    intro list hne
    by_cases hl : ListId.FreeList = l
    · rw [hl, Function.update_self]
      exact hne hl.symm
    · rw [Function.update_of_ne hl]
      exact fun hc => hl (hhead hc).symm
  refine Fallible.Spec.ok (P := (· = s)) (Q := fun _ t => Loose t e) (E := fun _ _ => True) ?_ rfl h
  unfold removeEntry
  refine Fallible.Spec.getBind fun t ht => ?_
  subst ht
  refine Fallible.Spec.bind (check_spec _) fun _ =>
    Fallible.Spec.ite (fun _ => Fallible.Spec.throw fun _ _ => trivial) fun _ => ?_
  refine Fallible.Spec.ite (fun _ => ?_) fun _ => ?_
  · refine Fallible.Spec.bind (check_spec _) fun _ => Fallible.Spec.bind (check_spec _) fun _ v hv => ?_
    subst hv
    exact ⟨Function.update_self .., Function.update_self .., hlist _ fun _ => by simp⟩
  · refine Fallible.Spec.bind (check_spec _) fun _ => Fallible.Spec.bind (check_spec _) fun _ v hv => ?_
    subst hv
    refine ⟨Function.update_self .., Function.update_self .., hlist _ fun hl => ?_⟩
    subst hl
    simp only
    split_ifs with he
    · exact hnext he
    · exact he

theorem popFrom_ok {r : Option Nat} (h : popFrom dbg .FreeList fuel o s = (.ok r, u))
    (hnext : ∀ x, (s.lists .FreeList).head = some x → s.next x ≠ some x) :
    (r = none ∧ u = s ∧ s.allPinned fuel o = true) ∨ ∃ e, r = some e ∧ Loose u e := by
  induction fuel generalizing o with
  | zero =>
    cases o with
    | none =>
      cases h
      exact .inl ⟨rfl, rfl, rfl⟩
    | some e => cases h
  | succ fuel ih =>
    cases o with
    | none =>
      cases h
      exact .inl ⟨rfl, rfl, rfl⟩
    | some e =>
      cases hl : (s.state e).locked with
      | true =>
        have hrun : lockEntry e s = (.error .diverges, s) := by simp [lockEntry, Fallible.bind_apply, hl]
        rw [popFrom, Fallible.bind_error hrun] at h
        cases h
      | false =>
        rw [popFrom, Fallible.bind_ok (lockEntry_free hl)] at h
        cases hp : (s.state e).pinned with
        | true =>
          rw [if_pos (show EntryState.pinned { s.state e with locked := true } = true from hp),
            Fallible.bind_ok (unlockEntry_back hl)] at h
          rcases ih h with ⟨hr, hu, ha⟩ | hsome
          · exact .inl ⟨hr, hu, by simp [allPinned, hp, hl, ha]⟩
          · exact .inr hsome
        | false =>
          rw [if_neg (show ¬ EntryState.pinned { s.state e with locked := true } = true from by
            rw [show EntryState.pinned { s.state e with locked := true } = false from hp]; simp)] at h
          obtain ⟨_, w, hw, h⟩ := Fallible.bind_eq_ok.1 h
          obtain ⟨_, x, hx, hrun⟩ := Fallible.bind_eq_ok.1 h
          have hloose : Loose x e := (removeEntry_loose hw (fun _ => rfl) (hnext e)).of_sameLinks
            (unlockEntry_sameLinks.ok (SameLinks.refl w) hx)
          cases hrun
          exact .inr ⟨e, rfl, hloose.resize _⟩

theorem evictFrom_ok {r : Option Nat} (h : evictFrom dbg l fuel o s = (.ok r, u))
    (hhead : ∀ x, (s.lists .FreeList).head = some x → (s.state x).pinned = true) :
    (r = none ∧ u = s ∧ s.allPinned fuel o = true) ∨ ∃ e, r = some e ∧ Loose u e := by
  induction fuel generalizing o with
  | zero =>
    cases o with
    | none =>
      cases h
      exact .inl ⟨rfl, rfl, rfl⟩
    | some e => cases h
  | succ fuel ih =>
    cases o with
    | none =>
      cases h
      exact .inl ⟨rfl, rfl, rfl⟩
    | some e =>
      cases hl : (s.state e).locked with
      | true =>
        have hrun : lockEntry e s = (.error .diverges, s) := by simp [lockEntry, Fallible.bind_apply, hl]
        rw [evictFrom, Fallible.bind_error hrun] at h
        cases h
      | false =>
        rw [evictFrom, Fallible.bind_ok (lockEntry_free hl), Fallible.bind_ok (unlockEntry_back hl)] at h
        cases hp : (s.state e).pinned with
        | true =>
          rw [if_pos (show EntryState.pinned { s.state e with locked := true } = true from hp)] at h
          rcases ih h with ⟨hr, hu, ha⟩ | hsome
          · exact .inl ⟨hr, hu, by simp [allPinned, hp, hl, ha]⟩
          · exact .inr hsome
        | false =>
          rw [if_neg (show ¬ EntryState.pinned { s.state e with locked := true } = true from by
            rw [show EntryState.pinned { s.state e with locked := true } = false from hp]; simp)] at h
          have hfree : (s.lists .FreeList).head ≠ some e := fun hc => by
            rw [hhead e hc] at hp
            cases hp
          obtain ⟨_, _, hg, h⟩ := Fallible.bind_eq_ok.1 h
          cases hg
          obtain ⟨_, v, hm, h⟩ := Fallible.bind_eq_ok.1 h
          have hv : SameLinks s v := by
            rw [mapRemove, Fallible.bind_ok (Fallible.get_apply s)] at hm
            split_ifs at hm
            · cases hm
            · cases hm
              exact ⟨rfl, rfl, rfl⟩
          obtain ⟨_, w, hw, h⟩ := Fallible.bind_eq_ok.1 h
          obtain ⟨_, x, hx, hrun⟩ := Fallible.bind_eq_ok.1 h
          have hloose : Loose w e := by
            refine removeEntry_loose hw (fun hc => ?_) fun hc => ?_
            all_goals
              rw [hv.lists] at hc
              exact absurd hc hfree
          have hdown : Fallible.Maintains (SameLinks w) (tearDown dbg e) :=
            .bind (fun _ h => h) fun _ => .bind (check_ledger _) fun _ => .bind (check_ledger _) fun _ =>
            setState_sameLinks _
          cases hrun
          exact .inr ⟨e, rfl, hloose.of_sameLinks (hdown.ok (SameLinks.refl w) hx)⟩

/-- The head of the free list is not its own neighbour, and a walk that ends has met it. -/
structure Proper (s : BufferManager β) : Prop where
  next : ∀ x, (s.lists .FreeList).head = some x → s.next x ≠ some x
  head : ∀ x, (s.lists .FreeList).head = some x → s.busy .FreeList = true → (s.state x).pinned = true

theorem evictCacheEntry_ok {r : Option Nat} (h : evictCacheEntry dbg s = (.ok r, u)) (hs : Proper s) :
    (r = none ∧ u = s ∧ s.busy .FreeList = true ∧ s.busy .B1 = true ∧ s.busy .B2 = true) ∨ ∃ e, r = some e ∧
    Loose u e := by
  obtain ⟨r1, v, hpop, hrun⟩ := Fallible.bind_eq_ok.1 h
  rw [popTail, Fallible.bind_ok (Fallible.get_apply s)] at hpop
  rcases popFrom_ok hpop hs.next with ⟨rfl, rfl, hf⟩ | ⟨e, rfl, hloose⟩
  · obtain ⟨_, _, hg, hghost⟩ := Fallible.bind_eq_ok.1 hrun
    cases hg
    obtain ⟨r2, w, h1, hrest⟩ := Fallible.bind_eq_ok.1 hghost
    rcases evictFrom_ok h1 (fun x hx => hs.head x hx hf) with ⟨rfl, rfl, hb1⟩ | ⟨e, rfl, hloose⟩
    · obtain ⟨_, _, hg', h2⟩ := Fallible.bind_eq_ok.1 hrest
      cases hg'
      rcases evictFrom_ok h2 (fun x hx => hs.head x hx hf) with ⟨hr, hu, hb2⟩ | hsome
      · exact .inl ⟨hr, hu, hf, hb1, hb2⟩
      · exact .inr hsome
    · cases hrest
      exact .inr ⟨e, rfl, hloose⟩
  · have hdown : Fallible.Maintains (SameLinks v) (tearDown dbg e) :=
      .bind (fun _ h => h) fun _ => .bind (check_ledger _) fun _ => .bind (check_ledger _) fun _ =>
      setState_sameLinks _
    obtain ⟨_, w, hw, hrest⟩ := Fallible.bind_eq_ok.1 hrun
    cases hrest
    exact .inr ⟨e, rfl, hloose.of_sameLinks (hdown.ok (SameLinks.refl v) hw)⟩

/-! ## Pools whose lists share no entry -/

/-- The lists are chains that share no entry; their sizes may be wrong. -/
def Intact (s : BufferManager β) : Prop :=
  ∃ nodes : ListId → List Nat, (∀ l, s.Chain l (nodes l)) ∧ ∀ l l' e, e ∈ nodes l → e ∈ nodes l' → l = l'

theorem Chain.next_ne {nodes : List Nat} (h : s.Chain l nodes) {x : Nat} (hx : x ∈ nodes) : s.next x ≠ some x := by
  obtain ⟨as, bs, rfl⟩ := List.append_of_mem hx
  obtain ⟨-, -, hnext, -⟩ := Segment.append.1 h.links
  rw [hnext, Option.or_none]
  intro hc
  have hnd := (List.nodup_append.1 h.nodup).2.1
  exact (List.nodup_cons.1 hnd).1 (List.mem_of_mem_head? hc)

theorem Chain.head_mem {nodes : List Nat} (h : s.Chain l nodes) {x : Nat} (hx : (s.lists l).head = some x) :
    x ∈ nodes :=
  List.mem_of_mem_head? (h.head.symm.trans hx)

theorem Chain.proper {nodes : List Nat} (h : s.Chain .FreeList nodes) : Proper s :=
  ⟨fun _ hx => h.next_ne (h.head_mem hx), fun _ hx hb => h.head_pinned hb hx⟩

theorem vacateIn_ok {nodes : List Nat} (hc : s.Chain l nodes) (h : vacateIn dbg l s = (.ok (), u)) :
    (u = s ∧ s.busy l = true) ∨ ∃ e ∈ nodes, Pushed s u (ghostList (l = .T2)) e ∧ (u.state e).pinned = false := by
  rw [vacateIn, Fallible.bind_ok (Fallible.get_apply s), hc.tail] at h
  rw [busy, hc.tail]
  exact vacateFrom_ok hc.links h

theorem forgetAnyEntry_ok {nodes : List Nat} (hc : s.Chain l nodes) (h : forgetAnyEntry dbg l s = (.ok (), u)) :
    u = s ∨ ∃ e ∈ nodes, Pushed s u .FreeList e ∧ (s.state e).pinned = false ∧
      u.state = s.state ∧ u.npages = s.npages ∧ u.P = s.P := by
  rw [forgetAnyEntry, Fallible.bind_ok (Fallible.get_apply s), hc.tail] at h
  exact forgetFrom_ok hc.links h

theorem ghostList_ne (isFrequency : Bool) : ghostList isFrequency ≠ .FreeList ∧
    (ghostList isFrequency = .B1 ∨ ghostList isFrequency = .B2) := by
  cases isFrequency
  · exact ⟨by decide, .inl rfl⟩
  · exact ⟨by decide, .inr rfl⟩

theorem replaced_top (s : BufferManager β) : s.replaced = .T1 ∨ s.replaced = .T2 := by
  unfold replaced
  split_ifs
  · exact .inl rfl
  · exact .inr rfl

theorem victimList_top (h : s.victimList = some l) : l = .T1 ∨ l = .T2 := by
  simp only [victimList] at h
  split_ifs at h <;> cases h <;> first | exact s.replaced_top | exact .inl rfl

section
variable {nodes : ListId → List Nat} (hc : ∀ l, s.Chain l (nodes l))
  (hd : ∀ l l' e, e ∈ nodes l → e ∈ nodes l' → l = l')
include hc hd

/-- A victim goes to a ghost list, where the search meets it. -/
theorem vacateIn_cleans (hl : l = .T1 ∨ l = .T2) (h : vacateIn dbg l s = (.ok (), u)) :
    Proper u ∧ ((u = s ∧ s.busy l = true) ∨ u.busy .B1 = false ∨ u.busy .B2 = false) := by
  rcases vacateIn_ok (hc l) h with ⟨rfl, hb⟩ | ⟨e, he, hpush, hfree⟩
  · exact ⟨(hc _).proper, .inl ⟨rfl, hb⟩⟩
  · have hout : ∀ l', l' ≠ l → e ∉ nodes l' := fun l' hne he' => hne (hd _ _ e he' he)
    obtain ⟨hne, hghost⟩ := ghostList_ne (l = .T2)
    have hnel : ghostList (l = .T2) ≠ l := by
      rcases hghost with hg | hg <;> rcases hl with rfl | rfl <;> rw [hg] <;> decide
    have hproper : Proper u :=
      (hpush.chain hne.symm (hc .FreeList) (hout _ (by rcases hl with rfl | rfl <;> decide)) fun x hx hxf =>
      hne (hd _ _ x ((hc _).head_mem hx) hxf)).proper
    obtain ⟨as, hleads, -⟩ := hpush.leads (hc _) (hout _ hnel)
    refine ⟨hproper, .inr ?_⟩
    rcases hghost with hg | hg
    · rw [hg] at hleads
      exact .inl (hleads.not_busy hfree)
    · rw [hg] at hleads
      exact .inr (hleads.not_busy hfree)

/-- A forgotten entry goes to the free list, where the search meets it. -/
theorem forget_cleans {v : BufferManager β} {f : Nat} (hl : l = .B1 ∨ l = .B2) (hf : f ∈ nodes l)
    (hpush : Pushed s v .FreeList f) (hfree : (s.state f).pinned = false) (hst : v.state = s.state)
    (h : vacateIn dbg v.replaced v = (.ok (), u)) :
    Proper u ∧ u.busy .FreeList = false := by
  have hout : ∀ l', l' ≠ l → f ∉ nodes l' := fun l' hne hf' => hne (hd _ _ f hf' hf)
  have htop := v.replaced_top
  have hchain : v.Chain v.replaced (nodes v.replaced) := by
    refine hpush.chain (by rcases htop with ht | ht <;> rw [ht] <;> decide) (hc _) (hout _ ?_) fun x hx hxt => ?_
    · rcases htop with ht | ht <;> rcases hl with rfl | rfl <;> rw [ht] <;> decide
    · have := hd _ _ x ((hc _).head_mem hx) hxt
      rcases htop with ht | ht <;> rw [ht] at this <;> cases this
  obtain ⟨as, hleads, has⟩ := hpush.leads (hc .FreeList) (hout _ (by rcases hl with rfl | rfl <;> decide))
  have hnext : v.next f ≠ some f := by
    obtain ⟨-, -, hn⟩ | ⟨x, hx, -, -, hn⟩ := hpush.links
    · rw [hn]
      exact (hc l).next_ne hf
    · rw [hn, Function.update_self]
      intro he
      have := hd _ _ f hf (Option.some.inj he ▸ (hc _).head_mem hx)
      rcases hl with rfl | rfl <;> cases this
  have hfreev : (v.state f).pinned = false := by rw [hst]; exact hfree
  have hrefs : Pins (fun z => (v.state z).refCount) v := pins_of fun _ => rfl
  have hvac : Pins (fun z => (v.state z).refCount) u := by
    rw [vacateIn, Fallible.bind_ok (Fallible.get_apply v)] at h
    exact (vacateFrom_ledger _ _ _).ok hrefs h
  have hfreeu : (u.state f).pinned = false := by
    rw [EntryState.pinned, hvac.refs f]
    exact hfreev
  have hproper : ∀ (w : BufferManager β), (w.lists .FreeList).head = some f → w.next f ≠ some f →
    w.busy .FreeList = false → Proper w :=
    fun w hh hn hb =>
    ⟨fun x hx => by rw [Option.some.inj (hx.symm.trans hh)]; exact hn, fun x _ hb' => by rw [hb] at hb'; cases hb'⟩
  rcases vacateIn_ok hchain h with ⟨rfl, -⟩ | ⟨e, he, hpush', -⟩
  · have hb := hleads.not_busy hfreeu
    exact ⟨hproper _ hpush.head hnext hb, hb⟩
  · obtain ⟨hne, hghost⟩ := ghostList_ne (v.replaced = .T2)
    have hfe : f ≠ e :=
      fun heq => hout _ (by rcases htop with ht | ht <;> rcases hl with rfl | rfl <;> rw [ht] <;> decide) (heq ▸ he)
    have hleads' : Leads u .FreeList f as := by
      refine hleads.pushed hpush' hne.symm (fun hea => ?_) fun x hx hxa => ?_
      · have := hd _ _ e he (has e hea)
        rcases htop with ht | ht <;> rw [ht] at this <;> cases this
      · rw [hpush.others _ hne] at hx
        exact hne (hd _ _ x ((hc _).head_mem hx) (has x hxa))
    have hb := hleads'.not_busy hfreeu
    refine ⟨hproper _ ((congrArg _ (hpush'.others _ hne.symm)).trans hpush.head) ?_ hb, hb⟩
    obtain ⟨-, -, hn⟩ | ⟨x, -, -, -, hn⟩ := hpush'.links
    · rw [hn]
      exact hnext
    · rw [hn, Function.update_of_ne hfe]
      exact hnext

theorem preinsertCleanup_cleans (h : preinsertCleanup dbg s = (.ok (), u)) :
    Proper u ∧ ((u = s ∧ s.victimList.all s.busy = true) ∨ u.busy .FreeList = false ∨ u.busy .B1 = false ∨
    u.busy .B2 = false) := by
  rw [preinsertCleanup_eq] at h
  cases hg : s.forgetList with
  | none =>
    rw [hg] at h
    cases hv : s.victimList with
    | none =>
      rw [hv] at h
      cases h
      exact ⟨(hc _).proper, .inl ⟨rfl, rfl⟩⟩
    | some l =>
      rw [hv] at h
      obtain ⟨hp, hb | hb⟩ := vacateIn_cleans hc hd (victimList_top hv) h
      · exact ⟨hp, .inl hb⟩
      · exact ⟨hp, .inr (.inr hb)⟩
  | some l =>
    rw [hg] at h
    obtain ⟨hv, hl⟩ := victimList_of_forget hg
    obtain ⟨_, v, hf, hrest⟩ := Fallible.bind_eq_ok.1 h
    obtain ⟨_, _, hget, hadj⟩ := Fallible.bind_eq_ok.1 hrest
    cases hget
    rw [adjust_eq] at hadj
    rcases forgetAnyEntry_ok (hc l) hf with rfl | ⟨f, hfm, hpush, hfree, hst, -, -⟩
    · obtain ⟨hp, hb | hb⟩ := vacateIn_cleans hc hd v.replaced_top hadj
      · exact ⟨hp, .inl ⟨hb.1, by rw [hv]; exact hb.2⟩⟩
      · exact ⟨hp, .inr (.inr hb)⟩
    · obtain ⟨hp, hb⟩ := forget_cleans hc hd hl hfm hpush hfree hst hadj
      exact ⟨hp, .inr (.inl hb)⟩

end

/-- In a pool whose lists share no entry, a search takes nothing only if there is nothing to
take, and an entry that it takes is in no list. -/
theorem search_ok {r : Option Nat} (hi : s.Intact) (h : search dbg s = (.ok r, u)) :
    (r = none ∧ s.exhausted = true) ∨ ∃ e, r = some e ∧ Loose u e := by
  obtain ⟨nodes, hc, hd⟩ := hi
  obtain ⟨_, v, hclean, hevict⟩ := Fallible.bind_eq_ok.1 h
  obtain ⟨hp, hclean⟩ := preinsertCleanup_cleans hc hd hclean
  rcases evictCacheEntry_ok hevict hp with ⟨rfl, -, hf, h1, h2⟩ | hsome
  · rcases hclean with ⟨rfl, hv⟩ | hb | hb | hb
    · exact .inl ⟨rfl, by simp [exhausted, hf, h1, h2, hv]⟩
    · rw [hf] at hb
      cases hb
    · rw [h1] at hb
      cases hb
    · rw [h2] at hb
      cases hb
  · exact .inr hsome

end BufferManager

end Mimidb
