import Mimidb.BufferManager

/-!
# The lists of the buffer pool

What the operations on entries and on one list do to a pool whose list is a
chain of nodes. The number of nodes and the size of the list are kept apart,
since `PopTail` lowers the size twice.
-/

namespace Mimidb

namespace BufferManager

variable {β : Type} {dbg : Bool} {s : BufferManager β} {e : Nat} {l : ListId} {xs as bs : List Nat}

/-! ## Entries -/

@[simps] def withState (s : BufferManager β) (e : Nat) (st : EntryState) : BufferManager β :=
  { s with state := Function.update s.state e st }

theorem withState_eq {st : EntryState} (h : s.state e = st) : s.withState e st = s := by
  subst h; simp only [withState, Function.update_eq_self]

@[simp] theorem withState_withState (st st' : EntryState) :
    (s.withState e st).withState e st' = s.withState e st' := by
  simp only [withState, Function.update_idem]

theorem check_ok {c : Bool} (h : c = true) : check dbg c s = (.ok (), s) := by
  subst h
  cases dbg <;> rfl

@[simp] theorem check_true : check dbg true s = (.ok (), s) := check_ok rfl

@[simp] theorem getState_apply : getState e s = (.ok (s.state e), s) := rfl

@[simp] theorem setState_apply (st : EntryState) : setState e st s = (.ok (), s.withState e st) := rfl

theorem unlockEntry_ok (h : (s.state e).locked = true) :
    unlockEntry dbg e s = (.ok (), s.withState e { s.state e with locked := false }) := by
  simp [unlockEntry, Fallible.bind_apply, h]

theorem lockEntry_free (h : (s.state e).locked = false) :
    lockEntry e s = (.ok { s.state e with locked := true }, s.withState e { s.state e with locked := true }) := by
  simp [lockEntry, Fallible.bind_apply, h]

theorem unlockEntry_back (h : (s.state e).locked = false) :
    unlockEntry dbg e (s.withState e { s.state e with locked := true }) = (.ok (), s) := by
  have hback : { s.state e with locked := false } = s.state e := by rw [← h]
  have hself : s.withState e (s.state e) = s := withState_eq rfl
  simp [unlockEntry, Fallible.bind_apply, hback, hself]

section
variable {r : Nat} {tv it fl io d dv : Bool}

@[simp] theorem lockEntry_with : lockEntry e (s.withState e ⟨r, false, tv, it, fl, io, d, dv⟩) =
    (.ok ⟨r, true, tv, it, fl, io, d, dv⟩, s.withState e ⟨r, true, tv, it, fl, io, d, dv⟩) := by
  simp [lockEntry, Fallible.bind_apply]

@[simp] theorem unlockEntry_with : unlockEntry dbg e (s.withState e ⟨r, true, tv, it, fl, io, d, dv⟩) =
    (.ok (), s.withState e ⟨r, false, tv, it, fl, io, d, dv⟩) := by
  simp [unlockEntry, Fallible.bind_apply]

theorem pin_with (h : r + 1 < 2 ^ 20) : pin dbg e (s.withState e ⟨r, false, tv, it, fl, io, d, dv⟩) =
    (.ok (), s.withState e ⟨r + 1, false, tv, it, fl, io, d, dv⟩) := by
  have hc : (r % 2 ^ 20 != EntryState.refMask) = true := by
    simp only [EntryState.refMask, bne_iff_ne]; omega
  simp only [pin, Fallible.bind_apply, getState_apply, setState_apply, withState_state, Function.update_self,
    withState_withState, check_ok hc]

end

/-! ## Lists -/

/-- The nodes of a list, the head first. -/
def Chain (s : BufferManager β) (l : ListId) (xs : List Nat) : Prop :=
  Linked s.prev s.next (s.lists l).head (s.lists l).tail xs

/-- `t` is `s` but for the links and the list `l`; nodes outside `xs` keep their links. -/
structure Relinked (s t : BufferManager β) (l : ListId) (xs : List Nat) : Prop where
  eq : t = { s with prev := t.prev, next := t.next, lists := Function.update s.lists l (t.lists l) }
  prev : ∀ z, z ∉ xs → t.prev z = s.prev z
  next : ∀ z, z ∉ xs → t.next z = s.next z

theorem Relinked.chain {t : BufferManager β} (h : Relinked s t l xs) {l' : ListId} {ys : List Nat} (hl : l' ≠ l)
    (hc : s.Chain l' ys) (hd : ∀ z ∈ ys, z ∉ xs) : t.Chain l' ys := by
  unfold Chain
  rw [h.eq]
  simp only [Function.update_of_ne hl]
  exact hc.congr (fun z hz => h.prev z (hd z hz)) fun z hz => h.next z (hd z hz)

theorem Relinked.lists {t : BufferManager β} (h : Relinked s t l xs) {l' : ListId} (hl : l' ≠ l) :
    t.lists l' = s.lists l' := by
  rw [h.eq]; simp only [Function.update_of_ne hl]

theorem isRouge_iff : s.isRouge e = true ↔ s.prev e = none ∧ s.next e = none := by simp [isRouge]

theorem insertMRU_ok (dbg : Bool) (hc : s.Chain l xs) (hz : (s.lists l).size = 0 ↔ xs = [])
    (hr : s.isRouge e = true)
    (he : e ∉ xs) : ∃ t, insertMRU dbg l e s = (.ok (), t) ∧ Relinked s t l (e :: xs) ∧ t.Chain l (e :: xs) ∧
      (t.lists l).size = if xs = [] then 1 else ((s.lists l).size + 1) % counter := by
  obtain ⟨hp, hn⟩ := isRouge_iff.1 hr
  have hupd : ∀ list, (Function.update s.lists l list) l = list := fun list => Function.update_self ..
  cases xs with
  | nil =>
    refine ⟨{ s with lists := Function.update s.lists l ⟨some e, some e, 1⟩ }, ?_, ⟨?_, fun _ _ => rfl,
      fun _ _ => rfl⟩, ?_, ?_⟩
    · simp [insertMRU, Fallible.bind_apply, check_ok hr, hz.2 rfl, setList]
    · simp only [hupd]
    · simp only [Chain, hupd]; exact .single hp hn
    · simp only [hupd, if_true]
  | cons y ys =>
    have hh : (s.lists l).head = some y := hc.head
    have hs : (s.lists l).size ≠ 0 := fun h => List.cons_ne_nil _ _ (hz.1 h)
    refine ⟨{ s with
      prev := Function.update s.prev y (some e), next := Function.update s.next e (some y),
      lists := Function.update s.lists l ⟨some e, (s.lists l).tail, ((s.lists l).size + 1) % counter⟩ },
      ?_, ⟨?_, fun z hz' => ?_, fun z hz' => ?_⟩, ?_, ?_⟩
    · simp [insertMRU, Fallible.bind_apply, check_ok hr, hs, hh, setLinks, setList]
    · simp only [hupd]
    · exact Function.update_of_ne (fun h => hz' (by simp [h])) ..
    · exact Function.update_of_ne (fun h => hz' (by simp [h])) ..
    · simp only [Chain, hupd]; exact hc.pushFront he hp
    · simp only [hupd, reduceCtorEq, if_false]

theorem Chain.not_isRouge (hc : s.Chain l (as ++ e :: bs)) (hne : as ++ bs ≠ []) : (!s.isRouge e) = true := by
  obtain ⟨_, hp, hn, _⟩ := Segment.append.1 hc.links
  simp only [Option.or_none] at hp hn
  cases h : s.isRouge e with
  | false => rfl
  | true =>
    obtain ⟨h1, h2⟩ := isRouge_iff.1 h
    rw [hp] at h1
    rw [hn] at h2
    exact absurd (by simp [List.getLast?_eq_none_iff.1 h1, List.head?_eq_none_iff.1 h2]) hne

/-- An entry is removed from a list of one node and size 1, or of more of both. -/
theorem removeEntry_ok (dbg : Bool) (hc : s.Chain l (as ++ e :: bs))
    (hz : (s.lists l).size = 1 ∧ as ++ bs = [] ∨ 2 ≤ (s.lists l).size ∧ as ++ bs ≠ []) :
    ∃ t, removeEntry dbg l e s = (.ok (), t) ∧ Relinked s t l (as ++ e :: bs) ∧ t.Chain l (as ++ bs) ∧
      t.isRouge e = true ∧ (t.lists l).size = (s.lists l).size - 1 := by
  have hupd : ∀ list, (Function.update s.lists l list) l = list := fun list => Function.update_self ..
  obtain ⟨_, hp, hn, _⟩ := Segment.append.1 hc.links
  simp only [Option.or_none] at hp hn
  rcases hz with ⟨hs, hnil⟩ | ⟨hs, hne⟩
  · obtain ⟨rfl, rfl⟩ := List.append_eq_nil_iff.1 hnil
    have hr : s.isRouge e = true := isRouge_iff.2 ⟨hp, hn⟩
    have hends : decide ((s.lists l).head = (s.lists l).tail ∧ (s.lists l).tail = some e) = true := by
      rw [hc.head, hc.tail]; simp
    refine ⟨{ s with
      prev := Function.update s.prev e none, next := Function.update s.next e none,
      lists := Function.update s.lists l ⟨none, none, 0⟩ }, ?_, ⟨?_, fun z hz' => ?_, fun z hz' => ?_⟩,
      ?_, ?_, ?_⟩
    · have hpos : decide (0 < 1) = true := rfl
      simp only [removeEntry, Fallible.bind_apply, Fallible.get_apply, hs, check_ok hpos, Nat.one_ne_zero, if_true,
        if_false, check_ok hr, check_ok hends, setLinks, setList, Fallible.modify_apply]
    · simp only [hupd]
    · exact Function.update_of_ne (fun h => hz' (by simp [h])) ..
    · exact Function.update_of_ne (fun h => hz' (by simp [h])) ..
    · simp only [Chain, hupd]; exact .empty
    · simp [isRouge]
    · simp only [hupd, hs]
  · have hr' := hc.not_isRouge hne
    have hends : (if s.next e = none then decide ((s.lists l).tail = some e)
        else if s.prev e = none then decide ((s.lists l).head = some e) else true) = true := by
      split
      · rename_i h
        rw [hn, List.head?_eq_none_iff] at h
        rw [hc.tail, h]; simp
      · split
        · rename_i h
          rw [hp, List.getLast?_eq_none_iff] at h
          rw [hc.head, h]; simp
        · rfl
    refine ⟨{ s with
      prev := Linked.unlinkPrev s.prev s.next e, next := Linked.unlinkNext s.prev s.next e,
      lists := Function.update s.lists l ⟨if (s.lists l).head = some e then s.next e else (s.lists l).head,
        if (s.lists l).head = some e then (s.lists l).tail
          else if (s.lists l).tail = some e then s.prev e else (s.lists l).tail, (s.lists l).size - 1⟩ },
      ?_, ⟨?_, fun z hz' => ?_, fun z hz' => ?_⟩, ?_, ?_, ?_⟩
    · have h0 : (s.lists l).size ≠ 0 := by omega
      have h1 : (s.lists l).size ≠ 1 := by omega
      have hpos : decide (0 < (s.lists l).size) = true := decide_eq_true (by omega)
      simp only [removeEntry, Fallible.bind_apply, Fallible.get_apply, check_ok hpos, h0, h1, if_false,
        check_ok hr', check_ok hends, setLinks, setList, Fallible.modify_apply]
    · simp only [hupd]
    · have hze : z ≠ e := fun h => hz' (by simp [h])
      simp only
      rw [Linked.unlinkPrev, Function.update_of_ne hze, hn]
      cases hb : bs.head? with
      | none => rfl
      | some b =>
        exact Function.update_of_ne (fun h => hz' (by simp [h, List.mem_of_head? hb])) ..
    · have hze : z ≠ e := fun h => hz' (by simp [h])
      simp only
      rw [Linked.unlinkNext, Function.update_of_ne hze, hp]
      cases ha : as.getLast? with
      | none => rfl
      | some a =>
        exact Function.update_of_ne (fun h => hz' (by simp [h, List.mem_of_getLast? ha])) ..
    · simp only [Chain, hupd]; exact hc.unlink hne
    · simp [isRouge, Linked.unlinkPrev, Linked.unlinkNext]
    · simp only [hupd]

theorem Relinked.state {t : BufferManager β} (h : Relinked s t l xs) : t.state = s.state := by rw [h.eq]

/-- The last node is taken and counted twice. -/
theorem popTail_ok (dbg : Bool) (hc : s.Chain l (as ++ [e])) (hz : 2 ≤ (s.lists l).size)
    (hlt : (s.lists l).size < counter) (hne : as ≠ []) (hs : s.state e = .empty) :
    ∃ t, popTail dbg l s = (.ok (some e), t) ∧ Relinked s t l (as ++ [e]) ∧ t.Chain l as ∧
      t.isRouge e = true ∧ (t.lists l).size = (s.lists l).size - 2 := by
  have htail : (s.lists l).tail = some e := by rw [hc.tail]; exact List.getLast?_concat
  let st : EntryState := ⟨0, true, false, false, false, false, false, false⟩
  obtain ⟨t, ht, hrel, hch, hrg, hsz⟩ := removeEntry_ok dbg (s := s.withState e st)
    (show (s.withState e st).Chain l (as ++ e :: []) from hc) (.inr ⟨hz, by simpa using hne⟩)
  have hsz' : (t.lists l).size = (s.lists l).size - 1 := hsz
  have hlock : lockEntry e s = (.ok st, s.withState e st) := by
    conv_lhs => rw [← withState_eq hs]
    exact lockEntry_with
  have hunlock : unlockEntry dbg e t = (.ok (), t.withState e .empty) := by
    have hte : t.state e = st := by rw [hrel.state]; exact Function.update_self ..
    conv_lhs => rw [← withState_eq hte]
    exact unlockEntry_with
  have hback : Function.update t.state e .empty = s.state := by
    rw [hrel.state]
    simp only [withState, Function.update_idem]
    rw [← hs, Function.update_eq_self]
  refine ⟨{ t with
    state := s.state
    lists := Function.update t.lists l { t.lists l with size := (s.lists l).size - 2 } },
    ?_, ⟨?_, hrel.prev, hrel.next⟩, ?_, hrg, ?_⟩
  · obtain ⟨k, hk⟩ : ∃ k, s.walkBound = k + 1 := ⟨_, rfl⟩
    have hmod : ((s.lists l).size - 1 + (counter - 1)) % counter = (s.lists l).size - 2 := by
      simp only [counter] at *; omega
    have hp : st.pinned = false := rfl
    simp only [popTail, Fallible.bind_apply, Fallible.get_apply, hk, htail, popFrom, hlock, hp, Bool.false_eq_true,
      if_false, ht, hunlock, setList, Fallible.modify_apply, Fallible.pure_apply]
    simp only [withState, hsz', hmod, hback]
  · simp only [Function.update_self]
    rw [hrel.eq]
    simp only [withState, Function.update_idem, Function.update_self]
  · rw [List.append_nil] at hch
    unfold Chain
    simp only [Function.update_self]
    exact hch
  · simp only [Function.update_self]

/-! ## The constructor -/

/-- The free list of a new pool holds the entries in order, the first one at its end. -/
theorem insertEntries_ok (dbg : Bool) (n : Nat) (hn : n < counter) (hs : s.lists .FreeList = ⟨none, none, 0⟩)
    (hp : s.prev = fun _ => none) (hq : s.next = fun _ => none) :
    ∃ t, insertEntries dbg n s = (.ok (), t) ∧ Relinked s t .FreeList (List.range n).reverse ∧
      t.Chain .FreeList (List.range n).reverse ∧ (t.lists .FreeList).size = n := by
  induction n with
  | zero =>
    refine ⟨s, rfl, ⟨?_, fun _ _ => rfl, fun _ _ => rfl⟩, ?_, by rw [hs]⟩
    · simp only [Function.update_eq_self]
    · unfold Chain; rw [hs]; exact .empty
  | succ n ih =>
    obtain ⟨t, ht, hrel, hch, hsz⟩ := ih (by omega)
    have hmem : n ∉ (List.range n).reverse := by simp
    have hrg : t.isRouge n = true := isRouge_iff.2 ⟨by rw [hrel.prev n hmem, hp], by rw [hrel.next n hmem, hq]⟩
    have hzero : (t.lists .FreeList).size = 0 ↔ (List.range n).reverse = [] := by
      rw [hsz, List.reverse_eq_nil_iff, List.range_eq_nil]
    obtain ⟨u, hu, hrel', hch', hsz'⟩ := insertMRU_ok dbg hch hzero hrg hmem
    have hrev : (List.range (n + 1)).reverse = n :: (List.range n).reverse := by
      rw [List.range_succ, List.reverse_append]; rfl
    refine ⟨u, ?_, ⟨?_, fun z hz => ?_, fun z hz => ?_⟩, by rw [hrev]; exact hch', ?_⟩
    · simp only [insertEntries, Fallible.bind_apply, ht, hu]
    · rw [hrel'.eq, hrel.eq]; simp only [Function.update_idem, Function.update_self]
    · rw [hrev, List.mem_cons, not_or] at hz
      rw [hrel'.prev z (by simp [hz.1, hz.2] at *), hrel.prev z hz.2]
    · rw [hrev, List.mem_cons, not_or] at hz
      rw [hrel'.next z (by simp [hz.1, hz.2] at *), hrel.next z hz.2]
    · rw [hsz', hsz]
      split
      · rename_i h
        simp only [List.reverse_eq_nil_iff, List.range_eq_nil] at h
        omega
      · exact Nat.mod_eq_of_lt hn

/-- What a new pool looks like. -/
structure Fresh [Inhabited β] (s : BufferManager β) (npages : Nat) (disk : PageTag → β) (fileSize : Nat → Nat) :
    Prop where
  small : npages * 2 < 2 ^ 32 - 1
  chain : s.Chain .FreeList (List.range (npages * 2)).reverse
  size : (s.lists .FreeList).size = npages * 2
  lists : ∀ l, l ≠ .FreeList → s.lists l = ⟨none, none, 0⟩
  eq : s = { blank npages disk fileSize with
    prev := s.prev, next := s.next, lists := s.lists, freeBuffers := (List.range npages).reverse }

theorem create_fresh [Inhabited β] {npages : Nat} {disk : PageTag → β} {fileSize : Nat → Nat}
    (h : create dbg npages disk fileSize = .ok s) : s.Fresh npages disk fileSize := by
  unfold create at h
  split at h
  · cases h
  · rename_i hn
    obtain ⟨t, ht, hrel, hch, hsz⟩ := insertEntries_ok dbg (s := blank npages disk fileSize) (npages * 2)
      (by simp only [counter]; omega) rfl rfl rfl
    simp only [ht, Except.ok.injEq] at h
    subst h
    refine ⟨by omega, hch, hsz, fun l hl => hrel.lists hl, ?_⟩
    conv_lhs => rw [hrel.eq]
    simp only [BufferManager.mk.injEq, true_and, and_true]
    conv_rhs => rw [hrel.eq]

end BufferManager

end Mimidb
