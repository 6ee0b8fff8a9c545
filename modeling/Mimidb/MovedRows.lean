import Mathlib.Data.List.Dedup
import Mimidb.LostUpdates

/-!
# Rows that move

The versions of a row go through the slots that `UpdateTuple` moved it to. A
scan finds the newest one that its snapshot sees, once, in the last slot; from
the marks in the others it goes on. So the row is found where the snapshot
sees every transaction that moved it, and lost where it sees a version of the
row but not the transaction that moved it on.
-/

namespace Mimidb

namespace RowRun

variable {W V : Type} {s t : RowRun W V} {st : Stacks V} {tid : TupleId} {v b : RowVersion V}
  {newer rest : List (RowVersion V)}
  {x : Nat} {snapshot : Snapshot}

/-- The versions of a row from `v` in the slot `tid` on, each with its slot. -/
inductive History (s : RowRun W V) : TupleId → RowVersion V → List (RowTuple V) → Prop
  | inserted {tid : TupleId} {v : RowVersion V} (h : v.undo = UndoSeqNumber.Invalid) : History s tid v [⟨tid, v⟩]
  /-- In place if `old` is the slot itself, and moved from there otherwise. -/
  | updated {tid old : TupleId} {v image : RowVersion V} {versions : List (RowTuple V)}
      (h : s.undo v.undo = some (.Update old tid image)) (hl : History s old image versions) :
        History s tid v (⟨tid, v⟩ :: versions)
  | deleted {tid : TupleId} {v image : RowVersion V} {versions : List (RowTuple V)}
      (h : s.undo v.undo = some (.Insert tid image))
      (hl : History s tid image versions) : History s tid v (⟨tid, v⟩ :: versions)

/-- A row that was not moved on from the slot of its newest version. -/
def Row (s : RowRun W V) (versions : List (RowTuple V)) : Prop :=
  ∃ tid page, s.slots tid = some page ∧ s.dead tid = false ∧ s.History tid page versions

/-- The snapshot sees the writer of the version. -/
def Visible (s : RowRun W V) (x : Nat) (snapshot : Snapshot) (v : RowVersion V) : Prop :=
  if v.xid = x then v.undo < snapshot.cid else ∃ c, s.tm.Commits v.xid c ∧ c < snapshot.csn

/-- `found` is what scans of its slots have to return of a row: the newest version whose writer the
snapshot sees, unless that is a deletion, and nothing where it sees none. -/
def Right (s : RowRun W V) (x : Nat) (snapshot : Snapshot) (versions found : List (RowTuple V)) : Prop :=
  (∀ e newer rest, versions = newer ++ e :: rest → s.Visible x snapshot e.version →
    (∀ a ∈ newer, ¬ s.Visible x snapshot a.version) →
    found = if e.version.deleted then [] else [e]) ∧
  ((∀ e ∈ versions, ¬ s.Visible x snapshot e.version) → found = [])

/-- The versions with which the row came to a new slot. -/
def moved : List (RowTuple V) → List (RowTuple V)
  | a :: b :: rest => if a.tid = b.tid then moved (b :: rest) else a :: moved (b :: rest)
  | _ => []

/-- The snapshot sees every transaction that moved the row, or no version of it. -/
def Followed (s : RowRun W V) (x : Nat) (snapshot : Snapshot) (versions : List (RowTuple V)) : Prop :=
  (∀ a ∈ moved versions, s.Visible x snapshot a.version) ∨ ∀ e ∈ versions, ¬ s.Visible x snapshot e.version

theorem visible_iff (hi : s.tm.TransInv) (hb : s.tm.history v.xid ≠ CommitSeqNumber.Invalid) {visible : Bool}
    (h : s.tupleIsVisible x snapshot v = some visible) : visible = true ↔ s.Visible x snapshot v := by
  unfold Visible
  cases visible with
  | true =>
    obtain ⟨hsees, hown⟩ := sees_of_visible hi hb h
    split_ifs with hx
    · exact iff_of_true rfl (hown hx)
    · exact iff_of_true rfl (hsees.resolve_left hx)
  | false =>
    obtain ⟨hown, hother⟩ := unseen_of_not_visible hi h
    split_ifs with hx
    · exact iff_of_false nofun (Int.not_lt.2 (hown hx))
    · exact iff_of_false nofun fun ⟨c, hc, hlt⟩ => absurd (hother hx c hc) (Nat.not_le.2 hlt)

theorem SlotsInv.history (h : SlotsInv s st) {versions : List (RowTuple V)} (hl : s.History tid v versions)
    (hst : st tid = newer ++ v :: rest) :
    ∃ tail, versions = (v :: rest).map (RowTuple.mk tid) ++ tail ∧
    (tail = [] ∨ ∃ a old image, (v :: rest).getLast? = some a ∧
      s.undo a.undo = some (.Update old tid image) ∧ old ≠ tid ∧ s.History old image tail) := by
  induction hl generalizing newer rest with
  | @inserted tid v h0 =>
    cases rest with
    | nil => exact ⟨[], rfl, .inl rfl⟩
    | cons b rest =>
      obtain ⟨r, hr, -⟩ := (h.above hst).record
      exact absurd h0 (h.not_invalid hr)
  | @updated tid old v image versions hr hl ih =>
    cases rest with
    | nil =>
      obtain ⟨-, h0 | ⟨old', b, hr', hne, -⟩⟩ := h.bottom tid v (by simp [hst])
      · exact absurd h0 (h.not_invalid hr)
      · rw [hr'] at hr
        cases hr
        exact ⟨versions, rfl, .inr ⟨v, _, _, rfl, hr', hne, hl⟩⟩
    | cons b rest =>
      obtain ⟨r, hr', hsaves⟩ := (h.above hst).record
      rw [hr] at hr'
      obtain rfl := Option.some.inj hr'
      have hst' : st tid = (newer ++ [v]) ++ b :: rest := by simp [hst]
      cases hsaves with
      | update =>
        obtain ⟨tail, rfl, htail⟩ := ih hst'
        exact ⟨tail, rfl, by rwa [List.getLast?_cons_cons]⟩
      | move hn => exact absurd rfl hn
  | @deleted tid v image versions hr hl ih =>
    cases rest with
    | nil =>
      obtain ⟨-, h0 | ⟨old', b, hr', -⟩⟩ := h.bottom tid v (by simp [hst])
      · exact absurd h0 (h.not_invalid hr)
      · rw [hr'] at hr
        cases hr
    | cons b rest =>
      obtain ⟨r, hr', hsaves⟩ := (h.above hst).record
      rw [hr] at hr'
      obtain rfl := Option.some.inj hr'
      have hst' : st tid = (newer ++ [v]) ++ b :: rest := by simp [hst]
      cases hsaves with
      | delete hd =>
        obtain ⟨tail, rfl, htail⟩ := ih hst'
        exact ⟨tail, rfl, by rwa [List.getLast?_cons_cons]⟩

/-- A version in a slot that the row has left. -/
def Behind (s : RowRun W V) (st : Stacks V) (e : RowTuple V) : Prop :=
  ∃ mark rest new image, st e.tid = mark :: rest ∧ e.version ∈ rest ∧
  s.undo mark.undo = some (.Update e.tid new image) ∧ new ≠ e.tid

section
variable {w : W} {tr : Transaction}

/-- Who sees a version sees those before it. -/
theorem visible_below {a b : RowVersion V} (hi : s.tm.TransInv) (hs : s.tm.transactions w = some tr)
    (hidle : s.tm.pc w = .idle) (hS : tr.snapshot = some snapshot) (hf : s.Follows a.xid b.xid)
    (hu : b.undo < a.undo)
    (hbased : a.xid = tr.xid → s.Based tr b)
    (ha : s.Visible tr.xid snapshot a) : s.Visible tr.xid snapshot b := by
  unfold Visible at *
  by_cases hxa : a.xid = tr.xid
  · rw [if_pos hxa] at ha
    split_ifs with hxb
    · exact Int.lt_trans hu ha
    · obtain ⟨S, hS', hc⟩ := (hbased hxa).resolve_left hxb
      rw [hS] at hS'
      obtain rfl := Option.some.inj hS'
      exact hc
  · rw [if_neg hxa] at ha
    obtain ⟨c', hc', hlt⟩ := ha
    rcases hf with he | ⟨c, hc, hle⟩
    · rw [if_neg (he ▸ hxa)]
      exact ⟨c', he ▸ hc', hlt⟩
    · have hxb : b.xid ≠ tr.xid := fun e => TransManager.not_commits hi hs hidle c (e ▸ hc)
      rw [if_neg hxb]
      exact ⟨c, hc, Nat.lt_trans (hle c' hc') hlt⟩

/-- The versions of one slot. -/
theorem RowInv.isChain_slot (h : RowInv s st) (hs : s.tm.transactions w = some tr) (hidle : s.tm.pc w = .idle)
    (hS : tr.snapshot = some snapshot) (hst : st tid = newer ++ rest) :
    (rest.map (RowTuple.mk tid)).IsChain fun a b => s.Visible tr.xid snapshot a.version →
    s.Visible tr.xid snapshot b.version := by
  induction rest generalizing newer with
  | nil => exact .nil
  | cons v rest ih =>
    cases rest with
    | nil => exact .singleton _
    | cons b rest =>
      have habove := h.slots.above hst
      have hst' : st tid = (newer ++ [v]) ++ b :: rest := by simp [hst]
      exact .cons_cons (visible_below h.trans hs hidle hS habove.follows habove.undo
        ((h.scans w tr hs).based tid newer v b rest hst))
        (ih hst')

/-- Where a row came to a slot, the slot that it left has its mark over the version before. -/
theorem RowInv.crossing (h : RowInv s st) (hs : s.tm.transactions w = some tr) (hidle : s.tm.pc w = .idle)
    (hS : tr.snapshot = some snapshot) {old : TupleId} {a image : RowVersion V} (hlast : (st tid).getLast? = some a)
    (hr : s.undo a.undo = some (.Update old tid image))
    (hdead : s.dead tid = false) : ∃ mark below, st old = mark :: image :: below ∧
      s.undo mark.undo = some (.Update old tid image) ∧
      (s.Visible tr.xid snapshot a → s.Visible tr.xid snapshot image) := by
  obtain ⟨-, h0 | ⟨old', b, hr', -, hf, hu, hmark⟩⟩ := h.slots.bottom tid a hlast
  · exact absurd h0 (h.slots.not_invalid hr)
  · rw [hr] at hr'
    cases hr'
    obtain ⟨mark, below, hst, hmu, hmx⟩ := hmark hdead
    have hst' : st old = [] ++ mark :: image :: below := hst
    refine ⟨mark, below, hst, hmu ▸ hr, visible_below h.trans hs hidle hS hf hu fun hx => ?_⟩
    exact (h.scans w tr hs).based old [] mark image below hst' (hmx.trans hx)

theorem History.head? {versions : List (RowTuple V)} (hl : s.History tid v versions) :
    versions.head? = some ⟨tid, v⟩ := by
  cases hl <;> rfl

/-- The versions before a mark are in slots that the row has left. -/
theorem RowInv.behind (h : RowInv s st) (hs : s.tm.transactions w = some tr) (hidle : s.tm.pc w = .idle)
    (hS : tr.snapshot = some snapshot) {old new : TupleId} {mark image image' : RowVersion V}
    {versions : List (RowTuple V)}
    (hl : s.History old image versions)
    (hst : st old = mark :: image :: rest) (hr : s.undo mark.undo = some (.Update old new image'))
    (hne : new ≠ old) :
    (∀ e ∈ versions, s.Behind st e) ∧
      versions.IsChain fun a b => s.Visible tr.xid snapshot a.version → s.Visible tr.xid snapshot b.version := by
  induction hn :
    versions.length using Nat.strong_induction_on generalizing old new mark image image' rest versions with
  | _ n ih =>
    have hst' : st old = [mark] ++ image :: rest := hst
    obtain ⟨tail, rfl, htail⟩ := h.slots.history hl hst'
    have hslot : ∀ e ∈ (image :: rest).map (RowTuple.mk old), s.Behind st e := fun e he => by
      obtain ⟨b, hb, rfl⟩ := List.mem_map.1 he
      exact ⟨mark, image :: rest, new, image', hst, hb, hr, hne⟩
    have hchain := h.isChain_slot hs hidle hS hst'
    rcases htail with rfl | ⟨a, old', b, hlast, hra, hne', hl'⟩
    · rw [List.append_nil]
      exact ⟨hslot, hchain⟩
    · have hdead : s.dead old = false := by
        cases hd : s.dead old with
        | false => rfl
        | true =>
          obtain ⟨p, hp⟩ := h.slots.dead old hd
          rw [hst] at hp
          cases hp
      have hlast' : (st old).getLast? = some a := by rw [hst, List.getLast?_cons_cons, hlast]
      obtain ⟨mark', below, hst2, hr2, hcross⟩ := h.crossing hs hidle hS hlast' hra hdead
      have hlen : tail.length < n := by
        rw [← hn, List.length_append, List.length_map, List.length_cons]
        omega
      obtain ⟨hb, hc⟩ := ih tail.length hlen hl' hst2 hr2 hne'.symm rfl
      refine ⟨fun e he => (List.mem_append.1 he).elim (hslot e) (hb e), hchain.append hc fun x hx y hy => ?_⟩
      rw [List.getLast?_map, hlast] at hx
      rw [hl'.head?] at hy
      cases hx
      cases hy
      exact hcross

/-- The scan of a slot that the row has left returns nothing. -/
theorem Behind.scan {e : RowTuple V} {res : Option (RowTuple V)} (h : s.Behind st e) (hi : SlotsInv s st)
    (hmax : s.tm.usn ≤ UndoSeqNumber.Max) (hscan : s.scanSlot x snapshot e.tid = some res) : res = none := by
  obtain ⟨mark, rest, new, image, hst, hmem, hr, hne⟩ := h
  cases rest with
  | nil => cases hmem
  | cons b rest => exact hi.scanSlot_mark hmax hst hr hne (hi.mark_deleted hst hr hne.symm) hscan

theorem Behind.live {e : RowTuple V} (h : s.Behind st e) (hi : SlotsInv s st) : e.version.deleted = false := by
  obtain ⟨mark, rest, new, image, hst, hmem, -⟩ := h
  exact hi.live hst hmem

theorem SlotsInv.scan_last (h : SlotsInv s st) (hi : s.tm.TransInv) (hmax : s.tm.usn ≤ UndoSeqNumber.Max)
    (hst : st tid = v :: rest) (hdead : s.dead tid = false)
    (hv : v.deleted = false ∨ ∃ b, s.undo v.undo = some (.Insert tid b))
    {res : Option (RowTuple V)}
    (hscan : s.scanSlot x snapshot tid = some res) :
    (∃ newer e below, v :: rest = newer ++ e :: below ∧ s.Visible x snapshot e ∧
      (∀ a ∈ newer, ¬ s.Visible x snapshot a) ∧
      res = if e.deleted then none else some ⟨tid, e⟩) ∨ (∀ a ∈ v :: rest, ¬ s.Visible x snapshot a) ∧
      res = none := by
  have hbegun : ∀ a ∈ v :: rest, s.tm.history a.xid ≠ CommitSeqNumber.Invalid :=
    fun a ha => h.begun tid a (hst ▸ ha)
  have hunseen : ∀ a ∈ v :: rest, s.tupleIsVisible x snapshot a = some false → ¬ s.Visible x snapshot a :=
    fun a ha hvis hs =>
    absurd ((visible_iff hi (hbegun a ha) hvis).2 hs) (by decide)
  rw [h.scanSlot_eq hmax hst hdead hv] at hscan
  cases hvis : s.tupleIsVisible x snapshot v with
  | none => simp [hvis] at hscan
  | some visible =>
    have hvisible := visible_iff hi (hbegun v List.mem_cons_self) hvis
    cases visible with
    | true =>
      simp only [hvis, Option.bind_eq_bind, Option.bind_some, if_true, Option.pure_def, Option.some.injEq] at hscan
      exact .inl ⟨[], v, rest, rfl, hvisible.1 rfl, nofun, hscan.symm⟩
    | false =>
      have hnot := hunseen v List.mem_cons_self hvis
      simp only [hvis, Option.bind_eq_bind, Option.bind_some, Bool.false_eq_true, if_false] at hscan
      obtain ⟨r, hr, rfl⟩ := Option.map_eq_some_iff.1 hscan
      cases r with
      | none =>
        refine .inr ⟨fun a ha => ?_, rfl⟩
        rcases List.mem_cons.1 ha with rfl | ha'
        · exact hnot
        · exact hunseen a ha (newest_none hr a ha')
      | some e =>
        obtain ⟨newer, below, rfl, he, hnewer⟩ := newest_found hr
        have hmem : e ∈ newer ++ e :: below := List.mem_append_right _ List.mem_cons_self
        refine .inl ⟨v :: newer, e, below, rfl, (visible_iff hi (hbegun e (List.mem_cons_of_mem _ hmem)) he).1 rfl,
          fun a ha => ?_, ?_⟩
        · rcases List.mem_cons.1 ha with rfl | ha'
          · exact hnot
          · exact hunseen a (List.mem_cons_of_mem _ (List.mem_append_left _ ha')) (hnewer a ha')
        · rw [h.live hst hmem]
          rfl

end

/-! ## Scans of a row -/

/-- The slots of a row, the last one first. -/
def slotsOf (versions : List (RowTuple V)) : List TupleId := (versions.map RowTuple.tid).dedup

theorem mem_of_moved {l : List (RowTuple V)} {a : RowTuple V} (h : a ∈ moved l) : a ∈ l := by
  fun_induction moved l with
  | case1 b c rest he ih => exact List.mem_cons_of_mem _ (ih h)
  | case2 b c rest hne ih =>
    rcases List.mem_cons.1 h with rfl | h
    · exact List.mem_cons_self
    · exact List.mem_cons_of_mem _ (ih h)
  | case3 => cases h

theorem moved_append {vs : List (RowVersion V)} {tail : List (RowTuple V)} {a : RowTuple V}
    (h : a ∈ moved ((v :: vs).map (RowTuple.mk tid) ++ tail)) :
    (∃ e ∈ (v :: vs).getLast?, a = ⟨tid, e⟩) ∨ a ∈ tail := by
  induction vs generalizing v with
  | nil =>
    rcases List.mem_cons.1 (mem_of_moved h) with rfl | h
    · exact .inl ⟨v, rfl, rfl⟩
    · exact .inr h
  | cons b vs ih =>
    simp only [List.map_cons, List.cons_append, moved, if_true] at h
    rw [List.getLast?_cons_cons]
    exact ih h

theorem mem_moved {vs : List (RowVersion V)} {e : RowTuple V} {tail : List (RowTuple V)} {a : RowVersion V}
    (hlast : (v :: vs).getLast? = some a) (hne : e.tid ≠ tid) :
    ⟨tid, a⟩ ∈ moved ((v :: vs).map (RowTuple.mk tid) ++ e :: tail) := by
  induction vs generalizing v with
  | nil =>
    obtain rfl : v = a := Option.some.inj hlast
    simp [moved, hne.symm]
  | cons b vs ih =>
    simp only [List.map_cons, List.cons_append, moved, if_true]
    rw [List.getLast?_cons_cons] at hlast
    exact ih hlast

theorem filterMap_single {α β : Type} {f : α → Option β} {l : List α} {a : α} (hl : l.Nodup) (ha : a ∈ l)
    (hf : ∀ b ∈ l, b ≠ a → f b = none) :
    l.filterMap f = (f a).toList := by
  obtain ⟨pre, post, rfl⟩ := List.append_of_mem ha
  have hno : a ∉ pre ++ post := (List.nodup_cons.1 (List.nodup_middle.1 hl)).1
  rw [List.mem_append, not_or] at hno
  have hpre : pre.filterMap f = [] :=
    List.filterMap_eq_nil_iff.2 fun b hb => hf b (by simp [hb]) fun e => hno.1 (e ▸ hb)
  have hpost : post.filterMap f = [] :=
    List.filterMap_eq_nil_iff.2 fun b hb => hf b (by simp [hb]) fun e => hno.2 (e ▸ hb)
  rw [List.filterMap_append, hpre, List.nil_append, List.filterMap_cons, hpost]
  cases f a <;> rfl

theorem first_unique {α : Type} {P : α → Prop} {a b : α} {pre post pre' post' : List α}
    (h : pre ++ a :: post = pre' ++ b :: post') (ha : P a) (hb : P b) (hpre : ∀ c ∈ pre, ¬ P c)
    (hpre' : ∀ c ∈ pre', ¬ P c) : a = b := by
  induction pre generalizing pre' with
  | nil =>
    cases pre' with
    | nil => exact (List.cons.inj h).1
    | cons c pre' => exact absurd ((List.cons.inj h).1 ▸ ha) (hpre' c List.mem_cons_self)
  | cons c pre ih =>
    cases pre' with
    | nil => exact absurd ((List.cons.inj h).1 ▸ hb) (hpre c List.mem_cons_self)
    | cons d pre' =>
      exact ih (List.cons.inj h).2 (fun c hc => hpre c (List.mem_cons_of_mem _ hc)) fun c hc =>
        hpre' c (List.mem_cons_of_mem _ hc)

theorem exists_first {α : Type} {P : α → Prop} {l : List α} (h : ∃ a ∈ l, P a) :
    ∃ pre a post, l = pre ++ a :: post ∧ P a ∧ ∀ c ∈ pre, ¬ P c := by
  induction l with
  | nil => simp at h
  | cons a l ih =>
    by_cases ha : P a
    · exact ⟨[], a, l, rfl, ha, nofun⟩
    · have hrest : ∃ b ∈ l, P b := by simpa [ha] using h
      obtain ⟨pre, b, post, rfl, hb, hpre⟩ := ih hrest
      exact ⟨a :: pre, b, post, rfl, hb, List.forall_mem_cons.2 ⟨ha, hpre⟩⟩

section
variable {w : W} {tr : Transaction} {versions : List (RowTuple V)} {found : TupleId → Option (RowTuple V)}

theorem SlotsInv.not_mark (h : SlotsInv s st) (hl : s.History tid v versions) (hst : st tid = v :: rest) :
    v.deleted = false ∨ ∃ b, s.undo v.undo = some (.Insert tid b) := by
  rcases h.top hst with hv | ⟨-, new, image, hr, hne⟩
  · exact hv
  · cases hl with
    | inserted h0 => exact absurd h0 (h.not_invalid hr)
    | updated hr' =>
      rw [hr] at hr'
      cases hr'
      exact absurd rfl hne
    | deleted hr' => exact .inr ⟨_, hr'⟩

/-- The scans of the slots of a row return what the scan of the last one does. -/
theorem RowInv.scan_slots (h : RowInv s st) {vs : List (RowVersion V)} {tail : List (RowTuple V)}
    (hbehind : ∀ e ∈ tail, s.Behind st e)
    (hscan : ∀ r ∈ slotsOf ((v :: vs).map (RowTuple.mk tid) ++ tail), s.scanSlot x snapshot r = some (found r)) :
    s.scanSlot x snapshot tid = some (found tid) ∧
      (slotsOf ((v :: vs).map (RowTuple.mk tid) ++ tail)).filterMap found = (found tid).toList := by
  have hmem : tid ∈ slotsOf ((v :: vs).map (RowTuple.mk tid) ++ tail) := by simp [slotsOf]
  refine ⟨hscan tid hmem, filterMap_single (List.nodup_dedup _) hmem fun r hr hne => ?_⟩
  have hr' := hr
  simp only [slotsOf, List.mem_dedup, List.map_append, List.map_map, List.mem_append, List.mem_map] at hr'
  rcases hr' with ⟨e, -, he⟩ | ⟨e, he, rfl⟩
  · exact absurd he.symm hne
  · exact (hbehind e he).scan h.slots h.max (hscan e.tid hr)

theorem RowInv.scan_row (h : RowInv s st) (hs : s.tm.transactions w = some tr) (hidle : s.tm.pc w = .idle)
    (hS : tr.snapshot = some snapshot) (hrow : s.Row versions)
    (hscan : ∀ tid ∈ slotsOf versions, s.scanSlot tr.xid snapshot tid = some (found tid)) :
    (s.Right tr.xid snapshot versions ((slotsOf versions).filterMap found) ↔ s.Followed tr.xid snapshot versions) ∧
      ((slotsOf versions).filterMap found).length ≤ 1 := by
  obtain ⟨tid, v, hpage, hdead, hl⟩ := hrow
  obtain ⟨rest, hst⟩ : ∃ rest, st tid = v :: rest := by
    rw [h.slots.page] at hpage
    exact List.head?_eq_some_iff.1 hpage
  have hnot := h.slots.not_mark hl hst
  have hst' : st tid = [] ++ v :: rest := hst
  obtain ⟨tail, rfl, htail⟩ := h.slots.history hl hst'
  have hslot := h.isChain_slot hs hidle hS hst'
  have hbehind : (∀ e ∈ tail, s.Behind st e) ∧ ((v :: rest).map (RowTuple.mk tid) ++ tail).IsChain
      fun a b => s.Visible tr.xid snapshot a.version → s.Visible tr.xid snapshot b.version := by
    rcases htail with rfl | ⟨a, old, image, hlast, hr, hne, hl'⟩
    · exact ⟨nofun, by rwa [List.append_nil]⟩
    · obtain ⟨mark, below, hst2, hr2, hcross⟩ := h.crossing hs hidle hS (hst ▸ hlast) hr hdead
      obtain ⟨hb, hc⟩ := h.behind hs hidle hS hl' hst2 hr2 hne.symm
      refine ⟨hb, hslot.append hc fun x hx y hy => ?_⟩
      rw [List.getLast?_map, hlast] at hx
      rw [hl'.head?] at hy
      cases hx
      cases hy
      exact hcross
  obtain ⟨hbehind, hchain⟩ := hbehind
  obtain ⟨hlast, hfound⟩ := h.scan_slots hbehind hscan
  rw [hfound]
  refine ⟨?_, by cases found tid <;> simp⟩
  have htop : ∀ {a}, a ∈ v :: rest → RowTuple.mk tid a ∈ (v :: rest).map (RowTuple.mk tid) ++ tail := fun ha =>
    List.mem_append_left _ (List.mem_map_of_mem ha)
  rcases h.slots.scan_last h.trans h.max hst hdead hnot hlast with ⟨newer, e, below, hvs, he, hnewer,
    hres⟩ | ⟨hnone, hres⟩
  · -- the newest visible version is in the last slot, and every move is one that the snapshot sees
    have hsplit : (v :: rest).map (RowTuple.mk tid) ++ tail =
        newer.map (RowTuple.mk tid) ++ ⟨tid, e⟩ :: (below.map (RowTuple.mk tid) ++ tail) := by simp [hvs]
    have hbelow : ∀ a ∈ below.map (RowTuple.mk tid) ++ tail, s.Visible tr.xid snapshot a.version := fun a ha => by
      rw [hsplit] at hchain
      exact rel_of_isChain (S := fun a b : RowTuple V => s.Visible tr.xid snapshot a.version →
        s.Visible tr.xid snapshot b.version)
        (fun _ _ _ hab hbc => hbc ∘ hab) (fun _ _ => id) hchain.right_of_append ha he
    refine iff_of_true ⟨fun e' newer' rest' hl' he' hnewer' => ?_, fun hall => ?_⟩ (.inl fun a ha => ?_)
    · obtain rfl : ⟨tid, e⟩ = e' := by
        refine first_unique (P := fun e : RowTuple V => s.Visible tr.xid snapshot e.version)
          (hsplit.symm.trans hl') he he' ?_ hnewer'
        intro c hc
        obtain ⟨b, hb, rfl⟩ := List.mem_map.1 hc
        exact hnewer b hb
      rw [hres]
      by_cases hd : e.deleted = true <;> simp [hd]
    · exact absurd he (hall ⟨tid, e⟩ (htop (by simp [hvs])))
    · rcases moved_append ha with ⟨b, hb, rfl⟩ | ha
      · have hmem : b ∈ e :: below := by
          rw [hvs, List.getLast?_append_of_ne_nil _ (by simp)] at hb
          exact List.mem_of_getLast? hb
        rcases List.mem_cons.1 hmem with rfl | hmem
        · exact he
        · exact hbelow _ (List.mem_append_left _ (List.mem_map_of_mem hmem))
      · exact hbelow a (List.mem_append_right _ ha)
  · rw [hres]
    by_cases htv : ∃ e ∈ tail, s.Visible tr.xid snapshot e.version
    · -- the snapshot sees a version in a slot that the row has left, and not the move from there
      obtain ⟨pre, e, post, rfl, he, hpre⟩ := exists_first htv
      refine iff_of_false (fun hright => ?_) fun hfollowed => ?_
      · have := hright.1 e ((v :: rest).map (RowTuple.mk tid) ++ pre) post (by simp) he fun a ha => ?_
        · rw [(hbehind e (by simp)).live h.slots] at this
          cases this
        · rcases List.mem_append.1 ha with ha | ha
          · obtain ⟨b, hb, rfl⟩ := List.mem_map.1 ha
            exact hnone b hb
          · exact hpre a ha
      · rcases htail with hnil | ⟨a, old, image, hlast', hr, hne, hl'⟩
        · simp at hnil
        · obtain ⟨tail, ht⟩ := List.head?_eq_some_iff.1 hl'.head?
          rcases hfollowed with hmoved | hall
          · rw [ht] at hmoved
            exact hnone a (List.mem_of_getLast? hlast') (hmoved _ (mem_moved hlast' hne))
          · exact hall e (by simp) he
    · have hall : ∀ e ∈ (v :: rest).map (RowTuple.mk tid) ++ tail, ¬ s.Visible tr.xid snapshot e.version :=
        fun e hmem he => by
        rcases List.mem_append.1 hmem with hmem | hmem
        · obtain ⟨b, hb, rfl⟩ := List.mem_map.1 hmem
          exact hnone b hb he
        · exact htv ⟨e, hmem, he⟩
      refine iff_of_true ⟨fun e newer' rest' hl' he _ => ?_, fun _ => rfl⟩ (.inr hall)
      rw [hl'] at hall
      exact absurd he (hall e (List.mem_append_right _ List.mem_cons_self))

/-- A slot whose move was taken back. -/
theorem scanSlot_dead (hdead : s.dead tid = true) : s.scanSlot x snapshot tid = some none := by
  unfold scanSlot
  rw [hdead]
  cases s.slots tid <;> rfl

variable [DecidableEq W] [DecidableEq V]

theorem moved_row_found (h : Reach step (fun s a => s.Unovertaken a ∧ s.noWrap a) (init : RowRun W V) s)
    (hs : s.tm.transactions w = some tr) (hidle : s.tm.pc w = .idle) (hS : tr.snapshot = some snapshot)
    (hrow : s.Row versions)
    (hscan : ∀ tid ∈ slotsOf versions, s.scanSlot tr.xid snapshot tid = some (found tid)) :
    (s.Right tr.xid snapshot versions ((slotsOf versions).filterMap found) ↔ s.Followed tr.xid snapshot versions) ∧
      ((slotsOf versions).filterMap found).length ≤ 1 ∧ ∀ tid, s.dead tid = true →
      s.scanSlot tr.xid snapshot tid = some none := by
  obtain ⟨st, hst⟩ := rowInv_of_reach h
  obtain ⟨hright, hone⟩ := hst.scan_row hs hidle hS hrow hscan
  exact ⟨hright, hone, fun _ => scanSlot_dead⟩

end

def secondSlot : TupleId := ⟨0, 1⟩

def secondVersion : RowVersion Nat := ⟨2, 2, false, 20⟩

/-- Worker 1 moves the row of worker 0 to another slot of its page. -/
def moveTrace : List (Fin 4 × RowOp Nat) :=
  beginBoth 0 ++ [(0, .insert firstSlot 10 1)] ++ commitAll 0 ++ beginBoth 1 ++
    [(1, .scan firstSlot), (1, .change firstTuple (.update 20 (some secondSlot)) 2)]

def movedVersions : List (RowTuple Nat) := [⟨secondSlot, secondVersion⟩, firstTuple]

theorem row_moved {s : RowRun (Fin 4) Nat} (h2 : s.slots secondSlot = some secondVersion)
    (hd : s.dead secondSlot = false)
    (hu : s.undo 2 = some (.Update firstSlot secondSlot firstVersion)) : s.Row movedVersions :=
  ⟨secondSlot, secondVersion, h2, hd, .updated hu (.inserted rfl)⟩

theorem mem_movedSlots {r : TupleId} (h : r ∈ slotsOf movedVersions) : r = secondSlot ∨ r = firstSlot := by
  have hslots : slotsOf movedVersions = [secondSlot, firstSlot] := by decide
  simpa [hslots] using h

def lastAnswer (r : TupleId) : Option (RowTuple Nat) :=
  if r = secondSlot then some ⟨secondSlot, secondVersion⟩ else none

def reader (csn : Nat) : Transaction := ⟨3, .RUNNING, some ⟨csn, 0⟩, none⟩

theorem moved_row_found_committed :
    ∃ s : RowRun (Fin 4) Nat, Reach step (fun s a => s.Unovertaken a ∧ s.noWrap a) init s ∧
    s.Row movedVersions ∧ s.Right 3 ⟨7, 0⟩ movedVersions [⟨secondSlot, secondVersion⟩] := by
  have h : (exec (guarded (fun s a => s.Unovertaken a ∧ s.noWrap a) step) init
    (moveTrace ++ commitAll 1 ++ beginBoth 2)).map
      (fun s => decide (s.slots secondSlot = some secondVersion ∧ s.dead secondSlot = false ∧
        s.undo 2 = some (.Update firstSlot secondSlot firstVersion) ∧ s.tm.transactions 2 = some (reader 7) ∧
        s.tm.pc 2 = .idle ∧
        s.scanSlot 3 ⟨7, 0⟩ secondSlot = some (some ⟨secondSlot, secondVersion⟩) ∧
        s.scanSlot 3 ⟨7, 0⟩ firstSlot = some none ∧
        s.tm.history 2 = 6)) = some true := by decide +kernel
  obtain ⟨s, hr, hs⟩ := reach_of_test h
  obtain ⟨h2, hd, hu, htr, hidle, hs2, hs1, hh⟩ := of_decide_eq_true hs
  have hrow := row_moved h2 hd hu
  refine ⟨s, hr.of_guarded, hrow, ?_⟩
  have hscan : ∀ r ∈ slotsOf movedVersions, s.scanSlot 3 ⟨7, 0⟩ r = some (lastAnswer r) := fun r hr => by
    rcases mem_movedSlots hr with rfl | rfl
    · exact hs2
    · exact hs1
  refine (moved_row_found hr.of_guarded htr hidle rfl hrow hscan).1.2 (.inl fun a ha => ?_)
  obtain rfl : a = ⟨secondSlot, secondVersion⟩ := List.mem_singleton.1 ha
  exact ⟨6, .inl ⟨by decide, hh⟩, by decide⟩

/-- A transaction that began before the move is committed finds the row in neither slot. -/
theorem row_lost : ∃ s : RowRun (Fin 4) Nat, Reach step (fun s a => s.Unovertaken a ∧ s.noWrap a) init s ∧
    s.Row movedVersions ∧ s.tm.transactions 2 = some (reader 6) ∧
    (∀ r ∈ slotsOf movedVersions, s.scanSlot 3 ⟨6, 0⟩ r = some none) ∧
    s.Visible 3 ⟨6, 0⟩ firstVersion ∧ ¬ s.Visible 3 ⟨6, 0⟩ secondVersion ∧ ¬ s.Right 3 ⟨6, 0⟩ movedVersions [] := by
  have h : (exec (guarded (fun s a => s.Unovertaken a ∧ s.noWrap a) step) init
    (moveTrace ++ beginBoth 2 ++ commitAll 1)).map
      (fun s => decide (s.slots secondSlot = some secondVersion ∧ s.dead secondSlot = false ∧
        s.undo 2 = some (.Update firstSlot secondSlot firstVersion) ∧ s.tm.transactions 2 = some (reader 6) ∧
        s.scanSlot 3 ⟨6, 0⟩ secondSlot = some none ∧ s.scanSlot 3 ⟨6, 0⟩ firstSlot = some none ∧
        s.tm.history 1 = 5 ∧ s.tm.history 2 = 6)) = some true := by decide +kernel
  obtain ⟨s, hr, hs⟩ := reach_of_test h
  obtain ⟨h2, hd, hu, htr, hs2, hs1, hh1, hh2⟩ := of_decide_eq_true hs
  have hseen : s.Visible 3 ⟨6, 0⟩ firstVersion := ⟨5, .inl ⟨by decide, hh1⟩, by decide⟩
  have hnot : ¬ s.Visible 3 ⟨6, 0⟩ secondVersion := by
    obtain ⟨st, hst⟩ := rowInv_of_reach hr.of_guarded
    have hvis : s.tupleIsVisible 3 ⟨6, 0⟩ secondVersion = some false := by
      simp only [tupleIsVisible, secondVersion, hh2]
      rfl
    have hbegun : s.tm.history secondVersion.xid ≠ CommitSeqNumber.Invalid := by
      show s.tm.history 2 ≠ _
      rw [hh2]
      decide
    exact fun hv => absurd ((visible_iff hst.trans hbegun hvis).2 hv) (by decide)
  refine ⟨s, hr.of_guarded, row_moved h2 hd hu, htr, fun r hr => ?_, hseen, hnot, fun hright => ?_⟩
  · rcases mem_movedSlots hr with rfl | rfl
    · exact hs2
    · exact hs1
  · have := hright.1 firstTuple [⟨secondSlot, secondVersion⟩] [] rfl hseen (by simpa using hnot)
    simp [firstTuple, firstVersion] at this

end RowRun

end Mimidb
