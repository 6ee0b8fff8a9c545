import Mimidb.BufferManager
import Mimidb.HeapLayout
import Mimidb.Run
import Mimidb.WaitCycle

/-!
# Page latches of the heap calls

Workers run the heap calls, scans and undo up to each latch of a page: `Use`
says what a worker does with the page once it has the latch. The shared mode
is granted, like the exclusive one, only while nobody holds the latch. A page
can change in any way while it is latched. Reading a page into the pool and
writing a victim back take latches too.
-/

namespace Mimidb

namespace PageTag

/-- Pages by table and number. -/
def Before (a b : PageTag) : Prop := a.relid < b.relid ∨ a.relid = b.relid ∧ a.pageno < b.pageno

instance (a b : PageTag) : Decidable (Before a b) := inferInstanceAs (Decidable (_ ∨ _ ∧ _))

instance : IsTrans PageTag Before := ⟨fun a b c hab hbc => by simp only [Before] at *; omega⟩

instance : Std.Irrefl Before := ⟨fun a h => by simp only [Before] at h; omega⟩

end PageTag

/-- Who looks for a page. -/
inductive Caller where
  | insert
  /-- The old page is latched; so is the page that was found in the round before. -/
  | update (old : PageTag) (found : Option PageTag)
  deriving DecidableEq

namespace Caller

def held : Caller → List PageTag
  | .insert => []
  | .update old found => found.toList ++ [old]

/-- The next round, after `tag` turned out to be full. -/
def again (tag : PageTag) : Caller → Caller
  | .insert => .insert
  | .update old _ => .update old (some tag)

end Caller

inductive Use where
  /-- A scan, `DeleteTuple` after its check, or undo on one page. -/
  | single
  | delete (index xid : Nat)
  /-- The old page of `UpdateTuple`. -/
  | update (index xid size : Nat)
  /-- The old page after the wait for a transaction. -/
  | updateOn (index size : Nat)
  /-- The loop of `searchPageFreeSpace`. -/
  | probe (npages size : Nat) (caller : Caller)
  /-- The zeros of a new page. -/
  | extend (size : Nat) (caller : Caller)
  | init (size : Nat) (caller : Caller)
  /-- The shared latch at the end of `searchPageFreeSpace`. -/
  | recheck (size : Nat) (caller : Caller)
  /-- The found page. -/
  | place (size : Nat) (caller : Caller)
  /-- The old page of the undo of an update to another page, and then the new one. -/
  | undoOld (new : PageTag)
  | undoNew (old : PageTag)
  /-- The page is read into the pool for the use. -/
  | read (use : Use)

namespace Use

/-- The latches held besides that of the page itself. -/
def base : Use → List PageTag
  | .single | .delete _ _ | .update _ _ _ | .updateOn _ _ | .undoOld _ => []
  | .probe _ _ caller | .extend _ caller | .init _ caller | .recheck _ caller | .place _ caller => caller.held
  | .undoNew old => [old]
  | .read use => use.base

end Use

inductive PagePc where
  | idle
  /-- `GetBuffer` of the page. -/
  | fetch (tag : PageTag) (use : Use)
  | want (tag : PageTag) (use : Use)
  | own (tag : PageTag) (use : Use)
  /-- `GetBuffer` writes back a victim. -/
  | wantVictim (victim tag : PageTag) (use : Use)
  | ownVictim (victim tag : PageTag) (use : Use)
  /-- `wait_tnx_end`. -/
  | waitEnd (tag : PageTag) (use : Use)

namespace PagePc

def holds : PagePc → List PageTag
  | .idle | .waitEnd _ _ => []
  | .fetch _ use | .want _ use | .wantVictim _ _ use => use.base
  | .own tag use => tag :: use.base
  | .ownVictim victim _ use => victim :: use.base

def wants : PagePc → Option PageTag
  | .want tag _ => some tag
  | .wantVictim victim _ _ => some victim
  | _ => none

end PagePc

structure LatchRun where
  page : PageTag → Memory
  /-- The page counts of the tables. -/
  count : Nat → Nat
  pc : Nat → PagePc
  /-- The updates to other pages so far. -/
  moved : List (PageTag × PageTag)

/-- The calls by their first page. -/
inductive PageCall where
  | getNextTuple (tag : PageTag)
  | insertTuple (relid size : Nat)
  | updateTuple (tag : PageTag) (index xid size : Nat)
  | deleteTuple (tag : PageTag) (index xid : Nat)
  | undo (tag : PageTag)
  /-- The undo of an update to another page. -/
  | undoMove (old new : PageTag)

inductive PageOp where
  | call (w : Nat) (call : PageCall)
  /-- `GetBuffer` reads the page. -/
  | load (w : Nat)
  | evict (w : Nat) (victim : PageTag)
  | written (w : Nat)
  /-- The latch is asked for. -/
  | request (w : Nat)
  | grant (w : Nat)
  /-- A worker changes a page that it holds. -/
  | change (w : Nat) (tag : PageTag) (page : Memory)
  /-- The work on the page, up to the next latch. -/
  | work (w : Nat)
  | waited (w : Nat)
  /-- An exception ends the call. -/
  | fail (w : Nat)

namespace LatchRun

def setPc (s : LatchRun) (w : Nat) (pc : PagePc) : LatchRun := { s with pc := Function.update s.pc w pc }

/-- The start of `searchPageFreeSpace`. -/
def search (s : LatchRun) (relid size : Nat) (caller : Caller) : PagePc :=
  if s.count relid = 0 then .fetch ⟨relid, 0⟩ (.extend size caller)
  else .fetch ⟨relid, 0⟩ (.probe (s.count relid) size caller)

/-- `UpdateTuple` needs another page. -/
def Moves (page : Memory) (index size : Nat) : Prop :=
  (HeapPage.itemAt page index).length < size ∧ HeapPage.getFreeSpace page < size + ItemId.size

instance (page : Memory) (index size : Nat) : Decidable (Moves page index size) :=
  inferInstanceAs (Decidable (_ ∧ _))

def full (page : Memory) (size : Nat) : Bool := HeapPage.getFreeSpace page < size + ItemId.size

/-- The transaction that the tuple of an item is by. -/
def xidAt (page : Memory) (index : Nat) : Nat := (HeapPage.headerAt page (HeapPage.itemAt page index).offset).xid

def decide (s : LatchRun) (tag : PageTag) (index size : Nat) : PagePc :=
  if Moves (s.page tag) index size then s.search tag.relid size (.update tag none) else .idle

/-- What a worker does once it has the latch of `tag`. -/
def use (s : LatchRun) (w : Nat) (tag : PageTag) : Use → LatchRun
  | .single => s.setPc w .idle
  | .delete index xid =>
    if xidAt (s.page tag) index ≠ xid then s.setPc w (.waitEnd tag .single) else s.setPc w .idle
  | .update index xid size =>
    if xidAt (s.page tag) index ≠ xid then s.setPc w (.waitEnd tag (.updateOn index size))
    else s.setPc w (s.decide tag index size)
  | .updateOn index size => s.setPc w (s.decide tag index size)
  | .probe npages size caller =>
    if full (s.page tag) size then
      if tag.pageno + 1 < npages then s.setPc w (.fetch ⟨tag.relid, tag.pageno + 1⟩ (.probe npages size caller))
      else s.setPc w (.fetch ⟨tag.relid, s.count tag.relid⟩ (.extend size caller))
    else s.setPc w (.want tag (.place size caller))
  | .extend size caller =>
    { s with
      page := Function.update s.page tag fun _ => 0
      count := Function.update s.count tag.relid (max (s.count tag.relid) (tag.pageno + 1))
      pc := Function.update s.pc w (.want tag (.init size caller)) }
  | .init size caller =>
    let page := s.page tag
    { s with
      page := Function.update s.page tag (if HeapPage.isNew page then HeapPage.init page else page)
      pc := Function.update s.pc w (.want tag (.recheck size caller)) }
  | .recheck size caller => s.setPc w (.want tag (.place size caller))
  | .place size caller =>
    if full (s.page tag) size then s.setPc w (s.search tag.relid size (caller.again tag))
    else match caller with
      | .insert => s.setPc w .idle
      | .update old _ => { s.setPc w .idle with moved := (old, tag) :: s.moved }
  | .undoOld new => s.setPc w (.fetch new (.undoNew tag))
  | .undoNew _ => s.setPc w .idle
  | .read use => s.setPc w (.want tag use)

/-- A call begins with `GetBuffer` of its first page; tuples of scans and of undo are on pages of the table. -/
def call (s : LatchRun) (w : Nat) : PageCall → Option LatchRun
  | .getNextTuple tag => some (s.setPc w (.fetch tag .single))
  | .insertTuple relid size => some (s.setPc w (s.search relid size .insert))
  | .updateTuple tag index xid size =>
    if tag.pageno < s.count tag.relid then some (s.setPc w (.fetch tag (.update index xid size))) else none
  | .deleteTuple tag index xid => some (s.setPc w (.fetch tag (.delete index xid)))
  | .undo tag => some (s.setPc w (.fetch tag .single))
  | .undoMove old new => if (old, new) ∈ s.moved then some (s.setPc w (.fetch old (.undoOld new))) else none

def step (workers : Nat) (s : LatchRun) : PageOp → Option LatchRun
  | .call w c =>
    match s.pc w with
    | .idle => if w < workers then s.call w c else none
    | _ => none
  | .load w =>
    match s.pc w with
    | .fetch tag use => some (s.setPc w (.want tag (.read use)))
    | _ => none
  | .evict w victim =>
    match s.pc w with
    | .fetch tag use => some (s.setPc w (.wantVictim victim tag use))
    | _ => none
  | .written w =>
    match s.pc w with
    | .ownVictim _ tag use => some (s.setPc w (.fetch tag use))
    | _ => none
  | .request w =>
    match s.pc w with
    | .fetch tag use => some (s.setPc w (.want tag use))
    | _ => none
  | .grant w =>
    match s.pc w with
    | .want tag use => if ∀ v < workers, tag ∉ (s.pc v).holds then some (s.setPc w (.own tag use)) else none
    | .wantVictim victim tag use =>
      if ∀ v < workers, victim ∉ (s.pc v).holds then some (s.setPc w (.ownVictim victim tag use)) else none
    | _ => none
  | .change w tag page =>
    if tag ∈ (s.pc w).holds then some { s with page := Function.update s.page tag page } else none
  | .work w =>
    match s.pc w with
    | .own tag use => some (s.use w tag use)
    | _ => none
  | .waited w =>
    match s.pc w with
    | .waitEnd tag use => some (s.setPc w (.want tag use))
    | _ => none
  | .fail w =>
    match s.pc w with
    | .want _ _ | .wantVictim _ _ _ => none
    | _ => some (s.setPc w .idle)

def start (page : PageTag → Memory) (count : Nat → Nat) : LatchRun := ⟨page, count, fun _ => .idle, []⟩

/-- No cycle of workers waits for itself. -/
def NoDeadlock (s : LatchRun) : Prop :=
  ∀ w, ¬ Relation.TransGen (WaitsFor (fun w => (s.pc w).wants) (fun w => (s.pc w).holds)) w w

/-- An update that needs another page finds one before it gets to a page that it holds. -/
def FindsRoom (page : PageTag → Memory) : PagePc → Prop
  | .own tag (.update index xid size) => xidAt (page tag) index = xid → Moves (page tag) index size → 0 < tag.pageno
  | .own tag (.updateOn index size) => Moves (page tag) index size → 0 < tag.pageno
  | .own tag (.probe _ size caller) => full (page tag) size = true → ⟨tag.relid, tag.pageno + 1⟩ ∉ caller.held
  | .own tag (.place size caller) => full (page tag) size = true → caller = .insert ∨ 0 < tag.pageno
  | _ => True

/-- Searches find room, and victims written back while a page is held come before that page. -/
def Finds (s : LatchRun) : PageOp → Prop
  | .work w => FindsRoom s.page (s.pc w)
  | .evict w victim => ∀ tag ∈ (s.pc w).holds, victim.Before tag
  | _ => True

end LatchRun

/-! ## The order of the latches -/

/-- The page `tag` comes before the pages held, which are pages of the same table. -/
def Use.Ordered (count : Nat → Nat) (tag : PageTag) : Use → Prop
  | .single | .delete _ _ => True
  | .update _ _ _ | .updateOn _ _ => tag.pageno < count tag.relid
  | .probe npages _ caller => npages ≤ count tag.relid ∧
    ∀ held ∈ caller.held, held.relid = tag.relid ∧ tag.pageno < held.pageno ∧ held.pageno < npages
  -- with a page held the search ends before the last page
  | .extend _ caller | .init _ caller | .recheck _ caller => caller = .insert
  | .place _ caller =>
    ∀ held ∈ caller.held, held.relid = tag.relid ∧ tag.pageno < held.pageno ∧ held.pageno < count tag.relid
  | .undoOld new => new.Before tag
  | .undoNew old => tag.Before old
  | .read use => use.Ordered count tag

def PagePc.Ordered (count : Nat → Nat) : PagePc → Prop
  | .idle => True
  | .fetch tag use | .want tag use | .own tag use | .waitEnd tag use => use.Ordered count tag
  | .wantVictim victim tag use | .ownVictim victim tag use =>
    use.Ordered count tag ∧ ∀ held ∈ use.base, victim.Before held

section
variable {count count' : Nat → Nat} {tag : PageTag}

theorem Use.Ordered.before {use : Use} (h : use.Ordered count tag) : ∀ held ∈ use.base, tag.Before held := by
  induction use with
  | probe npages size caller =>
    intro held hm
    obtain ⟨hr, hlt, -⟩ := h.2 held hm
    exact .inr ⟨hr.symm, hlt⟩
  | place size caller =>
    intro held hm
    obtain ⟨hr, hlt, -⟩ := h held hm
    exact .inr ⟨hr.symm, hlt⟩
  | extend size caller =>
    obtain rfl : caller = .insert := h
    nofun
  | init size caller =>
    obtain rfl : caller = .insert := h
    nofun
  | recheck size caller =>
    obtain rfl : caller = .insert := h
    nofun
  | undoNew old =>
    intro held hm
    obtain rfl := List.mem_singleton.1 hm
    exact h
  | read use ih => exact ih h
  | single => nofun
  | delete index xid => nofun
  | update index xid size => nofun
  | updateOn index size => nofun
  | undoOld new => nofun

theorem Use.Ordered.mono (hc : ∀ relid, count relid ≤ count' relid) {use : Use} (h : use.Ordered count tag) :
    use.Ordered count' tag := by
  have hle := hc tag.relid
  induction use with
  | update index xid size => exact Nat.lt_of_lt_of_le h hle
  | updateOn index size => exact Nat.lt_of_lt_of_le h hle
  | probe npages size caller => exact ⟨h.1.trans hle, h.2⟩
  | place size caller =>
    intro held hm
    obtain ⟨hr, hlt, hcount⟩ := h held hm
    exact ⟨hr, hlt, Nat.lt_of_lt_of_le hcount hle⟩
  | read use ih => exact ih h
  | _ => exact h

theorem PagePc.Ordered.mono (hc : ∀ relid, count relid ≤ count' relid) {pc : PagePc} (h : pc.Ordered count) :
    pc.Ordered count' := by
  cases pc with
  | idle => exact h
  | fetch tag use => exact Use.Ordered.mono hc h
  | want tag use => exact Use.Ordered.mono hc h
  | own tag use => exact Use.Ordered.mono hc h
  | waitEnd tag use => exact Use.Ordered.mono hc h
  | wantVictim victim tag use => exact ⟨h.1.mono hc, h.2⟩
  | ownVictim victim tag use => exact ⟨h.1.mono hc, h.2⟩

/-- Whatever a worker waits for comes before all that it holds. -/
theorem PagePc.Ordered.wants_before {pc : PagePc} (h : pc.Ordered count) {tag : PageTag}
    (hw : pc.wants = some tag) :
    ∀ held ∈ pc.holds, tag.Before held := by
  cases pc with
  | want tag' use =>
    cases hw
    exact Use.Ordered.before h
  | wantVictim victim tag' use =>
    cases hw
    exact h.2
  | idle => cases hw
  | fetch tag' use => cases hw
  | own tag' use => cases hw
  | waitEnd tag' use => cases hw
  | ownVictim victim tag' use => cases hw

end

namespace LatchRun

structure Sound (s : LatchRun) : Prop where
  pcs : ∀ w, (s.pc w).Ordered s.count
  moved : ∀ move ∈ s.moved, move.2.Before move.1

section
variable {s u : LatchRun} {w workers : Nat}

theorem start_sound (page : PageTag → Memory) (count : Nat → Nat) : Sound (start page count) :=
  ⟨fun _ => trivial, nofun⟩

theorem Sound.noDeadlock (h : Sound s) : NoDeadlock s :=
  no_cycle fun w _ hw => (h.pcs w).wants_before hw

theorem Sound.setPc (h : Sound s) {pc : PagePc} (hpc : pc.Ordered s.count) : Sound (s.setPc w pc) := by
  refine ⟨fun v => ?_, h.moved⟩
  simp only [LatchRun.setPc]
  by_cases hv : v = w
  · rw [hv, Function.update_self]
    exact hpc
  · rw [Function.update_of_ne hv]
    exact h.pcs v

theorem Sound.setPage (h : Sound s) (page : PageTag → Memory) : Sound { s with page := page } := ⟨h.pcs, h.moved⟩

/-- A search that starts with all the pages held behind the first one. -/
theorem search_ordered {relid size : Nat} {caller : Caller}
    (h : ∀ held ∈ caller.held, held.relid = relid ∧ 0 < held.pageno ∧ held.pageno < s.count relid) :
    (s.search relid size caller).Ordered s.count := by
  unfold search
  split_ifs with hz
  · cases caller with
    | insert => rfl
    | update old found =>
      have := (h old (by simp [Caller.held])).2.2
      omega
  · exact ⟨Nat.le_refl _, h⟩

theorem decide_ordered {tag : PageTag} {index size : Nat} (hlt : tag.pageno < s.count tag.relid)
    (hpos : Moves (s.page tag) index size → 0 < tag.pageno) : (s.decide tag index size).Ordered s.count := by
  unfold LatchRun.decide
  split_ifs with hm
  · refine search_ordered fun held hh => ?_
    simp only [Caller.held, Option.toList, List.nil_append, List.mem_singleton] at hh
    subst hh
    exact ⟨rfl, hpos hm, hlt⟩
  · trivial

/-- The next round of a search holds the page found in this one. -/
theorem again_held {tag : PageTag} {caller : Caller} (hpos : caller = .insert ∨ 0 < tag.pageno)
    (h : ∀ held ∈ caller.held, held.relid = tag.relid ∧ tag.pageno < held.pageno ∧
      held.pageno < s.count tag.relid) :
    ∀ held ∈ (caller.again tag).held, held.relid = tag.relid ∧ 0 < held.pageno ∧
    held.pageno < s.count tag.relid := by
  intro held hm
  cases caller with
  | insert => cases hm
  | update old found =>
    obtain ⟨hr, hlt, hc⟩ := h old (by simp [Caller.held])
    have hpos := hpos.resolve_left nofun
    simp only [Caller.again, Caller.held, Option.toList, List.singleton_append, List.mem_cons, List.not_mem_nil,
      or_false] at hm
    rcases hm with rfl | rfl
    · exact ⟨rfl, hpos, by omega⟩
    · exact ⟨hr, by omega, hc⟩

theorem Sound.use (h : Sound s) {tag : PageTag} {use : Use} (hpc : s.pc w = .own tag use) (hf : Finds s (.work w)) :
    Sound (s.use w tag use) := by
  have ho := h.pcs w
  simp only [Finds, hpc] at hf
  rw [hpc] at ho
  cases use with
  | single => exact h.setPc trivial
  | delete index xid =>
    simp only [LatchRun.use]
    split_ifs
    · exact h.setPc trivial
    · exact h.setPc trivial
  | update index xid size =>
    simp only [LatchRun.use]
    split_ifs with hx
    · exact h.setPc ho
    · exact h.setPc (decide_ordered ho (hf (not_not.1 hx)))
  | updateOn index size => exact h.setPc (decide_ordered ho hf)
  | probe npages size caller =>
    obtain ⟨hn, hheld⟩ := ho
    simp only [LatchRun.use]
    split_ifs with hfull hnext
    · have hskip := hf hfull
      refine h.setPc ⟨hn, fun held hm => ?_⟩
      obtain ⟨hr, hlt, hc⟩ := hheld held hm
      have hne : held.pageno ≠ tag.pageno + 1 := by
        intro he
        apply hskip
        obtain ⟨relid, pageno⟩ := held
        simp only at hr he
        rw [← hr, ← he]
        exact hm
      exact ⟨hr, by show tag.pageno + 1 < _; omega, hc⟩
    · refine h.setPc ?_
      cases caller with
      | insert => rfl
      | update old found =>
        have hold : old ∈ (Caller.update old found).held := by simp [Caller.held]
        obtain ⟨hr, hlt, hc⟩ := hheld old hold
        have hne : old.pageno ≠ tag.pageno + 1 := by omega
        omega
    · refine h.setPc fun held hm => ?_
      obtain ⟨hr, hlt, hc⟩ := hheld held hm
      exact ⟨hr, hlt, by omega⟩
  | extend size caller =>
    have hmono : ∀ relid, s.count relid ≤
        Function.update s.count tag.relid (max (s.count tag.relid) (tag.pageno + 1)) relid := by
      intro relid
      by_cases hr : relid = tag.relid
      · rw [hr, Function.update_self]
        exact Nat.le_max_left _ _
      · rw [Function.update_of_ne hr]
    refine ⟨fun v => ?_, h.moved⟩
    simp only [LatchRun.use]
    by_cases hv : v = w
    · rw [hv, Function.update_self]
      exact ho
    · rw [Function.update_of_ne hv]
      exact (h.pcs v).mono hmono
  | init size caller =>
    exact (h.setPage _).setPc (show PagePc.Ordered s.count (.want tag (.recheck size caller)) from ho)
  | recheck size caller =>
    obtain rfl : caller = .insert := ho
    exact h.setPc (show PagePc.Ordered s.count (.want tag (.place size .insert)) from nofun)
  | place size caller =>
    simp only [LatchRun.use]
    split_ifs with hfull
    · exact h.setPc (search_ordered (again_held (hf hfull) ho))
    · cases caller with
      | insert => exact h.setPc trivial
      | update old found =>
        have hidle : Sound (s.setPc w .idle) := h.setPc trivial
        refine ⟨hidle.pcs, fun move hm => ?_⟩
        rcases List.mem_cons.1 hm with rfl | hm
        · obtain ⟨hr, hlt, -⟩ := ho old (by simp [Caller.held])
          exact .inr ⟨hr.symm, hlt⟩
        · exact h.moved move hm
  | undoOld new => exact h.setPc (show PagePc.Ordered s.count (.fetch new (.undoNew tag)) from ho)
  | undoNew old => exact h.setPc trivial
  | read use => exact h.setPc (show PagePc.Ordered s.count (.want tag use) from ho)

theorem Sound.call (h : Sound s) {call : PageCall} (hs : s.call w call = some u) : Sound u := by
  cases call with
  | getNextTuple tag =>
    cases hs
    exact h.setPc trivial
  | insertTuple relid size =>
    cases hs
    exact h.setPc (search_ordered nofun)
  | updateTuple tag index xid size =>
    obtain ⟨hlt, hs⟩ := Option.ite_none_right_eq_some.1 hs
    cases hs
    exact h.setPc hlt
  | deleteTuple tag index xid =>
    cases hs
    exact h.setPc trivial
  | undo tag =>
    cases hs
    exact h.setPc trivial
  | undoMove old new =>
    obtain ⟨hm, hs⟩ := Option.ite_none_right_eq_some.1 hs
    cases hs
    exact h.setPc (h.moved _ hm)

theorem Sound.step {op : PageOp} (h : Sound s) (hf : Finds s op) (hs : step workers s op = some u) : Sound u := by
  cases op with
  | call w call =>
    simp only [LatchRun.step] at hs
    split at hs
    · exact h.call (Option.ite_none_right_eq_some.1 hs).2
    · cases hs
  | load w =>
    simp only [LatchRun.step] at hs
    split at hs
    · rename_i tag use hpc
      cases hs
      have ho := h.pcs w
      rw [hpc] at ho
      exact h.setPc (show PagePc.Ordered s.count (.want tag (.read use)) from ho)
    · cases hs
  | evict w victim =>
    simp only [LatchRun.step] at hs
    split at hs
    · rename_i tag use hpc
      cases hs
      have ho := h.pcs w
      rw [hpc] at ho
      simp only [Finds, hpc] at hf
      exact h.setPc ⟨ho, hf⟩
    · cases hs
  | written w =>
    simp only [LatchRun.step] at hs
    split at hs
    · rename_i victim tag use hpc
      cases hs
      have ho := h.pcs w
      rw [hpc] at ho
      exact h.setPc ho.1
    · cases hs
  | request w =>
    simp only [LatchRun.step] at hs
    split at hs
    · rename_i tag use hpc
      cases hs
      have ho := h.pcs w
      rw [hpc] at ho
      exact h.setPc ho
    · cases hs
  | grant w =>
    simp only [LatchRun.step] at hs
    split at hs
    · rename_i tag use hpc
      obtain ⟨-, hs⟩ := Option.ite_none_right_eq_some.1 hs
      cases hs
      have ho := h.pcs w
      rw [hpc] at ho
      exact h.setPc ho
    · rename_i victim tag use hpc
      obtain ⟨-, hs⟩ := Option.ite_none_right_eq_some.1 hs
      cases hs
      have ho := h.pcs w
      rw [hpc] at ho
      exact h.setPc ho
    · cases hs
  | change w tag page =>
    obtain ⟨-, hs⟩ := Option.ite_none_right_eq_some.1 hs
    cases hs
    exact h.setPage _
  | work w =>
    simp only [LatchRun.step] at hs
    split at hs
    · rename_i tag use hpc
      cases hs
      exact h.use hpc hf
    · cases hs
  | waited w =>
    simp only [LatchRun.step] at hs
    split at hs
    · rename_i tag use hpc
      cases hs
      have ho := h.pcs w
      rw [hpc] at ho
      exact h.setPc ho
    · cases hs
  | fail w =>
    simp only [LatchRun.step] at hs
    split at hs
    · cases hs
    · cases hs
    · cases hs
      exact h.setPc trivial

/-! ## A search that gets to a page held -/

theorem not_noDeadlock {tag : PageTag} (hw : (s.pc w).wants = some tag) (hh : tag ∈ (s.pc w).holds) :
    ¬ NoDeadlock s :=
  fun h => h w (.single ⟨List.ne_nil_of_mem hh, tag, hw, hh⟩)

theorem request_held {tag : PageTag} {npages size : Nat} {caller : Caller}
    (hpc : s.pc w = .fetch tag (.probe npages size caller)) (hh : tag ∈ caller.held)
    (hs : LatchRun.step workers s (.request w) = some u) : ¬ NoDeadlock u := by
  simp only [LatchRun.step, hpc, Option.some.injEq] at hs
  subst hs
  have hu : (s.setPc w (.want tag (.probe npages size caller))).pc w = .want tag (.probe npages size caller) :=
    Function.update_self _ _ _
  exact not_noDeadlock (w := w) (by rw [hu]; rfl) (by rw [hu]; exact hh)

theorem search_eq {tag : PageTag} {size : Nat} {caller : Caller} (hlt : tag.pageno < s.count tag.relid)
    (hz : ¬ 0 < tag.pageno) :
    s.search tag.relid size caller = .fetch tag (.probe (s.count tag.relid) size caller) := by
  obtain ⟨relid, pageno⟩ := tag
  obtain rfl : pageno = 0 := Nat.eq_zero_of_not_pos hz
  exact if_neg (Nat.ne_of_gt hlt)

theorem Sound.stuck {v : LatchRun} (h : Sound s) (hf : ¬ Finds s (.work w))
    (hs : LatchRun.step workers s (.work w) = some u)
    (hr : LatchRun.step workers u (.request w) = some v) : ¬ NoDeadlock v := by
  have ho := h.pcs w
  have hself : ∀ pc, (s.setPc w pc).pc w = pc := fun pc => Function.update_self _ _ _
  simp only [LatchRun.step] at hs
  cases hpc : s.pc w with
  | own tag use =>
    rw [hpc] at hs ho
    cases hs
    simp only [Finds, hpc] at hf
    cases use with
    | update index xid size =>
      simp only [FindsRoom, Classical.not_imp] at hf
      obtain ⟨hx, hm, hz⟩ := hf
      have hu : s.use w tag (.update index xid size) =
          s.setPc w (.fetch tag (.probe (s.count tag.relid) size (.update tag none))) := by
        simp only [LatchRun.use, LatchRun.decide, ne_eq, hx, not_true_eq_false, if_false, if_pos hm,
          search_eq ho hz]
      rw [hu] at hr
      exact request_held (hself _) (by simp [Caller.held]) hr
    | updateOn index size =>
      simp only [FindsRoom, Classical.not_imp] at hf
      obtain ⟨hm, hz⟩ := hf
      have hu : s.use w tag (.updateOn index size) =
          s.setPc w (.fetch tag (.probe (s.count tag.relid) size (.update tag none))) := by
        simp only [LatchRun.use, LatchRun.decide, if_pos hm, search_eq ho hz]
      rw [hu] at hr
      exact request_held (hself _) (by simp [Caller.held]) hr
    | probe npages size caller =>
      simp only [FindsRoom, Classical.not_imp, not_not] at hf
      obtain ⟨hfull, hm⟩ := hf
      have hnext : tag.pageno + 1 < npages := (ho.2 _ hm).2.2
      have hu : s.use w tag (.probe npages size caller) =
          s.setPc w (.fetch ⟨tag.relid, tag.pageno + 1⟩ (.probe npages size caller)) := by
        simp only [LatchRun.use, if_pos hfull, if_pos hnext]
      rw [hu] at hr
      exact request_held (hself _) hm hr
    | place size caller =>
      simp only [FindsRoom, Classical.not_imp, not_or] at hf
      obtain ⟨hfull, hi, hz⟩ := hf
      cases caller with
      | insert => exact absurd rfl hi
      | update old found =>
        obtain ⟨hr', hlt, hc⟩ := ho old (by simp [Caller.held])
        have hu : s.use w tag (.place size (.update old found)) =
            s.setPc w (.fetch tag (.probe (s.count tag.relid) size (.update old (some tag)))) := by
          simp only [LatchRun.use, if_pos hfull, Caller.again, search_eq (Nat.lt_trans hlt hc) hz]
        rw [hu] at hr
        exact request_held (hself _) (by simp [Caller.held]) hr
    | single => exact absurd trivial hf
    | delete index xid => exact absurd trivial hf
    | extend size caller => exact absurd trivial hf
    | init size caller => exact absurd trivial hf
    | recheck size caller => exact absurd trivial hf
    | undoOld new => exact absurd trivial hf
    | undoNew old => exact absurd trivial hf
    | read use => exact absurd trivial hf
  | _ =>
    rw [hpc] at hs
    cases hs

end

/-- While searches by updates find room before they get to a page held, and no victim behind a held
page is written back, nobody waits in a cycle; a search that gets there waits for itself. -/
theorem no_deadlock {workers : Nat} {page : PageTag → Memory} {count : Nat → Nat} {s : LatchRun}
    (h : Reach (step workers) Finds (start page count) s) : NoDeadlock s ∧ ∀ w u v, ¬ Finds s (.work w) →
      step workers s (.work w) = some u → step workers u (.request w) = some v → ¬ NoDeadlock v := by
  have hs : Sound s := h.inv (fun _ _ _ hs hf ht => hs.step hf ht) (start_sound page count)
  exact ⟨hs.noDeadlock, fun _ _ _ hf hu hv => hs.stuck hf hu hv⟩

instance (page : PageTag → Memory) : ∀ pc : PagePc, Decidable (FindsRoom page pc)
  | .own _ (.update _ _ _) => inferInstanceAs (Decidable (_ = _ → Moves _ _ _ → 0 < _))
  | .own _ (.updateOn _ _) => inferInstanceAs (Decidable (Moves _ _ _ → 0 < _))
  | .own _ (.probe _ _ _) => inferInstanceAs (Decidable (_ = true → ¬ _ ∈ _))
  | .own _ (.place _ _) => inferInstanceAs (Decidable (_ = true → _ = Caller.insert ∨ 0 < _))
  | .own _ .single | .own _ (.delete _ _) | .own _ (.extend _ _) | .own _ (.init _ _) | .own _ (.recheck _ _)
  | .own _ (.undoOld _) | .own _ (.undoNew _) | .own _ (.read _) => inferInstanceAs (Decidable True)
  | .idle | .fetch _ _ | .want _ _ | .wantVictim _ _ _ | .ownVictim _ _ _ | .waitEnd _ _ =>
    inferInstanceAs (Decidable True)

instance (s : LatchRun) : ∀ op : PageOp, Decidable (Finds s op)
  | .work w => inferInstanceAs (Decidable (FindsRoom s.page (s.pc w)))
  | .evict w victim => inferInstanceAs (Decidable (∀ tag ∈ (s.pc w).holds, victim.Before tag))
  | .call _ _ | .load _ | .written _ | .request _ | .grant _ | .change _ _ _ | .waited _ | .fail _ =>
    inferInstanceAs (Decidable True)

/-- An empty page and one with a row. -/
def rowBehind (tag : PageTag) : Memory := if tag.pageno = 0 then HeapPage.init fun _ => 0 else frozenPage 0

/-- A move from page 1 to page 0 and its undo. -/
theorem no_deadlock_move : ∃ s, Reach (step 2) Finds (start rowBehind fun _ => 2) s ∧ s.moved = [(⟨1, 1⟩, ⟨1, 0⟩)] ∧
    NoDeadlock s := by
  have h : (exec (guarded Finds (step 2)) (start rowBehind fun _ => 2)
      [.call 0 (.updateTuple ⟨1, 1⟩ 0 TransactionId.Min 8150), .load 0, .grant 0, .work 0, .grant 0, .work 0,
        .request 0,
        .grant 0, .work 0, .grant 0, .work 0, .call 1 (.undoMove ⟨1, 1⟩ ⟨1, 0⟩), .request 1, .grant 1, .work 1,
        .request 1,
        .grant 1, .work 1]).map (fun s => s.moved == [(⟨1, 1⟩, ⟨1, 0⟩)]) = some true := by decide +kernel
  obtain ⟨s, hr, hs⟩ := reach_of_test h
  exact ⟨s, hr.of_guarded, beq_iff_eq.1 hs, (no_deadlock hr.of_guarded).1⟩

/-- An update of a row on page 0 that does not fit there any more asks for page 0 first. -/
theorem update_waits_for_itself : ∃ s, Reach (step 1) anyStep (start (fun _ => frozenPage 0) fun _ => 1) s ∧
    (s.pc 0).wants = some ⟨1, 0⟩ ∧ (s.pc 0).holds = [⟨1, 0⟩] ∧ ¬ NoDeadlock s := by
  have h : (exec (step 1) (start (fun _ => frozenPage 0) fun _ => 1)
      [.call 0 (.updateTuple ⟨1, 0⟩ 0 TransactionId.Min 8150), .request 0, .grant 0, .work 0, .request 0]).map
      (fun s => (s.pc 0).wants == some ⟨1, 0⟩ && (s.pc 0).holds == [⟨1, 0⟩]) = some true := by decide +kernel
  obtain ⟨s, hr, hs⟩ := reach_of_test h
  simp only [Bool.and_eq_true, beq_iff_eq] at hs
  exact ⟨s, hr, hs.1, hs.2, not_noDeadlock hs.1 (by rw [hs.2]; exact List.mem_singleton_self _)⟩

end LatchRun

end Mimidb
