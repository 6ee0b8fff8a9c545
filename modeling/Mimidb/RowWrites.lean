import Mimidb.RowStacks

/-!
# Changes and their undo

A change puts versions of its transaction on the stacks, an undo takes them
off again. Other transactions keep what their logs and scans stand for: a
version that is taken off is of a transaction without a number, and what a
scan found is not.
-/

namespace Mimidb

namespace RowRun

variable {W V : Type} {s t : RowRun W V} {st : Stacks V} {w : W} {tr : Transaction} {usn : Int}
  {record : RowRecord V}
variable {put : TupleId → Option (RowVersion V)}

/-- The stacks after a change that puts these versions on them. -/
def push (put : TupleId → Option (RowVersion V)) (st : Stacks V) : Stacks V := fun tid => (put tid).toList ++ st tid

@[simp] theorem push_none {tid : TupleId} (h : put tid = none) : push put st tid = st tid := by simp [push, h]

@[simp] theorem push_some {tid : TupleId} {v : RowVersion V} (h : put tid = some v) :
    push put st tid = v :: st tid := by
  simp [push, h]

theorem mem_push {tid : TupleId} {v : RowVersion V} : v ∈ push put st tid ↔ put tid = some v ∨ v ∈ st tid := by
  cases h : put tid <;> simp [push, h, eq_comm]

/-- A change of one slot. -/
def single (tid : TupleId) (v : RowVersion V) : TupleId → Option (RowVersion V) :=
  fun r => if r = tid then some v else none

@[simp] theorem single_self (tid : TupleId) (v : RowVersion V) : single tid v tid = some v := if_pos rfl

theorem single_eq_some {tid r : TupleId} {v n : RowVersion V} : single tid v r = some n ↔ r = tid ∧ v = n := by
  unfold single
  split_ifs with h <;> simp [h]

theorem update_eq_single {tid : TupleId} {v : RowVersion V} (slots : TupleId → Option (RowVersion V)) :
    Function.update slots tid (some v) = fun r => single tid v r <|> slots r := by
  funext r
  unfold single
  by_cases h : r = tid
  · subst h
    simp
  · simp [h]

/-- The versions that a change writes over the version `page` of its slot. -/
def putOf (x : Nat) (usn : Int) (tid : TupleId) (page : RowVersion V) :
    RowChange V → TupleId → Option (RowVersion V)
  | .update values none => single tid ⟨x, usn, false, values⟩
  | .update values (some new) => fun r =>
    single tid { page with xid := x, undo := usn, deleted := true } r <|> single new ⟨x, usn, false, values⟩ r
  | .delete => single tid { page with xid := x, undo := usn, deleted := true }

/-- Their undo record. -/
def recordOf (tuple : RowTuple V) (page : RowVersion V) : RowChange V → RowRecord V
  | .update _ newSlot => .Update tuple.tid (newSlot.getD tuple.tid) tuple.version
  | .delete => .Insert tuple.tid page

theorem restores_recordOf (tuple : RowTuple V) (page : RowVersion V) (change : RowChange V) :
    (recordOf tuple page change).restores = [tuple.tid] := by
  cases change <;> rfl

theorem Saves.mem_restores {tid : TupleId} {v b : RowVersion V} (h : Saves tid v b record) :
    tid ∈ record.restores := by
  cases h <;> simp

/-- What the changes with this record may put on the stacks. -/
structure Puts (s : RowRun W V) (st : Stacks V) (tr : Transaction) (usn : Int) (record : RowRecord V)
    (put : TupleId → Option (RowVersion V)) : Prop where
  xid : ∀ tid v, put tid = some v → v.xid = tr.xid
  undo : ∀ tid v, put tid = some v → v.undo = usn ∨ v.undo = UndoSeqNumber.Invalid
  dead : ∀ tid v, put tid = some v → s.dead tid = false
  newer : ∀ tid v b rest, put tid = some v → st tid = b :: rest →
    v.undo = usn ∧ b.deleted = false ∧ s.Based tr b ∧ Saves tid v b record
  first : ∀ tid v, put tid = some v → st tid = [] → v.deleted = false ∧
    (v.undo = UndoSeqNumber.Invalid ∨ v.undo = usn ∧
    ∃ old b mark rest, record = .Update old tid b ∧ old ≠ tid ∧ put old = some mark ∧ mark.undo = usn ∧
    st old = b :: rest)
  places : ∀ tid ∈ record.places, ∃ v, put tid = some v ∧ v.undo = usn

/-- The state after such a change, as far as the stacks go. -/
structure Written (s t : RowRun W V) (w : W) (tr : Transaction) (usn : Int) (record : RowRecord V)
    (put : TupleId → Option (RowVersion V)) : Prop where
  later : s.tm.Later t.tm
  transaction : s.tm.transactions w = some tr
  idle : s.tm.pc w = .idle
  number : s.tm.usn < usn ∧ t.tm.usn = usn
  slots : ∀ tid, t.slots tid = (put tid <|> s.slots tid)
  dead : t.dead = s.dead
  undo : t.undo = Function.update s.undo usn (some record)

theorem Written.undo_of (hw : Written s t w tr usn record put) (h : SlotsInv s st) {u : Int} {r : RowRecord V}
    (hr : s.undo u = some r) :
    t.undo u = some r := by
  have hne : u ≠ usn := by
    have := (h.record u r hr).2
    have := hw.number.1
    omega
  rw [hw.undo, Function.update_of_ne hne, hr]

/-- A change of a running transaction comes after what it writes over. -/
theorem Written.follows (hw : Written s t w tr usn record put) (hi : s.tm.TransInv) {b : RowVersion V}
    (hb : s.Based tr b) : t.Follows tr.xid b.xid := by
  rcases hb with hb | ⟨snapshot, -, c, hc, -⟩
  · exact .inl hb.symm
  · refine .inr ⟨c, hw.later.keeps _ _ hc, fun c' hc' => ?_⟩
    rcases hw.later.new _ _ hc' with hold | hnew
    · exact absurd hold (TransManager.not_commits hi hw.transaction hw.idle c')
    · exact Nat.lt_of_lt_of_le (hc.lt hi) hnew

/-- The mark of a move is not written over. -/
theorem SlotsInv.mark_deleted (h : SlotsInv s st) {old tid : TupleId} {mark b image : RowVersion V}
    {rest : List (RowVersion V)} (hst : st old = mark :: b :: rest)
    (hr : s.undo mark.undo = some (.Update old tid image)) (hne : old ≠ tid) :
    mark.deleted = true := by
  have hst' : st old = [] ++ mark :: b :: rest := hst
  obtain ⟨r, hr', hsaves⟩ := (h.above hst').record
  rw [hr] at hr'
  obtain rfl := Option.some.inj hr'
  cases hsaves with
  | update => exact absurd rfl hne
  | move hn hd => exact hd

theorem SlotsInv.puts (h : SlotsInv s st) (hi : s.tm.TransInv) (h0 : 0 ≤ s.tm.usn)
    (hp : Puts s st tr usn record put) (hw : Written s t w tr usn record put) : SlotsInv t (push put st) := by
  obtain ⟨husn, husn'⟩ := hw.number
  have hold : ∀ tid, ∀ v ∈ st tid, v.undo < usn := fun tid v hv => Int.lt_of_le_of_lt (h.undos tid v hv) husn
  have hbegun : s.tm.history tr.xid ≠ CommitSeqNumber.Invalid := by
    have hphase := hi.phase w tr hw.transaction
    rw [hw.idle] at hphase
    rw [hphase.1]
    decide
  refine ⟨fun tid => ?_, fun tid hd => ?_, fun tid => ?_, fun tid v hv => ?_, fun tid v hv => ?_,
    fun tid v hv => ?_, fun u r hr => ?_⟩
  · rw [hw.slots, h.page]
    cases hput : put tid <;> simp [hput]
  · rw [hw.dead] at hd
    have hnone : put tid = none := by
      cases hput : put tid with
      | none => rfl
      | some v =>
        have := hp.dead tid v hput
        rw [hd] at this
        cases this
    rw [push_none hnone]
    exact h.dead tid hd
  · have hrest : (st tid).IsChain (t.Above tid) :=
      (h.chain tid).imp fun _ _ ha => ha.later hi hw.later fun _ _ => hw.undo_of h
    cases hput : put tid with
    | none => rwa [push_none hput]
    | some v =>
      rw [push_some hput]
      cases hst : st tid with
      | nil => exact .singleton v
      | cons b rest =>
        obtain ⟨hv, hlive, hb, hsaves⟩ := hp.newer tid v b rest hput hst
        have hrec : t.undo v.undo = some record := by rw [hw.undo, hv, Function.update_self]
        have hlt : b.undo < v.undo := hv ▸ hold tid b (by simp [hst])
        exact .cons_cons ⟨hlt, hlive, hp.xid tid v hput ▸ hw.follows hi hb, record, hrec, hsaves⟩ (hst ▸ hrest)
  · cases hst : st tid with
    | nil =>
      cases hput : put tid with
      | none => simp [push_none hput, hst] at hv
      | some n =>
        simp only [push_some hput, hst, List.getLast?_singleton, Option.some.injEq] at hv
        subst hv
        obtain ⟨hlive, h0 | ⟨hn, old, b, mark, rest, rfl, hne, hmark, hmu, hb⟩⟩ := hp.first tid n hput hst
        · exact ⟨hlive, .inl h0⟩
        · obtain ⟨-, -, hsees, -⟩ := hp.newer old mark b rest hmark hb
          have hrec : t.undo n.undo = some (.Update old tid b) := by rw [hw.undo, hn, Function.update_self]
          have hlt : b.undo < n.undo := hn ▸ hold old b (by simp [hb])
          refine ⟨hlive, .inr ⟨old, b, hrec, hne, hp.xid tid n hput ▸ hw.follows hi hsees, hlt,
            fun _ => ⟨mark, rest, ?_, ?_⟩⟩⟩
          · rw [push_some hmark, hb]
          · exact ⟨hmu.trans hn.symm, (hp.xid old mark hmark).trans (hp.xid tid n hput).symm⟩
    | cons p rest =>
      have hlast : (push put st tid).getLast? = (st tid).getLast? := by
        cases hput : put tid with
        | none => rw [push_none hput]
        | some n => rw [push_some hput, hst, List.getLast?_cons_cons]
      rw [hlast] at hv
      obtain ⟨hlive, h0 | ⟨old, b, hr, hne, hf, hlt, hmark⟩⟩ := h.bottom tid v hv
      · exact ⟨hlive, .inl h0⟩
      · refine ⟨hlive, .inr ⟨old, b, hw.undo_of h hr, hne, hf.later hi hw.later, hlt, fun hd => ?_⟩⟩
        obtain ⟨mark, below, hm, hmu⟩ := hmark (hw.dead ▸ hd)
        refine ⟨mark, below, ?_, hmu⟩
        have hnone : put old = none := by
          cases hput : put old with
          | none => rfl
          | some n =>
            have hmarked := h.mark_deleted hm (hmu.1 ▸ hr) hne
            rw [(hp.newer old n mark _ hput hm).2.1] at hmarked
            cases hmarked
        rw [push_none hnone, hm]
  · rcases mem_push.1 hv with hput | hv
    · rw [hp.xid tid v hput]
      exact hw.later.begun _ hbegun
    · exact hw.later.begun _ (h.begun tid v hv)
  · rw [husn']
    rcases mem_push.1 hv with hput | hv
    · rcases hp.undo tid v hput with hv | hv
      · exact Int.le_of_eq hv
      · rw [hv, UndoSeqNumber.Invalid]
        omega
    · exact Int.le_of_lt (hold tid v hv)
  · rw [husn']
    rw [hw.undo] at hr
    by_cases hu : u = usn
    · omega
    · rw [Function.update_of_ne hu] at hr
      have := h.record u r hr
      omega

theorem LogInv.puts (h : LogInv s st w tr) (hi : SlotsInv s st) (hp : Puts s st tr usn record put)
    (hw : Written s t w tr usn record put) (hlog : t.log w = usn :: s.log w) (hkept : t.aborting = s.aborting) :
    LogInv t (push put st) w (tr.log usn) := by
  refine ⟨?_, fun ha => ?_, fun tid hd v hv he => ?_, fun u hu => ?_⟩
  · rw [hlog]
    refine List.pairwise_cons.2 ⟨fun u hu => ?_, h.falls⟩
    obtain ⟨r, hr, -⟩ := h.entry u hu
    have := (hi.record u r hr).2
    have := hw.number.1
    omega
  · rw [hlog, h.kept (hkept ▸ ha)]
    rfl
  · rw [hlog]
    rcases mem_push.1 hv with hput | hv
    · rcases hp.undo tid v hput with h0 | h0
      · exact .inr (h0 ▸ List.mem_cons_self)
      · exact .inl h0
    · exact (h.own tid (hw.dead ▸ hd) v hv he).imp_right (List.mem_cons_of_mem _)
  · rw [hlog] at hu
    rw [hw.dead]
    rcases List.mem_cons.1 hu with rfl | hu
    · refine ⟨record, by rw [hw.undo, Function.update_self], fun tid htid => ?_⟩
      obtain ⟨v, hput, hv⟩ := hp.places tid htid
      exact ⟨hp.dead tid v hput, v, mem_push.2 (.inl hput), hv, hp.xid tid v hput⟩
    · obtain ⟨r, hr, hplaces⟩ := h.entry u hu
      refine ⟨r, hw.undo_of hi hr, fun tid htid => ?_⟩
      obtain ⟨hd, v, hv, hvu⟩ := hplaces tid htid
      exact ⟨hd, v, mem_push.2 (.inr hv), hvu⟩

variable {v : W} {other : Transaction} {x : Nat} {snapshot : Snapshot}

theorem LogInv.puts_other (h : LogInv s st v other) (hi : SlotsInv s st) (hp : Puts s st tr usn record put)
    (hw : Written s t w tr usn record put) (hne : other.xid ≠ tr.xid) (hlog : t.log v = s.log v)
    (hkept : t.aborting = s.aborting) :
    LogInv t (push put st) v other := by
  refine ⟨hlog ▸ h.falls, fun ha => hlog ▸ h.kept (hkept ▸ ha), fun tid hd b hb he => ?_, fun u hu => ?_⟩
  · rw [hlog]
    rcases mem_push.1 hb with hput | hb
    · exact absurd (he.symm.trans (hp.xid tid b hput)) hne
    · exact h.own tid (hw.dead ▸ hd) b hb he
  · rw [hlog] at hu
    obtain ⟨r, hr, hplaces⟩ := h.entry u hu
    refine ⟨r, hw.undo_of hi hr, fun tid htid => ?_⟩
    obtain ⟨hd, b, hb, hbu⟩ := hplaces tid htid
    exact ⟨hw.dead ▸ hd, b, mem_push.2 (.inr hb), hbu⟩

/-- What a scan found stays found under what others write over it. -/
theorem Found.puts {tuple : RowTuple V} (h : s.Found st x snapshot tuple) (hi : s.tm.TransInv)
    (hp : Puts s st tr usn record put) (hw : Written s t w tr usn record put) (hS : snapshot.csn ≤ s.tm.csn)
    (hne : ∀ n, put tuple.tid = some n → x ≠ tr.xid) : t.Found (push put st) x snapshot tuple := by
  obtain ⟨newer, rest, hst, hd, hlive, hsees, hnewer⟩ := h.later hw.later hS hw.dead
  cases hput : put tuple.tid with
  | none => exact ⟨newer, rest, by rw [push_none hput, hst], hd, hlive, hsees, hnewer⟩
  | some n =>
    refine ⟨n :: newer, rest, by rw [push_some hput, hst, List.cons_append], hd, hlive, hsees, fun a ha => ?_⟩
    rcases List.mem_cons.1 ha with rfl | ha
    · rw [hp.xid _ _ hput]
      refine ⟨(hne _ hput).symm, fun c hc => ?_⟩
      rcases hw.later.new _ _ hc with hold | hnew
      · exact absurd hold (TransManager.not_commits hi hw.transaction hw.idle c)
      · exact Nat.le_trans hS hnew
    · exact hnewer a ha

/-- The scan of a worker whose transaction writes only where the scan was. -/
theorem ScanInv.puts {other' : Transaction} (h : ScanInv s st v other) (hi : s.tm.TransInv)
    (hv : s.tm.transactions v = some other) (hp : Puts s st tr usn record put)
    (hw : Written s t w tr usn record put) (hvisited : t.visited v = s.visited v)
    (htuples : ∀ tuple ∈ t.tuples v, tuple ∈ s.tuples v) (honce : ((t.tuples v).map RowTuple.tid).Nodup)
    (hx : other'.xid = other.xid) (hsnap : other'.snapshot = other.snapshot)
    (hown : ∀ tid n, put tid = some n → other.xid = tr.xid →
      (∀ tuple ∈ t.tuples v, tuple.tid ≠ tid) ∧ (st tid ≠ [] → tid ∈ s.visited v)) : ScanInv t
        (push put st) v other' := by
  refine ⟨fun hs => ?_, fun tuple ht => ?_, honce, fun tuple ht => ?_, fun tid newer a b rest hst ha => ?_,
    fun tid hnot hd newer b rest hst a ha he => ?_⟩
  · rw [hvisited]
    exact h.fresh (hsnap ▸ hs)
  · rw [hvisited]
    exact h.visited tuple (htuples tuple ht)
  · obtain ⟨snapshot, hs, hfound⟩ := h.found tuple (htuples tuple ht)
    refine ⟨snapshot, hsnap.trans hs, hx ▸ hfound.puts hi hp hw (hi.snapshots v other snapshot hv hs)
      fun n hput e => ?_⟩
    exact (hown _ n hput e).1 tuple ht rfl
  · rw [hx] at ha
    cases hput : put tid with
    | none =>
      rw [push_none hput] at hst
      exact (h.based tid newer a b rest hst ha).later hw.later hx hsnap
    | some n =>
      rw [push_some hput] at hst
      cases newer with
      | nil =>
        obtain ⟨rfl, hbelow⟩ := List.cons.inj hst
        have he := ha.symm.trans (hp.xid tid _ hput)
        obtain rfl := hi.one v w other tr hv hw.transaction he
        obtain rfl : other = tr := Option.some.inj (hv.symm.trans hw.transaction)
        exact (hp.newer tid _ b rest hput hbelow).2.2.1.later hw.later hx hsnap
      | cons p newer =>
        obtain ⟨rfl, hbelow⟩ := List.cons.inj hst
        exact (h.based tid newer a b rest hbelow ha).later hw.later hx hsnap
  · rw [hx] at he
    rw [hsnap]
    rw [hvisited] at hnot
    cases hput : put tid with
    | none =>
      rw [push_none hput] at hst
      exact h.ahead tid hnot (hw.dead ▸ hd) newer b rest hst a ha he
    | some n =>
      rw [push_some hput] at hst
      cases newer with
      | nil => cases ha
      | cons p newer =>
        obtain ⟨rfl, hbelow⟩ := List.cons.inj hst
        have hst' : st tid ≠ [] := by simp [hbelow]
        rcases List.mem_cons.1 ha with rfl | ha
        · exact absurd ((hown tid _ hput (he.symm.trans (hp.xid _ _ hput))).2 hst') hnot
        · exact h.ahead tid hnot (hw.dead ▸ hd) newer b rest hbelow a ha he

/-! ## Undo -/

variable {tid : TupleId}

/-- The last change of a running transaction is on top of its stacks. -/
theorem LogInv.top {log : List Int} (h : LogInv s st w tr) (hi : SlotsInv s st)
    (hrun : ∀ c, ¬ s.tm.Commits tr.xid c) (hlog : s.log w = usn :: log) (hr : s.undo usn = some record)
    (htid : tid ∈ record.places) :
    s.dead tid = false ∧ ∃ p rest, st tid = p :: rest ∧ p.undo = usn ∧ p.xid = tr.xid := by
  obtain ⟨r, hr', hplaces⟩ := h.entry usn (by simp [hlog])
  rw [hr] at hr'
  obtain rfl := Option.some.inj hr'
  obtain ⟨hd, b, hb, hbu, hbx⟩ := hplaces tid htid
  refine ⟨hd, ?_⟩
  cases hst : st tid with
  | nil => simp [hst] at hb
  | cons p rest =>
    rw [hst] at hb
    rcases List.mem_cons.1 hb with rfl | hb
    · exact ⟨_, rest, rfl, hbu, hbx⟩
    · have hx : p.xid = tr.xid := (hi.top_xid hst hb (hbx ▸ hrun)).trans hbx
      have hlt := hi.undo_lt hst hb
      have hpos := (hi.record usn record hr).1
      rcases h.own tid hd p (by simp [hst]) hx with h0 | hmem
      · rw [h0, UndoSeqNumber.Invalid] at hlt
        omega
      · rw [hlog] at hmem
        have hle : p.undo ≤ usn := by
          rcases List.mem_cons.1 hmem with he | hmem
          · exact Int.le_of_eq he
          · have hfalls := h.falls
            rw [hlog] at hfalls
            exact Int.le_of_lt ((List.pairwise_cons.1 hfalls).1 _ hmem)
        omega

theorem SlotsInv.restored {p : RowVersion V} {rest : List (RowVersion V)} (h : SlotsInv s st)
    (hst : st tid = p :: rest) (hr : s.undo p.undo = some record) (htid : tid ∈ record.restores) :
    ∃ b below, rest = b :: below ∧ record.image = some b := by
  cases rest with
  | nil =>
    obtain ⟨-, h0 | ⟨old, b, hr', hne, -⟩⟩ := h.bottom tid p (by simp [hst])
    · exact absurd h0 (h.not_invalid hr)
    · rw [hr] at hr'
      obtain rfl := Option.some.inj hr'
      exact absurd (List.mem_singleton.1 htid).symm hne
  | cons b below =>
    have hst' : st tid = [] ++ p :: b :: below := hst
    obtain ⟨r, hr', hsaves⟩ := (h.above hst').record
    rw [hr] at hr'
    obtain rfl := Option.some.inj hr'
    exact ⟨b, below, rfl, by cases hsaves <;> rfl⟩

theorem SlotsInv.recorded {v : RowVersion V} (h : SlotsInv s st) (hv : v ∈ st tid)
    (hr : s.undo v.undo = some record) :
    tid ∈ record.places := by
  obtain ⟨newer, rest, hst⟩ := List.append_of_mem hv
  cases rest with
  | nil =>
    obtain ⟨-, h0 | ⟨old, b, hr', -⟩⟩ := h.bottom tid v (by simp [hst])
    · exact absurd h0 (h.not_invalid hr)
    · rw [hr] at hr'
      obtain rfl := Option.some.inj hr'
      simp
  | cons b below =>
    obtain ⟨r, hr', hsaves⟩ := (h.above hst).record
    rw [hr] at hr'
    obtain rfl := Option.some.inj hr'
    cases hsaves <;> simp

theorem SlotsInv.killed {p : RowVersion V} {rest : List (RowVersion V)} (h : SlotsInv s st)
    (hst : st tid = p :: rest) (hr : s.undo p.undo = some record) (htid : tid ∈ record.kills) : rest = [] := by
  cases rest with
  | nil => rfl
  | cons b below =>
    have hst' : st tid = [] ++ p :: b :: below := hst
    obtain ⟨r, hr', hsaves⟩ := (h.above hst').record
    rw [hr] at hr'
    obtain rfl := Option.some.inj hr'
    cases hsaves with
    | update => simp at htid
    | delete => simp at htid
    | move hn hd =>
      simp only [RowRecord.kills, if_neg hn, List.mem_singleton] at htid
      exact absurd htid.symm hn

/-- The stacks after an undo of the record. -/
def pop (record : RowRecord V) (st : Stacks V) : Stacks V :=
  fun tid => if tid ∈ record.restores then (st tid).tail else st tid

theorem suffix_pop : ∃ newer, st tid = newer ++ pop record st tid := by
  unfold pop
  split_ifs
  · exact ⟨(st tid).take 1, by rw [← List.drop_one, List.take_append_drop]⟩
  · exact ⟨[], rfl⟩

/-- The versions that an undo takes off or sets dead. -/
def Tops (s : RowRun W V) (st : Stacks V) (tr : Transaction) (usn : Int) (record : RowRecord V) : Prop :=
  ∀ tid ∈ record.places, s.dead tid = false ∧ ∃ p rest, st tid = p :: rest ∧ p.undo = usn ∧ p.xid = tr.xid

/-- The state after the undo of the record, as far as the stacks go. -/
structure Undone (s t : RowRun W V) (usn : Int) (record : RowRecord V) : Prop where
  logged : s.undo usn = some record
  tm : t.tm = s.tm
  undo : t.undo = s.undo
  slots : ∀ tid, t.slots tid = if tid ∈ record.restores then record.image else s.slots tid
  dead : ∀ tid, t.dead tid = true ↔ s.dead tid = true ∨ tid ∈ record.kills

theorem mem_places : tid ∈ record.places ↔ tid ∈ record.restores ∨ tid ∈ record.kills := by
  cases record with
  | Update old new image =>
    by_cases h : new = old <;> simp [h]
  | _ => simp

theorem Undone.later (h : Undone s t usn record) : s.tm.Later t.tm := h.tm ▸ .refl

theorem Undone.dead_false (h : Undone s t usn record) (hd : t.dead tid = false) :
    s.dead tid = false ∧ tid ∉ record.kills := by
  have := (not_congr (h.dead tid)).1 (by simp [hd])
  rw [not_or] at this
  exact ⟨Bool.eq_false_iff.2 this.1, this.2⟩

theorem SlotsInv.undone (h : SlotsInv s st) (hi : s.tm.TransInv) (htop : Tops s st tr usn record)
    (hu : Undone s t usn record) :
    SlotsInv t (pop record st) := by
  have habove : ∀ tid v b, s.Above tid v b → t.Above tid v b :=
    fun _ _ _ ha => ha.later hi hu.later fun _ _ hr => hu.undo ▸ hr
  -- a slot that is written back has the version of the record below its top
  have hback : ∀ tid ∈ record.restores, ∃ p b below, st tid = p :: b :: below ∧ p.undo = usn ∧
      record.image = some b := fun tid htid => by
    obtain ⟨-, p, rest, hst, hp, -⟩ := htop tid (mem_places.2 (.inl htid))
    obtain ⟨b, below, rfl, himage⟩ := h.restored hst (hp ▸ hu.logged) htid
    exact ⟨p, b, below, hst, hp, himage⟩
  have hlast : ∀ tid, (pop record st tid).getLast? = (st tid).getLast? := fun tid => by
    unfold pop
    split_ifs with htid
    · obtain ⟨p, b, below, hst, -, -⟩ := hback tid htid
      rw [hst, List.tail_cons, List.getLast?_cons_cons]
    · rfl
  have hmem : ∀ {tid v}, v ∈ pop record st tid → v ∈ st tid := fun {tid v} hv => by
    obtain ⟨newer, ho⟩ : ∃ newer, st tid = newer ++ pop record st tid := suffix_pop
    rw [ho]
    exact List.mem_append_right _ hv
  refine ⟨fun tid => ?_, fun tid hd => ?_, fun tid => ?_, fun tid v hv => ?_,
    fun tid v hv => hu.tm ▸ h.begun tid v (hmem hv),
    fun tid v hv => hu.tm ▸ h.undos tid v (hmem hv), fun u r hr => ?_⟩
  · rw [hu.slots]
    unfold pop
    split_ifs with htid
    · obtain ⟨p, b, below, hst, -, himage⟩ := hback tid htid
      rw [hst, himage, List.tail_cons, List.head?_cons]
    · exact h.page tid
  · have hone : ∃ v, st tid = [v] := by
      rcases (hu.dead tid).1 hd with hd | hk
      · exact h.dead tid hd
      · obtain ⟨-, p, rest, hst, hp, -⟩ := htop tid (mem_places.2 (.inr hk))
        obtain rfl := h.killed hst (hp ▸ hu.logged) hk
        exact ⟨p, hst⟩
    obtain ⟨v, hv⟩ := hone
    refine ⟨v, ?_⟩
    unfold pop
    rw [if_neg, hv]
    intro htid
    obtain ⟨p, b, below, hst, -⟩ := hback tid htid
    rw [hv] at hst
    cases hst
  · unfold pop
    split_ifs
    · exact ((h.chain tid).imp (habove tid)).tail
    · exact (h.chain tid).imp (habove tid)
  · rw [hlast] at hv
    obtain ⟨hlive, h0 | ⟨old, b, hr, hne, hf, hlt, hmark⟩⟩ := h.bottom tid v hv
    · exact ⟨hlive, .inl h0⟩
    · refine ⟨hlive, .inr ⟨old, b, hu.undo ▸ hr, hne, hf.later hi hu.later, hlt, fun hd => ?_⟩⟩
      obtain ⟨hd, hk⟩ := hu.dead_false hd
      obtain ⟨mark, rest, hm, hmu⟩ := hmark hd
      refine ⟨mark, rest, ?_, hmu⟩
      unfold pop
      rw [if_neg, hm]
      intro hold
      -- the undo of the mark is the undo of the move
      obtain ⟨p, b', below, hst, hp, -⟩ := hback old hold
      rw [hm] at hst
      obtain ⟨rfl, -⟩ := List.cons.inj hst
      have hrec := hu.logged
      rw [← hp, hmu.1, hr] at hrec
      obtain rfl := Option.some.inj hrec
      exact hk (by simp [hne.symm])
  · rw [hu.tm]
    exact h.record u r (hu.undo ▸ hr)

theorem pop_append {b : RowVersion V} {newer rest : List (RowVersion V)} (htop : Tops s st tr usn record)
    (hst : st tid = newer ++ b :: rest) (hb : b.xid ≠ tr.xid ∨ b.undo ≠ usn) :
    ∃ newer', pop record st tid = newer' ++ b :: rest ∧ ∀ a ∈ newer', a ∈ newer := by
  unfold pop
  split_ifs with htid
  · obtain ⟨-, p, below, hp, hpu, hpx⟩ := htop tid (mem_places.2 (.inl htid))
    cases newer with
    | nil =>
      rw [hst] at hp
      obtain ⟨rfl, -⟩ := List.cons.inj hp
      rcases hb with hb | hb
      · exact absurd hpx hb
      · exact absurd hpu hb
    | cons a newer =>
      exact ⟨newer, by rw [hst, List.cons_append, List.tail_cons], fun c hc => List.mem_cons_of_mem _ hc⟩
  · exact ⟨newer, hst, fun _ => id⟩

theorem SlotsInv.not_killed {b : RowVersion V} (h : SlotsInv s st) (htop : Tops s st tr usn record)
    (hr : s.undo usn = some record) (hmem : b ∈ st tid)
    (hb : b.xid ≠ tr.xid ∨ b.undo ≠ usn) : tid ∉ record.kills := by
  intro htid
  obtain ⟨-, p, rest, hst, hp, hpx⟩ := htop tid (mem_places.2 (.inr htid))
  obtain rfl := h.killed hst (hp ▸ hr) htid
  rw [hst, List.mem_singleton] at hmem
  subst hmem
  rcases hb with hb | hb
  · exact hb hpx
  · exact hb hp

theorem Undone.alive (hu : Undone s t usn record) (hd : s.dead tid = false) (hk : tid ∉ record.kills) :
    t.dead tid = false := by
  refine Bool.eq_false_iff.2 fun h => ?_
  rcases (hu.dead tid).1 h with h | h
  · rw [hd] at h
    cases h
  · exact hk h

theorem LogInv.undone {log : List Int} (h : LogInv s st w tr) (hi : SlotsInv s st) (htop : Tops s st tr usn record)
    (hu : Undone s t usn record) (hlog : s.log w = usn :: log) (hlog' : t.log w = log)
    (hab : t.aborting tr.xid = true) :
    LogInv t (pop record st) w tr := by
  have hfalls := h.falls
  rw [hlog] at hfalls
  obtain ⟨hlt, hfalls⟩ := List.pairwise_cons.1 hfalls
  refine ⟨hlog' ▸ hfalls, fun ha => ?_, fun tid hd v hv he => ?_, fun u hmem => ?_⟩
  · rw [hab] at ha
    cases ha
  · obtain ⟨hd, hk⟩ := hu.dead_false hd
    obtain ⟨newer, ho⟩ : ∃ newer, st tid = newer ++ pop record st tid := suffix_pop
    have hv' : v ∈ st tid := ho ▸ List.mem_append_right _ hv
    rcases h.own tid hd v hv' he with h0 | hmem
    · exact .inl h0
    · rw [hlog] at hmem
      rw [hlog']
      rcases List.mem_cons.1 hmem with hvu | hmem
      · -- a version with the pointer of the record is in one of its slots, on top
        exfalso
        rcases mem_places.1 (hi.recorded hv' (hvu ▸ hu.logged)) with hr | hk'
        · obtain ⟨-, p, rest, hst, hp, -⟩ := htop tid (mem_places.2 (.inl hr))
          simp only [pop, if_pos hr, hst, List.tail_cons] at hv
          exact absurd (hi.undo_lt hst hv) (by omega)
        · exact hk hk'
      · exact .inr hmem
  · rw [hlog'] at hmem
    have hne : u ≠ usn := Int.ne_of_lt (hlt u hmem)
    obtain ⟨r, hr, hplaces⟩ := h.entry u (by simp [hlog, hmem])
    refine ⟨r, hu.undo ▸ hr, fun tid htid => ?_⟩
    obtain ⟨hd, v, hv, hvu, hvx⟩ := hplaces tid htid
    obtain ⟨newer, rest, hst⟩ := List.append_of_mem hv
    obtain ⟨newer', hpop, -⟩ := pop_append htop hst (.inr (hvu ▸ hne))
    exact ⟨hu.alive hd (hi.not_killed htop hu.logged hv (.inr (hvu ▸ hne))), v, by simp [hpop], hvu, hvx⟩

variable {v : W} {other : Transaction} {x : Nat} {snapshot : Snapshot}

theorem LogInv.undone_other (h : LogInv s st v other) (hi : SlotsInv s st) (htop : Tops s st tr usn record)
    (hu : Undone s t usn record) (hne : other.xid ≠ tr.xid) (hlog : t.log v = s.log v)
    (hkept : t.aborting other.xid = s.aborting other.xid) :
    LogInv t (pop record st) v other := by
  refine ⟨hlog ▸ h.falls, fun ha => hlog ▸ h.kept (hkept ▸ ha), fun tid hd b hb he => ?_, fun u hmem => ?_⟩
  · rw [hlog]
    obtain ⟨newer, ho⟩ : ∃ newer, st tid = newer ++ pop record st tid := suffix_pop
    exact h.own tid (hu.dead_false hd).1 b (ho ▸ List.mem_append_right _ hb) he
  · rw [hlog] at hmem
    obtain ⟨r, hr, hplaces⟩ := h.entry u hmem
    refine ⟨r, hu.undo ▸ hr, fun tid htid => ?_⟩
    obtain ⟨hd, b, hb, hbu, hbx⟩ := hplaces tid htid
    obtain ⟨newer, rest, hst⟩ := List.append_of_mem hb
    obtain ⟨newer', hpop, -⟩ := pop_append htop hst (.inl (hbx ▸ hne))
    exact ⟨hu.alive hd (hi.not_killed htop hu.logged hb (.inl (hbx ▸ hne))), b, by simp [hpop], hbu, hbx⟩

theorem Found.undone {tuple : RowTuple V} (h : s.Found st x snapshot tuple) (hi : SlotsInv s st)
    (htop : Tops s st tr usn record) (hu : Undone s t usn record) (hne : x ≠ tr.xid)
    (hrun : ∀ c, ¬ s.tm.Commits tr.xid c) :
    t.Found (pop record st) x snapshot tuple := by
  obtain ⟨newer, rest, hst, hd, hlive, hsees, hnewer⟩ := h
  have hx : tuple.version.xid ≠ tr.xid := by
    rcases hsees with hown | ⟨c, hc, -⟩
    · exact hown ▸ hne
    · exact fun e => hrun c (e ▸ hc)
  obtain ⟨newer', hpop, hsub⟩ := pop_append htop hst (.inl hx)
  have hmem : tuple.version ∈ st tuple.tid := by simp [hst]
  have hk := hi.not_killed htop hu.logged hmem (.inl hx)
  exact ⟨newer', rest, hpop, hu.alive hd hk, hlive, hsees.later hu.later, fun a ha => ⟨(hnewer a (hsub a ha)).1, by
    rw [hu.tm]
    exact (hnewer a (hsub a ha)).2⟩⟩

theorem ScanInv.undone (h : ScanInv s st v other) (hu : Undone s t usn record)
    (hvisited : t.visited v = s.visited v) (htuples : ∀ tuple ∈ t.tuples v, tuple ∈ s.tuples v)
    (honce : ((t.tuples v).map RowTuple.tid).Nodup)
    (hfound : ∀ tuple ∈ t.tuples v, ∀ snapshot, s.Found st other.xid snapshot tuple →
      t.Found (pop record st) other.xid snapshot tuple) :
    ScanInv t (pop record st) v other := by
  refine ⟨fun hs => hvisited ▸ h.fresh hs, fun tuple ht => hvisited ▸ h.visited tuple (htuples tuple ht), honce,
    fun tuple ht => ?_, fun tid newer a b rest hst ha => ?_, fun tid hnot hd newer b rest hst a ha he => ?_⟩
  · obtain ⟨snapshot, hs, hf⟩ := h.found tuple (htuples tuple ht)
    exact ⟨snapshot, hs, hfound tuple ht snapshot hf⟩
  · obtain ⟨pre, hpre⟩ : ∃ pre, st tid = pre ++ pop record st tid := suffix_pop
    rw [hst, ← List.append_assoc] at hpre
    exact (h.based tid _ a b rest hpre ha).later hu.later rfl rfl
  · obtain ⟨pre, hpre⟩ : ∃ pre, st tid = pre ++ pop record st tid := suffix_pop
    rw [hst, ← List.append_assoc] at hpre
    exact h.ahead tid (hvisited ▸ hnot) (hu.dead_false hd).1 _ b rest hpre a (List.mem_append_right _ ha) he

end RowRun

end Mimidb
