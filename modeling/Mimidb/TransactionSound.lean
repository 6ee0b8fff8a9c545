import Mimidb.TransactionManager

/-!
# Snapshot stability and atomic commit

`TransInv` ties the history to the program points: every transaction has one
worker, and the history says what its worker has published. From it follows
what an answer of `tuple_is_visible` means for ever: the transaction has or
will get a number below the snapshot's. Answers need the mutex, so a share
that is not given back stops them all (`stuck`).
-/

namespace Mimidb

variable {W : Type}

open CommitSeqNumber

/-- Neither in the middle of the begin nor of the end of a transaction. -/
@[simp] def TransPc.running : TransPc W → Bool
  | .idle | .commitMark | .abortMark | .readCsn _ => true
  | .waitFind _ | .waitCheck .. | .waitLatch _ => true
  | _ => false

/-- What the tables say about a transaction whose worker is at the program point. -/
@[simp] def TransPc.phaseOk (csn hist : Nat) (worker : Option W) : TransPc W → Prop
  | .beginRegister => hist = Invalid
  | .commitTake => hist = Committing ∧ worker ≠ none
  | .commitPublish c => hist = Committing ∧ worker ≠ none ∧ CommitSeqNumber.Min ≤ c ∧ c < csn
  | .commitEnd c => hist = c ∧ CommitSeqNumber.Min ≤ c
  | .abortEnd => hist = Aborted
  | .threw _ => False
  | _ => hist = InProgress ∧ worker ≠ none

theorem TransPc.phaseOk_of_running {p : TransPc W} (h : p.running = true) (csn hist : Nat)
    (e : Option W) : p.phaseOk csn hist e ↔ hist = InProgress ∧ e ≠ none := by
  cases p <;> simp_all

theorem TransPc.phaseOk_mono {p : TransPc W} {csn csn' hist : Nat} {e : Option W} (hle : csn ≤ csn')
    (h : p.phaseOk csn hist e) : p.phaseOk csn' hist e := by
  cases p <;> simp_all; omega

namespace TransManager

/-- `w` has taken the number `c` for `x` and not yet published it. -/
def Publishes (s : TransManager W) (w : W) (x c : Nat) : Prop :=
  ∃ tr, s.transactions w = some tr ∧ tr.xid = x ∧ s.pc w = .commitPublish c

/-- `x` has published the number `c` or is going to. -/
def Commits (s : TransManager W) (x c : Nat) : Prop :=
  CommitSeqNumber.Min ≤ c ∧ s.history x = c ∨ ∃ w, s.Publishes w x c

/-- The answer about another transaction's version tells whether that one commits below. -/
def Right (s : TransManager W) (a : VisibleAnswer) : Prop :=
  a.header.xid ≠ a.reader → (a.visible = true ↔ ∃ c, s.Commits a.header.xid c ∧ c < a.snapshot.csn)

structure TransInv (s : TransManager W) : Prop where
  min : CommitSeqNumber.Min ≤ s.csn
  fresh : ∀ x, s.xid ≤ x → s.history x = Invalid
  xids : ∀ w tr, s.transactions w = some tr → tr.xid < s.xid
  one : ∀ w v tr tr', s.transactions w = some tr → s.transactions v = some tr' →
    tr.xid = tr'.xid → w = v
  phase : ∀ w tr, s.transactions w = some tr →
    (s.pc w).phaseOk s.csn (s.history tr.xid) (s.xidToWorker tr.xid)
  history : ∀ x, s.history x < s.csn ∧ s.history x ≠ Frozen
  headers : ∀ h ∈ s.headers, s.history h.xid ≠ Invalid
  snapshots : ∀ w tr S, s.transactions w = some tr → tr.snapshot = some S → S.csn ≤ s.csn
  reading : ∀ w h, s.pc w = .readCsn h → h ∈ s.headers ∧
    ∃ tr S, s.transactions w = some tr ∧ tr.snapshot = some S ∧ h.xid ≠ tr.xid
  committing : ∀ x, s.history x = Committing → ∃ w tr, s.transactions w = some tr ∧ tr.xid = x ∧
    (s.pc w = .commitTake ∨ ∃ c, s.pc w = .commitPublish c)
  answers : ∀ a ∈ s.answers, a.snapshot.csn ≤ s.csn ∧ s.Right a

theorem TransInv.init : TransInv (init : TransManager W) where
  min := Nat.le_refl _
  fresh _ _ := rfl
  xids _ _ h := by cases h
  one _ _ _ _ h := by cases h
  phase _ _ h := by cases h
  history _ := ⟨(by decide : Invalid < CommitSeqNumber.Min), (by decide : Invalid ≠ Frozen)⟩
  headers _ h := by cases h
  snapshots _ _ _ h := by cases h
  reading _ _ h := by cases h
  committing _ h := by cases h
  answers _ h := by cases h

/-- What a step of `w` does to tables and answers. -/
inductive TransEffect (s t : TransManager W) (w : W) : Prop where
  | begin (ht : t.transactions w = some (.new s.xid)) (hp : t.pc w = .beginRegister)
      (hp' : s.pc w = .idle)
      (hx : t.xid = s.xid + 1) (hh : t.history = s.history) (hk : t.xidToWorker = s.xidToWorker)
      (hc : t.csn = s.csn) (hd : t.headers = s.headers) (ha : t.answers = s.answers)
  | run (tr tr' : Transaction) (hs : s.transactions w = some tr) (ht : t.transactions w = some tr')
      (hx : tr'.xid = tr.xid) (hsn : ∀ S, tr'.snapshot = some S → S.csn ≤ s.csn)
      (hp : (s.pc w).running = true) (hp' : (t.pc w).running = true) (hxid : t.xid = s.xid)
      (hh : t.history = s.history) (hk : t.xidToWorker = s.xidToWorker) (hc : t.csn = s.csn)
      (hd : ∀ h ∈ t.headers, h ∈ s.headers ∨ h.xid = tr.xid) (hd' : ∀ h ∈ s.headers, h ∈ t.headers)
      (hr : ∀ h, t.pc w = .readCsn h → h ∈ s.headers ∧ tr'.snapshot ≠ none ∧ h.xid ≠ tr.xid)
      (ha : ∀ a ∈ t.answers, a ∈ s.answers ∨ a.snapshot.csn ≤ s.csn ∧ s.Right a)
  | mark (tr : Transaction) (v : Nat) (hs : s.transactions w = some tr)
      (ht : t.transactions w = some tr) (hv : v < s.csn ∧ v ≠ Frozen ∧ v ≠ Invalid)
      (hh : t.history = Function.update s.history tr.xid v)
      (hk : ∀ x, x ≠ tr.xid → t.xidToWorker x = s.xidToWorker x)
      (hp : (t.pc w).phaseOk s.csn v (t.xidToWorker tr.xid)) (hp' : ∀ h, t.pc w ≠ .readCsn h)
      (hm : v = Committing → t.pc w = .commitTake)
      (hcm : ∀ c, CommitSeqNumber.Min ≤ v ∧ v = c ∨ t.pc w = .commitPublish c ↔
        CommitSeqNumber.Min ≤ s.history tr.xid ∧ s.history tr.xid = c ∨ s.pc w = .commitPublish c)
      (hxid : t.xid = s.xid) (hc : t.csn = s.csn) (hd : t.headers = s.headers)
      (ha : t.answers = s.answers)
  | take (hs : s.pc w = .commitTake) (ht : t.pc w = .commitPublish s.csn) (hc : t.csn = s.csn + 1)
      (htr : t.transactions w = s.transactions w) (hh : t.history = s.history)
      (hk : t.xidToWorker = s.xidToWorker) (hxid : t.xid = s.xid) (hd : t.headers = s.headers)
      (ha : t.answers = s.answers)
  | finish (hs : s.pc w = .abortEnd ∨ ∃ c, s.pc w = .commitEnd c) (hp : t.pc w = .idle)
      (ht : t.transactions w = none) (hh : t.history = s.history)
      (hk : t.xidToWorker = s.xidToWorker) (hxid : t.xid = s.xid) (hc : t.csn = s.csn)
      (hd : t.headers = s.headers) (ha : t.answers = s.answers)

/-- No `GetTransactionCsn` reads a transaction that is about to get its number. -/
def noCatch (s : TransManager W) (a : W × TransOp) : Prop :=
  (match s.pc a.1 with
    | .readCsn header => s.history header.xid != Committing
    | _ => true) = true

/-- The 64 bit counters do not wrap. -/
def noWrap (s : TransManager W) (_ : W × TransOp) : Prop :=
  s.csn + 1 < counter ∧ s.xid + 1 < counter

instance (s : TransManager W) (a : W × TransOp) : Decidable (noCatch s a) :=
  inferInstanceAs (Decidable (_ = true))

instance (s : TransManager W) (a : W × TransOp) : Decidable (noWrap s a) :=
  inferInstanceAs (Decidable (_ ∧ _))

section
variable [DecidableEq W]

theorem step_ne {s t : TransManager W} {w v : W} {op : TransOp} (h : s.step (w, op) = some t)
    (hv : v ≠ w) : t.pc v = s.pc v ∧ t.transactions v = s.transactions v := by
  cases op with
  | run =>
    simp only [TransManager.step, Option.bind_eq_some_iff] at h
    obtain ⟨tr, -, h⟩ := h
    cases hp : s.pc w <;> rw [hp] at h <;> simp only [runPc, locked, eraseWorker] at h
    all_goals
      repeat' split at h
      all_goals cases h
      all_goals simp [hv]
  | _ =>
    simp only [TransManager.step] at h
    repeat' split at h
    all_goals cases h
    all_goals simp [hv]

omit [DecidableEq W] in
/-- An answer read from the history is right: nobody else is going to publish for it. -/
theorem right_of_history {s : TransManager W} (hi : TransInv s) {h : HeapPageTupleHeader}
    (hh : h ∈ s.headers) (hn : s.history h.xid ≠ Committing) (reader : Nat) (snapshot : Snapshot) :
    s.Right ⟨reader, snapshot, h, csnIsVisible snapshot (s.history h.xid)⟩ := by
  intro _
  have hno : ∀ w c, ¬ s.Publishes w h.xid c := by
    rintro w c ⟨tr, ht, hx, hp⟩
    have := hi.phase w tr ht
    rw [hp, hx] at this
    exact hn this.1
  simp only [Commits, hno, exists_false, or_false]
  by_cases hm : CommitSeqNumber.Min ≤ s.history h.xid
  · simp [csnIsVisible_normal hm, hm]
  · have h1 := hi.headers h hh
    have h2 := (hi.history h.xid).2
    simp only [CommitSeqNumber.Min, Invalid, Frozen, Committing] at hm h1 h2 hn
    have : csnIsVisible snapshot (s.history h.xid) = false := by
      rw [csnIsVisible, if_pos]
      simp only [InProgress, Aborted]
      omega
    simp only [this, Bool.false_eq_true, false_iff]
    rintro ⟨c, ⟨hc, e⟩, -⟩
    simp only [CommitSeqNumber.Min] at hc
    omega

theorem TransEffect.call {s : TransManager W} {w : W} {tr : Transaction} (hi : TransInv s)
    (htr : s.transactions w = some tr) (hp : (s.pc w).running = true) {p : TransPc W}
    (hp' : p.running = true) (hn : ∀ h, p ≠ .readCsn h) : TransEffect s (s.goto w p) w :=
  .run tr tr htr htr rfl (fun S' => hi.snapshots w tr S' htr) hp (by simpa using hp') rfl rfl rfl rfl
    (fun _ => .inl) (fun _ => id) (fun h e => absurd (by simpa using e) (hn h)) (fun _ => .inl)

/-- What the program points of a worker do. -/
theorem run_effect {s t : TransManager W} {w : W} (hi : TransInv s) (hw : noWrap s (w, .run))
    (h : s.step (w, .run) = some t) : TransEffect s t w := by
  have hwrap : (s.csn + 1) % counter = s.csn + 1 := Nat.mod_eq_of_lt hw.1
  simp only [TransManager.step, Option.bind_eq_some_iff] at h
  obtain ⟨tr, htr, h⟩ := h
  have hph := hi.phase w tr htr
  cases hp : s.pc w <;> rw [hp] at h hph <;> simp only [runPc, locked] at h
  case idle | threw => cases h
  case beginRegister =>
    split at h <;> cases h
    refine .mark tr InProgress htr (by simpa using htr) ⟨?_, by decide, by decide⟩ rfl ?_ ?_ ?_ ?_ ?_
      rfl rfl rfl rfl
    · exact Nat.lt_of_lt_of_le (by decide) hi.min
    · exact fun x hx => by simp [hx]
    · simp
    · simp
    · exact fun h => absurd h (by decide)
    · simp only [TransPc.phaseOk] at hph
      simp [hp, hph, InProgress, Invalid, CommitSeqNumber.Min]
  case commitMark =>
    split at h <;> cases h
    refine .mark tr Committing htr (by simpa using htr) ⟨?_, by decide, by decide⟩ rfl ?_ ?_ ?_ ?_ ?_
      rfl rfl rfl rfl
    · exact Nat.lt_of_lt_of_le (by decide) hi.min
    · exact fun _ _ => rfl
    · simpa using hph.2
    · simp
    · simp
    · simp only [TransPc.phaseOk] at hph
      simp [hp, hph, InProgress, Committing, CommitSeqNumber.Min]
  case commitTake =>
    cases h
    exact .take hp (by simp) hwrap rfl rfl rfl rfl rfl rfl
  case commitPublish c =>
    obtain ⟨hc, hk, hcm, hlt⟩ := hph
    split at h <;> cases h
    simp only [eraseWorker, setHistory, hk, ite_false]
    have h1 : CommitSeqNumber.Min = 5 := rfl
    refine .mark tr c htr (by simpa using htr) ⟨hlt, ?_, ?_⟩ rfl ?_ ?_ ?_ ?_ ?_ rfl rfl rfl rfl
    · simp only [Frozen]; omega
    · simp only [Invalid]; omega
    · exact fun x hx => by simp [hx]
    · simpa using hcm
    · simp
    · simp only [Committing]; omega
    · simp [hp, hc, Committing, h1, h1 ▸ hcm]
  case commitEnd c =>
    cases h
    exact .finish (.inr ⟨c, hp⟩) (by simp) (by simp) rfl rfl rfl rfl rfl rfl
  case abortMark =>
    obtain ⟨hc, hk⟩ := hph
    split at h <;> cases h
    simp only [eraseWorker, setHistory, hk, ite_false]
    refine .mark tr Aborted htr (by simpa using htr) ⟨?_, by decide, by decide⟩ rfl ?_ ?_ ?_ ?_ ?_
      rfl rfl rfl rfl
    · exact Nat.lt_of_lt_of_le (by decide) hi.min
    · exact fun x hx => by simp [hx]
    · simp
    · simp
    · exact fun h => absurd h (by decide)
    · simp [hp, hc, InProgress, Aborted, CommitSeqNumber.Min]
  case abortEnd =>
    cases h
    exact .finish (.inl hp) (by simp) (by simp) rfl rfl rfl rfl rfl rfl
  case readCsn header =>
    obtain ⟨hh, tr', S, htr', hS, hne⟩ := hi.reading w header hp
    rw [htr, Option.some.injEq] at htr'
    subst htr'
    have hsn := fun S' => hi.snapshots w tr S' htr
    rw [hS] at h
    simp only at h
    split at h
    · split at h <;> cases h
      exact .run tr tr htr htr rfl hsn (by simp [hp]) (by simp [hp]) rfl rfl rfl rfl
        (fun _ => .inl) (fun _ => id) (fun h' hp' => by
          rw [hp, TransPc.readCsn.injEq] at hp'; exact ⟨hp' ▸ hh, by simp [hS], hp' ▸ hne⟩)
        (fun _ => .inl)
    · rename_i hnc
      split at h <;> cases h
      refine .run tr tr htr htr rfl hsn (by simp [hp]) (by simp) rfl rfl rfl rfl
        (fun _ => .inl) (fun _ => id) (by simp) fun a ha => ?_
      rcases List.mem_cons.mp ha with rfl | ha
      · exact .inr ⟨hi.snapshots w tr S htr hS, right_of_history hi hh hnc tr.xid S⟩
      · exact .inl ha
  case waitFind x =>
    split at h <;> cases h
    exact .call hi htr (by simp [hp]) (by cases s.xidToWorker x <;> simp)
      (by cases s.xidToWorker x <;> simp)
  case waitCheck x v =>
    have hsn := fun S' => hi.snapshots w tr S' htr
    split at h
    · cases h
      exact .call hi htr (by simp [hp]) rfl (by simp)
    · split at h <;> cases h <;>
        exact .run tr tr htr htr rfl hsn (by simp [hp]) (by simp) rfl rfl rfl rfl
          (fun _ => .inl) (fun _ => id) (by simp) (fun _ => .inl)
  case waitLatch x =>
    split at h <;> cases h
    exact .call hi htr (by simp [hp]) rfl (by simp)

theorem trans_effect {s t : TransManager W} {w : W} {op : TransOp} (hi : TransInv s)
    (hw : noWrap s (w, op)) (h : s.step (w, op) = some t) : TransEffect s t w := by
  have hwrapx : (s.xid + 1) % counter = s.xid + 1 := Nat.mod_eq_of_lt hw.2
  cases op with
  | run => exact run_effect hi hw h
  | beginNewTransaction =>
    simp only [TransManager.step] at h
    split at h <;> cases h
    rename_i hp
    exact .begin (by simp) (by simp) hp hwrapx rfl rfl rfl rfl rfl
  | beginNewStatement =>
    simp only [TransManager.step] at h
    split at h
    · rename_i hp
      cases htr : s.transactions w with
      | none => rw [htr] at h; cases h
      | some tr =>
        rw [htr] at h
        cases h
        have hsn := fun S' => hi.snapshots w tr S' htr
        refine .run tr (tr.beginNewStatement s.csn) htr (by simp) ?_ ?_ (by simp [hp]) (by simp [hp])
          rfl rfl rfl rfl
          (fun _ => .inl) (fun _ => id) (by simp [hp]) (fun _ => .inl)
        · unfold Transaction.beginNewStatement
          cases tr.snapshot with
          | none => rfl
          | some S => simp only; split <;> rfl
        · unfold Transaction.beginNewStatement
          cases hS : tr.snapshot with
          | none => simp
          | some S =>
            have := hsn S hS
            simp only
            split
            · simpa using this
            · simpa [hS] using this
    · cases h
  | write usn undo flags =>
    simp only [TransManager.step] at h
    split at h
    · rename_i hp
      cases htr : s.transactions w with
      | none => rw [htr] at h; cases h
      | some tr =>
        rw [htr] at h
        simp only at h
        split at h <;> cases h
        refine .run tr (tr.log usn) htr (by simp) rfl (fun S' => hi.snapshots w tr S' htr) (by simp [hp])
          (by simp [hp]) rfl rfl rfl rfl ?_ ?_ (by simp [hp]) (fun _ => .inl)
        · exact fun h hh => (List.mem_cons.mp hh).elim (fun e => .inr (by rw [e])) .inl
        · exact fun _ => List.mem_cons_of_mem _
    · cases h
  | commit =>
    simp only [TransManager.step] at h
    split at h
    · rename_i hp
      cases htr : s.transactions w with
      | none => rw [htr] at h; cases h
      | some tr =>
        rw [htr] at h
        cases h
        exact .call hi htr (by simp [hp]) rfl (by simp)
    · cases h
  | abort =>
    simp only [TransManager.step] at h
    split at h
    · rename_i hp
      cases htr : s.transactions w with
      | none => rw [htr] at h; cases h
      | some tr =>
        rw [htr] at h
        cases h
        exact .run tr { tr with undoLog := tr.undoLog.map fun _ => [] } htr (by simp) rfl
          (fun S' => hi.snapshots w tr S' htr) (by simp [hp])
          (by simp) rfl rfl rfl rfl (fun _ => .inl) (fun _ => id) (by simp) (fun _ => .inl)
    · cases h
  | visible header =>
    simp only [TransManager.step] at h
    split at h
    · rename_i hp
      cases htr : s.transactions w with
      | none => rw [htr] at h; cases h
      | some tr =>
        rw [htr] at h
        have hsn := fun S' => hi.snapshots w tr S' htr
        cases hS : tr.snapshot with
        | none => simp [hS] at h
        | some S =>
          simp only [hS] at h
          repeat' split at h
          · cases h
          · rename_i hx
            cases h
            refine .run tr tr htr htr rfl hsn (by simp [hp]) (by simp [hp]) rfl rfl rfl rfl
              (fun _ => .inl) (fun _ => id) (by simp [hp]) fun a ha => ?_
            rcases List.mem_cons.mp ha with rfl | ha
            · exact .inr ⟨hsn S hS, fun hne => absurd hx hne⟩
            · exact .inl ha
          · rename_i hh hx
            cases h
            refine .run tr tr htr htr rfl hsn (by simp [hp]) (by simp) rfl rfl rfl rfl
              (fun _ => .inl) (fun _ => id) ?_ (fun _ => .inl)
            intro h' hp'
            have e : header = h' := by simpa using hp'
            exact e ▸ ⟨by simpa using hh, by simp [hS], hx⟩
    · cases h
  | wait x =>
    simp only [TransManager.step] at h
    split at h
    · rename_i hp
      cases htr : s.transactions w with
      | none => rw [htr] at h; cases h
      | some tr =>
        rw [htr] at h
        cases h
        exact .call hi htr (by simp [hp]) rfl (by simp)
    · cases h

omit [DecidableEq W] in
theorem Right.congr {s t : TransManager W} {a : VisibleAnswer}
    (h : ∀ c, t.Commits a.header.xid c ↔ s.Commits a.header.xid c) (hr : s.Right a) : t.Right a := by
  intro hne
  rw [hr hne]
  simp only [h]

omit [DecidableEq W] in
theorem commits_keep {s t : TransManager W} {w : W}
    (hne : ∀ v, v ≠ w → t.pc v = s.pc v ∧ t.transactions v = s.transactions v)
    (hh : t.history = s.history) (hs : ∀ c, s.pc w ≠ .commitPublish c)
    (ht : ∀ c, t.pc w ≠ .commitPublish c) (x c : Nat) : t.Commits x c ↔ s.Commits x c := by
  have : ∀ v, t.Publishes v x c ↔ s.Publishes v x c := fun v => by
    by_cases e : v = w
    · subst e
      exact ⟨fun ⟨_, _, _, h⟩ => absurd h (ht c), fun ⟨_, _, _, h⟩ => absurd h (hs c)⟩
    · simp only [Publishes, (hne v e).1, (hne v e).2]
  simp only [Commits, hh, this]

omit [DecidableEq W] in
theorem TransPc.not_publish_of_running {p : TransPc W} (h : p.running = true) (c : Nat) :
    p ≠ .commitPublish c := by
  rintro rfl; cases h

omit [DecidableEq W] in
theorem TransInv.committing_keep {s t : TransManager W} {w : W} (hi : TransInv s)
    (hne : ∀ v, v ≠ w → t.pc v = s.pc v ∧ t.transactions v = s.transactions v)
    (hh : t.history = s.history) (hs : s.pc w ≠ .commitTake) (hs' : ∀ c, s.pc w ≠ .commitPublish c)
    (x : Nat) (hx : t.history x = Committing) : ∃ v tr, t.transactions v = some tr ∧ tr.xid = x ∧
      (t.pc v = .commitTake ∨ ∃ c, t.pc v = .commitPublish c) := by
  rw [hh] at hx
  obtain ⟨v, r, hv, hvx, hvp⟩ := hi.committing x hx
  have e : v ≠ w := by
    rintro rfl
    rcases hvp with hvp | ⟨c, hvp⟩
    · exact hs hvp
    · exact hs' c hvp
  exact ⟨v, r, by rw [(hne v e).2]; exact hv, hvx, by rw [(hne v e).1]; exact hvp⟩

theorem TransInv.step_begin {s t : TransManager W} {w : W} (hi : TransInv s)
    (hne : ∀ v, v ≠ w → t.pc v = s.pc v ∧ t.transactions v = s.transactions v)
    (ht : t.transactions w = some (.new s.xid)) (hp : t.pc w = .beginRegister) (hp' : s.pc w = .idle)
    (hx : t.xid = s.xid + 1) (hh : t.history = s.history) (hk : t.xidToWorker = s.xidToWorker)
    (hc : t.csn = s.csn) (hd : t.headers = s.headers) (ha : t.answers = s.answers) : TransInv t where
  min := by rw [hc]; exact hi.min
  fresh x hle := by rw [hh]; exact hi.fresh x (by omega)
  xids v tr hv := by
    rw [hx]
    by_cases e : v = w
    · rw [e, ht] at hv; cases hv; exact Nat.lt_succ_self _
    · rw [(hne v e).2] at hv; exact Nat.lt_succ_of_lt (hi.xids v tr hv)
  one v v' tr tr' hv hv' he := by
    by_cases e : v = w <;> by_cases e' : v' = w
    · rw [e, e']
    · rw [e, ht] at hv
      rw [(hne v' e').2] at hv'
      cases hv
      exact absurd he.symm (Nat.ne_of_lt (hi.xids v' tr' hv'))
    · rw [e', ht] at hv'
      rw [(hne v e).2] at hv
      cases hv'
      exact absurd he (Nat.ne_of_lt (hi.xids v tr hv))
    · rw [(hne v e).2] at hv
      rw [(hne v' e').2] at hv'
      exact hi.one v v' tr tr' hv hv' he
  phase v tr hv := by
    rw [hh, hk, hc]
    by_cases e : v = w
    · rw [e, ht] at hv
      cases hv
      rw [e, hp]
      exact hi.fresh s.xid (Nat.le_refl _)
    · rw [(hne v e).2] at hv
      rw [(hne v e).1]
      exact hi.phase v tr hv
  history := by rw [hh, hc]; exact hi.history
  headers := by rw [hd, hh]; exact hi.headers
  snapshots v tr S hv hS := by
    rw [hc]
    by_cases e : v = w
    · rw [e, ht] at hv; cases hv; cases hS
    · rw [(hne v e).2] at hv; exact hi.snapshots v tr S hv hS
  reading v hdr hv := by
    by_cases e : v = w
    · rw [e, hp] at hv; cases hv
    · rw [(hne v e).1] at hv
      rw [hd, (hne v e).2]
      exact hi.reading v hdr hv
  committing := hi.committing_keep hne hh (by simp [hp']) (by simp [hp'])
  answers := by
    rw [ha, hc]
    intro a ha
    obtain ⟨h1, h2⟩ := hi.answers a ha
    exact ⟨h1, h2.congr (commits_keep hne hh (by simp [hp']) (by simp [hp]) _)⟩

theorem TransInv.own {s t : TransManager W} {w : W} (hi : TransInv s)
    (hne : ∀ v, v ≠ w → t.pc v = s.pc v ∧ t.transactions v = s.transactions v) (hx : t.xid = s.xid)
    (hw : ∀ tr', t.transactions w = some tr' → ∃ tr, s.transactions w = some tr ∧ tr'.xid = tr.xid) :
    (∀ v tr, t.transactions v = some tr → tr.xid < t.xid) ∧
    (∀ v v' tr tr', t.transactions v = some tr → t.transactions v' = some tr' →
      tr.xid = tr'.xid → v = v') := by
  have hback : ∀ v tr', t.transactions v = some tr' →
      ∃ tr, s.transactions v = some tr ∧ tr'.xid = tr.xid := fun v tr' hv => by
    by_cases e : v = w
    · subst e; exact hw tr' hv
    · exact ⟨tr', by rw [← (hne v e).2]; exact hv, rfl⟩
  refine ⟨fun v tr' hv => ?_, fun v v' tr tr' hv hv' he => ?_⟩
  · obtain ⟨tr, h, e⟩ := hback v tr' hv
    rw [hx, e]; exact hi.xids v tr h
  · obtain ⟨r, h, e⟩ := hback v tr hv
    obtain ⟨r', h', e'⟩ := hback v' tr' hv'
    exact hi.one v v' r r' h h' (by rw [← e, ← e', he])

theorem commits_mark {s t : TransManager W} {w : W} {tr : Transaction} {v : Nat} (hi : TransInv s)
    (hne : ∀ v, v ≠ w → t.pc v = s.pc v ∧ t.transactions v = s.transactions v)
    (hs : s.transactions w = some tr) (ht : t.transactions w = some tr)
    (hh : t.history = Function.update s.history tr.xid v)
    (hcm : ∀ c, CommitSeqNumber.Min ≤ v ∧ v = c ∨ t.pc w = .commitPublish c ↔
      CommitSeqNumber.Min ≤ s.history tr.xid ∧ s.history tr.xid = c ∨ s.pc w = .commitPublish c) (x c : Nat) :
    t.Commits x c ↔ s.Commits x c := by
  have hother : ∀ u r, u ≠ w → s.transactions u = some r → r.xid ≠ tr.xid :=
    fun u r e hu he => e (hi.one u w r tr hu hs he)
  have hpub : ∀ u, u ≠ w → (t.Publishes u x c ↔ s.Publishes u x c) := fun u e => by
    simp only [Publishes, (hne u e).1, (hne u e).2]
  by_cases ex : x = tr.xid
  · subst ex
    have hself : t.history tr.xid = v := by rw [hh, Function.update_self]
    have hw : ∀ {r : TransManager W}, r.transactions w = some tr →
        (∀ u, u ≠ w → ¬ r.Publishes u tr.xid c) →
        ((∃ u, r.Publishes u tr.xid c) ↔ r.pc w = .commitPublish c) := fun hr hno => by
      refine ⟨fun ⟨u, hu⟩ => ?_, fun hp => ⟨w, tr, hr, rfl, hp⟩⟩
      have e : u = w := Classical.byContradiction fun e => hno u e hu
      subst e
      exact hu.choose_spec.2.2
    have hno : ∀ u, u ≠ w → ¬ s.Publishes u tr.xid c := fun u e ⟨r, hu, hx, _⟩ =>
      hother u r e hu hx
    simp only [Commits, hself, hw hs hno, hw ht fun u e => by rw [hpub u e]; exact hno u e]
    have hmin : ∀ a, CommitSeqNumber.Min ≤ c ∧ a = c ↔ CommitSeqNumber.Min ≤ a ∧ a = c :=
      fun a => ⟨fun ⟨h, e⟩ => ⟨e ▸ h, e⟩, fun ⟨h, e⟩ => ⟨e ▸ h, e⟩⟩
    rw [hmin, hmin]
    exact hcm c
  · have hno : ∀ {r : TransManager W}, r.transactions w = some tr → ¬ r.Publishes w x c :=
      fun hr ⟨r', hr', hx, _⟩ => by rw [hr] at hr'; cases hr'; exact ex hx.symm
    have hsame : t.history x = s.history x := by rw [hh, Function.update_of_ne ex]
    have : ∀ u, t.Publishes u x c ↔ s.Publishes u x c := fun u => by
      by_cases e : u = w
      · subst e; exact iff_of_false (hno ht) (hno hs)
      · exact hpub u e
    simp only [Commits, hsame, this]

/-- A number that is new to the manager is the one that the worker takes now. -/
theorem commits_step {s t : TransManager W} {w : W} {op : TransOp} (hi : TransInv s) (hw : noWrap s (w, op))
    (h : s.step (w, op) = some t) {x c : Nat} (hc : t.Commits x c) :
    s.Commits x c ∨ c = s.csn ∧ s.pc w = .commitTake ∧ ∃ tr, s.transactions w = some tr ∧ tr.xid = x := by
  have hne := fun v (hv : v ≠ w) => step_ne h hv
  cases trans_effect hi hw h with
  | begin ht hp hp' hx hh =>
    exact .inl ((commits_keep hne hh (by simp [hp']) (by simp [hp]) x c).1 hc)
  | run tr tr' hs ht hx hsn hp hp' hxid hh =>
    exact .inl ((commits_keep hne hh (TransPc.not_publish_of_running hp) (TransPc.not_publish_of_running hp') x c).1
      hc)
  | mark tr v hs ht hv hh hk hp hp' hm hcm => exact .inl ((commits_mark hi hne hs ht hh hcm x c).1 hc)
  | take hs ht hc' htr hh =>
    rcases hc with hc | ⟨u, hu⟩
    · exact .inl (.inl (by rw [← hh]; exact hc))
    · by_cases e : u = w
      · rw [e] at hu
        obtain ⟨r, hr, hx, hp⟩ := hu
        rw [ht] at hp
        cases hp
        exact .inr ⟨rfl, hs, r, by rw [← htr]; exact hr, hx⟩
      · obtain ⟨r, hr, hx, hp⟩ := hu
        exact .inl (.inr ⟨u, r, by rw [← (hne u e).2]; exact hr, hx, by rw [← (hne u e).1]; exact hp⟩)
  | finish hs hp ht hh =>
    have hnp : ∀ c, s.pc w ≠ .commitPublish c := fun c e => by rw [e] at hs; simp at hs
    exact .inl ((commits_keep hne hh hnp (by simp [hp]) x c).1 hc)

theorem history_step {s t : TransManager W} {w : W} {op : TransOp} (hi : TransInv s) (hw : noWrap s (w, op))
    (h : s.step (w, op) = some t) {x : Nat} (hx : s.history x ≠ Invalid) : t.history x ≠ Invalid := by
  cases trans_effect hi hw h with
  | mark tr v hs ht hv hh =>
    rw [hh]
    by_cases e : x = tr.xid
    · rw [e, Function.update_self]
      exact hv.2.2
    · rw [Function.update_of_ne e]
      exact hx
  | begin ht hp hp' hx' hh => exact hh ▸ hx
  | run tr tr' hs ht hx' hsn hp hp' hxid hh => exact hh ▸ hx
  | take hs ht hc htr hh => exact hh ▸ hx
  | finish hs hp ht hh => exact hh ▸ hx

theorem TransInv.step_run {s t : TransManager W} {w : W} {tr tr' : Transaction} (hi : TransInv s)
    (hne : ∀ v, v ≠ w → t.pc v = s.pc v ∧ t.transactions v = s.transactions v)
    (hs : s.transactions w = some tr) (ht : t.transactions w = some tr') (hx : tr'.xid = tr.xid)
    (hsn : ∀ S, tr'.snapshot = some S → S.csn ≤ s.csn) (hp : (s.pc w).running = true)
    (hp' : (t.pc w).running = true) (hxid : t.xid = s.xid) (hh : t.history = s.history)
    (hk : t.xidToWorker = s.xidToWorker) (hc : t.csn = s.csn)
    (hd : ∀ h ∈ t.headers, h ∈ s.headers ∨ h.xid = tr.xid) (hd' : ∀ h ∈ s.headers, h ∈ t.headers)
    (hr : ∀ h, t.pc w = .readCsn h → h ∈ s.headers ∧ tr'.snapshot ≠ none ∧ h.xid ≠ tr.xid)
    (ha : ∀ a ∈ t.answers, a ∈ s.answers ∨ a.snapshot.csn ≤ s.csn ∧ s.Right a) : TransInv t := by
  obtain ⟨hxids, hone⟩ := hi.own hne hxid fun r hr => ⟨tr, hs, by
    rw [ht] at hr; cases hr; exact hx⟩
  have hph := (TransPc.phaseOk_of_running hp ..).mp (hi.phase w tr hs)
  have hkeep := commits_keep hne hh (TransPc.not_publish_of_running hp)
    (TransPc.not_publish_of_running hp')
  constructor
  case min => rw [hc]; exact hi.min
  case fresh => rw [hxid, hh]; exact hi.fresh
  case xids => exact hxids
  case one => exact hone
  case phase =>
    intro v r hv
    rw [hh, hk, hc]
    by_cases e : v = w
    · rw [e, ht] at hv
      cases hv
      rw [e, hx]
      exact (TransPc.phaseOk_of_running hp' ..).mpr hph
    · rw [(hne v e).2] at hv
      rw [(hne v e).1]
      exact hi.phase v r hv
  case history => rw [hh, hc]; exact hi.history
  case headers =>
    intro h hh'
    rw [hh]
    rcases hd h hh' with h1 | h1
    · exact hi.headers h h1
    · rw [h1, hph.1]; decide
  case snapshots =>
    intro v r S hv hS
    rw [hc]
    by_cases e : v = w
    · rw [e, ht] at hv; cases hv; exact hsn S hS
    · rw [(hne v e).2] at hv; exact hi.snapshots v r S hv hS
  case reading =>
    intro v hdr hv
    by_cases e : v = w
    · rw [e] at hv ⊢
      obtain ⟨h1, h2, h3⟩ := hr hdr hv
      obtain ⟨S, hS⟩ := Option.ne_none_iff_exists'.mp h2
      exact ⟨hd' hdr h1, tr', S, ht, hS, by rw [hx]; exact h3⟩
    · rw [(hne v e).1] at hv
      rw [(hne v e).2]
      obtain ⟨h1, h2⟩ := hi.reading v hdr hv
      exact ⟨hd' hdr h1, h2⟩
  case committing =>
    refine hi.committing_keep hne hh (fun e => ?_) (TransPc.not_publish_of_running hp)
    rw [e] at hp; cases hp
  case answers =>
    intro a ha'
    rw [hc]
    obtain ⟨h1, h2⟩ := (ha a ha').elim (hi.answers a) id
    exact ⟨h1, h2.congr (hkeep _)⟩

theorem TransInv.step_mark {s t : TransManager W} {w : W} {tr : Transaction} {v : Nat}
    (hi : TransInv s)
    (hne : ∀ v, v ≠ w → t.pc v = s.pc v ∧ t.transactions v = s.transactions v)
    (hs : s.transactions w = some tr) (ht : t.transactions w = some tr)
    (hv : v < s.csn ∧ v ≠ Frozen ∧ v ≠ Invalid) (hh : t.history = Function.update s.history tr.xid v)
    (hk : ∀ x, x ≠ tr.xid → t.xidToWorker x = s.xidToWorker x)
    (hp : (t.pc w).phaseOk s.csn v (t.xidToWorker tr.xid)) (hp' : ∀ h, t.pc w ≠ .readCsn h)
    (hm : v = Committing → t.pc w = .commitTake)
    (hcm : ∀ c, CommitSeqNumber.Min ≤ v ∧ v = c ∨ t.pc w = .commitPublish c ↔
      CommitSeqNumber.Min ≤ s.history tr.xid ∧ s.history tr.xid = c ∨ s.pc w = .commitPublish c)
    (hxid : t.xid = s.xid) (hc : t.csn = s.csn) (hd : t.headers = s.headers)
    (ha : t.answers = s.answers) : TransInv t := by
  obtain ⟨hxids, hone⟩ := hi.own hne hxid fun r hr => ⟨tr, hs, by rw [ht] at hr; cases hr; rfl⟩
  -- another worker's transaction is not the marked one
  have hother : ∀ u r, u ≠ w → s.transactions u = some r → r.xid ≠ tr.xid :=
    fun u r e hu he => e (hi.one u w r tr hu hs he)
  have hsame : ∀ {x}, x ≠ tr.xid → t.history x = s.history x := fun hx => by
    rw [hh, Function.update_of_ne hx]
  have hself : t.history tr.xid = v := by rw [hh, Function.update_self]
  have hcommits := commits_mark hi hne hs ht hh hcm
  constructor
  case min => rw [hc]; exact hi.min
  case fresh =>
    intro x hle
    rw [hxid] at hle
    rw [hsame (Nat.ne_of_gt (Nat.lt_of_lt_of_le (hi.xids w tr hs) hle))]
    exact hi.fresh x hle
  case xids => exact hxids
  case one => exact hone
  case phase =>
    intro u r hu
    rw [hc]
    by_cases e : u = w
    · rw [e, ht] at hu
      cases hu
      rw [e, hself]
      exact hp
    · rw [(hne u e).2] at hu
      have hx := hother u r e hu
      rw [(hne u e).1, hsame hx, hk _ hx]
      exact hi.phase u r hu
  case history =>
    intro x
    rw [hc]
    by_cases e : x = tr.xid
    · rw [e, hself]; exact ⟨hv.1, hv.2.1⟩
    · rw [hsame e]; exact hi.history x
  case headers =>
    intro h hh'
    rw [hd] at hh'
    by_cases e : h.xid = tr.xid
    · rw [e, hself]; exact hv.2.2
    · rw [hsame e]; exact hi.headers h hh'
  case snapshots =>
    intro u r S hu hS
    rw [hc]
    by_cases e : u = w
    · rw [e, ht] at hu; cases hu; exact hi.snapshots w tr S hs hS
    · rw [(hne u e).2] at hu; exact hi.snapshots u r S hu hS
  case reading =>
    intro u hdr hu
    by_cases e : u = w
    · rw [e] at hu; exact absurd hu (hp' hdr)
    · rw [(hne u e).1] at hu
      rw [hd, (hne u e).2]
      exact hi.reading u hdr hu
  case committing =>
    intro x hx'
    by_cases e : x = tr.xid
    · rw [e, hself] at hx'
      exact ⟨w, tr, ht, e.symm, .inl (hm hx')⟩
    · rw [hsame e] at hx'
      obtain ⟨u, r, hu, hux, hup⟩ := hi.committing x hx'
      have e' : u ≠ w := fun e' => by
        rw [e', hs] at hu; cases hu; exact e hux.symm
      exact ⟨u, r, by rw [(hne u e').2]; exact hu, hux, by rw [(hne u e').1]; exact hup⟩
  case answers =>
    rw [ha, hc]
    intro a ha
    obtain ⟨h1, h2⟩ := hi.answers a ha
    exact ⟨h1, h2.congr (hcommits _)⟩

omit [DecidableEq W] in
/-- The number taken now is not below a snapshot made before. -/
theorem Right.step_take {s t : TransManager W} {w : W} {a : VisibleAnswer}
    (hr : s.Right a) (hne : ∀ v, v ≠ w → t.pc v = s.pc v ∧ t.transactions v = s.transactions v)
    (hs : s.pc w = .commitTake) (ht : t.pc w = .commitPublish s.csn) (hh : t.history = s.history)
    (ha : a.snapshot.csn ≤ s.csn) : t.Right a := by
  intro hne'
  rw [hr hne']
  have hsame : ∀ u x c, u ≠ w → (t.Publishes u x c ↔ s.Publishes u x c) := fun u x c e => by
    simp only [Publishes, (hne u e).1, (hne u e).2]
  constructor
  · rintro ⟨c, hcm | ⟨u, hu⟩, hlt⟩
    · exact ⟨c, .inl (by rw [hh]; exact hcm), hlt⟩
    · have e : u ≠ w := fun e => by
        rw [e] at hu
        obtain ⟨r, _, _, hp⟩ := hu
        rw [hs] at hp
        cases hp
      exact ⟨c, .inr ⟨u, (hsame u _ c e).mpr hu⟩, hlt⟩
  · rintro ⟨c, hcm | ⟨u, hu⟩, hlt⟩
    · exact ⟨c, .inl (by rw [← hh]; exact hcm), hlt⟩
    · by_cases e : u = w
      · -- the number taken now is not below any snapshot
        rw [e] at hu
        obtain ⟨r, _, _, hp⟩ := hu
        rw [ht] at hp
        cases hp
        omega
      · exact ⟨c, .inr ⟨u, (hsame u _ c e).mp hu⟩, hlt⟩

theorem TransInv.step_take {s t : TransManager W} {w : W} (hi : TransInv s)
    (hne : ∀ v, v ≠ w → t.pc v = s.pc v ∧ t.transactions v = s.transactions v)
    (hs : s.pc w = .commitTake) (ht : t.pc w = .commitPublish s.csn) (hc : t.csn = s.csn + 1)
    (htr' : t.transactions w = s.transactions w) (hh : t.history = s.history)
    (hk : t.xidToWorker = s.xidToWorker) (hxid : t.xid = s.xid) (hd : t.headers = s.headers)
    (ha : t.answers = s.answers) : TransInv t := by
  obtain ⟨hxids, hone⟩ := hi.own hne hxid fun r hr => ⟨r, by rw [← htr']; exact hr, rfl⟩
  have hle : s.csn ≤ t.csn := by omega
  have htr : ∀ v, t.transactions v = s.transactions v := fun v => by
    by_cases e : v = w
    · rw [e]; exact htr'
    · exact (hne v e).2
  constructor
  case min => rw [hc]; exact Nat.le_succ_of_le hi.min
  case fresh => rw [hxid, hh]; exact hi.fresh
  case xids => exact hxids
  case one => exact hone
  case phase =>
    intro v r hv
    rw [hh, hk]
    rw [htr v] at hv
    by_cases e : v = w
    · rw [e] at hv ⊢
      have := hi.phase w r hv
      rw [hs] at this
      rw [ht]
      exact ⟨this.1, this.2, hi.min, by omega⟩
    · rw [(hne v e).1]
      exact TransPc.phaseOk_mono hle (hi.phase v r hv)
  case history =>
    intro x
    rw [hh]
    exact ⟨Nat.lt_of_lt_of_le (hi.history x).1 hle, (hi.history x).2⟩
  case headers => rw [hd, hh]; exact hi.headers
  case snapshots =>
    intro v r S hv hS
    rw [htr v] at hv
    exact Nat.le_trans (hi.snapshots v r S hv hS) hle
  case reading =>
    intro v hdr hv
    by_cases e : v = w
    · rw [e, ht] at hv; cases hv
    · rw [(hne v e).1] at hv
      rw [hd, htr v]
      exact hi.reading v hdr hv
  case committing =>
    intro x hx'
    rw [hh] at hx'
    obtain ⟨v, r, hv, hvx, hvp⟩ := hi.committing x hx'
    refine ⟨v, r, by rw [htr v]; exact hv, hvx, ?_⟩
    by_cases e : v = w
    · rw [e]; exact .inr ⟨_, ht⟩
    · rw [(hne v e).1]; exact hvp
  case answers =>
    rw [ha]
    intro a ha
    obtain ⟨h1, h2⟩ := hi.answers a ha
    exact ⟨Nat.le_trans h1 hle, h2.step_take hne hs ht hh h1⟩

theorem TransInv.step_finish {s t : TransManager W} {w : W} (hi : TransInv s)
    (hne : ∀ v, v ≠ w → t.pc v = s.pc v ∧ t.transactions v = s.transactions v)
    (hs : s.pc w = .abortEnd ∨ ∃ c, s.pc w = .commitEnd c) (hp : t.pc w = .idle)
    (ht : t.transactions w = none) (hh : t.history = s.history)
    (hk : t.xidToWorker = s.xidToWorker) (hxid : t.xid = s.xid) (hc : t.csn = s.csn)
    (hd : t.headers = s.headers) (ha : t.answers = s.answers) : TransInv t := by
  obtain ⟨hxids, hone⟩ := hi.own hne hxid fun r hr => by rw [ht] at hr; cases hr
  have hnp : ∀ c, s.pc w ≠ .commitPublish c := fun c e => by rw [e] at hs; simp at hs
  have hback : ∀ {v r}, t.transactions v = some r → v ≠ w ∧ s.transactions v = some r :=
    fun {v r} hv => by
      have e : v ≠ w := fun e => by rw [e, ht] at hv; cases hv
      exact ⟨e, by rw [← (hne v e).2]; exact hv⟩
  constructor
  case min => rw [hc]; exact hi.min
  case fresh => rw [hxid, hh]; exact hi.fresh
  case xids => exact hxids
  case one => exact hone
  case phase =>
    intro v r hv
    obtain ⟨e, hv⟩ := hback hv
    rw [hh, hk, hc, (hne v e).1]
    exact hi.phase v r hv
  case history => rw [hh, hc]; exact hi.history
  case headers => rw [hd, hh]; exact hi.headers
  case snapshots =>
    intro v r S hv hS
    rw [hc]
    exact hi.snapshots v r S (hback hv).2 hS
  case reading =>
    intro v hdr hv
    have e : v ≠ w := fun e => by rw [e, hp] at hv; cases hv
    rw [(hne v e).1] at hv
    rw [hd, (hne v e).2]
    exact hi.reading v hdr hv
  case committing =>
    refine hi.committing_keep hne hh (fun e => ?_) hnp
    rw [e] at hs; simp at hs
  case answers =>
    rw [ha, hc]
    intro a ha
    obtain ⟨h1, h2⟩ := hi.answers a ha
    exact ⟨h1, h2.congr (commits_keep hne hh hnp (by simp [hp]) _)⟩

theorem TransInv.step {s t : TransManager W} {a : W × TransOp} (hi : TransInv s)
    (hw : noWrap s a) (h : s.step a = some t) : TransInv t := by
  obtain ⟨w, op⟩ := a
  have hne := fun v (hv : v ≠ w) => step_ne h hv
  cases trans_effect hi hw h with
  | begin ht hp hp' hx hh hk hc hd ha => exact hi.step_begin hne ht hp hp' hx hh hk hc hd ha
  | run tr tr' hs ht hx hsn hp hp' hxid hh hk hc hd hd' hr ha =>
    exact hi.step_run hne hs ht hx hsn hp hp' hxid hh hk hc hd hd' hr ha
  | mark tr v hs ht hv hh hk hp hp' hm hcm hxid hc hd ha =>
    exact hi.step_mark hne hs ht hv hh hk hp hp' hm hcm hxid hc hd ha
  | take hs ht hc htr hh hk hxid hd ha => exact hi.step_take hne hs ht hc htr hh hk hxid hd ha
  | finish hs hp ht hh hk hxid hc hd ha => exact hi.step_finish hne hs hp ht hh hk hxid hc hd ha

/-! ## Runs -/

theorem inv_of_reach {s : TransManager W} (h : Reach TransManager.step noWrap init s) : TransInv s :=
  h.inv (fun _ _ _ hi hw h => hi.step hw h) .init

/-- Only a read that catches a committing transaction keeps the mutex. -/
theorem mutex_step {s t : TransManager W} {a : W × TransOp} (hi : s.mutex = 0) (hc : noCatch s a)
    (h : s.step a = some t) : t.mutex = 0 := by
  obtain ⟨w, op⟩ := a
  cases op with
  | run =>
    simp only [TransManager.step, Option.bind_eq_some_iff] at h
    obtain ⟨tr, -, h⟩ := h
    cases hp : s.pc w <;> rw [hp] at h <;> simp only [runPc, locked, eraseWorker] at h
    case readCsn header =>
      have hc : s.history header.xid ≠ Committing := by simpa [noCatch, hp] using hc
      simp only [if_neg hc] at h
      repeat' split at h
      all_goals cases h
      all_goals exact hi
    all_goals
      repeat' split at h
      all_goals cases h
      all_goals exact hi
  | _ =>
    simp only [TransManager.step] at h
    repeat' split at h
    all_goals cases h
    all_goals exact hi

/-- A call of `tuple_is_visible` under way in a transaction with a snapshot. -/
def Asks (s : TransManager W) (w : W) (reader : Nat) (snapshot : Snapshot)
    (header : HeapPageTupleHeader) : Prop :=
  s.pc w = .readCsn header ∧ ∃ tr, s.transactions w = some tr ∧ tr.xid = reader ∧
    tr.snapshot = some snapshot

/-- A run in which the call, and no other one, gets its answer. -/
def Answered (s : TransManager W) (w : W) (reader : Nat) (snapshot : Snapshot)
    (header : HeapPageTupleHeader) : Prop :=
  ∃ t b, Reach TransManager.step noCatch s t ∧ t.pc w = .idle ∧
    t.answers = ⟨reader, snapshot, header, b⟩ :: s.answers

theorem read_answered {s : TransManager W} (hm : s.mutex = 0) {w : W} {reader : Nat}
    {snapshot : Snapshot} {header : HeapPageTupleHeader} (ha : s.Asks w reader snapshot header)
    (hn : s.history header.xid ≠ Committing) : s.Answered w reader snapshot header := by
  obtain ⟨hp, tr, htr, rfl, hS⟩ := ha
  refine ⟨((s.check (s.history header.xid != Invalid)).answer ⟨tr.xid, snapshot, header,
    csnIsVisible snapshot (s.history header.xid)⟩).goto w .idle, _, .tail (w, .run) .refl ?_ ?_, ?_, rfl⟩
  · simp [noCatch, hp, hn]
  · simp only [TransManager.step, htr, Option.bind_some, runPc, hp, hS, hn, ite_false, locked, hm,
      ite_true]
  · simp

theorem publish_step {s : TransManager W} (hm : s.mutex = 0) {v : W} {tr : Transaction} {c : Nat}
    (htr : s.transactions v = some tr) (hp : s.pc v = .commitPublish c)
    (hk : s.xidToWorker tr.xid ≠ none) : s.step (v, .run) =
      some (((s.setHistory tr.xid c).setWorker tr.xid none).goto v (.commitEnd c)) := by
  simp only [TransManager.step, htr, Option.bind_some, runPc, hp, locked, hm, ite_true, eraseWorker,
    setHistory, hk, ite_false]

theorem publish_reach {s : TransManager W} (hi : TransInv s) (hm : s.mutex = 0) {x : Nat}
    (hx : s.history x = Committing) : ∃ t v, Reach TransManager.step noCatch s t ∧ t.mutex = 0 ∧
      t.answers = s.answers ∧ t.history x ≠ Committing ∧
      (∃ c, s.pc v = .commitTake ∨ s.pc v = .commitPublish c) ∧
      ∀ u, u ≠ v → t.pc u = s.pc u ∧ t.transactions u = s.transactions u := by
  obtain ⟨v, tr, htr, rfl, hp | ⟨c, hp⟩⟩ := hi.committing x hx
  · have hph := hi.phase v tr htr
    rw [hp] at hph
    have h1 : s.step (v, .run) =
        some ({ s with csn := (s.csn + 1) % counter }.goto v (.commitPublish s.csn)) := by
      simp only [TransManager.step, htr, Option.bind_some, runPc, hp]
    have h2 := publish_step (s := { s with csn := (s.csn + 1) % counter }.goto v (.commitPublish s.csn))
      hm (v := v) (c := s.csn) htr (by simp) hph.2
    refine ⟨_, v, .tail _ (.tail _ .refl (by simp [noCatch, hp]) h1) (by simp [noCatch]) h2, hm, rfl, ?_,
      ⟨0, .inl hp⟩, fun u hu => by simp [hu]⟩
    have := hi.min
    simp only [CommitSeqNumber.Min] at this
    simp only [goto, setWorker, setHistory, Function.update_self, Committing]
    omega
  · have hph := hi.phase v tr htr
    rw [hp] at hph
    refine ⟨_, v, .tail _ .refl (by simp [noCatch, hp]) (publish_step hm htr hp hph.2.1), hm, rfl, ?_,
      ⟨c, .inr hp⟩, fun u hu => by simp [hu]⟩
    have := hph.2.2.1
    simp only [CommitSeqNumber.Min] at this
    simp only [goto, setWorker, setHistory, Function.update_self, Committing]
    omega

theorem answered {s : TransManager W} (hi : TransInv s) (hm : s.mutex = 0) {w : W} {reader : Nat}
    {snapshot : Snapshot} {header : HeapPageTupleHeader} (ha : s.Asks w reader snapshot header) :
    s.Answered w reader snapshot header := by
  by_cases hx : s.history header.xid = Committing
  · obtain ⟨t, v, ht, hm', hans, hn, ⟨c, hv⟩, hne⟩ := publish_reach hi hm hx
    have e : w ≠ v := fun e => by rw [← e, ha.1] at hv; simp at hv
    have ha' : t.Asks w reader snapshot header :=
      ⟨by rw [(hne w e).1]; exact ha.1, by rw [(hne w e).2]; exact ha.2⟩
    obtain ⟨u, b, hu, hp, hans'⟩ := read_answered hm' ha' hn
    exact ⟨u, b, ht.trans hu, hp, by rw [hans', hans]⟩
  · exact read_answered hm ha hx

/-- What was answered is right in every later state. -/
theorem answers_right {s : TransManager W} (h : Reach TransManager.step noWrap init s) :
    ∀ a ∈ s.answers, s.Right a := fun a ha => ((inv_of_reach h).answers a ha).2

/-- Stability of snapshots in every run in which no read catches a committing transaction: what
was answered is right in every later state, answers to one question agree, and every call under
way can get its answer. -/
theorem snapshot_stable {s : TransManager W}
    (h : Reach TransManager.step (fun s a => noCatch s a ∧ noWrap s a) init s) :
    (∀ a ∈ s.answers, s.Right a) ∧
    (∀ a ∈ s.answers, ∀ b ∈ s.answers, a.header.xid ≠ a.reader → b.header.xid ≠ b.reader →
      a.snapshot.csn = b.snapshot.csn → a.header.xid = b.header.xid → a.visible = b.visible) ∧
    (∀ w reader snapshot header, s.Asks w reader snapshot header →
      s.Answered w reader snapshot header) := by
  have hw := h.mono fun _ _ hc => hc.2
  have hm : s.mutex = 0 :=
    (h.mono fun _ _ hc => hc.1).inv (fun _ _ _ hm hc h => mutex_step hm hc h) rfl
  refine ⟨answers_right hw, fun a ha b hb hna hnb hS hx => ?_,
    fun _ _ _ _ ha => answered (inv_of_reach hw) hm ha⟩
  have h1 := answers_right hw a ha hna
  have h2 := answers_right hw b hb hnb
  rw [hS, hx] at h1
  exact Bool.eq_iff_iff.mpr (h1.trans h2.symm)

theorem mutex_kept {s t : TransManager W} {a : W × TransOp} (hm : s.mutex ≠ 0) (h : s.step a = some t) :
    t.mutex = s.mutex := by
  obtain ⟨v, op⟩ := a
  cases op with
  | run =>
    simp only [TransManager.step, Option.bind_eq_some_iff] at h
    obtain ⟨tr, -, h⟩ := h
    cases hp : s.pc v <;> rw [hp] at h <;> simp only [runPc, locked, hm, ite_false] at h
    all_goals
      repeat' split at h
      all_goals cases h
      all_goals rfl
  | _ =>
    simp only [TransManager.step] at h
    repeat' split at h
    all_goals cases h
    all_goals rfl

/-- Once a share is lost, a call under way stays where it is. -/
theorem stuck_step {s t : TransManager W} {a : W × TransOp} {w : W} {header : HeapPageTupleHeader}
    (hs : s.mutex ≠ 0 ∧ s.pc w = .readCsn header) (h : s.step a = some t) :
    t.mutex ≠ 0 ∧ t.pc w = .readCsn header := by
  obtain ⟨hm, hp⟩ := hs
  have hmutex := mutex_kept hm h
  obtain ⟨v, op⟩ := a
  refine ⟨by rw [hmutex]; exact hm, ?_⟩
  by_cases e : w = v
  · subst e
    cases op with
    | run =>
      simp only [TransManager.step, Option.bind_eq_some_iff, hp, runPc, locked, hm, ite_false] at h
      obtain ⟨tr, -, h⟩ := h
      repeat' split at h
      all_goals cases h
    | _ => simp [TransManager.step, hp] at h
  · rw [(step_ne h e).1]; exact hp

theorem stuck {s t : TransManager W} {w : W} {header : HeapPageTupleHeader} (hm : s.mutex ≠ 0)
    (hp : s.pc w = .readCsn header) (h : Reach TransManager.step anyStep s t) :
    t.pc w = .readCsn header :=
  (h.inv (fun _ _ _ hs _ h => stuck_step hs h) ⟨hm, hp⟩).2

end

/-- The version that the first transaction writes in the two runs below. -/
def firstHeader : HeapPageTupleHeader := ⟨1, 1, ⟨false, false⟩⟩

/-- The second transaction asks about the first one before and after its commit, and once more. -/
def stableTrace : List (Fin 2 × TransOp) :=
  [(0, .beginNewTransaction), (0, .run), (0, .write 1 1 ⟨false, false⟩),
    (1, .beginNewTransaction), (1, .run), (1, .beginNewStatement),
    (1, .visible firstHeader), (1, .run),
    (0, .commit), (0, .run), (0, .run), (0, .run), (0, .run),
    (1, .beginNewStatement), (1, .visible firstHeader), (1, .run), (1, .visible firstHeader)]

theorem snapshot_stable_twice : ∃ s : TransManager (Fin 2),
    Reach TransManager.step (fun s a => noCatch s a ∧ noWrap s a) init s ∧
    s.answers = List.replicate 2 ⟨2, ⟨5, 0⟩, firstHeader, false⟩ ∧
    (∀ a ∈ s.answers, s.Right a) ∧ s.Answered 1 2 ⟨5, 0⟩ firstHeader := by
  have h : (exec (guarded (fun s a => noCatch s a ∧ noWrap s a) TransManager.step) init stableTrace).map
      (fun s => decide (s.answers = List.replicate 2 ⟨2, ⟨5, 0⟩, firstHeader, false⟩ ∧
        s.pc 1 = .readCsn firstHeader ∧ s.transactions 1 = some ⟨2, .RUNNING, some ⟨5, 0⟩, none⟩)) =
      some true := by decide +kernel
  obtain ⟨s, hr, hs⟩ := reach_of_test h
  obtain ⟨h1, h2, h3⟩ := of_decide_eq_true hs
  have hst := snapshot_stable hr.of_guarded
  exact ⟨s, hr.of_guarded, h1, hst.1, hst.2.2 1 2 ⟨5, 0⟩ firstHeader ⟨h2, _, h3, rfl, rfl⟩⟩

/-- The second transaction asks while the first one is between its mark and its number. -/
def caughtTrace : List (Fin 2 × TransOp) :=
  [(0, .beginNewTransaction), (0, .run), (0, .write 1 1 ⟨false, false⟩), (0, .commit), (0, .run),
    (1, .beginNewTransaction), (1, .run), (1, .beginNewStatement),
    (1, .visible firstHeader), (1, .run)]

theorem call_never_answered : ∃ s : TransManager (Fin 2), Reach TransManager.step anyStep init s ∧
    s.Asks 1 2 ⟨5, 0⟩ firstHeader ∧
    ∀ t, Reach TransManager.step anyStep s t → t.pc 1 = .readCsn firstHeader := by
  have h : (exec TransManager.step init caughtTrace).map (fun s => decide
      (s.mutex ≠ 0 ∧ s.pc 1 = .readCsn firstHeader ∧
        s.transactions 1 = some ⟨2, .RUNNING, some ⟨5, 0⟩, none⟩)) = some true := by decide +kernel
  obtain ⟨s, hr, hs⟩ := reach_of_test h
  obtain ⟨h1, h2, h3⟩ := of_decide_eq_true hs
  exact ⟨s, hr, ⟨h2, _, h3, rfl, rfl⟩, fun t ht => stuck h1 h2 ht⟩

end TransManager

end Mimidb
