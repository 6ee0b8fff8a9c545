import Mimidb.HandlerSound

/-!
# The transaction of a session

What `MyTransaction` points to, the slot of the worker and `_xidToWorker`
agree between all requests. `COMMIT` is the one command that does not look
whether there is a transaction: a session uses a transaction that is not there
exactly if it sends `COMMIT` without one (`stateful_iff`).
-/

namespace Mimidb

namespace Session

open Fallible

variable {γ : Type}

/-- The transaction is there. -/
def Has (s : Session γ) : Prop := s.Linked ∧ s.transaction.isSome = true

def isCommit : Request γ → Bool
  | .query (.ok (.transaction .Commit)) => true
  | _ => false

/-- Every `COMMIT` comes with a transaction. -/
def CommitsOwn (qs : List (Request γ × RequestEnv)) : Prop :=
  ∀ before q after, qs = before ++ q :: after → ∀ s, handleLoop before init = (.ok (), s) → isCommit q.1 = true →
    s.transaction.isSome = true

/-- Everything but the packets that were sent. -/
def SameState (s t : Session γ) : Prop :=
  ∃ (env : RequestEnv) (sent : List Reply), t = { s with env := env, trace := sent.map .sent ++ s.trace }

/-- The command ends a transaction. -/
def endsTransaction : Request γ → Bool
  | .query (.ok (.transaction .Commit)) | .query (.ok (.transaction .Rollback)) => true
  | _ => false

/-- A transaction command without a transaction is answered with an error, and changes nothing. -/
def Refused (q : Request γ × RequestEnv) (s : Session γ) : Prop :=
  SameState s ((handlePacket q).exec s) ∧
    ∀ t, handlePacket q s = (.ok (), t) → ∃ what, t.trace = .sent (.errorResponse what) :: s.trace

/-- No transaction is used that is not there, commands without one are refused, and between two
requests the tables agree on the transaction. -/
structure Stateful (qs : List (Request γ × RequestEnv)) : Prop where
  used : ∀ before after, qs = before ++ after → (handleLoop before init).1 ≠ .error .nullTransaction
  refused :
    ∀ before q after, qs = before ++ q :: after → ∀ s, handleLoop before init = (.ok (), s) → s.transaction = none →
    endsTransaction q.1 = true → Refused q s
  linked : ∀ before after, qs = before ++ after → ((handleLoop before).exec init).Linked

/-! ## Every request keeps the tables together -/

theorem linked_kept : Kept (Linked (γ := γ)) where
  send := linked_steady.send
  begins := start_maintains fun _ hs h => h.begin hs _
  commits := commit_maintains (fun _ h => h) fun _ _ htr h => h.ended htr _ _
  aborts := abort_maintains (fun _ h => h) fun _ _ htr h => h.ended htr _ _
  statement := linked_steady.beginNewStatement
  change c := withTransaction_maintains fun _ _ htr h => changed_linked h htr c
  status := linked_steady.setStatus

theorem linked_handleLoop (qs : List (Request γ × RequestEnv)) :
    ((handleLoop qs).exec (init : Session γ)).Linked := by
  have hpacket : ∀ q : Request γ × RequestEnv, Maintains Linked (handlePacket q) := fun q =>
    .bind (.modify fun s h => linked_steady.send s q.2 s.trace h) fun _ => linked_kept.handleRequest q.1
  exact (Maintains.forM hpacket qs).exec Linked.init

/-! ## Programs that use what is there -/

/-- The program keeps `I` and uses no transaction that is not there. -/
def Careful (I : Session γ → Prop) (m : HandlerM γ Unit) : Prop :=
  Spec I m (fun _ => I) fun e s => I s ∧ e ≠ .nullTransaction

namespace Careful

variable {I J : Session γ → Prop} {m n : HandlerM γ Unit}

theorem bind (hm : Careful I m) (hn : Careful I n) : Careful I (m >>= fun _ => n) := Spec.bind hm fun _ => hn

theorem pure : Careful I (Pure.pure ()) := Spec.pure fun _ => id

theorem throws {what : String} : Careful I (throw (.threw what)) := Spec.throw fun _ h => ⟨h, nofun⟩

theorem outcome (what : Option String) : Careful I (outcome what) := by
  cases what with
  | none => exact pure
  | some what => exact throws

theorem sendPacket (h : Steady I) (reply : Reply) : Careful I (sendPacket reply) := by
  refine Spec.getBind fun s hs => ?_
  split
  next what sends he =>
    refine Spec.bind (R := fun _ => I) (Spec.modify fun t e => ?_) fun _ => throws
    subst e
    exact h.send t _ t.trace hs
  next =>
    refine Spec.modify fun t e => ?_
    subst e
    exact h.send t _ _ hs

theorem forM {α : Type} {f : α → HandlerM γ Unit} (h : ∀ a, Careful I (f a)) (l : List α) :
    Careful I (l.forM f) := by
  induction l with
  | nil => exact pure
  | cons a l ih => exact bind (h a) ih

theorem whenSelect {tag : CommandTag} (h : Careful I m) : Careful I (whenSelect tag m) :=
  Spec.ite (fun _ => h) fun _ => pure

end Careful

theorem has_steady : Steady (Has (γ := γ)) where
  send s env trace h := ⟨linked_steady.send s env trace h.1, h.2⟩
  statement s tr tr' htr hx hst h := ⟨linked_steady.statement s tr tr' htr hx hst h.1, rfl⟩

theorem has_withTransaction {f : Transaction → Session γ → Session γ}
    (h : ∀ s tr, s.transaction = some tr → Has s → Has (f tr s)) :
    Careful Has (withTransaction fun tr => modify (f tr)) := by
  refine withTransaction_spec (fun s tr htr hs => .modify fun t e => ?_) fun s htr hs => ?_
  · subst e
    exact h t tr htr hs
  · rw [Has, htr] at hs
    exact absurd hs.2 nofun

theorem has_execPlan (plan : Plan γ) : Careful Has (execPlan plan) := by
  have hstatement : Careful Has (beginNewStatement (γ := γ)) :=
    has_withTransaction fun s tr htr h => has_steady.statement s tr _ htr (by simp) (by simp) h
  have hchange : ∀ c : γ, Careful Has (change c) := fun c =>
    has_withTransaction fun s tr htr h => ⟨changed_linked h.1 htr c, rfl⟩
  refine hstatement.bind (.bind (.outcome _) ?_)
  refine .bind (.whenSelect (.sendPacket has_steady _)) (.bind (.outcome _) ?_)
  refine .bind (.forM hchange _) (.bind (.whenSelect (.forM (fun _ => .sendPacket has_steady _) _)) ?_)
  exact .bind (.outcome _) (.bind (.outcome _) (.sendPacket has_steady _))

theorem has_finish {m : HandlerM γ Unit} {f : Session γ → Option String} {v csn : Session γ → Nat}
    (hm : ∀ s tr, s.transaction = some tr → s.Linked → m s = match f s with
      | some what => (.error (.threw what), s)
      | none => (.ok (), s.ended tr.xid (v s) (csn s))) :
    Spec Has m (fun _ s => s.Linked ∧ s.transaction = none) fun e s => Has s ∧ e ≠ .nullTransaction := by
  intro s hs
  obtain ⟨tr, htr⟩ := Option.isSome_iff_exists.1 hs.2
  rw [hm s tr htr hs.1]
  cases f s with
  | some what => exact ⟨hs, nofun⟩
  | none => exact ⟨hs.1.ended htr _ _, rfl⟩

theorem has_commit : Spec (Has (γ := γ)) commitTransaction (fun _ s => s.Linked ∧ s.transaction = none)
    fun e s => Has s ∧ e ≠ .nullTransaction :=
      has_finish (f := fun _ => none) fun _ _ htr hl => commitTransaction_eq hl htr

theorem has_abort : Spec (Has (γ := γ)) abortTransaction (fun _ s => s.Linked ∧ s.transaction = none)
    fun e s => Has s ∧ e ≠ .nullTransaction := has_finish fun _ _ htr hl => abortTransaction_eq hl htr

theorem linked_start : Spec (Linked (γ := γ)) startNewTransactionCommand (fun _ => Has) fun e s => s.Linked ∧
    e ≠ .nullTransaction := by
  refine .getBind fun s hs => ?_
  cases htr : s.transaction with
  | some tr => exact .pure fun _ e => e ▸ ⟨hs, by rw [htr]; rfl⟩
  | none =>
    refine .getBind fun s' e => ?_
    refine .bind (R := fun _ t => t = s) ?_ fun _ => .modify fun t e => e ▸ ⟨hs.begin htr _, rfl⟩
    cases s'.env.begins with
    | none => exact .pure fun _ e' => e'.trans e
    | some what => exact .throw fun _ e' => ⟨e'.trans e ▸ hs, nofun⟩

theorem linked_abortCommand : Careful (Linked (γ := γ)) abortTransactionCommand := by
  refine Spec.getBind fun s hs => ?_
  split
  next h => exact has_abort.conseq (fun _ e => e ▸ ⟨hs, h⟩) (fun _ _ h => h.1) fun _ _ h => ⟨h.1.1, h.2⟩
  next => exact Spec.throw fun _ e => ⟨e ▸ hs, nofun⟩

theorem linked_guardAbort {e : HandlerFault} (he : e ≠ .nullTransaction) :
    Careful (Linked (γ := γ)) (guardAbort e) := by
  cases e with
  | terminated => exact Spec.throw fun _ h => ⟨h, nofun⟩
  | nullTransaction => exact absurd rfl he
  | threw what =>
    refine Careful.bind (Spec.tryCatch linked_abortCommand fun e => ?_) .throws
    cases e with
    | nullTransaction => exact fun _ h => absurd rfl h.2
    | _ => exact Spec.throw fun _ h => ⟨h.1, nofun⟩

theorem linked_handleError {e : HandlerFault} (he : e ≠ .nullTransaction) :
    Careful (Linked (γ := γ)) (handleError e) := by
  cases e with
  | terminated => exact Spec.throw fun _ h => ⟨h, nofun⟩
  | nullTransaction => exact absurd rfl he
  | threw what =>
    refine (Careful.sendPacket linked_steady _).bind ?_
    exact fun s hs => linked_steady.setStatus s hs

/-! ## One request -/

theorem linked_execPlannableQuery (parsed : Except String (Plan γ)) :
    Careful (Linked (γ := γ)) (execPlannableQuery parsed) := by
  cases parsed with
  | error what => exact .throws
  | ok plan =>
    have hrun : Spec Has (execPlan plan) (fun _ s => Has s) fun e s => s.Linked ∧ e ≠ .nullTransaction :=
      (has_execPlan plan).conseq (fun _ => id) (fun _ _ => id) fun _ _ h => ⟨h.1.1, h.2⟩
    refine Spec.getBind fun s hs => Spec.ite (fun h => ?_) fun _ => ?_
    · exact hrun.conseq (fun _ e => e ▸ ⟨hs, h⟩) (fun _ _ h => h.1) fun _ _ h => h
    · refine Spec.bind (linked_start.conseq (fun _ e => e ▸ hs) (fun _ _ => id) fun _ _ => id) fun _ => ?_
      have hcommit :
        Spec Has (commitTransactionCommand (γ := γ)) (fun _ => Linked) fun e s => s.Linked ∧ e ≠ .nullTransaction :=
        has_commit.conseq (fun _ => id) (fun _ _ h => h.1) fun _ _ h => ⟨h.1.1, h.2⟩
      refine Spec.tryCatch (Spec.bind hrun fun _ => hcommit) fun e s h => ?_
      exact linked_guardAbort h.2 s h.1

theorem linked_handlePacket (q : Request γ × RequestEnv) :
    Spec (fun s => s.Linked ∧ (isCommit q.1 = true → s.transaction.isSome = true)) (handlePacket q)
      (fun _ => Linked) fun e s => s.Linked ∧ e ≠ .nullTransaction := by
  obtain ⟨r, env⟩ := q
  have hstep : ∀ {m : HandlerM γ Unit}, Careful Linked m →
      Careful Linked (do modify fun s => { s with env := env }; tryCatch m handleError) := fun hm =>
    .bind (Spec.modify fun s h => linked_steady.send s env s.trace h)
      (Spec.tryCatch hm fun e s h => linked_handleError h.2 s h.1)
  have hleft : ∀ {m : HandlerM γ Unit}, Careful Linked m → Spec
      (fun s => s.Linked ∧ (isCommit r = true → s.transaction.isSome = true)) m (fun _ => Linked)
        fun e s => s.Linked ∧ e ≠ .nullTransaction :=
          fun hm => hm.conseq (fun _ h => h.1) (fun _ _ => id) fun _ _ => id
  have hsend : ∀ reply, Careful Linked (sendPacket (γ := γ) reply) := .sendPacket linked_steady
  match r with
  | .other type =>
    exact hleft (.bind (Spec.modify fun s h => linked_steady.send s env s.trace h) (hsend _))
  | .query (.error what) => exact hleft (hstep .throws)
  | .query (.ok (.unsupported type)) => exact hleft (hstep (hsend _))
  | .query (.ok (.plannable plan)) => exact hleft (hstep (linked_execPlannableQuery plan))
  | .query (.ok (.transaction .Rollback)) => exact hleft (hstep (.bind linked_abortCommand (hsend _)))
  | .query (.ok (.transaction .Begin)) =>
    refine hleft
      (hstep (Spec.bind (linked_start.conseq (fun _ => id) (fun _ _ h => h.1) fun _ _ => id) fun _ => hsend _))
  | .query (.ok (.transaction .Commit)) =>
    refine Spec.bind (R := fun _ => Has) (Spec.modify fun s h => ⟨linked_steady.send s env s.trace h.1, h.2 rfl⟩)
      fun _ => ?_
    refine Spec.tryCatch (Spec.bind (has_commit.conseq (fun _ => id) (fun _ _ h => h.1) fun _ _ h => ⟨h.1.1, h.2⟩)
      fun _ => hsend _) fun e s h => linked_handleError h.2 s h.1

/-! ## Whole sessions -/

theorem linked_reached {qs : List (Request γ × RequestEnv)} {s : Session γ} (h : handleLoop qs init = (.ok (), s)) :
    s.Linked := by
  have hl := linked_handleLoop qs
  rwa [Fallible.exec, h] at hl

theorem handleLoop_snoc {qs : List (Request γ × RequestEnv)} {q : Request γ × RequestEnv} {s t : Session γ}
    (hs : handleLoop qs init = (.ok (), s)) (ht : handlePacket q s = (.ok (), t)) :
    handleLoop (qs ++ [q]) init = (.ok (), t) := by
  rw [handleLoop_append hs]
  exact (bind_ok ht).trans rfl

/-- While every `COMMIT` has its transaction, no request of the rest is a fault. -/
theorem used_of_commitsOwn (before : List (Request γ × RequestEnv)) {rest after : List (Request γ × RequestEnv)}
    {s : Session γ} (h : CommitsOwn (before ++ rest ++ after)) (hs : handleLoop before init = (.ok (), s)) :
    (handleLoop rest s).1 ≠ .error .nullTransaction := by
  induction rest generalizing before s with
  | nil => exact nofun
  | cons q rest ih =>
    have hown : isCommit q.1 = true → s.transaction.isSome = true := h before q (rest ++ after) (by simp) s hs
    have hq := linked_handlePacket q s ⟨linked_reached hs, hown⟩
    show ((handlePacket q >>= fun _ => handleLoop rest) s).1 ≠ _
    rcases hr : handlePacket q s with ⟨e | u, t⟩
    · rw [hr] at hq
      rw [bind_error hr]
      exact fun e => hq.2 (by injection e)
    · rw [bind_ok hr]
      exact ih (before ++ [q]) (by simpa using h) (handleLoop_snoc hs hr)

theorem sendPacket_cases (reply : Reply) (s : Session γ) :
    (∃ what env, sendPacket reply s = (.error (.threw what), { s with env := env })) ∨
      ∃ env, sendPacket reply s = (.ok (), { s with env := env, trace := .sent reply :: s.trace }) := by
  unfold sendPacket
  simp only [bind_apply, get_apply]
  match s.env.sends with
  | some what :: sends => exact .inl ⟨what, _, rfl⟩
  | [] | none :: _ => exact .inr ⟨_, rfl⟩

theorem rollback_refused {env : RequestEnv} {s : Session γ} (h : s.transaction = none) :
    Refused (.query (.ok (.transaction .Rollback)), env) s := by
  have hrun : handlePacket (.query (.ok (.transaction .Rollback)), env) s =
      handleError (.threw "There is no transaction") { s with env := env } := by
    unfold handlePacket handleRequest execQuery execStatement execTclQuery handleRollback abortTransactionCommand
    simp [bind_apply, tryCatch_apply, h]
  unfold Refused Fallible.exec
  rw [hrun]
  unfold handleError
  dsimp only
  rcases sendPacket_cases (.errorResponse "There is no transaction")
    { s with env := env } with ⟨what, env', e⟩ | ⟨env', e⟩
  · rw [bind_error e]
    exact ⟨⟨env', [], rfl⟩, nofun⟩
  · have hstatus : (s.transaction.map fun tr => { tr with status := .ABORTED }) = s.transaction := by rw [h]; rfl
    rw [bind_ok e]
    unfold setStatus
    rw [modify_apply, hstatus]
    refine ⟨⟨env', [_], rfl⟩, fun t ht => ⟨"There is no transaction", ?_⟩⟩
    injection ht with _ ht
    rw [← ht]

/-- A session uses no transaction that is not there exactly if each `COMMIT` has one. -/
theorem stateful_iff (qs : List (Request γ × RequestEnv)) : Stateful qs ↔ CommitsOwn qs := by
  constructor
  · intro h before q after e s hs hq
    subst e
    by_contra hn
    rw [Bool.not_eq_true, Option.isSome_eq_false_iff, Option.isNone_iff_eq_none] at hn
    refine h.used (before ++ [q]) after (by simp) ?_
    obtain ⟨r, env⟩ := q
    match r, hq with
    | .query (.ok (.transaction .Commit)), _ =>
      rw [handleLoop_append hs, handleLoop_cons]
      have hl : Linked { s with env := env } := linked_steady.send s env s.trace (linked_reached hs)
      unfold handleRequest execQuery execStatement execTclQuery handleCommit commitTransactionCommand
      simp only [tryCatch_apply, bind_apply, commitTransaction_none hl hn, handleError, throw_apply]
  · intro h
    refine ⟨fun before after e => ?_, fun before q after e s hs hn hq => ?_,
      fun before after _ => linked_handleLoop before⟩
    · subst e
      exact used_of_commitsOwn [] h rfl
    · obtain ⟨r, env⟩ := q
      match r, hq with
      | .query (.ok (.transaction .Commit)), _ =>
        have := h before _ after e s hs rfl
        rw [hn] at this
        cases this
      | .query (.ok (.transaction .Rollback)), _ => exact rollback_refused hn

/-- `COMMIT` as the first query. -/
theorem bareCommit_faults :
    ¬ Stateful [((.query (.ok (.transaction .Commit)) : Request Unit), ⟨[], none, none, none⟩)] := by
  intro h
  exact h.used _ [] (List.append_nil _).symm rfl

end Session

end Mimidb
