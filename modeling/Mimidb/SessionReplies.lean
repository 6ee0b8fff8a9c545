import Mimidb.QueryReplies

/-!
# What the client can read

The replies to a query are one answer unless its transaction is missing or the
undo of a failed statement fails. A statement that begins its own transaction
and commits has one answer too.
-/

namespace Mimidb

namespace Session

open Fallible

variable {γ : Type} {base : List Event} {env : RequestEnv} {s t : Session γ}

/-- `COMMIT` has its transaction, and a failed statement without one can be undone. -/
def inStep (s : Session γ) : Request γ × RequestEnv → Bool
  | (.query (.ok (.transaction .Commit)), _) => s.transaction.isSome
  | (.query (.ok (.plannable (.ok plan))), env) =>
    s.transaction.isSome || env.begins.isSome || (!fails plan || env.undo.isNone)
  | _ => true

/-! ## One answer -/

/-- The replies since `base` are one answer. -/
def Replied (base : List Event) (t : Session γ) : Prop :=
  ∃ events : List Event, t.trace = events.reverse ++ base ∧ IsAnswer (events.filterMap replyOf)

theorem Replied.of_done {complete : Prop} (h : Done base complete t) : Replied base t := by
  obtain ⟨attrs, rows, ends, last, hdone⟩ := h
  refine ⟨_, hdone.trace, attrs, rows, last, ?_, hdone.terminal⟩
  simp [endings, List.filterMap_append, List.filterMap_map, Function.comp_def, replyOf]

theorem replied_implicit (plan : Plan γ) (h : (env.begins.isSome || (!fails plan || env.undo.isNone)) = true) :
    Spec (Midway base env none []) (withImplicitTransaction (execPlan plan)) (fun _ => Replied base)
      (Failing base env) := by
  cases hfails : fails plan with
  | true =>
    rw [hfails, Bool.not_true, Bool.false_or] at h
    have hdone : Spec (Midway base env none []) (withImplicitTransaction (execPlan plan)) (fun _ => Done base True)
      (Failing base env) :=
      done_implicit plan (by rwa [hfails, Bool.true_and])
    exact hdone.conseq (fun _ => id) (fun _ _ => .of_done) fun _ _ => id
  | false =>
    refine .getBind fun s hs => ?_
    have htr : s.transaction = none := Option.map_eq_none_iff.1 hs.current
    rw [htr, if_neg (by simp)]
    refine .bind (R := fun _ s => ∃ n, Midway base env (some n) [] s) ?_ fun _ => ?_
    · exact Midway.start.conseq (fun _ e => e ▸ hs) (fun _ _ h => h.1) fun _ _ h => .here h.1 h.2.2
    · refine spec_exists fun n => .tryCatch (R := fun _ _ => False)
        (.bind (R := fun _ s => ∃ attrs rows, Midway base env (some n)
        ((opening attrs rows ++ [Reply.commandComplete (cmdTagToString plan.tag) plan.rowsProcessed]).map .sent) s)
          ?_ fun _ => ?_)
        fun _ => .of_false
      · refine (execPlan_spec plan).conseq (fun _ => id) (fun _ _ h => h.2) fun _ _ h => ?_
        rw [hfails] at h
        cases h.1.1
      · refine spec_exists fun attrs => spec_exists fun rows => Midway.commit.conseq (fun _ => id)
          (fun _ s hs => ?_) fun _ _ => id
        obtain ⟨csn, hs⟩ := hs
        refine ⟨_, hs.trace, attrs, rows, .commandComplete (cmdTagToString plan.tag) plan.rowsProcessed, ?_, rfl⟩
        simp [List.filterMap_map, Function.comp_def, replyOf]

theorem replied_execQuery (parsed : Except String (Statement γ)) (h : inStep s (.query parsed, env) = true) :
    Spec (Midway base env (s.transaction.map (·.xid)) []) (execQuery parsed) (fun _ => Replied base)
      (Failing base env) := by
  have hdone : ∀ parsed : Except String (Statement γ), answerable s (.query parsed, env) = true →
      Spec (Midway base env (s.transaction.map (·.xid)) []) (execQuery parsed) (fun _ => Replied base)
        (Failing base env) := fun parsed h =>
    (done_execQuery parsed h).conseq (fun _ => id) (fun _ _ => .of_done) fun _ _ => id
  match parsed with
  | .error what => exact hdone _ rfl
  | .ok (.unsupported type) => exact hdone _ rfl
  | .ok (.transaction .Begin) => exact hdone _ rfl
  | .ok (.transaction .Rollback) => exact hdone _ rfl
  | .ok (.transaction .Commit) => exact hdone _ h
  | .ok (.plannable (.error what)) => exact hdone _ rfl
  | .ok (.plannable (.ok plan)) =>
    cases htr : s.transaction with
    | some tr =>
      rw [← htr]
      exact hdone _ (by simp [answerable, htr])
    | none =>
      simp only [inStep, htr, Option.isSome_none, Bool.false_or] at h
      exact replied_implicit plan h

theorem replied {parsed : Except String (Statement γ)} (hl : s.Linked) (hq : ∀ what ∈ env.sends, what = none)
    (h : inStep s (.query parsed, env) = true) :
    ∃ t, handlePacket (.query parsed, env) s = (.ok (), t) ∧ t.Linked ∧
    IsAnswer ((eventsOf (.query parsed, env) s).filterMap replyOf) := by
  have hrun :
      Spec (fun t => t = s) (handlePacket (.query parsed, env)) (fun _ => Replied s.trace) fun _ _ => False := by
    refine .bind (.modify fun t e => e ▸ midway_start hl hq rfl) fun _ => .tryCatch (replied_execQuery parsed h)
      fun e t hfail => ?_
    obtain ⟨⟨w, hw⟩, x, attrs, rows, ends, ht, -⟩ := hfail
    subst hw
    refine (Midway.error w).conseq (fun _ => id) (fun _ u hu => ?_) (fun _ _ => id) t ht
    refine ⟨_, hu.trace, attrs, rows, .errorResponse w, ?_, rfl⟩
    simp [endings, List.filterMap_append, List.filterMap_map, Function.comp_def, replyOf]
  have hlinked : Maintains (Linked (γ := γ)) (handlePacket (.query parsed, env)) :=
    .bind (.modify fun s h => linked_steady.send s env s.trace h) fun _ => linked_kept.handleRequest _
  rcases hr : handlePacket (.query parsed, env) s with ⟨e | u, t⟩
  · exact (hrun.error rfl hr).elim
  · obtain ⟨events, htrace, hanswer⟩ := hrun.ok rfl hr
    refine ⟨t, rfl, hlinked.ok hl hr, ?_⟩
    have hexec : ((handlePacket (.query parsed, env)).exec s).trace = events.reverse ++ s.trace := by
      unfold Fallible.exec
      rw [hr]
      exact htrace
    rwa [eventsOf_eq hexec]

/-! ## What is said -/

/-- What every request keeps whose replies are `ok`. -/
structure Speaks (ok : Reply → Prop) (I : Session γ → Prop) : Prop where
  send : ∀ reply, ok reply → Maintains I (sendPacket reply)
  begins : Maintains I startNewTransactionCommand
  commits : Maintains I commitTransaction
  aborts : Maintains I abortTransaction
  statement : Maintains I beginNewStatement
  change : ∀ c, Maintains I (change c)
  status : Maintains I (setStatus .ABORTED)

/-- The last packet of an answer is `ok`, and so are the description and these rows. -/
structure Says (ok : Reply → Prop) (rows : List (List (Option String))) : Prop where
  terminal : ∀ reply, isTerminal reply = true → ok reply
  description : ok (.tupleDescription ["a", "b"])
  row : ∀ row ∈ rows, ok (.dataRow row)

/-- The rows that a request sends. -/
def rowsOf : Request γ → List (List (Option String))
  | .query (.ok (.plannable (.ok plan))) => plan.rows
  | _ => []

section
variable {ok : Reply → Prop} {I : Session γ → Prop} {rows : List (List (Option String))}

theorem forM_maintains {α : Type} {f : α → HandlerM γ Unit} (l : List α) (h : ∀ a ∈ l, Maintains I (f a)) :
    Maintains I (l.forM f) := by
  induction l with
  | nil => exact .pure
  | cons a l ih => exact .bind (h a List.mem_cons_self) fun _ => ih fun b hb => h b (List.mem_cons_of_mem _ hb)

theorem Speaks.abortCommand (h : Speaks ok I) : Maintains I abortTransactionCommand :=
  .bind .get fun _ => .ite (fun _ => h.aborts) fun _ => .throw

theorem Speaks.guardAbort (h : Speaks ok I) (e : HandlerFault) : Maintains I (guardAbort e) := by
  cases e with
  | terminated => exact .throw
  | nullTransaction => exact .throw
  | threw what => exact .bind (.tryCatch h.abortCommand fun e => by cases e <;> exact .throw) fun _ => .throw

theorem Speaks.execPlan (h : Speaks ok I) (plan : Plan γ) (hok : Says ok plan.rows) :
    Maintains I (execPlan plan) := by
  refine .bind h.statement fun _ => .bind (outcome_maintains _) fun _ => ?_
  refine .bind (whenSelect_maintains (h.send _ hok.description)) fun _ => ?_
  refine .bind (outcome_maintains _) fun _ => .bind (.forM h.change _) fun _ => ?_
  refine .bind (whenSelect_maintains (forM_maintains _ fun row hrow => h.send _ (hok.row row hrow))) fun _ => ?_
  exact .bind (outcome_maintains _) fun _ => .bind (outcome_maintains _) fun _ => h.send _ (hok.terminal _ rfl)

theorem Speaks.execQuery (h : Speaks ok I) (parsed : Except String (Statement γ))
    (hok : Says ok (rowsOf (.query parsed))) :
    Maintains I (execQuery parsed) := by
  have hsend : ∀ reply, isTerminal reply = true → Maintains I (sendPacket reply) :=
    fun reply hr => h.send reply (hok.terminal reply hr)
  match parsed with
  | .error _ => exact .throw
  | .ok (.transaction .Begin) => exact .bind h.begins fun _ => hsend _ rfl
  | .ok (.transaction .Rollback) => exact .bind h.abortCommand fun _ => hsend _ rfl
  | .ok (.transaction .Commit) => exact .bind h.commits fun _ => hsend _ rfl
  | .ok (.plannable (.error _)) => exact .throw
  | .ok (.unsupported _) => exact hsend _ rfl
  | .ok (.plannable (.ok plan)) =>
    refine .bind .get fun _ => .ite (fun _ => h.execPlan plan hok) fun _ => .bind h.begins fun _ => ?_
    exact .tryCatch (.bind (h.execPlan plan hok) fun _ => h.commits) h.guardAbort

theorem Speaks.handleRequest (h : Speaks ok I) (r : Request γ) (hok : Says ok (rowsOf r)) :
    Maintains I (handleRequest r) := by
  cases r with
  | other type => exact h.send _ (hok.terminal _ rfl)
  | query parsed =>
    refine .tryCatch (h.execQuery parsed hok) fun e => ?_
    cases e with
    | terminated => exact .throw
    | nullTransaction => exact .throw
    | threw what => exact .bind (h.send _ (hok.terminal _ rfl)) fun _ => h.status

/-- Since `base` only what is `ok` was sent. -/
def Saying (ok : Reply → Prop) (base : List Event) (s : Session γ) : Prop :=
  s.Linked ∧ ∃ new, s.trace = new ++ base ∧ ∀ reply, .sent reply ∈ new → ok reply

theorem Saying.of_trace (h : Saying ok base s) (hl : t.Linked) (htrace : t.trace = s.trace) : Saying ok base t := by
  obtain ⟨-, new, hnew, hok⟩ := h
  exact ⟨hl, new, htrace.trans hnew, hok⟩

theorem Saying.ended (h : Saying ok base s) {tr : Transaction} (htr : s.transaction = some tr) (v csn : Nat) :
    Saying ok base (s.ended tr.xid v csn) := by
  obtain ⟨hl, new, hnew, hok⟩ := h
  refine ⟨hl.ended htr v csn, .ended tr.xid v :: new, ?_, fun reply hr => hok reply (by simpa using hr)⟩
  rw [List.cons_append, ← hnew]
  rfl

theorem saying_speaks : Speaks ok (Saying (γ := γ) ok base) where
  send reply hreply := by
    refine .getBind fun s hs => ?_
    split
    · refine .bind (R := fun _ => Saying ok base) (.modify fun t e => ?_) fun _ => .throw fun _ => id
      subst e
      exact hs.of_trace (linked_steady.send t _ t.trace hs.1) rfl
    · refine .modify fun t e => ?_
      subst e
      obtain ⟨hl, new, hnew, hok⟩ := hs
      refine ⟨linked_steady.send t _ _ hl, .sent reply :: new, by rw [List.cons_append, ← hnew], fun r hr => ?_⟩
      rcases List.mem_cons.1 hr with e | hr
      · cases e
        exact hreply
      · exact hok r hr
  begins := start_maintains fun s hs h => h.of_trace (h.1.begin hs _) rfl
  commits := commit_maintains (fun _ h => h.1) fun _ _ htr h => h.ended htr _ _
  aborts := abort_maintains (fun _ h => h.1) fun _ _ htr h => h.ended htr _ _
  statement := withTransaction_maintains fun s tr htr h =>
    h.of_trace (linked_steady.statement s tr _ htr (by simp) (by simp) h.1) rfl
  change c := withTransaction_maintains fun s tr htr h => h.of_trace (changed_linked h.1 htr c) rfl
  status := .modify fun s h => h.of_trace (linked_steady.setStatus s h.1) rfl

theorem replies_ok {q : Request γ × RequestEnv} (hl : s.Linked) (hok : Says ok (rowsOf q.1)) :
    ∀ reply ∈ (eventsOf q s).filterMap replyOf, ok reply := by
  have hrun : Maintains (Saying ok s.trace) (handlePacket q) :=
    .bind (.modify fun t h => h.of_trace (linked_steady.send t q.2 t.trace h.1) rfl) fun _ =>
    saying_speaks.handleRequest q.1 hok
  obtain ⟨-, new, hnew, hsaid⟩ := hrun.exec ⟨hl, [], rfl, by simp⟩
  have hevents : eventsOf q s = new.reverse := eventsOf_eq (by rw [hnew, List.reverse_reverse])
  intro reply hr
  obtain ⟨event, hevent, he⟩ := List.mem_filterMap.1 hr
  rw [hevents, List.mem_reverse] at hevent
  cases event with
  | sent r =>
    obtain rfl : r = reply := by simpa [replyOf] using he
    exact hsaid r hevent
  | ended x csn => cases he

end

end Session

end Mimidb
