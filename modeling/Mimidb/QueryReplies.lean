import Mimidb.SessionState

/-!
# Queries and their replies

The client reads packets up to the first terminal one, so every query needs an
answer of just that form (`Answered`). A statement that begins its own
transaction says that it is complete before it commits; those that succeed are
never answered as they should be, the other requests are as long as they find
their transaction and the undo in the guard's destructor works (`answers_queries_iff`).
-/

namespace Mimidb

/-! ## The client -/

inductive Response where
  | complete (description : Option (List String)) (rows : List (List (Option String))) (tag : String) (count : Int)
  | error (message : String)
  deriving DecidableEq, Repr

inductive Received where
  | handled (response : Response) (rest : List Reply)
  | lost
  | threw (what : String)
  deriving DecidableEq, Repr

/-- The packets that arrive until the connection is lost. -/
def handleResponse (description : Option (List String)) (rows : List (List (Option String))) : List Reply → Received
  | [] => .lost
  | .tupleDescription attrs :: ps => handleResponse (some attrs) rows ps
  | .dataRow values :: ps =>
    if description.isSome then handleResponse description (rows ++ [values]) ps
    else .threw "DataRow received before TupleDescription"
  | .commandComplete tag count :: ps => .handled (.complete description rows tag count) ps
  | .errorResponse message :: ps => .handled (.error message) ps

namespace Session

open Fallible

variable {γ : Type}

/-! ## Answers -/

def isQuery : Request γ → Bool
  | .query _ => true
  | .other _ => false

def isPlannable : Request γ → Bool
  | .query (.ok (.plannable _)) => true
  | _ => false

def isTerminal : Reply → Bool
  | .commandComplete _ _ | .errorResponse _ => true
  | _ => false

/-- A description with the rows that follow it, or nothing. -/
def opening : Option (List String) → List (List (Option String)) → List Reply
  | none, _ => []
  | some attrs, rows => .tupleDescription attrs :: rows.map .dataRow

def IsAnswer (ps : List Reply) : Prop :=
  ∃ attrs rows last, ps = opening attrs rows ++ [last] ∧ isTerminal last = true

def replyOf : Event → Option Reply
  | .sent reply => some reply
  | .ended _ _ => none

/-- What happens while one request is handled. -/
def eventsOf (q : Request γ × RequestEnv) (s : Session γ) : List Event :=
  let t := (handlePacket q).exec s
  (t.trace.take (t.trace.length - s.trace.length)).reverse

/-- A transaction that the request begins has the number `s.xid`. -/
structure Answered (q : Request γ × RequestEnv) (s : Session γ) : Prop where
  answer : IsAnswer ((eventsOf q s).filterMap replyOf)
  consumed :
    ∀ rest, ∃ response, handleResponse none [] ((eventsOf q s).filterMap replyOf ++ rest) = .handled response rest
  committed : isPlannable q.1 = true → s.transaction = none → ∀ before tag n after,
    eventsOf q s = before ++ .sent (.commandComplete tag n) :: after →
      ∃ csn, CommitSeqNumber.Min ≤ csn ∧ .ended s.xid csn ∈ before
  failed : ∀ what, .sent (.errorResponse what) ∈ eventsOf q s → ∀ x csn, .ended x csn ∈ eventsOf q s →
    csn = CommitSeqNumber.Aborted

/-- Every query of the session is answered. -/
def Answers (qs : List (Request γ × RequestEnv)) : Prop :=
  ∀ before q after, qs = before ++ q :: after → ∀ s, handleLoop before init = (.ok (), s) → isQuery q.1 = true →
  Answered q s

/-- Every packet of the session is sent. -/
def Delivered (qs : List (Request γ × RequestEnv)) : Prop := ∀ q ∈ qs, ∀ what ∈ q.2.sends, what = none

def fails (plan : Plan γ) : Bool :=
  plan.openTable.isSome || plan.start.isSome || plan.execute.isSome || plan.finish.isSome

/-- `COMMIT` has a transaction; a statement without one does not succeed, and
leaves nothing to undo that cannot be. -/
def answerable (s : Session γ) : Request γ × RequestEnv → Bool
  | (.query (.ok (.transaction .Commit)), _) => s.transaction.isSome
  | (.query (.ok (.plannable (.ok plan))), env) =>
    s.transaction.isSome || env.begins.isSome || (fails plan && env.undo.isNone)
  | _ => true

/-! ## What the client makes of an answer -/

theorem handleResponse_rows (attrs : List String) (last : Reply) (hlast : isTerminal last = true)
    (rest : List Reply) :
    ∀ (rows seen : List (List (Option String))),
      ∃ response, handleResponse (some attrs) seen (rows.map .dataRow ++ last :: rest) = .handled response rest
  | [], seen => by
    match last, hlast with
    | .commandComplete tag n, _ => exact ⟨_, rfl⟩
    | .errorResponse what, _ => exact ⟨_, rfl⟩
  | row :: rows, seen => handleResponse_rows attrs last hlast rest rows (seen ++ [row])

/-- One answer is one response, and what follows it stays. -/
theorem handleResponse_answer {ps : List Reply} (h : IsAnswer ps) (rest : List Reply) :
    ∃ response, handleResponse none [] (ps ++ rest) = .handled response rest := by
  obtain ⟨attrs, rows, last, rfl, hlast⟩ := h
  rw [List.append_assoc]
  cases attrs with
  | some attrs => exact handleResponse_rows attrs last hlast rest rows []
  | none =>
    match last, hlast with
    | .commandComplete tag n, _ => exact ⟨_, rfl⟩
    | .errorResponse what, _ => exact ⟨_, rfl⟩

theorem opening_not_terminal {attrs : Option (List String)} {rows : List (List (Option String))} {r : Reply}
    (h : r ∈ opening attrs rows) : isTerminal r = false := by
  cases attrs with
  | none => cases h
  | some attrs =>
    simp only [opening, List.mem_cons, List.mem_map] at h
    rcases h with rfl | ⟨row, _, rfl⟩ <;> rfl

theorem eventsOf_eq {q : Request γ × RequestEnv} {s : Session γ} {events : List Event}
    (h : ((handlePacket q).exec s).trace = events.reverse ++ s.trace) : eventsOf q s = events := by
  unfold eventsOf
  simp [h]

def endings (ends : List (Nat × Nat)) : List Event := ends.map fun e => .ended e.1 e.2

/-- The answer `last` after an opening, with the transactions that ended before it. -/
structure Concluded (base : List Event) (complete : Prop) (t : Session γ) (attrs : Option (List String))
    (rows : List (List (Option String))) (ends : List (Nat × Nat)) (last : Reply) : Prop where
  trace : t.trace = ((opening attrs rows).map Event.sent ++ endings ends ++ [Event.sent last]).reverse ++ base
  terminal : isTerminal last = true
  failed : ∀ what, last = .errorResponse what → ∀ e ∈ ends, e.2 = CommitSeqNumber.Aborted
  completed : ∀ tag n, last = .commandComplete tag n → complete

theorem answered_of_concluded {q : Request γ × RequestEnv} {s : Session γ} {attrs : Option (List String)}
    {rows : List (List (Option String))} {ends : List (Nat × Nat)} {last : Reply}
    (h : Concluded s.trace (isPlannable q.1 = true → s.transaction ≠ none) ((handlePacket q).exec s) attrs rows ends
      last) :
    Answered q s := by
  have hev := eventsOf_eq h.trace
  have hreplies : (eventsOf q s).filterMap replyOf = opening attrs rows ++ [last] := by
    rw [hev]
    simp [endings, List.filterMap_append, List.filterMap_map, Function.comp_def, replyOf]
  have hanswer : IsAnswer ((eventsOf q s).filterMap replyOf) := ⟨attrs, rows, last, hreplies, h.terminal⟩
  have hsent : ∀ r, isTerminal r = true → .sent r ∈ eventsOf q s → r = last := by
    intro r hr hmem
    have hm : r ∈ (eventsOf q s).filterMap replyOf := List.mem_filterMap.2 ⟨_, hmem, rfl⟩
    rw [hreplies, List.mem_append, List.mem_singleton] at hm
    rcases hm with hm | hm
    · rw [opening_not_terminal hm] at hr
      cases hr
    · exact hm
  refine ⟨hanswer, handleResponse_answer hanswer, fun hp hn before tag n after e => ?_, fun what hw x csn he => ?_⟩
  · have hlast := hsent _ rfl (e ▸ by simp : .sent (.commandComplete tag n) ∈ eventsOf q s)
    exact absurd hn (h.completed tag n hlast.symm hp)
  · have hlast := hsent _ rfl hw
    rw [hev] at he
    simp only [endings, List.mem_append, List.mem_map, reduceCtorEq, and_false, exists_false, List.mem_singleton,
      or_false, false_or, Event.ended.injEq] at he
    obtain ⟨p, hp, _, rfl⟩ := he
    exact h.failed what hlast.symm p hp

/-! ## What a statement says on its way -/

/-- The session after `events`, in transaction `x`, with the outcomes of `env` ahead. -/
structure Midway (base : List Event) (env : RequestEnv) (x : Option Nat) (events : List Event) (s : Session γ) :
    Prop where
  linked : s.Linked
  quiet : ∀ what ∈ s.env.sends, what = none
  begins : s.env.begins = env.begins
  undo : s.env.undo = env.undo
  current : s.transaction.map (·.xid) = x
  trace : s.trace = events.reverse ++ base

section
variable {base : List Event} {env : RequestEnv} {x : Option Nat} {events : List Event}

theorem outcome_then {P : Session γ → Prop} {what : Option String} {m : HandlerM γ Unit}
    {Q : Unit → Session γ → Prop} {E : HandlerFault → Session γ → Prop} (hm : what = none → Spec P m Q E)
    (he : ∀ w s, what = some w → P s → E (.threw w) s) : Spec P (outcome what >>= fun _ => m) Q E := by
  cases hw : what with
  | none => exact hm hw
  | some w => exact .bind (R := fun _ _ => False) (.throw fun s => he w s hw) fun _ => .of_false

theorem Midway.send (reply : Reply) {E : HandlerFault → Session γ → Prop} :
    Spec (Midway base env x events) (sendPacket reply) (fun _ => Midway base env x (events ++ [.sent reply]))
      E := by
  refine .getBind fun s hs => ?_
  split
  next what sends e => exact absurd (hs.quiet (some what) (by rw [e]; exact List.mem_cons_self)) (by simp)
  next =>
    refine .modify fun t e => ?_
    subst e
    refine ⟨linked_steady.send _ _ _ hs.linked, fun what hw => hs.quiet what (List.mem_of_mem_tail hw), hs.begins,
      hs.undo, hs.current, ?_⟩
    simp [hs.trace]

theorem Midway.withTransaction {n : Nat} {f : Transaction → Session γ → Session γ}
    {E : HandlerFault → Session γ → Prop}
    (h : ∀ s tr, s.transaction = some tr → s.Linked → (f tr s).Linked ∧ (f tr s).env = s.env ∧
      (f tr s).trace = s.trace ∧
      (f tr s).transaction.map (·.xid) = some tr.xid) :
    Spec (Midway base env (some n) events) (withTransaction fun tr => modify (f tr))
      (fun _ => Midway base env (some n) events) E := by
  refine withTransaction_spec (fun s tr htr hs => .modify fun t e => ?_) fun s htr hs => ?_
  · subst e
    obtain ⟨hl, henv, htrace, hx⟩ := h t tr htr hs.linked
    have hn : some tr.xid = some n := by rw [← hs.current, htr]; rfl
    exact ⟨hl, henv ▸ hs.quiet, henv ▸ hs.begins, henv ▸ hs.undo, hx.trans hn, htrace.trans hs.trace⟩
  · have hcur := hs.current
    rw [htr] at hcur
    cases hcur

theorem Midway.statement {n : Nat} {E : HandlerFault → Session γ → Prop} :
    Spec (Midway base env (some n) events) (beginNewStatement (γ := γ)) (fun _ => Midway base env (some n) events)
      E :=
  Midway.withTransaction fun s tr htr hl =>
    ⟨linked_steady.statement s tr _ htr (by simp) (by simp) hl, rfl, rfl, by simp⟩

theorem Midway.change {n : Nat} (c : γ) {E : HandlerFault → Session γ → Prop} :
    Spec (Midway base env (some n) events) (change c) (fun _ => Midway base env (some n) events) E :=
  Midway.withTransaction fun _ _ htr hl => ⟨changed_linked hl htr c, rfl, rfl, rfl⟩

/-- What has been sent so far is an opening, with a description if there are to be rows. -/
def Opened (base : List Event) (env : RequestEnv) (x : Option Nat) (described : Prop) (s : Session γ) : Prop :=
  ∃ attrs rows, Midway base env x ((opening attrs rows).map .sent) s ∧ (described → attrs.isSome = true)

theorem spec_forM {α : Type} {P : Session γ → Prop} {E : HandlerFault → Session γ → Prop} {f : α → HandlerM γ Unit}
    (h : ∀ a, Spec P (f a) (fun _ => P) E) : ∀ l : List α, Spec P (l.forM f) (fun _ => P) E
  | [] => .pure fun _ => id
  | a :: l => .bind (h a) fun _ => spec_forM h l

theorem spec_exists {ι : Sort _} {P : ι → Session γ → Prop} {m : HandlerM γ Unit} {Q : Unit → Session γ → Prop}
    {E : HandlerFault → Session γ → Prop} (h : ∀ i, Spec (P i) m Q E) : Spec (fun s => ∃ i, P i s) m Q E :=
  fun s ⟨i, hi⟩ => h i s hi

theorem Opened.row {values : List (Option String)} {E : HandlerFault → Session γ → Prop} :
    Spec (Opened base env x True) (sendPacket (.dataRow values)) (fun _ => Opened base env x True) E := by
  refine spec_exists fun attrs => spec_exists fun rows => Spec.fact fun hd => ?_
  obtain ⟨attrs, rfl⟩ := Option.isSome_iff_exists.1 (hd trivial)
  refine (Midway.send _).conseq (fun _ => id) (fun _ t h => ⟨some attrs, rows ++ [values], ?_, fun _ => rfl⟩)
    fun _ _ => id
  simpa [opening] using h

theorem Opened.of_midway {described : Prop} (hd : ¬ described) {s : Session γ} (h : Midway base env x [] s) :
    Opened base env x described s := ⟨none, [], h, fun h => absurd h hd⟩

end

/-- A plan that fails has said an opening, one that does not has said that it is complete. -/
theorem execPlan_spec {base : List Event} {env : RequestEnv} {n : Nat} (plan : Plan γ) :
    Spec (Midway base env (some n) []) (execPlan plan)
      (fun _ s => fails plan = false ∧ ∃ attrs rows, Midway base env (some n)
        ((opening attrs rows ++ [Reply.commandComplete (cmdTagToString plan.tag) plan.rowsProcessed]).map .sent) s)
      fun e s => (fails plan = true ∧ ∃ w, e = .threw w) ∧ Opened base env (some n) False s := by
  have hweak :
    ∀ {described : Prop} {s : Session γ}, Opened base env (some n) described s → Opened base env (some n) False s :=
    fun ⟨attrs, rows, h, _⟩ => ⟨attrs, rows, h, False.elim⟩
  refine .bind Midway.statement fun _ => ?_
  refine outcome_then (fun ho => ?_) fun w s hw h => ⟨⟨by simp [fails, hw], w, rfl⟩, .of_midway id h⟩
  refine .bind (R := fun _ => Opened base env (some n) (plan.tag = .Select)) ?_ fun _ => ?_
  · unfold whenSelect
    split
    next =>
      exact (Midway.send _).conseq (fun _ => id) (fun _ s h => ⟨some ["a", "b"], [], h, fun _ => rfl⟩)
        fun _ _ => id
    next htag => exact .pure fun s h => .of_midway htag h
  refine outcome_then (fun hs => ?_) fun w s hw h => ⟨⟨by simp [fails, hw], w, rfl⟩, hweak h⟩
  refine .bind (R := fun _ => Opened base env (some n) (plan.tag = .Select)) ?_ fun _ => ?_
  · refine spec_forM (fun c => spec_exists fun attrs => spec_exists fun rows => Spec.fact fun hd => ?_) _
    exact (Midway.change c).conseq (fun _ => id) (fun _ _ h => ⟨attrs, rows, h, hd⟩) fun _ _ => id
  refine .bind (R := fun _ => Opened base env (some n) (plan.tag = .Select)) ?_ fun _ => ?_
  · unfold whenSelect
    split
    next htag =>
      rw [eq_true htag]
      exact spec_forM (fun row => Opened.row) _
    next => exact .pure fun _ => id
  refine outcome_then (fun he => ?_) fun w s hw h => ⟨⟨by simp [fails, hw], w, rfl⟩, hweak h⟩
  refine outcome_then (fun hf => ?_) fun w s hw h => ⟨⟨by simp [fails, hw], w, rfl⟩, hweak h⟩
  refine spec_exists fun attrs => spec_exists fun rows => Spec.fact fun _ => ?_
  refine (Midway.send _).conseq (fun _ => id) (fun _ s h => ⟨by simp [fails, ho, hs, he, hf], attrs, rows, ?_⟩)
    fun _ _ => id
  simpa using h

/-! ## What the transaction commands do on the way -/

section
variable {base : List Event} {env : RequestEnv} {x : Option Nat} {events : List Event}

theorem Midway.transaction_eq {n : Nat} {s : Session γ} (h : Midway base env (some n) events s) :
    ∃ tr, s.transaction = some tr ∧ tr.xid = n := by
  have hcur := h.current
  cases htr : s.transaction with
  | none =>
    rw [htr] at hcur
    cases hcur
  | some tr =>
    rw [htr] at hcur
    injection hcur with hcur
    exact ⟨tr, rfl, hcur⟩

theorem Midway.ended {n : Nat} {s : Session γ} (h : Midway base env (some n) events s) (v csn : Nat) :
    Midway base env none (events ++ [.ended n v]) (s.ended n v csn) := by
  obtain ⟨tr, htr, rfl⟩ := h.transaction_eq
  exact ⟨h.linked.ended htr v csn, h.quiet, h.begins, h.undo, rfl, by simp [Session.ended, h.trace]⟩

theorem Midway.start : Spec (Midway base env x events) (startNewTransactionCommand (γ := γ))
    (fun _ s => (∃ n, Midway base env (some n) events s) ∧ (x = none → env.begins = none))
    fun e s => (∃ w, e = .threw w) ∧ env.begins.isSome = true ∧ Midway base env x events s := by
  refine .getBind fun s hs => ?_
  cases htr : s.transaction with
  | some tr =>
    have hx : some tr.xid = x := by rw [← hs.current, htr]; rfl
    refine .pure fun t e => ?_
    subst e
    exact ⟨⟨tr.xid, hx ▸ hs⟩, fun hn => by rw [hn] at hx; cases hx⟩
  | none =>
    refine .getBind fun s' e => ?_
    subst e
    refine outcome_then (fun hb => .modify fun t e => ?_) fun w t hw e =>
      ⟨⟨w, rfl⟩, by rw [← hs.begins, hw]; rfl, e ▸ hs⟩
    subst e
    exact ⟨⟨t.xid, hs.linked.begin htr _, hs.quiet, hs.begins, hs.undo, rfl, hs.trace⟩, fun _ => hs.begins ▸ hb⟩

theorem Midway.commit {n : Nat} {E : HandlerFault → Session γ → Prop} :
    Spec (Midway base env (some n) events) (commitTransactionCommand (γ := γ))
      (fun _ s => ∃ csn, Midway base env none (events ++ [.ended n csn]) s) E := by
  intro s hs
  obtain ⟨tr, htr, rfl⟩ := hs.transaction_eq
  unfold commitTransactionCommand
  rw [commitTransaction_eq hs.linked htr]
  exact ⟨s.csn, hs.ended _ _⟩

theorem Midway.abort {n : Nat} : Spec (Midway base env (some n) events) (abortTransactionCommand (γ := γ))
    (fun _ => Midway base env none (events ++ [.ended n CommitSeqNumber.Aborted]))
    fun e s => (∃ w, e = .threw w) ∧ env.undo.isSome = true ∧ Midway base env (some n) events s := by
  refine .getBind fun s hs => ?_
  obtain ⟨tr, htr, rfl⟩ := hs.transaction_eq
  rw [if_pos (by rw [htr]; rfl)]
  intro t e
  subst e
  rw [abortTransaction_eq hs.linked htr]
  cases hu : t.env.undo with
  | some w => exact ⟨⟨w, rfl⟩, by rw [← hs.undo, hu]; rfl, hs⟩
  | none => exact hs.ended _ _

theorem Midway.error (what : String) {E : HandlerFault → Session γ → Prop} :
    Spec (Midway base env x events) (handleError (γ := γ) (.threw what))
      (fun _ => Midway base env x (events ++ [.sent (.errorResponse what)])) E := by
  refine .bind (Midway.send _) fun _ => .modify fun s h => ?_
  refine ⟨linked_steady.setStatus s h.linked, h.quiet, h.begins, h.undo, ?_, h.trace⟩
  rw [← h.current, Option.map_map]
  rfl

end

/-! ## Requests that are answered -/

section
variable {base : List Event} {env : RequestEnv} {x : Option Nat} {complete : Prop}

/-- The request is answered. -/
def Done (base : List Event) (complete : Prop) (t : Session γ) : Prop :=
  ∃ attrs rows ends last, Concluded base complete t attrs rows ends last

/-- The request fails before its answer is complete; what it ended, it aborted. -/
def Failing (base : List Event) (env : RequestEnv) (e : HandlerFault) (s : Session γ) : Prop :=
  (∃ w, e = .threw w) ∧ ∃ x attrs rows ends,
    Midway base env x ((opening attrs rows).map Event.sent ++ endings ends) s ∧
    ∀ e ∈ ends, e.2 = CommitSeqNumber.Aborted

theorem Failing.here {e : HandlerFault} {s : Session γ} (he : ∃ w, e = .threw w) (h : Midway base env x [] s) :
    Failing base env e s := ⟨he, x, none, [], [], h, nofun⟩

theorem Done.command {x' : Option Nat} (ends : List (Nat × Nat)) {tag : String} {n : Int} {s : Session γ}
    (hc : complete) (h : Midway base env x' (endings ends ++ [.sent (.commandComplete tag n)]) s) :
    Done base complete s := ⟨none, [], ends, _, h.trace, rfl, nofun, fun _ _ _ => hc⟩

theorem done_tryCatch {P : Session γ → Prop} {m : HandlerM γ Unit}
    (hm : Spec P m (fun _ => Done base complete) (Failing base env)) :
    Spec P (tryCatch m handleError) (fun _ => Done base complete) fun _ _ => False := by
  refine .tryCatch hm fun e s ⟨⟨w, hw⟩, x, attrs, rows, ends, hs, habort⟩ => ?_
  subst hw
  refine (Midway.error w).conseq (fun _ => id) (fun _ t h => ?_) (fun _ _ => id) s hs
  exact ⟨attrs, rows, ends, _, h.trace, rfl, fun _ _ => habort, nofun⟩

theorem done_begin (hc : complete) :
    Spec (Midway base env x []) (handleBegin (γ := γ)) (fun _ => Done base complete) (Failing base env) := by
  refine .bind (R := fun _ s => ∃ n, Midway base env (some n) [] s) ?_ fun _ => spec_exists fun n => ?_
  · exact Midway.start.conseq (fun _ => id) (fun _ _ h => h.1) fun _ _ h => .here h.1 h.2.2
  · exact (Midway.send _).conseq (fun _ => id) (fun _ _ h => .command [] hc h) fun _ _ => id

theorem done_commit {n : Nat} (hc : complete) :
    Spec (Midway base env (some n) []) (handleCommit (γ := γ)) (fun _ => Done base complete)
      (Failing base env) := by
  refine .bind (R := fun _ s => ∃ csn, Midway base env none [.ended n csn] s) ?_ fun _ => spec_exists fun csn => ?_
  · exact Midway.commit.conseq (fun _ => id) (fun _ _ h => h) fun _ _ => id
  · exact (Midway.send _).conseq (fun _ => id) (fun _ _ h => .command [(n, csn)] hc h) fun _ _ => id

theorem done_rollback (hc : complete) :
    Spec (Midway base env x []) (handleRollback (γ := γ)) (fun _ => Done base complete) (Failing base env) := by
  cases x with
  | none =>
    refine .bind (R := fun _ _ => False) ?_ fun _ => .of_false
    refine .getBind fun s hs => ?_
    have htr : s.transaction = none := Option.map_eq_none_iff.1 hs.current
    rw [htr]
    exact .throw fun t e => .here ⟨_, rfl⟩ (e ▸ hs)
  | some n =>
    refine .bind (R := fun _ => Midway base env none [.ended n CommitSeqNumber.Aborted]) ?_ fun _ => ?_
    · exact Midway.abort.conseq (fun _ => id) (fun _ _ h => h) fun _ _ h => .here h.1 h.2.2
    · exact (Midway.send _).conseq (fun _ => id) (fun _ _ h => .command [(n, _)] hc h) fun _ _ => id

/-- Inside a transaction the plan's own last packet is the answer. -/
theorem done_execPlan {n : Nat} (plan : Plan γ) (hc : complete) :
    Spec (Midway base env (some n) []) (execPlan plan) (fun _ => Done base complete) (Failing base env) := by
  refine (execPlan_spec plan).conseq (fun _ => id) (fun _ s h => ?_) fun e s h => ?_
  · obtain ⟨-, attrs, rows, h⟩ := h
    exact ⟨attrs, rows, [], _, by simpa [endings] using h.trace, rfl, nofun, fun _ _ _ => hc⟩
  · obtain ⟨⟨-, he⟩, attrs, rows, h, -⟩ := h
    exact ⟨he, _, attrs, rows, [], by simpa [endings] using h, nofun⟩

/-- The guard's destructor aborts the transaction that a failing plan was given. -/
theorem done_guardAbort {n : Nat} (hundo : env.undo = none) (e : HandlerFault) :
    Spec (fun s : Session γ => (∃ w, e = .threw w) ∧ Opened base env (some n) False s) (guardAbort e)
      (fun _ => Done base complete) (Failing base env) := by
  intro s ⟨⟨w, hw⟩, attrs, rows, hs, _⟩
  subst hw
  have habort : Spec (Midway base env (some n) ((opening attrs rows).map .sent)) (guardAbort (γ := γ) (.threw w))
      (fun _ => Done base complete) (Failing base env) := by
    refine .bind
      (R := fun _ => Midway base env none ((opening attrs rows).map .sent ++ [.ended n CommitSeqNumber.Aborted])) ?_
      fun _ => .throw fun t h => ⟨⟨w, rfl⟩, none, attrs, rows, [(n, CommitSeqNumber.Aborted)], h,
      fun e he => by rw [List.mem_singleton.1 he]⟩
    refine .tryCatch (R := fun _ _ => False) (Midway.abort.conseq (fun _ => id) (fun _ _ => id) fun _ _ h => ?_)
      fun _ => .of_false
    rw [hundo] at h
    cases h.2.1
  exact habort s hs

/-- Outside of one, the plan fails, and what it did is undone before the answer. -/
theorem done_implicit (plan : Plan γ) (h : (env.begins.isSome || (fails plan && env.undo.isNone)) = true) :
    Spec (Midway base env none []) (withImplicitTransaction (execPlan plan)) (fun _ => Done base complete)
      (Failing base env) := by
  refine .getBind fun s hs => ?_
  have htr : s.transaction = none := Option.map_eq_none_iff.1 hs.current
  rw [htr, if_neg (by simp)]
  refine .bind (R := fun _ s => (∃ n, Midway base env (some n) [] s) ∧ env.begins = none) ?_ fun _ =>
    Spec.fact fun hb => ?_
  · exact Midway.start.conseq (fun _ e => e ▸ hs) (fun _ _ h => ⟨h.1, h.2 rfl⟩) fun _ _ h => .here h.1 h.2.2
  · simp only [hb, Option.isSome_none, Bool.false_or, Bool.and_eq_true, Option.isNone_iff_eq_none] at h
    obtain ⟨hfails, hundo⟩ := h
    refine spec_exists fun n => .tryCatch (.bind (R := fun _ _ => False) ?_ fun _ => .of_false) fun e =>
      done_guardAbort (n := n) hundo e
    exact (execPlan_spec plan).conseq (fun _ => id) (fun _ _ h => by rw [hfails] at h; cases h.1) fun _ _ h =>
      ⟨h.1.2, h.2⟩
end

theorem done_execQuery {base : List Event} {env : RequestEnv} {s : Session γ} (parsed : Except String (Statement γ))
    (h : answerable s (.query parsed, env) = true) :
    Spec (Midway base env (s.transaction.map (·.xid)) []) (execQuery parsed)
      (fun _ => Done base (isPlannable (.query parsed) = true → s.transaction ≠ none)) (Failing base env) := by
  match parsed with
  | .error what => exact .throw fun _ h => .here ⟨what, rfl⟩ h
  | .ok (.unsupported type) =>
    refine (Midway.send _).conseq (fun _ => id) (fun _ t h => ?_) fun _ _ => id
    exact ⟨none, [], [], _, h.trace, rfl, nofun, nofun⟩
  | .ok (.transaction .Begin) => exact done_begin nofun
  | .ok (.transaction .Rollback) => exact done_rollback nofun
  | .ok (.transaction .Commit) =>
    obtain ⟨tr, htr⟩ := Option.isSome_iff_exists.1 h
    rw [htr]
    exact done_commit nofun
  | .ok (.plannable (.error what)) => exact .throw fun _ h => .here ⟨what, rfl⟩ h
  | .ok (.plannable (.ok plan)) =>
    cases htr : s.transaction with
    | none =>
      simp only [answerable, htr, Option.isSome_none, Bool.false_or] at h
      exact done_implicit plan h
    | some tr =>
      refine .getBind fun t ht => ?_
      obtain ⟨r, hr, -⟩ := ht.transaction_eq
      rw [if_pos (by rw [hr]; rfl)]
      exact (done_execPlan plan nofun).conseq (fun _ e => e ▸ ht) (fun _ _ => id) fun _ _ => id

theorem midway_start {s : Session γ} (hl : s.Linked) {env : RequestEnv} (hq : ∀ what ∈ env.sends, what = none)
    {x : Option Nat} (hx : s.transaction.map (·.xid) = x) : Midway s.trace env x [] { s with env := env } :=
  ⟨linked_steady.send s env s.trace hl, hq, rfl, rfl, hx, rfl⟩

theorem answered_of_answerable {q : Request γ × RequestEnv} {s : Session γ} (hl : s.Linked)
    (hq : ∀ what ∈ q.2.sends, what = none) (hquery : isQuery q.1 = true)
    (h : answerable s q = true) : Answered q s := by
  obtain ⟨r, env⟩ := q
  match r, hquery with
  | .query parsed, _ =>
    have hrun : Spec (fun t => t = s) (handlePacket (.query parsed, env))
        (fun _ => Done s.trace (isPlannable (.query parsed) = true → s.transaction ≠ none)) fun _ _ => False :=
      .bind (.modify fun t e => e ▸ midway_start hl hq rfl) fun _ => done_tryCatch (done_execQuery parsed h)
    obtain ⟨attrs, rows, ends, last, hdone⟩ := hrun.exec (fun _ _ => id) (fun _ _ => False.elim) rfl
    exact answered_of_concluded hdone

/-! ## Requests that are not -/

/-- These events, and maybe more. -/
def Late (past : List Event) (s : Session γ) : Prop := s.Linked ∧ past <:+ s.trace

section
variable {past base : List Event}

theorem late_send (reply : Reply) : Maintains (Late (γ := γ) past) (sendPacket reply) := by
  refine .getBind fun s hs => ?_
  split
  · refine .bind (R := fun _ => Late past) (.modify fun t e => ?_) fun _ => .throw fun _ => id
    subst e
    exact ⟨linked_steady.send t _ t.trace hs.1, hs.2⟩
  · refine .modify fun t e => ?_
    subst e
    exact ⟨linked_steady.send t _ _ hs.1, hs.2.trans (List.suffix_cons _ _)⟩

theorem late_commit : Maintains (Late (γ := γ) past) commitTransactionCommand :=
  commit_maintains (fun _ h => h.1) fun _ _ htr h => ⟨h.1.ended htr _ _, h.2.trans (List.suffix_cons _ _)⟩

theorem late_abort : Maintains (Late (γ := γ) past) abortTransactionCommand :=
  .bind .get fun _ => .ite (fun _ => abort_maintains (fun _ h => h.1) fun _ _ htr h =>
    ⟨h.1.ended htr _ _, h.2.trans (List.suffix_cons _ _)⟩) fun _ => .throw

theorem late_guardAbort (e : HandlerFault) : Maintains (Late (γ := γ) past) (guardAbort e) := by
  cases e with
  | terminated => exact .throw
  | nullTransaction => exact .throw
  | threw what => exact .bind (.tryCatch late_abort fun e => by cases e <;> exact .throw) fun _ => .throw

theorem late_handleError (e : HandlerFault) : Maintains (Late (γ := γ) past) (handleError e) := by
  cases e with
  | terminated => exact .throw
  | nullTransaction => exact .throw
  | threw what => exact .bind (late_send _) fun _ => .modify fun s h => ⟨linked_steady.setStatus s h.1, h.2⟩

/-- The client was told that the plan is complete while its transaction was not over. -/
def TooEarly (base : List Event) (s : Session γ) : Prop :=
  ∃ attrs rows tag n,
    Late (((opening attrs rows ++ [Reply.commandComplete tag n]).map Event.sent).reverse ++ base) s

/-- The client waits for the rest of an answer, and there is no one to send it. -/
def Unanswered (base : List Event) (s : Session γ) : Prop :=
  ∃ attrs rows, s.trace = ((opening attrs rows).map Event.sent).reverse ++ base

theorem tooEarly_of {m : HandlerM γ Unit} (h : ∀ past, Maintains (Late past) m) : Maintains (TooEarly base) m := by
  intro s ⟨attrs, rows, tag, n, hs⟩
  have hm := h _ s hs
  rcases hr : m s with ⟨r, t⟩
  rw [hr] at hm
  cases r <;> exact ⟨attrs, rows, tag, n, hm⟩

theorem not_answered_of_unanswered {q : Request γ × RequestEnv} {s : Session γ}
    (h : Unanswered s.trace ((handlePacket q).exec s)) :
    ¬ Answered q s := by
  obtain ⟨attrs, rows, h⟩ := h
  intro ha
  obtain ⟨attrs', rows', last, e, hlast⟩ := ha.answer
  have hreplies : (eventsOf q s).filterMap replyOf = opening attrs rows := by
    rw [eventsOf_eq h]
    simp [List.filterMap_map, Function.comp_def, replyOf]
  have hmem : last ∈ opening attrs rows := by
    rw [← hreplies, e]
    simp
  rw [opening_not_terminal hmem] at hlast
  cases hlast

theorem not_answered_of_tooEarly {q : Request γ × RequestEnv} {s : Session γ} (hp : isPlannable q.1 = true)
    (hn : s.transaction = none) (h : TooEarly s.trace ((handlePacket q).exec s)) : ¬ Answered q s := by
  obtain ⟨attrs, rows, tag, n, -, later, h⟩ := h
  intro ha
  have hev :
    eventsOf q s = (opening attrs rows).map Event.sent ++ .sent (.commandComplete tag n) :: later.reverse :=
    eventsOf_eq (by rw [← h]; simp)
  obtain ⟨csn, -, hmem⟩ := ha.committed hp hn _ _ _ _ hev
  simp at hmem

/-- A plan without a transaction that succeeds, or that leaves what cannot be undone. -/
theorem bad_implicit {env : RequestEnv} {plan : Plan γ} (hb : env.begins = none)
    (h : fails plan = true → env.undo.isSome = true) :
    Spec (Midway base env none []) (withImplicitTransaction (execPlan plan)) (fun _ => TooEarly base)
      fun e s => TooEarly base s ∨ (e = .terminated ∧ Unanswered base s) := by
  refine .getBind fun s hs => ?_
  have htr : s.transaction = none := Option.map_eq_none_iff.1 hs.current
  rw [htr, if_neg (by simp)]
  refine .bind (R := fun _ s => ∃ n, Midway base env (some n) [] s) ?_ fun _ => spec_exists fun n => ?_
  · refine Midway.start.conseq (fun _ e => e ▸ hs) (fun _ _ h => h.1) fun _ _ h => ?_
    rw [hb] at h
    cases h.2.1
  have hplan : Spec (Midway base env (some n) []) (execPlan plan) (fun _ => TooEarly base)
      fun e s => TooEarly base s ∨
      (env.undo.isSome = true ∧ (∃ w, e = .threw w) ∧ Opened base env (some n) False s) := by
    refine (execPlan_spec plan).conseq (fun _ => id) (fun _ s hs => ?_) fun e s hs => .inr ⟨h hs.1.1, hs.1.2, hs.2⟩
    obtain ⟨-, attrs, rows, hs⟩ := hs
    exact ⟨attrs, rows, cmdTagToString plan.tag, plan.rowsProcessed, hs.linked, [], hs.trace.symm⟩
  refine .tryCatch (.bind hplan fun _ => (tooEarly_of fun _ => late_commit).conseq (fun _ => id) (fun _ _ => id)
    fun _ _ => .inl)
    fun e s hs => ?_
  rcases hs with hs | ⟨hu, ⟨w, he⟩, hs⟩
  · exact ((tooEarly_of fun _ => late_guardAbort e).conseq (fun _ => id) (fun _ _ => id) fun _ _ => .inl) s hs
  subst he
  obtain ⟨attrs, rows, hs, -⟩ := hs
  -- the undo throws in the destructor, while the statement's exception is on its way
  obtain ⟨tr, htr, rfl⟩ := hs.transaction_eq
  obtain ⟨what, hw⟩ := Option.isSome_iff_exists.1 (hs.undo ▸ hu)
  have habort : abortTransactionCommand s = (.error (.threw what), s) := by
    unfold abortTransactionCommand
    rw [bind_ok (get_apply s), if_pos (by rw [htr]; rfl), abortTransaction_eq hs.linked htr, hw]
  have hguard : guardAbort (.threw w) s = (.error .terminated, s) := by
    unfold guardAbort
    simp only [bind_apply, tryCatch_apply, habort, throw_apply]
  rw [hguard]
  exact .inr ⟨rfl, attrs, rows, hs.trace⟩

theorem not_answered_commit {env : RequestEnv} {s : Session γ} (hl : s.Linked) (htr : s.transaction = none) :
    ¬ Answered (.query (.ok (.transaction .Commit)), env) s := by
  have hrun : handlePacket (.query (.ok (.transaction .Commit)), env) s =
      (.error .nullTransaction, { s with env := env }) := by
    have hcommit := commitTransaction_none (linked_steady.send s env s.trace hl) htr
    unfold handlePacket handleRequest execQuery execStatement execTclQuery handleCommit commitTransactionCommand
    simp only [tryCatch_apply, bind_apply, modify_apply, hcommit, handleError, throw_apply]
  refine not_answered_of_unanswered ⟨none, [], ?_⟩
  unfold Fallible.exec
  rw [hrun]
  rfl

theorem not_answered_plan {plan : Plan γ} {env : RequestEnv} {s : Session γ} (hl : s.Linked)
    (hq : ∀ what ∈ env.sends, what = none) (h : answerable s (.query (.ok (.plannable (.ok plan))), env) = false) :
    ¬ Answered (.query (.ok (.plannable (.ok plan))), env) s := by
  simp only [answerable, Bool.or_eq_false_iff, Bool.and_eq_false_iff, Option.isSome_eq_false_iff,
    Option.isNone_iff_eq_none, Option.isNone_eq_false_iff] at h
  obtain ⟨⟨htr, hb⟩, hf⟩ := h
  have hundo : fails plan = true → env.undo.isSome = true := by
    intro e
    exact hf.resolve_left (by simp [e])
  have hrun : Spec (fun t => t = s) (handlePacket (.query (.ok (.plannable (.ok plan))), env))
      (fun _ => TooEarly s.trace) fun _ t => TooEarly s.trace t ∨ Unanswered s.trace t := by
    refine .bind (.modify fun t e => e ▸ midway_start hl hq (x := none) (by rw [htr]; rfl)) fun _ =>
      .tryCatch (bad_implicit hb hundo) fun e t ht => ?_
    rcases ht with ht | ⟨rfl, ht⟩
    · exact ((tooEarly_of fun _ => late_handleError e).conseq (fun _ => id) (fun _ _ => id) fun _ _ => .inl) t ht
    · exact .inr ht
  rcases hrun.exec (fun _ _ => .inl) (fun _ _ => id) rfl with ht | ht
  · exact not_answered_of_tooEarly rfl htr ht
  · exact not_answered_of_unanswered ht

theorem not_answered {q : Request γ × RequestEnv} {s : Session γ} (hl : s.Linked)
    (hq : ∀ what ∈ q.2.sends, what = none) (h : answerable s q = false) : ¬ Answered q s := by
  obtain ⟨r, env⟩ := q
  cases r with
  | other type => cases h
  | query parsed =>
    rcases parsed with what | (command | planned | type)
    · cases h
    · cases command with
      | Begin => cases h
      | Rollback => cases h
      | Commit => exact not_answered_commit hl (by simpa [answerable] using h)
    · cases planned with
      | error what => cases h
      | ok plan => exact not_answered_plan hl hq h
    · cases h

end

/-- With its packets sent, a session answers its queries exactly if they are all answerable. -/
theorem answers_queries_iff {qs : List (Request γ × RequestEnv)} (h : Delivered qs) : Answers qs ↔
    ∀ before q after, qs = before ++ q :: after → ∀ s, handleLoop before init = (.ok (), s) →
    answerable s q = true := by
  constructor
  · intro ha before q after e s hs
    have hsent : ∀ what ∈ q.2.sends, what = none := h q (by rw [e]; simp)
    by_contra hn
    rw [Bool.not_eq_true] at hn
    refine not_answered (linked_reached hs) hsent hn (ha before q after e s hs ?_)
    match q, hn with
    | (.query _, _), _ => rfl
  · intro ha before q after e s hs hquery
    exact answered_of_answerable (linked_reached hs) (h q (by rw [e]; simp)) hquery (ha before q after e s hs)

/-- `BEGIN`, a `SELECT` with two rows, `COMMIT`. -/
def selectInBlock : List (Request Unit × RequestEnv) :=
  let plan : Plan Unit :=
    ⟨.Select, none, none, [[some "1", none], [some "2", some "x"]], [], none, none, 2, fun _ => rfl⟩
  [.query (.ok (.transaction .Begin)), .query (.ok (.plannable (.ok plan))),
    .query (.ok (.transaction .Commit))].map
    (·, ⟨[], none, none, none⟩)

theorem selectInBlock_answered : Delivered selectInBlock ∧ Answers selectInBlock := by
  have hd : Delivered selectInBlock := by simp [Delivered, selectInBlock]
  refine ⟨hd, (answers_queries_iff hd).2 fun before q after e s hs => ?_⟩
  rcases before with _ | ⟨q₁, _ | ⟨q₂, _ | ⟨q₃, before⟩⟩⟩
  · injection e with e _
    rw [← e]
    rfl
  · injection e with e₁ e
    injection e with e _
    subst e₁ e
    obtain rfl : _ = s := congrArg Prod.snd hs
    rfl
  · injection e with e₁ e
    injection e with e₂ e
    injection e with e _
    subst e₁ e₂ e
    obtain rfl : _ = s := congrArg Prod.snd hs
    rfl
  · have := congrArg List.length e
    simp [selectInBlock] at this

/-- An `INSERT` without `BEGIN`. -/
def implicitInsert : List (Request Unit × RequestEnv) :=
  [(.query (.ok (.plannable (.ok insertOne))), ⟨[], none, none, none⟩)]

/-- It is answered before its transaction commits. -/
theorem implicitInsert_too_early : Delivered implicitInsert ∧ ¬ Answers implicitInsert := by
  refine ⟨by simp [Delivered, implicitInsert], fun h => ?_⟩
  obtain ⟨csn, -, hmem⟩ := (h [] _ [] rfl init rfl rfl).committed rfl rfl [] "INSERT" 1 [.ended 1 5] rfl
  exact List.not_mem_nil hmem

end Session

end Mimidb
