import Mathlib.Data.List.Forall2
import Mathlib.Data.Prod.Lex
import Mimidb.Connection
import Mimidb.SessionReplies
import Mimidb.Simulation

/-!
# Client and worker in step

The client asks again only when it has printed the answer to its last query,
and the worker reads again only when its replies are on their way. So at most
one query or answer is under way, and the client prints the answer to each of
its queries, in their order.
-/

namespace Mimidb

open TableFormatter (Text)

namespace Connection

variable {γ : Type} {dbg : Bool} {c d : Connection γ} {description : Option (List Text)}
  {rows : List (List (Option Text))}

/-! ## What an answer prints -/

/-- What the client prints for the packets, if it reads them to the last. -/
def respond (dbg : Bool) (description : Option (List Text)) (rows : List (List (Option Text))) :
    List Packet → Option Text
  | [] => none
  | p :: ps => match handlePacket dbg description rows p with
    | .waits description rows => respond dbg description rows ps
    | .prints text => if ps = [] then some text else none
    | .throws _ | .exits => none

/-- The texts are what the answers print. -/
def Printed (dbg : Bool) (answers : List (Text × List Reply)) (printed : List Text) : Prop :=
  List.Forall₂ (fun answer text => respond dbg none [] (answer.2.map packetOf) = some text) answers printed

/-- Rows are as wide as the description of the table. -/
def Wide : Reply → Prop
  | .tupleDescription attrs => attrs.length = 2
  | .dataRow values => 2 ≤ values.length
  | _ => True

theorem wide_terminal (last : Reply) (hlast : Session.isTerminal last = true) : Wide last := by
  cases last with
  | tupleDescription attrs => cases hlast
  | dataRow values => cases hlast
  | commandComplete tag count => trivial
  | errorResponse message => trivial

theorem handlePacket_terminal (dbg : Bool) (description : Option (List Text)) (rows : List (List (Option Text)))
    {last : Reply} (hlast : Session.isTerminal last = true)
    (hrows : ∀ attributes, description = some attributes → ∀ row ∈ rows, attributes.length ≤ row.length) :
    ∃ text, handlePacket dbg description rows (packetOf last) = .prints text := by
  match last, hlast with
  | .errorResponse message, _ => exact ⟨_, rfl⟩
  | .commandComplete tag count, _ =>
    cases description with
    | none => exact ⟨_, rfl⟩
    | some attributes =>
      obtain ⟨text, htext⟩ := TableFormatter.format_returns dbg (hrows attributes rfl)
      simp only [packetOf, handlePacket, printComplete, htext]
      exact ⟨_, rfl⟩

theorem respond_rows {attributes : List Text} {last : Reply} (hlast : Session.isTerminal last = true)
    (values : List (List (Option String))) (hvalues : ∀ row ∈ values, attributes.length ≤ row.length)
    (hrows : ∀ row ∈ rows, attributes.length ≤ row.length) :
    ∃ text, respond dbg (some attributes) rows ((values.map Reply.dataRow ++ [last]).map packetOf) = some text := by
  induction values generalizing rows with
  | nil =>
    obtain ⟨text, htext⟩ :=
      handlePacket_terminal dbg (some attributes) rows hlast fun _ e => Option.some.inj e ▸ hrows
    exact ⟨text, by simp [respond, htext]⟩
  | cons row values ih =>
    refine ih (fun r hr => hvalues r (List.mem_cons_of_mem _ hr)) fun r hr => ?_
    rcases List.mem_append.1 hr with hr | hr
    · exact hrows r hr
    · obtain rfl := List.mem_singleton.1 hr
      rw [List.length_map]
      exact hvalues row List.mem_cons_self

theorem respond_answer (dbg : Bool) {replies : List Reply} (h : Session.IsAnswer replies)
    (hwide : ∀ reply ∈ replies, Wide reply) :
    ∃ text, respond dbg none [] (replies.map packetOf) = some text := by
  obtain ⟨attrs, values, last, rfl, hlast⟩ := h
  cases attrs with
  | none =>
    obtain ⟨text, htext⟩ := handlePacket_terminal dbg none [] hlast (by simp)
    exact ⟨text, by simp [Session.opening, respond, htext]⟩
  | some attrs =>
    have hattrs : attrs.length = 2 := hwide (.tupleDescription attrs) (by simp [Session.opening])
    refine respond_rows hlast values (fun row hrow => ?_) (by simp)
    rw [List.length_map, hattrs]
    exact hwide (.dataRow row) (by simp [Session.opening, hrow])

/-! ## What holds between the steps -/

/-- The query of a `serverHandle` has one answer, and its packets can be sent. -/
def InStep (c : Connection γ) : ConnectionOp γ → Prop
  | .serverHandle parsed env =>
    Session.inStep c.session (.query parsed, env) = true ∧ (∀ what ∈ env.sends, what = none) ∧
      (∀ row ∈ Session.rowsOf (.query parsed), 2 ≤ row.length) ∧
        ∀ reply ∈ repliesTo (.query parsed, env) c.session, (packetOf reply).Sized
  | _ => True

instance (c : Connection γ) (op : ConnectionOp γ) : Decidable (InStep c op) :=
  match op with
  | .serverHandle parsed env => inferInstanceAs (Decidable (Session.inStep c.session (.query parsed, env) = true ∧
      (∀ what ∈ env.sends, what = none) ∧ (∀ row ∈ Session.rowsOf (.query parsed), 2 ≤ row.length) ∧
        ∀ reply ∈ repliesTo (.query parsed, env) c.session, (packetOf reply).Sized))
  | .line | .clientSend _ | .clientRecv _ | .clientHandle | .clientLost | .serverSend _ | .serverRecv _
  | .serverLost =>
    isTrue trivial

/-- The client asks no more. -/
def Quits (interactive : Bool) (line : Text) : Prop := line = [] ∨ (interactive = true ∧ line = bytesOf "\\q")

/-- Nothing, a query or an answer is under way. -/
inductive Phase (dbg : Bool) (c : Connection γ) : Prop where
  | between : c.isWaiting = false → c.toServer.Carries [] → c.toClient.Carries [] → c.asked = c.answers.map (·.1) →
      Printed dbg c.answers c.printed → Phase dbg c
  | asking (query : Text) :
      c.client = .waiting none [] → c.toServer.Carries [.Query query] → c.toClient.Carries [] →
      c.asked = c.answers.map (·.1) ++ [query] → Printed dbg c.answers c.printed → Phase dbg c
  | answering {before : List (Text × List Reply)} {answer : Text × List Reply} {description : Option (List Text)}
      {rows : List (List (Option Text))} {ps : List Packet} {text : Text} :
      c.client = .waiting description rows → c.toServer.Carries [] → c.toClient.Carries ps →
      c.answers = before ++ [answer] →
        c.asked = c.answers.map (·.1) → Printed dbg before c.printed →
        respond dbg none [] (answer.2.map packetOf) = some text →
          respond dbg description rows ps = some text → Phase dbg c

structure Lockstep (dbg interactive : Bool) (lines : List Text) (c : Connection γ) : Prop where
  phase : Phase dbg c
  linked : c.session.Linked
  mode : c.interactive = interactive
  serving : c.client ≠ .stopped → c.serving = true
  source : c.client ≠ .stopped → lines = c.asked ++ c.source
  stopped :
    c.client = .stopped → c.asked = lines ∨ ∃ line later, lines = c.asked ++ line :: later ∧ Quits interactive line
  answers : ∀ answer ∈ c.answers, Session.IsAnswer answer.2

/-! ## Ranks -/

def load (d : Direction) : ℕ := 3 * d.unsent.length + 2 * d.wire.length + d.received.length

/-- The queries that may still be asked, and how far the last one has come. -/
def stage (c : Connection γ) : ℕ := 5 * c.source.length + match c.client with
  | .waiting _ _ => 3 + (c.asked.length - c.answers.length)
  | .next => 2
  | .stopped => if c.serving = true then 1 else 0

def rank (c : Connection γ) : ℕ ×ₗ ℕ := toLex (c.stage, load c.toServer + load c.toClient)

theorem rank_of_stage (h : d.stage < c.stage) : d.rank < c.rank := Prod.Lex.toLex_lt_toLex.2 (.inl h)

theorem rank_of_load (h : d.stage = c.stage)
    (hload : load d.toServer + load d.toClient < load c.toServer + load c.toClient) :
    d.rank < c.rank := Prod.Lex.toLex_lt_toLex.2 (.inr ⟨h, hload⟩)

theorem load_send {d d' : Direction} {n : ℕ} (h : d.send n = some d') : load d' < load d := by
  unfold Direction.send at h
  split_ifs at h with hn
  cases h
  simp only [load, List.length_drop, List.length_append, List.length_take]
  omega

theorem load_recv {d d' : Direction} {n : ℕ} (h : d.recv n = some d') : load d' < load d := by
  unfold Direction.recv at h
  split at h
  · split_ifs at h with hn
    cases h
    simp only [load, List.length_drop, List.length_append, List.length_take]
    omega
  · cases h

/-! ## Steps -/

section
variable {interactive : Bool} {lines : List Text}

/-- What a step in lockstep leads to. -/
def Follows (dbg interactive : Bool) (lines : List Text) (c d : Connection γ) : Prop :=
  Lockstep dbg interactive lines d ∧ d.rank < c.rank

theorem Lockstep.moved {ts tc : Direction} (h : Lockstep dbg interactive lines c)
    (hts : ∀ ps, c.toServer.Carries ps → ts.Carries ps) (htc : ∀ ps, c.toClient.Carries ps → tc.Carries ps)
    (hload : load ts + load tc < load c.toServer + load c.toClient) :
    Follows dbg interactive lines c { c with toServer := ts, toClient := tc } := by
  refine ⟨⟨?_, h.linked, h.mode, h.serving, h.source, h.stopped, h.answers⟩, rank_of_load rfl hload⟩
  cases h.phase with
  | between hclient hs hc hasked hprinted => exact .between hclient (hts _ hs) (htc _ hc) hasked hprinted
  | asking query hclient hs hc hasked hprinted => exact .asking query hclient (hts _ hs) (htc _ hc) hasked hprinted
  | answering hclient hs hc hanswers hasked hprinted htext hrest =>
    exact .answering hclient (hts _ hs) (htc _ hc) hanswers hasked hprinted htext hrest

theorem Phase.next (h : Phase dbg c) (hc : c.client = .next) :
    c.toServer = .silent ∧ c.toClient = .silent ∧ c.asked = c.answers.map (·.1) ∧
    Printed dbg c.answers c.printed := by
  cases h with
  | between _ hs hc hasked hprinted =>
    exact ⟨Direction.carries_nil.1 hs, Direction.carries_nil.1 hc, hasked, hprinted⟩
  | asking query hclient => cases hc.symm.trans hclient
  | answering hclient => cases hc.symm.trans hclient

theorem Lockstep.quits {source : List Text} (h : Lockstep dbg interactive lines c) (hc : c.client = .next)
    (hlines : c.asked = lines ∨ ∃ line later, lines = c.asked ++ line :: later ∧ Quits interactive line)
    (hsource : source.length ≤ c.source.length) :
    Follows dbg interactive lines c { c with client := .stopped, source := source } := by
  obtain ⟨hs, hcl, hasked, hprinted⟩ := h.phase.next hc
  have hstage : ({ c with client := .stopped, source := source } : Connection γ).stage < c.stage := by
    simp only [stage, hc]
    split <;> omega
  exact ⟨⟨.between rfl (hs ▸ .silent) (hcl ▸ .silent) hasked hprinted, h.linked, h.mode, fun e => absurd rfl e,
    fun e => absurd rfl e, fun _ => hlines, h.answers⟩, rank_of_stage hstage⟩

theorem Lockstep.line (h : Lockstep dbg interactive lines c) (hl : ∀ line ∈ lines, (Packet.Query line).Sized)
    (hs : step dbg c .line = some d) :
    Follows dbg interactive lines c d := by
  cases hc : c.client with
  | waiting description rows => simp [step, hc] at hs
  | stopped => simp [step, hc] at hs
  | next =>
    have hlines := h.source (by simp [hc])
    cases hsource : c.source with
    | nil =>
      simp only [step, hc, hsource, Option.some.injEq] at hs
      subst hs
      exact h.quits hc (.inl (by rw [hlines, hsource, List.append_nil])) (Nat.zero_le _)
    | cons line source =>
      have hline : lines = c.asked ++ line :: source := by rw [hlines, hsource]
      simp only [step, hc, hsource] at hs
      split_ifs at hs with hquit
      · cases hs
        exact h.quits hc (.inr ⟨line, source, hline, h.mode ▸ hquit⟩) (by simp [hsource])
      · have hsized : (Packet.Query line).Sized := hl line (by simp [hline])
        have hsize : (Packet.Query line).calculatePayloadSize < 2 ^ 32 := Nat.lt_of_lt_of_le hsized (by decide)
        rw [Packet.serialize_eq hsize] at hs
        cases hs
        obtain ⟨hts, htc, hasked, hprinted⟩ := h.phase.next hc
        have hcarries :
            ({ c.toServer with unsent := (Packet.Query line).toBytes } : Direction).Carries [.Query line] := by
          rw [hts]
          exact ⟨by simp [Direction.silent], by simpa using hsized, List.nil_prefix⟩
        have hcount : c.asked.length = c.answers.length := by rw [hasked, List.length_map]
        refine ⟨⟨.asking line rfl hcarries (htc ▸ .silent) (by rw [hasked]) hprinted, h.linked, h.mode,
          fun _ => h.serving (by simp [hc]), fun _ => by
            simp [hline], fun e => (by cases e), h.answers⟩, rank_of_stage ?_⟩
        simp only [stage, hc, hsource, List.length_append, List.length_cons, List.length_nil, hcount]
        omega

theorem Lockstep.clientHandle (h : Lockstep dbg interactive lines c) (hs : step dbg c .clientHandle = some d) :
    Follows dbg interactive lines c d := by
  cases hc : c.client with
  | next => simp [step, hc] at hs
  | stopped => simp [step, hc] at hs
  | waiting description rows =>
    cases h.phase with
    | between hclient => simp [isWaiting, hc] at hclient
    | asking query hclient hts htc =>
      obtain hsilent := Direction.carries_nil.1 htc
      simp [step, hc, hsilent, Direction.silent, reading] at hs
    | @answering before answer description' rows' ps text hclient hts htc hanswers hasked hprinted htext hrest =>
      obtain ⟨rfl, rfl⟩ : description = description' ∧ rows = rows' := by simpa [hc] using hclient
      cases hreading : reading c.toClient.received with
      | more wanted => simp [step, hc, hreading] at hs
      | failed fault => exact absurd hreading htc.not_failed
      | packet p =>
        obtain ⟨rest, rfl, htc'⟩ := htc.packet hreading
        have hne : c.toClient.received ≠ [] := fun e => by
          rw [e] at hreading
          cases hreading
        have hpos := List.length_pos_iff.2 hne
        have hserving := h.serving (by simp [hc])
        have hlines := h.source (by simp [hc])
        simp only [step, hc, hreading] at hs
        unfold respond at hrest
        cases hhandled : handlePacket dbg description rows p with
        | throws fault => simp [hhandled] at hrest
        | exits => simp [hhandled] at hrest
        | waits description₁ rows₁ =>
          rw [hhandled] at hs hrest
          cases hs
          refine ⟨⟨.answering rfl hts htc' hanswers hasked hprinted htext hrest, h.linked, h.mode,
            fun _ => hserving,
            fun _ => hlines, fun e => (by cases e), h.answers⟩, rank_of_load (by simp [stage, hc]) ?_⟩
          simp only [load, List.length_nil]
          omega
        | prints text' =>
          rw [hhandled] at hs hrest
          cases hs
          simp only [Option.ite_none_right_eq_some, Option.some.injEq] at hrest
          obtain ⟨rfl, rfl⟩ := hrest
          have hall : Printed dbg c.answers (c.printed ++ [text']) := by
            rw [hanswers]
            exact List.rel_append hprinted (.cons htext .nil)
          refine ⟨⟨.between rfl hts htc' hasked hall, h.linked, h.mode, fun _ => hserving, fun _ => hlines,
            fun e => (by cases e), h.answers⟩, rank_of_stage ?_⟩
          simp only [stage, hc]
          omega

theorem Lockstep.serverHandle {parsed : Except String (Statement γ)} {env : RequestEnv}
    (h : Lockstep dbg interactive lines c) (hin : InStep c (.serverHandle parsed env))
    (hs : step dbg c (.serverHandle parsed env) = some d) :
    Follows dbg interactive lines c d := by
  obtain ⟨hinstep, hsends, hrows, hsized⟩ := hin
  simp only [step] at hs
  split_ifs at hs with hready
  have hasking : ∀ packet, reading c.toServer.received = .packet packet → ∃ query, packet = .Query query ∧
    c.client = .waiting none [] ∧
      ({ c.toServer with received := [] } : Direction).Carries [] ∧ c.toClient = .silent ∧
      c.asked = c.answers.map (·.1) ++ [query] ∧
        Printed dbg c.answers c.printed := by
    intro packet hreading
    have hsilent : ¬ c.toServer.Carries [] := fun e => by
      rw [Direction.carries_nil.1 e] at hreading
      cases hreading
    cases h.phase with
    | between _ hts => exact absurd hts hsilent
    | answering _ hts => exact absurd hts hsilent
    | asking query hclient hts htc hasked hprinted =>
      obtain ⟨rest, hp, hrest⟩ := hts.packet hreading
      cases hp
      exact ⟨query, rfl, hclient, hrest, Direction.carries_nil.1 htc, hasked, hprinted⟩
  split at hs
  · rename_i packet hreading
    obtain ⟨query, rfl, hclient, hts, htc, hasked, hprinted⟩ := hasking packet hreading
    obtain ⟨t, hrun, hlinked, hanswer⟩ := Session.replied h.linked hsends hinstep
    have hwide : ∀ reply ∈ repliesTo (.query parsed, env) c.session, Wide reply :=
      Session.replies_ok h.linked ⟨wide_terminal, rfl, hrows⟩
    obtain ⟨text, htext⟩ := respond_answer dbg hanswer hwide
    simp only [requestOf, queryOf, hrun, Option.some.injEq] at hs
    subst hs
    have hunder : ({ c.toClient with unsent := (repliesTo (.query parsed, env) c.session).flatMap fun reply =>
      (packetOf reply).toBytes } :
        Direction).Carries ((repliesTo (.query parsed, env) c.session).map packetOf) := by
      rw [htc]
      exact ⟨by simp [Direction.silent, List.flatMap_map], by simpa using hsized, List.nil_prefix⟩
    have hcount : c.asked.length = c.answers.length + 1 := by simp [hasked]
    refine ⟨⟨.answering hclient hts hunder rfl (by simp [hasked]) hprinted htext htext, hlinked, h.mode,
      fun _ => rfl, fun hne => h.source hne, fun e => h.stopped e, fun answer hmem => ?_⟩, rank_of_stage ?_⟩
    · rcases List.mem_append.1 hmem with hmem | hmem
      · exact h.answers answer hmem
      · obtain rfl := List.mem_singleton.1 hmem
        exact hanswer
    · simp only [stage, hclient, List.length_append, List.length_cons, List.length_nil]
      omega
  · rename_i fault hreading
    exfalso
    cases h.phase with
    | between _ hts => exact hts.not_failed hreading
    | asking _ _ hts => exact hts.not_failed hreading
    | answering _ hts => exact hts.not_failed hreading
  · cases hs

theorem Lockstep.step {op : ConnectionOp γ} (h : Lockstep dbg interactive lines c)
    (hl : ∀ line ∈ lines, (Packet.Query line).Sized) (hin : InStep c op)
    (hs : step dbg c op = some d) : Follows dbg interactive lines c d := by
  cases op with
  | line => exact h.line hl hs
  | clientSend n =>
    obtain ⟨ts, hts, rfl⟩ := Option.map_eq_some_iff.1 hs
    exact h.moved (fun ps hps => hps.send hts) (fun ps => id) (Nat.add_lt_add_right (load_send hts) _)
  | clientRecv n =>
    simp only [Connection.step] at hs
    split_ifs at hs
    obtain ⟨tc, htc, rfl⟩ := Option.map_eq_some_iff.1 hs
    exact h.moved (fun ps => id) (fun ps hps => hps.recv htc) (Nat.add_lt_add_left (load_recv htc) _)
  | clientHandle => exact h.clientHandle hs
  | clientLost =>
    simp only [Connection.step] at hs
    split_ifs at hs with hlost
    have hserving : c.serving = true := h.serving fun e => by simp [isWaiting, e] at hlost
    simp [hserving] at hlost
  | serverSend n =>
    obtain ⟨tc, htc, rfl⟩ := Option.map_eq_some_iff.1 hs
    exact h.moved (fun ps => id) (fun ps hps => hps.send htc) (Nat.add_lt_add_left (load_send htc) _)
  | serverRecv n =>
    simp only [Connection.step] at hs
    split_ifs at hs
    obtain ⟨ts, hts, rfl⟩ := Option.map_eq_some_iff.1 hs
    exact h.moved (fun ps hps => hps.recv hts) (fun ps => id) (Nat.add_lt_add_right (load_recv hts) _)
  | serverHandle parsed env => exact h.serverHandle hin hs
  | serverLost =>
    simp only [Connection.step] at hs
    split_ifs at hs with hlost
    split at hs
    · cases hs
      obtain ⟨⟨hserving, -⟩, hstopped, -⟩ := hlost
      refine ⟨⟨?_, h.linked, h.mode, fun hne => absurd hstopped hne, h.source, h.stopped, h.answers⟩,
        rank_of_stage ?_⟩
      · cases h.phase with
        | between hclient hts htc hasked hprinted => exact .between hclient hts htc hasked hprinted
        | asking query hclient => cases hstopped.symm.trans hclient
        | answering hclient => cases hstopped.symm.trans hclient
      · simp [stage, hstopped, hserving]
    · cases hs

theorem clientHandle_moves (dbg : Bool) {p : Packet} (hclient : c.client = .waiting description rows)
    (hp : reading c.toClient.received = .packet p) : ∃ d, Connection.step dbg c .clientHandle = some d := by
  simp only [Connection.step, hclient, hp]
  cases handlePacket dbg description rows p with
  | waits description rows => exact ⟨_, rfl⟩
  | prints text => exact ⟨_, rfl⟩
  | throws fault => exact ⟨_, rfl⟩
  | exits => exact ⟨_, rfl⟩

theorem repliesTo_unparsed (s : Session γ) (what : String) :
    repliesTo (.query (.error what), ⟨[], none, none, none⟩) s = [.errorResponse what] := by
  have htrace : ((Session.handlePacket (.query (.error what), ⟨[], none, none, none⟩)).exec s).trace =
      [Event.sent (.errorResponse what)].reverse ++ s.trace := rfl
  unfold repliesTo
  rw [Session.eventsOf_eq htrace]
  rfl

/-- A client that has not stopped has something to do, or its worker has. -/
theorem Lockstep.moves (h : Lockstep dbg interactive lines c) (hl : ∀ line ∈ lines, (Packet.Query line).Sized)
    (hne : c.client ≠ .stopped) : ∃ op d, InStep c op ∧ Connection.step dbg c op = some d := by
  cases h.phase with
  | between hclient =>
    have hnext : c.client = .next := by
      cases hc : c.client with
      | next => rfl
      | waiting description rows => simp [isWaiting, hc] at hclient
      | stopped => exact absurd hc hne
    cases hsource : c.source with
    | nil => exact ⟨.line, _, trivial, by simp only [Connection.step, hnext, hsource]; rfl⟩
    | cons line source =>
      by_cases hquit : line = [] ∨ (c.interactive = true ∧ line = bytesOf "\\q")
      · exact ⟨.line, _, trivial, by simp only [Connection.step, hnext, hsource, if_pos hquit]; rfl⟩
      · have hsized : (Packet.Query line).Sized := hl line (by simp [h.source hne, hsource])
        have hbytes := @Packet.serialize_eq dbg _ (Nat.lt_of_lt_of_le hsized (by decide))
        exact ⟨.line, _, trivial, by simp only [Connection.step, hnext, hsource, if_neg hquit, hbytes]; rfl⟩
  | asking query hclient hts htc =>
    have hsilent := Direction.carries_nil.1 htc
    have hready : c.serving = true ∧ c.toClient.unsent = [] := ⟨h.serving hne, by rw [hsilent]; rfl⟩
    rcases hts.moves (by simp) with ⟨ts, hsend⟩ | ⟨hunsent, ⟨ts, hrecv⟩ | ⟨p, hp⟩⟩
    · exact ⟨.clientSend 1, _, trivial, by rw [Connection.step, hsend]; rfl⟩
    · exact ⟨.serverRecv 1, _, trivial, by rw [Connection.step, if_pos hready, hrecv]; rfl⟩
    · have hin : InStep c (.serverHandle (.error "") ⟨[], none, none, none⟩) := by
        refine ⟨rfl, by simp, by simp [Session.rowsOf], ?_⟩
        rw [repliesTo_unparsed]
        decide
      exact ⟨_, _, hin, by simp only [Connection.step, if_pos hready, hp]; rfl⟩
  | answering hclient hts htc hanswers hasked hprinted htext hrest =>
    have hunsent : c.toServer.unsent = [] := by rw [Direction.carries_nil.1 hts]; rfl
    have hwaiting : c.isWaiting = true ∧ c.toServer.unsent = [] := ⟨by simp [isWaiting, hclient], hunsent⟩
    rcases htc.moves (by rintro rfl; cases hrest) with ⟨tc, hsend⟩ | ⟨-, ⟨tc, hrecv⟩ | ⟨p, hp⟩⟩
    · exact ⟨.serverSend 1, _, trivial, by rw [Connection.step, hsend]; rfl⟩
    · exact ⟨.clientRecv 1, _, trivial, by rw [Connection.step, if_pos hwaiting, hrecv]; rfl⟩
    · obtain ⟨d, hd⟩ := clientHandle_moves dbg hclient hp
      exact ⟨.clientHandle, d, trivial, hd⟩

theorem lockstep_start (dbg : Bool) : Lockstep dbg interactive lines (start interactive lines : Connection γ) where
  phase := .between rfl .silent .silent rfl .nil
  linked := .init
  mode := rfl
  serving _ := rfl
  source _ := rfl
  stopped e := by cases e
  answers _ h := by cases h

end

/-! ## Every query is answered -/

/-- Of the lines, the first ones were asked, and all but the last of these are answered and printed.
The client stops only for want of a line, and until then something can happen. -/
structure Served (dbg interactive : Bool) (lines : List Text) (c : Connection γ) : Prop where
  asked : c.asked <+: lines
  answered : c.answers.map (·.1) <+: c.asked
  answers : ∀ answer ∈ c.answers, Session.IsAnswer answer.2
  printed : ∃ done, done <+: c.answers ∧ Printed dbg done c.printed
  one : c.asked.length ≤ c.printed.length + 1
  idle : c.isWaiting = false → c.asked.length = c.printed.length ∧ c.toServer = .silent ∧ c.toClient = .silent
  stopped :
    c.client = .stopped → c.asked = lines ∨ ∃ line later, lines = c.asked ++ line :: later ∧ Quits interactive line
  moves : c.client ≠ .stopped → ∃ op d, InStep c op ∧ Connection.step dbg c op = some d

theorem Lockstep.served {interactive : Bool} {lines : List Text} (h : Lockstep dbg interactive lines c)
    (hl : ∀ line ∈ lines, (Packet.Query line).Sized) : Served dbg interactive lines c := by
  have hasked : c.asked <+: lines := by
    by_cases hc : c.client = .stopped
    · rcases h.stopped hc with e | ⟨line, later, e, -⟩
      · exact e ▸ List.prefix_rfl
      · exact ⟨_, e.symm⟩
    · exact ⟨_, (h.source hc).symm⟩
  cases h.phase with
  | between hclient hts htc hq hprinted =>
    have hcount : c.asked.length = c.printed.length := by rw [hq, List.length_map, hprinted.length_eq]
    exact ⟨hasked, hq ▸ List.prefix_rfl, h.answers, ⟨_, List.prefix_rfl, hprinted⟩, by omega,
      fun _ => ⟨hcount, Direction.carries_nil.1 hts, Direction.carries_nil.1 htc⟩, h.stopped, h.moves hl⟩
  | asking query hclient hts htc hq hprinted =>
    have hcount : c.asked.length = c.printed.length + 1 := by simp [hq, hprinted.length_eq]
    exact ⟨hasked, hq ▸ List.prefix_append _ _, h.answers, ⟨_, List.prefix_rfl, hprinted⟩, by omega,
      fun e => by simp [isWaiting, hclient] at e, h.stopped, h.moves hl⟩
  | answering hclient hts htc hanswers hq hprinted =>
    have hcount : c.asked.length = c.printed.length + 1 := by simp [hq, hanswers, hprinted.length_eq]
    exact ⟨hasked, hq ▸ List.prefix_rfl, h.answers, ⟨_, hanswers ▸ List.prefix_append _ _, hprinted⟩, by omega,
      fun e => by simp [isWaiting, hclient] at e, h.stopped, h.moves hl⟩

/-- The client and its worker take turns until the client stops. -/
theorem client_served (dbg interactive : Bool) {lines : List Text}
    (hl : ∀ line ∈ lines, (Packet.Query line).Sized) :
    (∀ c : Connection γ, Reach (step dbg) InStep (start interactive lines) c → Served dbg interactive lines c) ∧
      ∀ run : ℕ → Connection γ, run 0 = start interactive lines → ¬ Endless (step dbg) InStep run := by
  have hstep : ∀ (c : Connection γ) op d, Lockstep dbg interactive lines c → InStep c op → step dbg c op = some d →
      Lockstep dbg interactive lines d ∧ d.rank < c.rank := fun c op d h hin hs => h.step hl hin hs
  refine ⟨fun c hc => Lockstep.served ?_ hl, fun run h0 => not_endless hstep ?_⟩
  · exact hc.inv (fun s op t hs hin hst => (hstep s op t hs hin hst).1) (lockstep_start dbg)
  · rw [h0]
    exact lockstep_start dbg

theorem select_no_changes : CommandTag.Select = .Select → ([] : List Unit) = [] := fun _ => rfl

/-- A `SELECT` with one row. -/
def selectOne : Statement Unit :=
  .plannable (.ok ⟨.Select, none, none, [[some "1", none]], [], none, none, 1, select_no_changes⟩)

/-- One query, whose bytes arrive in parts, and the end of the source. -/
def turns : List (ConnectionOp Unit) :=
  [.line, .clientSend 3, .clientSend 7, .serverRecv 1, .serverRecv 2, .serverRecv 2, .serverRecv 5,
    .serverHandle (.ok selectOne) ⟨[], none, none, none⟩, .serverSend 10, .clientRecv 1, .clientRecv 4,
    .clientRecv 5, .serverSend 50,
    .clientRecv 9, .clientHandle, .clientRecv 1, .clientRecv 4, .clientRecv 13, .clientHandle, .clientRecv 1,
    .clientRecv 4, .clientRecv 18, .clientHandle, .line, .serverLost]

theorem client_served_turns : ∃ c : Connection Unit, Served true false [[97]] c ∧ c.client = .stopped ∧
    c.printed = [bytesOf " a | b \n---+---\n 1 |   \n(1 row)\n"] := by
  have h : (exec (guarded InStep (step true)) (start false [[97]]) turns).map
      (fun c => decide (c.client = .stopped ∧ c.printed = [bytesOf " a | b \n---+---\n 1 |   \n(1 row)\n"])) =
      some true := by
    decide +kernel
  obtain ⟨c, hc, htest⟩ := Option.map_eq_some_iff.1 h
  obtain ⟨hstopped, hprinted⟩ := of_decide_eq_true htest
  exact ⟨c, (client_served true false (by decide)).1 c (Steps.of_guarded hc).reach, hstopped, hprinted⟩

end Connection

end Mimidb
