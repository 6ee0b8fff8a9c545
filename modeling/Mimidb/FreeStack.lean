import Mathlib.Data.List.Nodup
import Mimidb.Run

/-!
# The stack of free buffers

`LinkedList` one atomic operation at a time. The exchange of a `Get` compares
the head only; if its node has left the stack and come back since `Next` was
read, the new head is not the successor any more.
-/

namespace Mimidb

/-- Program points: each names the operation that comes next. -/
inductive StackPc (N : Type) where
  | idle
  -- `Add`
  | addLink (node : N) (old : Option N)
  | addCas (node : N) (old : Option N)
  -- `Get`
  | getNext (old : Option N)
  | getCas (old : N) (next : Option N)
  deriving DecidableEq, Repr

structure FreeStack (W N : Type) where
  head : Option N
  next : N → Option N
  /-- How often a worker has a node. -/
  owned : W → N → Nat
  pc : W → StackPc N

inductive StackOp (N : Type) where
  | add (node : N)
  | get
  | run
  /-- A weak exchange that fails without reason. -/
  | fail
  deriving DecidableEq, Repr

/-- The nodes from `head` on. -/
def NodesFrom {N : Type} (next : N → Option N) : Option N → List N → Prop
  | head, [] => head = none
  | head, n :: nodes => head = some n ∧ NodesFrom next (next n) nodes

section
variable {N : Type} {next next' : N → Option N} {head : Option N} {nodes nodes' : List N}

theorem NodesFrom.congr :
    ∀ {nodes : List N} {head : Option N}, NodesFrom next head nodes → (∀ n ∈ nodes, next' n = next n) →
    NodesFrom next' head nodes
  | [], _, h, _ => h
  | n :: nodes, _, h, hn => by
    refine ⟨h.1, ?_⟩
    rw [hn n List.mem_cons_self]
    exact h.2.congr fun m hm => hn m (List.mem_cons_of_mem _ hm)

theorem NodesFrom.unique :
    ∀ {nodes nodes' : List N} {head : Option N}, NodesFrom next head nodes → NodesFrom next head nodes' →
    nodes = nodes'
  | [], [], _, _, _ => rfl
  | [], n :: _, _, h, h' => by
    have hnone : _ = none := h
    rw [hnone] at h'
    cases h'.1
  | n :: _, [], _, h, h' => by
    have hnone : _ = none := h'
    rw [hnone] at h
    cases h.1
  | n :: nodes, m :: nodes', _, h, h' => by
    have he : some n = some m := h.1.symm.trans h'.1
    cases he
    rw [h.2.unique h'.2]

/-- A list that starts behind the head of a chain leaves nodes of it out. -/
theorem NodesFrom.suffix : ∀ {nodes : List N} {head : Option N}, NodesFrom next head nodes → ∀ {n : N}, n ∈ nodes →
    ∃ before after, nodes = before ++ n :: after ∧ NodesFrom next (some n) (n :: after)
  | [], _, _, _, hn => nomatch hn
  | m :: nodes, _, h, n, hn => by
    rcases List.mem_cons.1 hn with rfl | hn
    · exact ⟨[], nodes, rfl, rfl, h.2⟩
    · obtain ⟨before, after, rfl, hfrom⟩ := h.2.suffix hn
      exact ⟨m :: before, after, rfl, hfrom⟩

end

namespace FreeStack

variable {W N : Type}

section
variable [DecidableEq W] [DecidableEq N]

/-- An empty list; the nodes are with their owners. -/
def init (owner : N → W) : FreeStack W N :=
  ⟨none, fun _ => none, fun w n => if owner n = w then 1 else 0, fun _ => .idle⟩

@[simp] def goto (s : FreeStack W N) (w : W) (p : StackPc N) : FreeStack W N :=
  { s with pc := Function.update s.pc w p }

@[simp] def setOwned (s : FreeStack W N) (w : W) (node : N) (n : Nat) : FreeStack W N :=
  { s with owned := Function.update s.owned w (Function.update (s.owned w) node n) }

def runPc (s : FreeStack W N) (w : W) : StackPc N → Option (FreeStack W N)
  | .idle => none
  | .addLink node old => some ({ s with next := Function.update s.next node old }.goto w (.addCas node old))
  | .addCas node old =>
    if s.head = old then some (({ s with head := some node }.setOwned w node (s.owned w node - 1)).goto w .idle)
    else some (s.goto w (.addLink node s.head))
  -- an empty list gives no node
  | .getNext none => some (s.goto w .idle)
  | .getNext (some old) => some (s.goto w (.getCas old (s.next old)))
  | .getCas old next =>
    if s.head = some old then some (({ s with head := next }.setOwned w old (s.owned w old + 1)).goto w .idle)
    else some (s.goto w (.getNext s.head))

/-- An idle worker makes a call, which starts with the load of the head; only an owner adds a node. -/
def step (s : FreeStack W N) : W × StackOp N → Option (FreeStack W N)
  | (w, .add node) => if s.pc w = .idle ∧ s.owned w node ≠ 0 then some (s.goto w (.addLink node s.head)) else none
  | (w, .get) => if s.pc w = .idle then some (s.goto w (.getNext s.head)) else none
  | (w, .run) => s.runPc w (s.pc w)
  | (w, .fail) =>
    match s.pc w with
    | .addCas node _ => some (s.goto w (.addLink node s.head))
    | .getCas _ _ => some (s.goto w (.getNext s.head))
    | _ => none

end

/-- In the list, or with one owner. -/
def Placed (s : FreeStack W N) (nodes : List N) (n : N) : Prop :=
  (n ∈ nodes ∧ ∀ w, s.owned w n = 0) ∨ n ∉ nodes ∧ ∃ w, s.owned w n = 1 ∧ ∀ v, v ≠ w → s.owned v n = 0

/-- Every node is in the list exactly once or with exactly one worker. -/
def Conserved (s : FreeStack W N) : Prop :=
  ∃ nodes : List N, NodesFrom s.next s.head nodes ∧ nodes.Nodup ∧ ∀ n, s.Placed nodes n

/-- A `Get` that finds its node at the head has read the `Next` that the node still has. -/
def NextUnchanged (s : FreeStack W N) (a : W × StackOp N) : Prop :=
  match a.2, s.pc a.1 with
  | .run, .getCas old next => s.head = some old → s.next old = next
  | _, _ => True

/-! ## Invariant -/

variable [DecidableEq W] [DecidableEq N] {s t : FreeStack W N} {w : W}

/-- A worker has the node that it adds, and the node points where the exchange expects the head. -/
structure StackInv (s : FreeStack W N) : Prop where
  conserved : s.Conserved
  link : ∀ w node old, s.pc w = .addLink node old → s.owned w node ≠ 0
  cas : ∀ w node old, s.pc w = .addCas node old → s.owned w node ≠ 0 ∧ s.next node = old

omit [DecidableEq N] in
theorem StackInv.init (owner : N → W) : StackInv (init owner : FreeStack W N) := by
  refine ⟨⟨[], rfl, List.nodup_nil, fun n => .inr ⟨nofun, owner n, ?_, fun v hv => ?_⟩⟩, nofun, nofun⟩
  · exact if_pos rfl
  · exact if_neg (Ne.symm hv)

theorem setOwned_other (s : FreeStack W N) (node n : N) {v : W} (h : n ≠ node ∨ v ≠ w) (k : Nat) :
    (s.setOwned w node k).owned v n = s.owned v n := by
  by_cases e : v = w
  · subst e
    simp [Function.update_of_ne (h.resolve_right fun h => h rfl)]
  · simp [Function.update_of_ne e]

omit [DecidableEq N] in
theorem StackInv.goto (hi : StackInv s) {p : StackPc N}
    (hlink : ∀ node old, p = .addLink node old → s.owned w node ≠ 0)
    (hcas : ∀ node old, p = .addCas node old → s.owned w node ≠ 0 ∧ s.next node = old) : StackInv (s.goto w p) := by
  refine ⟨hi.conserved, fun v node old hv => ?_, fun v node old hv => ?_⟩
  · by_cases e : v = w
    · subst e
      exact hlink node old (by simpa using hv)
    · exact hi.link v node old (by simpa [e] using hv)
  · by_cases e : v = w
    · subst e
      exact hcas node old (by simpa using hv)
    · exact hi.cas v node old (by simpa [e] using hv)

theorem StackInv.moved {head : Option N} {node : N} {k : Nat} (hi : StackInv s)
    (hc : ({ s with head := head }.setOwned w node k : FreeStack W N).Conserved) :
    StackInv (({ s with head := head }.setOwned w node k).goto w .idle) := by
  refine ⟨hc, fun v node' old' hv => ?_, fun v node' old' hv => ?_⟩
  · by_cases e : v = w
    · subst e
      simp at hv
    · have howned := setOwned_other { s with head := head } node node' (.inr e) k
      exact fun h0 => hi.link v node' old' (by simpa [e] using hv) (howned.symm.trans h0)
  · by_cases e : v = w
    · subst e
      simp at hv
    · have howned := setOwned_other { s with head := head } node node' (.inr e) k
      obtain ⟨hown, hnext⟩ := hi.cas v node' old' (by simpa [e] using hv)
      exact ⟨fun h0 => hown (howned.symm.trans h0), hnext⟩

omit [DecidableEq N] in
theorem Placed.owner {nodes : List N} {n : N} (h : s.Placed nodes n) (ho : s.owned w n ≠ 0) :
    n ∉ nodes ∧ s.owned w n = 1 ∧ ∀ v, v ≠ w → s.owned v n = 0 := by
  rcases h with ⟨-, h⟩ | ⟨hn, u, hu, h⟩
  · exact absurd (h w) ho
  · by_cases e : w = u
    · subst e
      exact ⟨hn, hu, h⟩
    · exact absurd (h w e) ho

theorem StackInv.link_step {node : N} {old : Option N} (hi : StackInv s) (hp : s.pc w = .addLink node old) :
    StackInv ({ s with next := Function.update s.next node old }.goto w (.addCas node old)) := by
  have hown := hi.link w node old hp
  obtain ⟨nodes, hfrom, hnodup, hplaced⟩ := hi.conserved
  obtain ⟨hnot, -, hothers⟩ := (hplaced node).owner hown
  refine ⟨⟨nodes, hfrom.congr fun n hn => Function.update_of_ne (fun e : n = node => hnot (e ▸ hn)) _ _, hnodup,
    hplaced⟩, fun v node' old' hv => ?_, fun v node' old' hv => ?_⟩
  · by_cases e : v = w
    · subst e
      simp at hv
    · exact hi.link v node' old' (by simpa [e] using hv)
  · by_cases e : v = w
    · subst e
      simp only [FreeStack.goto, Function.update_self, StackPc.addCas.injEq] at hv
      obtain ⟨rfl, rfl⟩ := hv
      exact ⟨hown, Function.update_self ..⟩
    · obtain ⟨hown', hnext⟩ := hi.cas v node' old' (by simpa [e] using hv)
      have hne : node' ≠ node := fun he => hown' (he ▸ hothers v e)
      exact ⟨hown', by simpa [Function.update_of_ne hne] using hnext⟩

theorem Placed.moved {head : Option N} {nodes nodes' : List N} {node n : N} {k : Nat} (h : s.Placed nodes n)
    (hne : n ≠ node) (hn : n ∈ nodes' ↔ n ∈ nodes) :
    ({ s with head := head }.setOwned w node k : FreeStack W N).Placed nodes' n := by
  have howned : ∀ v, ({ s with head := head }.setOwned w node k : FreeStack W N).owned v n = s.owned v n :=
    fun v => setOwned_other { s with head := head } _ _ (.inl hne) k
  rcases h with ⟨hmem, h0⟩ | ⟨hnot, v, h1, h0⟩
  · exact .inl ⟨hn.2 hmem, fun v => (howned v).trans (h0 v)⟩
  · exact .inr ⟨fun h => hnot (hn.1 h), v, (howned v).trans h1, fun u hu => (howned u).trans (h0 u hu)⟩

theorem StackInv.add_step {node : N} {old : Option N} (hi : StackInv s) (hp : s.pc w = .addCas node old)
    (hh : s.head = old) :
    StackInv (({ s with head := some node }.setOwned w node (s.owned w node - 1)).goto w .idle) := by
  obtain ⟨hown, hnext⟩ := hi.cas w node old hp
  obtain ⟨nodes, hfrom, hnodup, hplaced⟩ := hi.conserved
  obtain ⟨hnot, hone, hothers⟩ := (hplaced node).owner hown
  refine hi.moved ⟨node :: nodes, ⟨rfl, ?_⟩, List.nodup_cons.2 ⟨hnot, hnodup⟩, fun n => ?_⟩
  · show NodesFrom s.next (s.next node) nodes
    rw [hnext, ← hh]
    exact hfrom
  · by_cases e : n = node
    · subst e
      refine .inl ⟨List.mem_cons_self, fun v => ?_⟩
      by_cases ev : v = w
      · subst ev
        simp [hone]
      · exact (setOwned_other { s with head := some n } _ _ (.inr ev) _).trans (hothers v ev)
    · refine (hplaced n).moved e ⟨fun h => ?_, List.mem_cons_of_mem _⟩
      exact (List.mem_cons.1 h).resolve_left e

theorem StackInv.get_step {old : N} (hi : StackInv s) (hh : s.head = some old) :
    StackInv (({ s with head := s.next old }.setOwned w old (s.owned w old + 1)).goto w .idle) := by
  obtain ⟨nodes, hfrom, hnodup, hplaced⟩ := hi.conserved
  cases nodes with
  | nil =>
    rw [hh] at hfrom
    cases hfrom
  | cons first nodes =>
    have he : some old = some first := hh.symm.trans hfrom.1
    obtain rfl := Option.some.inj he
    obtain ⟨hnot, hnodup'⟩ := List.nodup_cons.1 hnodup
    have hfree : ∀ v, s.owned v old = 0 := by
      rcases hplaced old with ⟨-, h⟩ | ⟨h, -⟩
      · exact h
      · exact absurd List.mem_cons_self h
    refine hi.moved ⟨nodes, hfrom.2, hnodup', fun n => ?_⟩
    by_cases e : n = old
    · subst e
      refine .inr ⟨hnot, w, by simp [hfree w], fun v hv => ?_⟩
      exact (setOwned_other { s with head := s.next n } _ _ (.inr hv) _).trans (hfree v)
    · refine (hplaced n).moved e ⟨List.mem_cons_of_mem _, fun h => ?_⟩
      exact (List.mem_cons.1 h).resolve_left e

theorem StackInv.step {a : W × StackOp N} (hi : StackInv s) (hc : s.NextUnchanged a) (h : s.step a = some t) :
    StackInv t := by
  obtain ⟨w, op⟩ := a
  cases op with
  | add node =>
    simp only [FreeStack.step] at h
    split_ifs at h with hg
    cases h
    refine hi.goto (fun node' old' he => ?_) nofun
    obtain ⟨rfl, -⟩ := StackPc.addLink.inj he
    exact hg.2
  | get =>
    simp only [FreeStack.step] at h
    split_ifs at h
    cases h
    exact hi.goto nofun nofun
  | fail =>
    simp only [FreeStack.step] at h
    split at h <;> cases h
    · rename_i node old hp
      refine hi.goto (fun node' old' he => ?_) nofun
      obtain ⟨rfl, -⟩ := StackPc.addLink.inj he
      exact (hi.cas w _ old hp).1
    · exact hi.goto nofun nofun
  | run =>
    simp only [FreeStack.step] at h
    cases hp : s.pc w with
    | idle =>
      rw [hp] at h
      cases h
    | addLink node old =>
      rw [hp] at h
      cases h
      exact hi.link_step hp
    | addCas node old =>
      rw [hp] at h
      simp only [runPc] at h
      split_ifs at h with hh
      · cases h
        exact hi.add_step hp hh
      · cases h
        refine hi.goto (fun node' old' he => ?_) nofun
        obtain ⟨rfl, -⟩ := StackPc.addLink.inj he
        exact (hi.cas w _ old hp).1
    | getNext old =>
      rw [hp] at h
      cases old <;> cases h <;> exact hi.goto nofun nofun
    | getCas old next =>
      rw [hp] at h
      simp only [runPc] at h
      split_ifs at h with hh
      · cases h
        have hnext : s.next old = next := by
          simp only [NextUnchanged, hp] at hc
          exact hc hh
        rw [← hnext]
        exact hi.get_step hh
      · cases h
        exact hi.goto nofun nofun

/-- With a `Next` that is not the node's any more the exchange takes the wrong rest of the list. -/
theorem not_conserved {old : N} {next : Option N} (hi : StackInv s) (hh : s.head = some old)
    (hnext : s.next old ≠ next) :
    ¬ (({ s with head := next }.setOwned w old (s.owned w old + 1)).goto w .idle : FreeStack W N).Conserved := by
  rintro ⟨nodes', hfrom', hnodup', hplaced'⟩
  obtain ⟨nodes, hfrom, hnodup, hplaced⟩ := hi.conserved
  cases nodes with
  | nil =>
    rw [hh] at hfrom
    cases hfrom
  | cons first nodes =>
    have he : some old = some first := hh.symm.trans hfrom.1
    obtain rfl := Option.some.inj he
    have hfrom' : NodesFrom s.next next nodes' := hfrom'
    have hsame : ∀ n, n ≠ old → (n ∈ nodes' ↔ n ∈ nodes) := by
      intro n hn
      have howned :
        ∀ v, ({ s with head := next }.setOwned w old (s.owned w old + 1) : FreeStack W N).owned v n = s.owned v n :=
        fun v => setOwned_other { s with head := next } _ _ (.inl hn) _
      rcases hplaced n with ⟨hm, h0⟩ | ⟨hm, v, h1, -⟩
      · refine iff_of_true ?_ ((List.mem_cons.1 hm).resolve_left hn)
        rcases hplaced' n with ⟨hm', -⟩ | ⟨-, v, h1, -⟩
        · exact hm'
        · have h0' := (howned v).symm.trans h1
          rw [h0 v] at h0'
          cases h0'
      · refine iff_of_false ?_ fun h => hm (List.mem_cons_of_mem _ h)
        rcases hplaced' n with ⟨-, h0⟩ | ⟨hm', -⟩
        · have h0' := (howned v).symm.trans (h0 v)
          rw [h1] at h0'
          cases h0'
        · exact hm'
    have hold' : old ∉ nodes' := by
      rcases hplaced' old with ⟨-, h0⟩ | ⟨hm', -⟩
      · have h0' := h0 w
        simp at h0'
      · exact hm'
    obtain ⟨hold, hnodup⟩ := List.nodup_cons.1 hnodup
    cases nodes' with
    | nil =>
      cases nodes with
      | nil => exact hnext (hfrom.2.trans hfrom'.symm)
      | cons n _ =>
        have hn : n ≠ old := fun e => hold (e ▸ List.mem_cons_self)
        exact absurd ((hsame n hn).2 List.mem_cons_self) List.not_mem_nil
    | cons m nodes' =>
      have hm : m ≠ old := fun e => hold' (e ▸ List.mem_cons_self)
      obtain ⟨before, after, rfl, hafter⟩ := hfrom.2.suffix ((hsame m hm).1 List.mem_cons_self)
      have hrest : nodes' = after := hfrom'.2.unique hafter.2
      cases before with
      | nil => exact hnext (hfrom.2.1.trans hfrom'.1.symm)
      | cons n before =>
        -- the first node of the old rest is in no list any more
        have hn : n ≠ old := fun e => hold (e ▸ List.mem_cons_self)
        have hin := (hsame n hn).2 List.mem_cons_self
        rw [hrest] at hin
        exact (List.nodup_cons.1 hnodup).1 (List.mem_append_right _ hin)

theorem stack_conserved {owner : N → W} (h : Reach FreeStack.step NextUnchanged (init owner) s) :
    s.Conserved ∧ ∀ a t, s.step a = some t → (t.Conserved ↔ s.NextUnchanged a) := by
  have hi : StackInv s := h.inv (fun _ _ _ hi hc h => hi.step hc h) (.init owner)
  refine ⟨hi.conserved, fun a t ht => ?_⟩
  by_cases hc : s.NextUnchanged a
  · exact iff_of_true (hi.step hc ht).conserved hc
  · refine iff_of_false ?_ hc
    obtain ⟨w, op⟩ := a
    unfold NextUnchanged at hc
    simp only at hc
    split at hc
    · rename_i old next hp
      have hh : s.head = some old ∧ s.next old ≠ next := Classical.not_imp.1 hc
      simp only [FreeStack.step, hp, runPc, if_pos hh.1] at ht
      cases ht
      exact not_conserved hi hh.1 hh.2
    · exact absurd trivial hc

/-! ## Runs -/

instance (s : FreeStack W N) (a : W × StackOp N) : Decidable (s.NextUnchanged a) := by
  unfold NextUnchanged
  split <;> infer_instance

def adds (w : W) (node : N) : List (W × StackOp N) := [(w, .add node), (w, .run), (w, .run)]

def gets (w : W) : List (W × StackOp N) := [(w, .get), (w, .run), (w, .run)]

/-- Two workers take a node each while both are in `Get`. -/
theorem stack_conserved_two :
    ∃ s : FreeStack (Fin 2) (Fin 3), (s.owned 0 1 = 1 ∧ s.owned 1 0 = 1) ∧ s.Conserved := by
  have h : (exec (guarded NextUnchanged FreeStack.step) (init fun _ => 0 : FreeStack (Fin 2) (Fin 3))
      (adds 0 0 ++ adds 0 1 ++ [(0, .get), (1, .get), (0, .run), (0, .run), (1, .run), (1, .run), (1, .run),
        (1, .run)])).map
      (fun s => decide (s.owned 0 1 = 1 ∧ s.owned 1 0 = 1)) = some true := by decide +kernel
  obtain ⟨s, hr, hs⟩ := reach_of_test h
  exact ⟨s, of_decide_eq_true hs, (stack_conserved hr.of_guarded).1⟩

/-- While one worker is in `Get`, the other takes two nodes and gives the first
one back; then both have the second. -/
theorem node_handed_out_twice : ∃ s : FreeStack (Fin 2) (Fin 3), Reach FreeStack.step anyStep (init fun _ => 1) s ∧
    s.owned 0 1 = 1 ∧ s.owned 1 1 = 1 ∧ ¬ s.Conserved := by
  have h : (exec FreeStack.step (init fun _ => 1 : FreeStack (Fin 2) (Fin 3))
      (adds 1 1 ++ adds 1 0 ++ [(0, .get), (0, .run)] ++ gets 1 ++ gets 1 ++ adds 1 0 ++ [(0, .run)] ++ gets 0)).map
      (fun s => decide (s.owned 0 1 = 1 ∧ s.owned 1 1 = 1)) = some true := by decide +kernel
  obtain ⟨s, hr, hs⟩ := reach_of_test h
  obtain ⟨h0, h1⟩ := of_decide_eq_true hs
  refine ⟨s, hr, h0, h1, ?_⟩
  rintro ⟨nodes, -, -, hplaced⟩
  have hothers := ((hplaced 1).owner (w := 0) (by rw [h0]; nofun)).2.2 1 (by decide)
  rw [h1] at hothers
  cases hothers

end FreeStack

end Mimidb
