import Mimidb.LockProgram

/-!
# Programs that keep an invariant

`Keeps` follows a program through every interleaving: the invariant speaks of
the shared state, of a record of the past, of the locks that everybody holds
and of a note that every worker keeps on what it is doing. Before every step
the others may have done anything that keeps the invariant; the step keeps it
with a new note of the worker.
-/

namespace Mimidb

/-- What the proof of a program is relative to. -/
structure LockLogic (W R L σ ρ G : Type) where
  inv : σ → ρ → (W → List R) → (W → G) → Prop
  /-- The record after a step. -/
  note : ρ → W → σ → L → ρ
  /-- What is assumed of the state before a step. -/
  cond : σ → ρ → L → Prop

namespace Prog

variable {W R L σ ρ G ε α β : Type} [DecidableEq W] [DecidableEq R] [Locks R σ]

/-- The program of `w` keeps the invariant from where it holds `held` and notes `g`, and ends in `Q`. -/
def Keeps (T : LockLogic W R L σ ρ G) (w : W) :
    Prog R L σ ε α → List R → G → (Except ε α → List R → G → Prop) → Prop
  | .done a, held, g, Q => Q (.ok a) held g
  | .throw err, held, g, Q => Q (.error err) held g
  | .abort, _, _, _ => True
  | .forever, _, _, _ => True
  | .lock r next, held, g, Q => ∀ s p H γ, T.inv s p H γ → H w = held → γ w = g → Locks.free s r = true →
    ∃ g', T.inv (Locks.take r s) p (Function.update H w (r :: held)) (Function.update γ w g') ∧
    (next s).Keeps T w (r :: held) g' Q
  | .unlock r next, held, g, Q => ∀ s p H γ, T.inv s p H γ → H w = held → γ w = g →
    ∃ g', T.inv (Locks.give r s) p (Function.update H w (held.erase r)) (Function.update γ w g') ∧
    (next s).Keeps T w (held.erase r) g' Q
  | .access label next upd, held, g, Q => ∀ s p H γ, T.inv s p H γ → H w = held → γ w = g → T.cond s p label →
    ∃ g', T.inv (upd s) (T.note p w s label) H (Function.update γ w g') ∧ (next s).Keeps T w held g' Q

variable {T : LockLogic W R L σ ρ G} {w : W} {p : Prog R L σ ε α} {f : α → Prog R L σ ε β} {held : List R} {g : G}
  {P : Except ε α → List R → G → Prop} {Q : Except ε β → List R → G → Prop}

/-! ### The same step with another rest -/

theorem Keeps.lock {r : R} {next : σ → Prog R L σ ε α} {next' : σ → Prog R L σ ε β}
    (hn : ∀ s held g, (next s).Keeps T w held g P → (next' s).Keeps T w held g Q)
    (h : (Prog.lock r next).Keeps T w held g P) :
    (Prog.lock r next').Keeps T w held g Q := by
  intro s p H γ hI hH hγ hf
  obtain ⟨g', hI', hk⟩ := h s p H γ hI hH hγ hf
  exact ⟨g', hI', hn s _ g' hk⟩

theorem Keeps.unlock {r : R} {next : σ → Prog R L σ ε α} {next' : σ → Prog R L σ ε β}
    (hn : ∀ s held g, (next s).Keeps T w held g P → (next' s).Keeps T w held g Q)
    (h : (Prog.unlock r next).Keeps T w held g P) :
    (Prog.unlock r next').Keeps T w held g Q := by
  intro s p H γ hI hH hγ
  obtain ⟨g', hI', hk⟩ := h s p H γ hI hH hγ
  exact ⟨g', hI', hn s _ g' hk⟩

theorem Keeps.access {label : L} {next : σ → Prog R L σ ε α} {next' : σ → Prog R L σ ε β} {upd : σ → σ}
    (hn : ∀ s held g, (next s).Keeps T w held g P → (next' s).Keeps T w held g Q)
    (h : (Prog.access label next upd).Keeps T w held g P) : (Prog.access label next' upd).Keeps T w held g Q := by
  intro s p H γ hI hH hγ hc
  obtain ⟨g', hI', hk⟩ := h s p H γ hI hH hγ hc
  exact ⟨g', hI', hn s _ g' hk⟩

/-! ### Rules -/

theorem Keeps.mono {P' : Except ε α → List R → G → Prop} (hP : ∀ res held g, P res held g → P' res held g)
    (h : p.Keeps T w held g P) : p.Keeps T w held g P' := by
  induction p generalizing held g with
  | done a => exact hP _ _ _ h
  | throw err => exact hP _ _ _ h
  | abort => trivial
  | forever => trivial
  | lock r next ih => exact Keeps.lock (fun s _ _ hk => ih s hk) h
  | unlock r next ih => exact Keeps.unlock (fun s _ _ hk => ih s hk) h
  | access label next upd ih => exact Keeps.access (fun s _ _ hk => ih s hk) h

theorem Keeps.bind (h : p.Keeps T w held g fun
      | .ok a, held, g => (f a).Keeps T w held g Q
      | .error err, held, g => Q (.error err) held g) : (p >>= f).Keeps T w held g Q := by
  show (Prog.bind p f).Keeps T w held g Q
  induction p generalizing held g with
  | done a => exact h
  | throw err => exact h
  | abort => trivial
  | forever => trivial
  | lock r next ih => exact Keeps.lock (fun s _ _ hk => ih s hk) h
  | unlock r next ih => exact Keeps.unlock (fun s _ _ hk => ih s hk) h
  | access label next upd ih => exact Keeps.access (fun s _ _ hk => ih s hk) h

theorem Keeps.tryCatch {k : ε → Prog R L σ ε α} (h : p.Keeps T w held g fun
      | .ok a, held, g => P (.ok a) held g
      | .error err, held, g => (k err).Keeps T w held g P) : (tryCatch p k).Keeps T w held g P := by
  show (Prog.catchError p k).Keeps T w held g P
  induction p generalizing held g with
  | done a => exact h
  | throw err => exact h
  | abort => trivial
  | forever => trivial
  | lock r next ih => exact Keeps.lock (fun s _ _ hk => ih s hk) h
  | unlock r next ih => exact Keeps.unlock (fun s _ _ hk => ih s hk) h
  | access label next upd ih => exact Keeps.access (fun s _ _ hk => ih s hk) h

theorem Keeps.ite {c : Prop} [Decidable c] {q : Prog R L σ ε α} (hp : c → p.Keeps T w held g P)
    (hq : ¬ c → q.Keeps T w held g P) :
    (if c then p else q).Keeps T w held g P := by
  split
  next h => exact hp h
  next h => exact hq h

/-! ## Locks in scopes -/

/-- The lock can be taken, or given back, with one note before and one after. -/
def Takes (T : LockLogic W R L σ ρ G) (w : W) (r : R) (held : List R) (g g' : G) : Prop :=
  ∀ s p H γ, T.inv s p H γ → H w = held → γ w = g → Locks.free s r = true →
    T.inv (Locks.take r s) p (Function.update H w (r :: held)) (Function.update γ w g')

def Gives (T : LockLogic W R L σ ρ G) (w : W) (r : R) (held : List R) (g g' : G) : Prop :=
  ∀ s p H γ, T.inv s p H γ → H w = held → γ w = g →
    T.inv (Locks.give r s) p (Function.update H w (held.erase r)) (Function.update γ w g')

/-- The end of a program: the locks are given back, or an exception leaves a note that is `calm`. -/
def Ends (left : R → Prop) (calm : G → Prop) (base : List R) (φ : α → G → Prop) : Except ε α → List R → G → Prop
  | .ok a, held, g => held = base ∧ φ a g
  | .error _, held, g => Leaves left base held ∧ calm g

variable {left : R → Prop} {C : G → Prop} {base : List R} {φ : α → G → Prop} {ψ : β → G → Prop} {r : R}

theorem Keeps.acquire {k : Unit → Prog R L σ ε β} {g' : G} (ht : Takes T w r held g g')
    (h : (k ()).Keeps T w (r :: held) g' Q) :
    (acquire r >>= k).Keeps T w held g Q := fun s p H γ hI hH hγ hf => ⟨g', ht s p H γ hI hH hγ hf, h⟩

theorem Keeps.release {k : Unit → Prog R L σ ε β} {g' : G} (hg : Gives T w r held g g')
    (h : (k ()).Keeps T w (held.erase r) g' Q) :
    (release r >>= k).Keeps T w held g Q := fun s p H γ hI hH hγ => ⟨g', hg s p H γ hI hH hγ, h⟩

theorem Keeps.monoEnds {φ' : α → G → Prop} (hφ : ∀ a g, φ a g → φ' a g)
    (h : p.Keeps T w held g (Ends left C base φ)) :
    p.Keeps T w held g (Ends left C base φ') :=
  h.mono fun res held' g' h => by
    cases res with
    | ok a => exact h.imp_right (hφ a g')
    | error err => exact h

theorem Keeps.bindEnds {end_ : List R} (hp : p.Keeps T w held g (Ends left C base φ)) (hb : Leaves left end_ base)
    (hf : ∀ a g', φ a g' → (f a).Keeps T w base g' (Ends left C end_ ψ)) :
    (p >>= f).Keeps T w held g (Ends left C end_ ψ) := by
  refine Keeps.bind (hp.mono fun res held' g' h => ?_)
  cases res with
  | ok a =>
    obtain ⟨rfl, h⟩ := h
    exact hf a g' h
  | error err => exact ⟨hb.trans h.1, h.2⟩

/-- A handler that throws again; `F` is what is known when the program throws. -/
theorem Keeps.rethrow {F : G → Prop} {k : ε → Prog R L σ ε Unit} (hp : p.Keeps T w held g (Ends left F held φ))
    (hk : ∀ err held' g', F g' → (k err).Keeps T w held' g' (Ends left C held' fun _ g => C g)) :
    (MonadExcept.tryCatch p fun err => do k err; throw err).Keeps T w held g (Ends left C held φ) := by
  refine Keeps.tryCatch (hp.mono fun res held' g' h => ?_)
  cases res with
  | ok a => exact h
  | error err => exact Keeps.bindEnds (hk err held' g' h.2) h.1 fun _ _ hc => ⟨h.1, hc⟩

/-- A scope that holds a lock; `D` is what the note forgets with the lock. -/
theorem Keeps.holding {D : G → G} {g' : G} (hl : ¬ left r) (ht : Takes T w r held g g')
    (hg : ∀ held' g, r ∈ held' → C g → Gives T w r held' g (D g)) (hd : ∀ g, C g → C (D g))
    (hP : ∀ err held' g, Leaves left held held' → C g → P (.error err) held' g)
    (hp : p.Keeps T w (r :: held) g' fun
      | .ok a, held', g => r ∈ held' ∧ C g ∧ P (.ok a) (held'.erase r) (D g)
      | .error _, held', g => Leaves left (r :: held) held' ∧ C g) : (holding r p).Keeps T w held g P := by
  refine Keeps.acquire ht (Keeps.bind (Keeps.tryCatch (hp.mono fun res held' g h => ?_)))
  cases res with
  | ok a =>
    obtain ⟨hm, hc, hφ⟩ := h
    exact Keeps.release (hg _ g hm hc) hφ
  | error err =>
    have hm : r ∈ held' := by
      obtain ⟨rs, -, rfl⟩ := h.1
      exact List.mem_append_right rs List.mem_cons_self
    exact Keeps.release (hg held' g hm h.2) (hP err _ _ (Leaves.erase hl h.1) (hd g h.2))

theorem Keeps.holdingEnds {D : G → G} {g' : G} (hl : ¬ left r) (ht : Takes T w r held g g')
    (hg : ∀ held' g, r ∈ held' → C g → Gives T w r held' g (D g)) (hd : ∀ g, C g → C (D g))
    (hp : p.Keeps T w (r :: held) g' (Ends left C (r :: held) fun a g => C g ∧ φ a (D g))) :
    (Prog.holding r p).Keeps T w held g (Ends left C held φ) := by
  refine Keeps.holding hl ht hg hd (fun err held' g h hc => ⟨h, hc⟩) (hp.mono fun res held' g h => ?_)
  cases res with
  | ok a =>
    obtain ⟨rfl, hc, hφ⟩ := h
    exact ⟨List.mem_cons_self, hc, List.erase_cons_head _ _, hφ⟩
  | error err => exact h

end Prog

namespace Worker

variable {W R L σ ρ G ε α : Type} [DecidableEq W] [DecidableEq R] [Locks R σ]

/-- The record after a step of a worker. -/
def noted (T : LockLogic W R L σ ρ G) (w : W) (s : σ) (p : ρ) (v : Worker R L σ ε α) : ρ :=
  match v.prog with
  | .access label _ _ => T.note p w s label
  | _ => p

theorem step_keeps {T : LockLogic W R L σ ρ G} {w : W} {Q : Except ε α → List R → G → Prop} {s t : σ} {p : ρ}
    {v u : Worker R L σ ε α} {H : W → List R} {γ : W → G} (hk : v.prog.Keeps T w v.held (γ w) Q)
    (hs : v.step s = some (t, u))
    (hI : T.inv s p H γ)
    (hH : H w = v.held) (hc : ∀ label next upd, v.prog = .access label next upd → T.cond s p label) :
    ∃ g, T.inv t (v.noted T w s p) (Function.update H w u.held) (Function.update γ w g) ∧
    u.prog.Keeps T w u.held g Q := by
  obtain ⟨prog, held, waiting⟩ := v
  cases prog with
  | lock r next =>
    simp only [step] at hs
    split_ifs at hs with hf
    · cases hs
      exact hk s p H γ hI hH rfl hf
    · cases hs
      subst hH
      exact ⟨γ w, by rwa [Function.update_eq_self, Function.update_eq_self], hk⟩
  | unlock r next =>
    cases hs
    exact hk s p H γ hI hH rfl
  | access label next upd =>
    cases hs
    obtain ⟨g, hI, hk⟩ := hk s p H γ hI hH rfl (hc label next upd rfl)
    subst hH
    exact ⟨g, by rwa [Function.update_eq_self], hk⟩
  | _ => cases hs

end Worker

end Mimidb
