import Mathlib.Data.List.Basic
import Mathlib.Logic.Function.Basic

/-!
# Programs that take locks

A program is what a worker still has to do, up to its next access to the
state that all workers share. `Asks` follows the locks that it holds through
every branch; `Worker.step` is one access, or the lock granted or refused.
-/

namespace Mimidb

/-- Programs over locks `R` and a shared state `σ`; accesses carry labels `L`. -/
inductive Prog (R L σ ε α : Type) where
  | done (a : α)
  | throw (err : ε)
  -- the process ends
  | abort
  -- a loop without end
  | forever
  | lock (r : R) (next : σ → Prog R L σ ε α)
  | unlock (r : R) (next : σ → Prog R L σ ε α)
  | access (label : L) (next : σ → Prog R L σ ε α) (upd : σ → σ)

namespace Prog

variable {R L σ ε α β : Type}

def bind : Prog R L σ ε α → (α → Prog R L σ ε β) → Prog R L σ ε β
  | .done a, f => f a
  | .throw err, _ => .throw err
  | .abort, _ => .abort
  | .forever, _ => .forever
  | .lock r next, f => .lock r fun s => (next s).bind f
  | .unlock r next, f => .unlock r fun s => (next s).bind f
  | .access label next upd, f => .access label (fun s => (next s).bind f) upd

def catchError : Prog R L σ ε α → (ε → Prog R L σ ε α) → Prog R L σ ε α
  | .done a, _ => .done a
  | .throw err, g => g err
  | .abort, _ => .abort
  | .forever, _ => .forever
  | .lock r next, g => .lock r fun s => (next s).catchError g
  | .unlock r next, g => .unlock r fun s => (next s).catchError g
  | .access label next upd, g => .access label (fun s => (next s).catchError g) upd

instance : Monad (Prog R L σ ε) where
  pure := .done
  bind := .bind

instance : MonadExcept ε (Prog R L σ ε) where
  throw := .throw
  tryCatch := .catchError

def acquire (r : R) : Prog R L σ ε Unit := .lock r fun _ => .done ()

def release (r : R) : Prog R L σ ε Unit := .unlock r fun _ => .done ()

/-- A scope that holds a lock; an exception gives it back too. -/
def holding (r : R) (p : Prog R L σ ε α) : Prog R L σ ε α := do
  acquire r
  let a ← tryCatch p fun err => do
    release r
    throw err
  release r
  return a

/-- The lock that is asked for next. -/
def asked : Prog R L σ ε α → Option R
  | .lock r _ => some r
  | _ => none

/-! ## Locks that an exception leaves taken -/

/-- `held` is `base` with more locks of the kind that an exception leaves behind. -/
def Leaves (left : R → Prop) (base held : List R) : Prop := ∃ rs, (∀ r ∈ rs, left r) ∧ held = rs ++ base

/-- The end of a program that gives back what it took. -/
def Back (left : R → Prop) (base : List R) : Except ε α → List R → Prop
  | .ok _, held => held = base
  | .error _, held => Leaves left base held

section
variable {left : R → Prop} {held base : List R} {r : R}

theorem Leaves.rfl : Leaves left held held := ⟨[], nofun, List.nil_append held ▸ Eq.refl _⟩

theorem Leaves.cons (hr : left r) (h : Leaves left base held) : Leaves left base (r :: held) := by
  obtain ⟨rs, hrs, he⟩ := h
  exact ⟨r :: rs, List.forall_mem_cons.2 ⟨hr, hrs⟩, by rw [he, List.cons_append]⟩

theorem Leaves.trans {held' : List R} (h : Leaves left base held) (h' : Leaves left held held') :
    Leaves left base held' := by
  obtain ⟨rs, hrs, he⟩ := h
  obtain ⟨rs', hrs', he'⟩ := h'
  refine ⟨rs' ++ rs, fun r hr => ?_, by rw [he', he, List.append_assoc]⟩
  rcases List.mem_append.1 hr with hr | hr
  · exact hrs' r hr
  · exact hrs r hr

theorem Leaves.mem (h : Leaves left base held) (hr : r ∈ held) : left r ∨ r ∈ base := by
  obtain ⟨rs, hrs, he⟩ := h
  rw [he] at hr
  exact (List.mem_append.1 hr).imp (hrs r) id

theorem Leaves.erase [DecidableEq R] (hr : ¬ left r) (h : Leaves left (r :: base) held) :
    Leaves left base (held.erase r) := by
  obtain ⟨rs, hrs, he⟩ := h
  refine ⟨rs, hrs, ?_⟩
  rw [he, List.erase_append_right _ fun hm => hr (hrs r hm), List.erase_cons_head]

end

/-! ## The locks that are asked for -/

section
variable [DecidableEq R]

/-- Every lock is asked for with `ok` of the locks held, and the end is in `Q`. -/
def Asks (ok : List R → R → Prop) : Prog R L σ ε α → List R → (Except ε α → List R → Prop) → Prop
  | .done a, held, Q => Q (.ok a) held
  | .throw err, held, Q => Q (.error err) held
  | .abort, _, _ => True
  | .forever, _, _ => True
  | .lock r next, held, Q => ok held r ∧ ∀ s, (next s).Asks ok (r :: held) Q
  | .unlock r next, held, Q => ∀ s, (next s).Asks ok (held.erase r) Q
  | .access _ next _, held, Q => ∀ s, (next s).Asks ok held Q

variable {ok : List R → R → Prop} {held base : List R} {p : Prog R L σ ε α} {f : α → Prog R L σ ε β}
  {Q : Except ε β → List R → Prop} {P : Except ε α → List R → Prop} {r : R}

theorem Asks.mono {P' : Except ε α → List R → Prop} (hQ : ∀ res held, P res held → P' res held)
    (h : p.Asks ok held P) :
    p.Asks ok held P' := by
  induction p generalizing held with
  | done a => exact hQ _ _ h
  | throw err => exact hQ _ _ h
  | abort => trivial
  | forever => trivial
  | lock r next ih => exact ⟨h.1, fun s => ih s (h.2 s)⟩
  | unlock r next ih => exact fun s => ih s (h s)
  | access label next upd ih => exact fun s => ih s (h s)

theorem Asks.bind (h : p.Asks ok held fun
      | .ok a, held => (f a).Asks ok held Q
      | .error err, held => Q (.error err) held) : (p >>= f).Asks ok held Q := by
  show (Prog.bind p f).Asks ok held Q
  induction p generalizing held with
  | done a => exact h
  | throw err => exact h
  | abort => trivial
  | forever => trivial
  | lock r next ih => exact ⟨h.1, fun s => ih s (h.2 s)⟩
  | unlock r next ih => exact fun s => ih s (h s)
  | access label next upd ih => exact fun s => ih s (h s)

theorem Asks.tryCatch {g : ε → Prog R L σ ε α} (h : p.Asks ok held fun
      | .ok a, held => P (.ok a) held
      | .error err, held => (g err).Asks ok held P) : (tryCatch p g).Asks ok held P := by
  show (Prog.catchError p g).Asks ok held P
  induction p generalizing held with
  | done a => exact h
  | throw err => exact h
  | abort => trivial
  | forever => trivial
  | lock r next ih => exact ⟨h.1, fun s => ih s (h.2 s)⟩
  | unlock r next ih => exact fun s => ih s (h s)
  | access label next upd ih => exact fun s => ih s (h s)

theorem Asks.ite {c : Prop} [Decidable c] {q : Prog R L σ ε α} (hp : c → p.Asks ok held P)
    (hq : ¬ c → q.Asks ok held P) :
    (if c then p else q).Asks ok held P := by
  split
  next h => exact hp h
  next h => exact hq h

theorem Asks.acquire {f : Unit → Prog R L σ ε β} (hr : ok held r) (h : (f ()).Asks ok (r :: held) Q) :
    (acquire r >>= f).Asks ok held Q := ⟨hr, fun _ => h⟩

theorem Asks.release {f : Unit → Prog R L σ ε β} (h : (f ()).Asks ok held Q) :
    (release r >>= f).Asks ok (r :: held) Q := by
  intro s
  rw [List.erase_cons_head]
  exact h

theorem Asks.holding (hr : ok held r) (h : p.Asks ok (r :: held) fun res held => P res (held.erase r)) :
    (holding r p).Asks ok held P := by
  refine Asks.bind ⟨hr, fun _ => Asks.bind (Asks.tryCatch (h.mono fun res held hP => ?_))⟩
  cases res with
  | ok a => exact Asks.bind fun _ => hP
  | error err => exact Asks.bind fun _ => hP

/-! ## Programs that give back what they take -/

variable {left : R → Prop}

theorem Asks.pureBack {a : α} : (pure a : Prog R L σ ε α).Asks ok held (Back left held) := rfl

theorem Asks.bindBack (hp : p.Asks ok held (Back left held)) (hb : Leaves left base held)
    (hf : ∀ a, (f a).Asks ok held (Back left base)) : (p >>= f).Asks ok held (Back left base) := by
  refine Asks.bind (hp.mono fun res held' h => ?_)
  cases res with
  | ok a =>
    obtain rfl : held' = held := h
    exact hf a
  | error err => exact hb.trans h

theorem Asks.thenBack (hp : p.Asks ok held (Back left base)) (hf : ∀ a, (f a).Asks ok base (Back left base)) :
    (p >>= f).Asks ok held (Back left base) := by
  refine Asks.bind (hp.mono fun res held' h => ?_)
  cases res with
  | ok a =>
    obtain rfl : held' = base := h
    exact hf a
  | error err => exact h

theorem Asks.holdingBack (hl : ¬ left r) (hr : ok held r) (hp : p.Asks ok (r :: held) (Back left (r :: held))) :
    (Prog.holding r p).Asks ok held (Back left held) := by
  refine Asks.holding hr (hp.mono fun res held' h => ?_)
  cases res with
  | ok a =>
    obtain rfl : held' = r :: held := h
    exact List.erase_cons_head _ _
  | error err => exact Leaves.erase hl h

theorem Asks.rethrow {g : ε → Prog R L σ ε Unit} (hp : p.Asks ok held (Back left held))
    (hg : ∀ err held', Leaves left held held' → (g err).Asks ok held' (Back left held')) :
    (MonadExcept.tryCatch p fun err => do g err; throw err).Asks ok held (Back left held) := by
  refine Asks.tryCatch (hp.mono fun res held' h => ?_)
  cases res with
  | ok a => exact h
  | error err => exact Asks.bindBack (hg err held' h) h fun _ => h

end

end Prog

/-! ## Workers -/

/-- How locks show in the shared state. -/
class Locks (R σ : Type) where
  free : σ → R → Bool
  take : R → σ → σ
  give : R → σ → σ

structure Worker (R L σ ε α : Type) where
  prog : Prog R L σ ε α
  held : List R
  /-- The lock it asked for was not free. -/
  waiting : Bool

namespace Worker

variable {R L σ ε α : Type} [DecidableEq R] [Locks R σ]

def step (s : σ) (v : Worker R L σ ε α) : Option (σ × Worker R L σ ε α) :=
  match v.prog with
  | .lock r next =>
    if Locks.free s r = true then some (Locks.take r s, ⟨next s, r :: v.held, false⟩)
    else if v.waiting = true then none
    else some (s, { v with waiting := true })
  | .unlock r next => some (Locks.give r s, ⟨next s, v.held.erase r, false⟩)
  | .access _ next upd => some (upd s, ⟨next s, v.held, false⟩)
  | _ => none

variable {s t : σ} {v u : Worker R L σ ε α}

theorem step_asks {ok : List R → R → Prop} {Q : Except ε α → List R → Prop} (h : v.prog.Asks ok v.held Q)
    (hs : v.step s = some (t, u)) : u.prog.Asks ok u.held Q := by
  obtain ⟨prog, held, waiting⟩ := v
  cases prog with
  | lock r next =>
    simp only [step] at hs
    split_ifs at hs
    · cases hs
      exact h.2 s
    · cases hs
      exact h
  | unlock r next =>
    cases hs
    exact h s
  | access label next upd =>
    cases hs
    exact h s
  | _ => cases hs

/-- Who waits after a step was refused a lock by it. -/
theorem step_waiting (hs : v.step s = some (t, u)) (hu : u.waiting = true) :
    ∃ r next, v.prog = .lock r next ∧ Locks.free s r = false ∧ t = s ∧ u = { v with waiting := true } := by
  obtain ⟨prog, held, waiting⟩ := v
  cases prog with
  | lock r next =>
    simp only [step] at hs
    split_ifs at hs with hfree hwait
    · cases hs
      cases hu
    · cases hs
      exact ⟨r, next, rfl, Bool.eq_false_iff.2 hfree, rfl, rfl⟩
  | unlock r next =>
    cases hs
    cases hu
  | access label next upd =>
    cases hs
    cases hu
  | _ => cases hs

end Worker

end Mimidb
