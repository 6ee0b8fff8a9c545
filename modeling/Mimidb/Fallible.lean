import Mathlib.Data.List.Basic

/-!
# Computations that change a state and may fail

A failed computation keeps what it changed before it failed. `Spec P m Q E`
says that `m`, run in a state with `P`, ends with `Q` and its value, or fails
with `E` and its error. The rules below follow the syntax of a program.
-/

namespace Mimidb

def Fallible (σ ε α : Type) : Type := σ → Except ε α × σ

namespace Fallible

variable {σ ε α β : Type}

instance : Monad (Fallible σ ε) where
  pure a s := (.ok a, s)
  bind m f s :=
    match m s with
    | (.ok a, t) => f a t
    | (.error e, t) => (.error e, t)

instance : MonadExceptOf ε (Fallible σ ε) where
  throw e s := (.error e, s)
  tryCatch m h s :=
    match m s with
    | (.ok a, t) => (.ok a, t)
    | (.error e, t) => h e t

instance : MonadStateOf σ (Fallible σ ε) where
  get s := (.ok s, s)
  set t _ := (.ok (), t)
  modifyGet f s := (.ok (f s).1, (f s).2)

/-! ## Running a program -/

@[simp] theorem pure_apply (a : α) (s : σ) : (Pure.pure a : Fallible σ ε α) s = (.ok a, s) := rfl

@[simp] theorem get_apply (s : σ) : (MonadState.get : Fallible σ ε σ) s = (.ok s, s) := rfl

@[simp] theorem set_apply (s t : σ) : (MonadStateOf.set t : Fallible σ ε PUnit) s = (.ok ⟨⟩, t) := rfl

@[simp] theorem modify_apply (f : σ → σ) (s : σ) :
    (modify f : Fallible σ ε PUnit) s = (.ok ⟨⟩, f s) := rfl

@[simp] theorem throw_apply (e : ε) (s : σ) : (throw e : Fallible σ ε α) s = (.error e, s) := rfl

theorem bind_apply (m : Fallible σ ε α) (f : α → Fallible σ ε β) (s : σ) : (m >>= f) s =
    match m s with
    | (.ok a, t) => f a t
    | (.error e, t) => (.error e, t) := rfl

theorem tryCatch_apply (m : Fallible σ ε α) (h : ε → Fallible σ ε α) (s : σ) :
    (MonadExcept.tryCatch m h : Fallible σ ε α) s =
    match m s with
    | (.ok a, t) => (.ok a, t)
    | (.error e, t) => h e t := rfl

def ofExcept (x : Except ε α) : Fallible σ ε α := fun s => (x, s)

theorem bind_bind {γ : Type} (m : Fallible σ ε α) (f : α → Fallible σ ε β) (g : β → Fallible σ ε γ) :
    (m >>= f) >>= g = m >>= fun a => f a >>= g := by
  funext s
  simp only [bind_apply]
  rcases m s with ⟨_ | _, t⟩ <;> rfl

theorem bind_unit (m : Fallible σ ε Unit) : (m >>= fun _ => Pure.pure ()) = m := by
  funext s
  rw [bind_apply]
  rcases m s with ⟨_ | _, t⟩ <;> rfl

theorem bind_ok {m : Fallible σ ε α} {f : α → Fallible σ ε β} {s t : σ} {a : α}
    (h : m s = (.ok a, t)) : (m >>= f) s = f a t := by
  simp only [bind, h]

theorem bind_error {m : Fallible σ ε α} {f : α → Fallible σ ε β} {s t : σ} {e : ε}
    (h : m s = (.error e, t)) : (m >>= f) s = (.error e, t) := by
  simp only [bind, h]

theorem bind_eq_ok {m : Fallible σ ε α} {f : α → Fallible σ ε β} {s u : σ} {b : β} :
    (m >>= f) s = (.ok b, u) ↔ ∃ a t, m s = (.ok a, t) ∧ f a t = (.ok b, u) := by
  simp only [bind]
  rcases m s with ⟨r, t⟩
  cases r with
  | ok a => exact ⟨fun h => ⟨a, t, rfl, h⟩, fun ⟨_, _, h, h'⟩ => by cases h; exact h'⟩
  | error e => exact ⟨fun h => (nomatch h), fun ⟨_, _, h, _⟩ => (nomatch h)⟩

theorem ofExcept_eq_ok {x : Except ε α} {s t : σ} {a : α} :
    ofExcept x s = (.ok a, t) ↔ x = .ok a ∧ s = t := by
  simp only [ofExcept, Prod.mk.injEq]

/-- The state in which `m` ends or fails. -/
def exec (m : Fallible σ ε α) (s : σ) : σ := (m s).2

def Spec (P : σ → Prop) (m : Fallible σ ε α) (Q : α → σ → Prop) (E : ε → σ → Prop) : Prop :=
  ∀ s, P s → match m s with
    | (.ok a, t) => Q a t
    | (.error e, t) => E e t

/-- `I` is kept whether `m` fails or not. -/
def Maintains (I : σ → Prop) (m : Fallible σ ε α) : Prop := Spec I m (fun _ => I) fun _ => I

theorem Spec.pure {P : σ → Prop} {a : α} {Q : α → σ → Prop} {E : ε → σ → Prop}
    (h : ∀ s, P s → Q a s) : Spec P (Pure.pure a) Q E := fun s hs => h s hs

theorem Spec.throw {P : σ → Prop} {e : ε} {Q : α → σ → Prop} {E : ε → σ → Prop}
    (h : ∀ s, P s → E e s) : Spec P (MonadExcept.throw e) Q E := fun s hs => h s hs

theorem Spec.get {P : σ → Prop} {Q : σ → σ → Prop} {E : ε → σ → Prop} (h : ∀ s, P s → Q s s) :
    Spec P MonadState.get Q E := fun s hs => h s hs

theorem Spec.modify {P : σ → Prop} {f : σ → σ} {Q : PUnit → σ → Prop} {E : ε → σ → Prop}
    (h : ∀ s, P s → Q ⟨⟩ (f s)) : Spec P (modify f) Q E := fun s hs => h s hs

theorem Spec.bind {P : σ → Prop} {m : Fallible σ ε α} {f : α → Fallible σ ε β}
    {R : α → σ → Prop} {Q : β → σ → Prop} {E : ε → σ → Prop} (hm : Spec P m R E)
    (hf : ∀ a, Spec (R a) (f a) Q E) : Spec P (m >>= f) Q E := by
  intro s hs
  have h := hm s hs
  show match (match m s with
    | (.ok a, t) => f a t
    | (.error e, t) => (.error e, t)) with
    | (.ok a, t) => Q a t
    | (.error e, t) => E e t
  rcases hr : m s with ⟨r, t⟩
  rw [hr] at h
  cases r with
  | ok a => exact hf a t h
  | error e => exact h

/-- The value of `get` is the state in which the rest runs. -/
theorem Spec.getBind {P : σ → Prop} {f : σ → Fallible σ ε β} {Q : β → σ → Prop} {E : ε → σ → Prop}
    (hf : ∀ s, P s → Spec (fun t => t = s) (f s) Q E) : Spec P (MonadState.get >>= f) Q E :=
  fun s hs => hf s hs s rfl

theorem Spec.tryCatch {P : σ → Prop} {m : Fallible σ ε α} {g : ε → Fallible σ ε α}
    {R : ε → σ → Prop} {Q : α → σ → Prop} {E : ε → σ → Prop} (hm : Spec P m Q R)
    (hg : ∀ e, Spec (R e) (g e) Q E) : Spec P (MonadExcept.tryCatch m g) Q E := by
  intro s hs
  have h := hm s hs
  show match (match m s with
    | (.ok a, t) => (Except.ok a, t)
    | (.error e, t) => g e t) with
    | (.ok a, t) => Q a t
    | (.error e, t) => E e t
  rcases hr : m s with ⟨r, t⟩
  rw [hr] at h
  cases r with
  | ok a => exact h
  | error e => exact hg e t h

theorem Spec.fact {P : σ → Prop} {p : Prop} {m : Fallible σ ε α} {Q : α → σ → Prop} {E : ε → σ → Prop}
    (h : p → Spec P m Q E) : Spec (fun s => P s ∧ p) m Q E := fun s hs => h hs.2 s hs.1

theorem Spec.ite {P : σ → Prop} {c : Prop} [Decidable c] {m n : Fallible σ ε α} {Q : α → σ → Prop}
    {E : ε → σ → Prop} (hm : c → Spec P m Q E) (hn : ¬ c → Spec P n Q E) : Spec P (if c then m else n) Q E := by
  split
  · rename_i h; exact hm h
  · rename_i h; exact hn h

theorem Spec.of_false {m : Fallible σ ε α} {Q : α → σ → Prop} {E : ε → σ → Prop} :
    Spec (fun _ => False) m Q E := fun _ h => h.elim

theorem Spec.conseq {P P' : σ → Prop} {m : Fallible σ ε α} {Q Q' : α → σ → Prop}
    {E E' : ε → σ → Prop} (h : Spec P m Q E) (hP : ∀ s, P' s → P s) (hQ : ∀ a s, Q a s → Q' a s)
    (hE : ∀ e s, E e s → E' e s) : Spec P' m Q' E' := by
  intro s hs
  have h := h s (hP s hs)
  rcases hr : m s with ⟨r, t⟩
  rw [hr] at h
  cases r with
  | ok a => exact hQ a t h
  | error e => exact hE e t h

theorem Spec.exec {P : σ → Prop} {m : Fallible σ ε α} {Q : α → σ → Prop} {E : ε → σ → Prop}
    {I : σ → Prop} (h : Spec P m Q E) (hQ : ∀ a t, Q a t → I t) (hE : ∀ e t, E e t → I t) {s : σ}
    (hs : P s) : I (m.exec s) := by
  have h := h s hs
  unfold Fallible.exec
  rcases hr : m s with ⟨r, t⟩
  rw [hr] at h
  cases r with
  | ok a => exact hQ a t h
  | error e => exact hE e t h

theorem Spec.ok {P : σ → Prop} {m : Fallible σ ε α} {Q : α → σ → Prop} {E : ε → σ → Prop}
    (h : Spec P m Q E) {s t : σ} {a : α} (hs : P s) (hm : m s = (.ok a, t)) : Q a t := by
  have h := h s hs
  rw [hm] at h
  exact h

theorem Spec.error {P : σ → Prop} {m : Fallible σ ε α} {Q : α → σ → Prop} {E : ε → σ → Prop}
    (h : Spec P m Q E) {s t : σ} {e : ε} (hs : P s) (hm : m s = (.error e, t)) : E e t := by
  have h := h s hs
  rw [hm] at h
  exact h

section
variable {I : σ → Prop}

theorem Maintains.pure {a : α} : Maintains I (Pure.pure a : Fallible σ ε α) := Spec.pure fun _ => id

theorem Maintains.throw {e : ε} : Maintains I (MonadExcept.throw e : Fallible σ ε α) :=
  Spec.throw fun _ => id

theorem Maintains.get : Maintains I (MonadState.get : Fallible σ ε σ) := Spec.get fun _ => id

theorem Maintains.modify {f : σ → σ} (h : ∀ s, I s → I (f s)) :
    Maintains I (modify f : Fallible σ ε PUnit) := Spec.modify h

theorem Maintains.bind {m : Fallible σ ε α} {f : α → Fallible σ ε β} (hm : Maintains I m)
    (hf : ∀ a, Maintains I (f a)) : Maintains I (m >>= f) := Spec.bind hm hf

theorem Maintains.tryCatch {m : Fallible σ ε α} {g : ε → Fallible σ ε α} (hm : Maintains I m)
    (hg : ∀ e, Maintains I (g e)) : Maintains I (MonadExcept.tryCatch m g) := Spec.tryCatch hm hg

theorem Maintains.exec {m : Fallible σ ε α} (h : Maintains I m) {s : σ} (hs : I s) : I (m.exec s) :=
  Spec.exec h (fun _ _ => id) (fun _ _ => id) hs

theorem Maintains.ok {m : Fallible σ ε α} (h : Maintains I m) {s t : σ} {a : α} (hs : I s) (hm : m s = (.ok a, t)) :
    I t := Spec.ok h hs hm

theorem Maintains.error {m : Fallible σ ε α} (h : Maintains I m) {s t : σ} {e : ε} (hs : I s)
    (hm : m s = (.error e, t)) : I t := Spec.error h hs hm

theorem Maintains.ite {c : Prop} [Decidable c] {m n : Fallible σ ε α} (hm : c → Maintains I m)
    (hn : ¬ c → Maintains I n) : Maintains I (if c then m else n) := by
  split
  · rename_i h; exact hm h
  · rename_i h; exact hn h

theorem Maintains.forM {γ : Type} {f : γ → Fallible σ ε PUnit} (hf : ∀ a, Maintains I (f a)) :
    ∀ l : List γ, Maintains I (l.forM f)
  | [] => Maintains.pure
  | a :: l => Maintains.bind (hf a) fun _ => Maintains.forM hf l

end

end Fallible

end Mimidb
