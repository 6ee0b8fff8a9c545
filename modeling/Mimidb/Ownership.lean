import Mathlib.Data.List.Nodup
import Mathlib.Logic.Function.Basic

/-!
# Resources that change hands

Owners acquire resources, hand them on and give them back. An acquisition is
known by its number. An operation is defined only where it respects the rules:
an owner holds at most one acquisition, and gives back just what it holds.
-/

namespace Mimidb

structure Holdings (O R : Type) where
  /-- What was acquired, in order. -/
  acquired : List R
  /-- The number of the acquisition that an owner holds. -/
  holder : O → Option Nat
  released : List Nat

namespace Holdings

variable {O R : Type}

def init : Holdings O R := ⟨[], fun _ => none, []⟩

/-- The resource that an owner holds. -/
def holding (h : Holdings O R) (o : O) : Option R := (h.holder o).bind fun n => h.acquired[n]?

/-- The end of an owner, who must hold nothing. -/
def retire (h : Holdings O R) (o : O) : Option (Holdings O R) := if h.holder o = none then some h else none

section
variable [DecidableEq O]

def acquire (h : Holdings O R) (o : O) (r : R) : Option (Holdings O R) :=
  if h.holder o = none then
    some ⟨h.acquired ++ [r], Function.update h.holder o (some h.acquired.length), h.released⟩
  else none

def release [DecidableEq R] (h : Holdings O R) (o : O) (r : R) : Option (Holdings O R) :=
  match h.holder o with
  | some n =>
    if h.acquired[n]? = some r then some ⟨h.acquired, Function.update h.holder o none, n :: h.released⟩ else none
  | none => none

/-- `dst` gets what `src` holds. -/
def transfer (h : Holdings O R) (src dst : O) : Option (Holdings O R) :=
  if src = dst then some h
  else if h.holder dst = none then
    some ⟨h.acquired, Function.update (Function.update h.holder dst (h.holder src)) src none, h.released⟩
  else none

end

/-- Every acquisition has one holder, or was released once. -/
structure Sound (h : Holdings O R) : Prop where
  held : ∀ o n, h.holder o = some n → n < h.acquired.length ∧ n ∉ h.released
  one : ∀ o o' n, h.holder o = some n → h.holder o' = some n → o = o'
  once : h.released.Nodup
  known : ∀ n ∈ h.released, n < h.acquired.length
  kept : ∀ n < h.acquired.length, n ∈ h.released ∨ ∃ o, h.holder o = some n

variable {h h' : Holdings O R} {o o' : O} {r : R}

theorem Sound.init : Sound (init : Holdings O R) where
  held _ _ h := by cases h
  one _ _ _ h := by cases h
  once := List.nodup_nil
  known _ h := by cases h
  kept _ h := absurd h (Nat.not_lt_zero _)

theorem Sound.count_released (hs : Sound h) (hnone : ∀ o, h.holder o = none) {n : Nat}
    (hn : n < h.acquired.length) :
    h.released.count n = 1 := by
  refine List.count_eq_one_of_mem hs.once ((hs.kept n hn).resolve_right ?_)
  rintro ⟨o, ho⟩
  rw [hnone o] at ho
  cases ho

theorem Sound.holding_none (hs : Sound h) : h.holding o = none ↔ h.holder o = none := by
  unfold holding
  cases ho : h.holder o with
  | none => exact iff_of_true rfl rfl
  | some n =>
    rw [Option.bind_some, List.getElem?_eq_getElem (hs.held o n ho).1]
    exact iff_of_false (Option.some_ne_none _) (Option.some_ne_none _)

/-! ## What an operation does -/

theorem retire_eq (he : h.retire o = some h') : h.holder o = none ∧ h' = h := by
  unfold retire at he
  split_ifs at he with hnone
  cases he
  exact ⟨hnone, rfl⟩

theorem Sound.retire (hs : Sound h) (he : h.retire o = some h') : Sound h' := (retire_eq he).2 ▸ hs

section
variable [DecidableEq O]

theorem acquire_eq (he : h.acquire o r = some h') : h.holder o = none ∧
    h' = ⟨h.acquired ++ [r], Function.update h.holder o (some h.acquired.length), h.released⟩ := by
  unfold acquire at he
  split_ifs at he with hnone
  cases he
  exact ⟨hnone, rfl⟩

theorem release_eq [DecidableEq R] (he : h.release o r = some h') :
    ∃ n, h.holder o = some n ∧ h.acquired[n]? = some r ∧
    h' = ⟨h.acquired, Function.update h.holder o none, n :: h.released⟩ := by
  unfold release at he
  cases ho : h.holder o with
  | none =>
    rw [ho] at he
    cases he
  | some n =>
    rw [ho] at he
    simp only at he
    split_ifs at he with hr
    cases he
    exact ⟨n, rfl, hr, rfl⟩

theorem transfer_eq (he : h.transfer o' o = some h') : o' = o ∧ h' = h ∨ o' ≠ o ∧ h.holder o = none ∧
    h' = ⟨h.acquired, Function.update (Function.update h.holder o (h.holder o')) o' none, h.released⟩ := by
  unfold transfer at he
  split_ifs at he with hself hnone
  · cases he
    exact .inl ⟨hself, rfl⟩
  · cases he
    exact .inr ⟨hself, hnone, rfl⟩

theorem Sound.acquire (hs : Sound h) (he : h.acquire o r = some h') : Sound h' := by
  obtain ⟨hnone, rfl⟩ := acquire_eq he
  have hlen : (h.acquired ++ [r]).length = h.acquired.length + 1 := List.length_append
  have hat : ∀ p n, Function.update h.holder o (some h.acquired.length) p = some n →
      p = o ∧ n = h.acquired.length ∨ h.holder p = some n := fun p n hp => by
    by_cases e : p = o
    · rw [e, Function.update_self] at hp
      exact .inl ⟨e, (Option.some.inj hp).symm⟩
    · rw [Function.update_of_ne e] at hp
      exact .inr hp
  constructor
  case held =>
    intro p n hp
    rw [hlen]
    rcases hat p n hp with ⟨-, rfl⟩ | hp
    · exact ⟨Nat.lt_succ_self _, fun hm => Nat.lt_irrefl _ (hs.known _ hm)⟩
    · exact ⟨Nat.lt_succ_of_lt (hs.held p n hp).1, (hs.held p n hp).2⟩
  case one =>
    intro p p' n hp hp'
    rcases hat p n hp with ⟨e, en⟩ | hp <;> rcases hat p' n hp' with ⟨e', en'⟩ | hp'
    · rw [e, e']
    · exact absurd (hs.held p' n hp').1 (by omega)
    · exact absurd (hs.held p n hp).1 (by omega)
    · exact hs.one p p' n hp hp'
  case once => exact hs.once
  case known => exact fun n hn => by rw [hlen]; exact Nat.lt_succ_of_lt (hs.known n hn)
  case kept =>
    intro n hn
    rw [hlen] at hn
    by_cases e : n = h.acquired.length
    · exact .inr ⟨o, (Function.update_self ..).trans (congrArg some e.symm)⟩
    · refine (hs.kept n (by omega)).imp_right ?_
      rintro ⟨p, hp⟩
      have hne : p ≠ o := fun e => by rw [e, hnone] at hp; cases hp
      exact ⟨p, (Function.update_of_ne hne ..).trans hp⟩

theorem Sound.release [DecidableEq R] (hs : Sound h) (he : h.release o r = some h') : Sound h' := by
  obtain ⟨n, ho, -, rfl⟩ := release_eq he
  have hat : ∀ p m, Function.update h.holder o none p = some m → p ≠ o ∧ h.holder p = some m := fun p m hp => by
    have hne : p ≠ o := fun e => by rw [e, Function.update_self] at hp; cases hp
    rw [Function.update_of_ne hne] at hp
    exact ⟨hne, hp⟩
  constructor
  case held =>
    intro p m hp
    obtain ⟨hne, hpm⟩ := hat p m hp
    refine ⟨(hs.held p m hpm).1, fun hm => ?_⟩
    rcases List.mem_cons.1 hm with e | hm
    · exact hne (hs.one p o n (e ▸ hpm) ho)
    · exact (hs.held p m hpm).2 hm
  case one => exact fun p p' m hp hp' => hs.one p p' m (hat p m hp).2 (hat p' m hp').2
  case once => exact List.nodup_cons.2 ⟨(hs.held o n ho).2, hs.once⟩
  case known =>
    intro m hm
    rcases List.mem_cons.1 hm with rfl | hm
    · exact (hs.held o m ho).1
    · exact hs.known m hm
  case kept =>
    intro m hm
    rcases hs.kept m hm with hr | ⟨p, hp⟩
    · exact .inl (List.mem_cons_of_mem _ hr)
    · by_cases e : p = o
      · rw [e, ho] at hp
        cases hp
        exact .inl List.mem_cons_self
      · exact .inr ⟨p, (Function.update_of_ne e ..).trans hp⟩

theorem Sound.transfer (hs : Sound h) (he : h.transfer o' o = some h') : Sound h' := by
  rcases transfer_eq he with ⟨-, rfl⟩ | ⟨hne, hnone, rfl⟩
  · exact hs
  -- who holds something now: `o` what `o'` held, the others what they held
  have hat : ∀ p n, Function.update (Function.update h.holder o (h.holder o')) o' none p = some n →
      p = o ∧ h.holder o' = some n ∨ p ≠ o ∧ p ≠ o' ∧ h.holder p = some n := fun p n hp => by
    have h1 : p ≠ o' := fun e => by rw [e, Function.update_self] at hp; cases hp
    rw [Function.update_of_ne h1] at hp
    by_cases e : p = o
    · rw [e, Function.update_self] at hp
      exact .inl ⟨e, hp⟩
    · rw [Function.update_of_ne e] at hp
      exact .inr ⟨e, h1, hp⟩
  constructor
  case held =>
    intro p n hp
    rcases hat p n hp with ⟨-, hp⟩ | ⟨-, -, hp⟩
    · exact hs.held o' n hp
    · exact hs.held p n hp
  case one =>
    intro p p' n hp hp'
    rcases hat p n hp with ⟨e, h1⟩ | ⟨-, hpo', h1⟩ <;> rcases hat p' n hp' with ⟨e', h2⟩ | ⟨-, hpo₂, h2⟩
    · rw [e, e']
    · exact absurd (hs.one p' o' n h2 h1) hpo₂
    · exact absurd (hs.one p o' n h1 h2) hpo'
    · exact hs.one p p' n h1 h2
  case once => exact hs.once
  case known => exact hs.known
  case kept =>
    intro n hn
    refine (hs.kept n hn).imp_right ?_
    rintro ⟨p, hp⟩
    by_cases e : p = o'
    · exact ⟨o, (Function.update_of_ne hne.symm ..).trans ((Function.update_self ..).trans (e ▸ hp))⟩
    · have hpo : p ≠ o := fun e => by rw [e, hnone] at hp; cases hp
      exact ⟨p, (Function.update_of_ne e ..).trans ((Function.update_of_ne hpo ..).trans hp)⟩

/-! ## What an owner holds afterwards -/

theorem holding_acquire (hs : Sound h) (he : h.acquire o r = some h') :
    h'.holding = Function.update h.holding o (some r) := by
  obtain ⟨-, rfl⟩ := acquire_eq he
  funext p
  show ((Function.update h.holder o (some h.acquired.length) p).bind fun n => (h.acquired ++ [r])[n]?) = _
  by_cases e : p = o
  · rw [e, Function.update_self, Function.update_self, Option.bind_some, List.getElem?_concat_length]
  · rw [Function.update_of_ne e, Function.update_of_ne e, holding]
    cases hp : h.holder p with
    | none => rfl
    | some n => exact List.getElem?_append_left (hs.held p n hp).1

theorem holding_release [DecidableEq R] (he : h.release o r = some h') :
    h'.holding = Function.update h.holding o none := by
  obtain ⟨n, -, -, rfl⟩ := release_eq he
  funext p
  show ((Function.update h.holder o none p).bind fun n => h.acquired[n]?) = _
  by_cases e : p = o
  · rw [e, Function.update_self, Function.update_self, Option.bind_none]
  · rw [Function.update_of_ne e, Function.update_of_ne e, holding]

theorem holding_transfer (hne : o' ≠ o) (he : h.transfer o' o = some h') :
    h'.holding = Function.update (Function.update h.holding o (h.holding o')) o' none := by
  obtain ⟨-, -, rfl⟩ := (transfer_eq he).resolve_left fun hself => hne hself.1
  funext p
  show ((Function.update (Function.update h.holder o (h.holder o')) o' none p).bind fun n => h.acquired[n]?) = _
  by_cases e : p = o'
  · rw [e, Function.update_self, Function.update_self, Option.bind_none]
  · rw [Function.update_of_ne e, Function.update_of_ne e]
    by_cases e' : p = o
    · rw [e', Function.update_self, Function.update_self, holding]
    · rw [Function.update_of_ne e', Function.update_of_ne e', holding]

/-! ## When an operation is allowed -/

theorem acquire_isSome (hs : Sound h) (ho : h.holding o = none) (r : R) : ∃ h', h.acquire o r = some h' := by
  rw [acquire, if_pos (hs.holding_none.1 ho)]
  exact ⟨_, rfl⟩

theorem release_isSome [DecidableEq R] (ho : h.holding o = some r) : ∃ h', h.release o r = some h' := by
  obtain ⟨n, hn, hr⟩ := Option.bind_eq_some_iff.1 ho
  rw [release, hn]
  simp only [hr, if_true]
  exact ⟨_, rfl⟩

theorem transfer_isSome (hs : Sound h) (ho : h.holding o = none) (o' : O) : ∃ h', h.transfer o' o = some h' := by
  by_cases hself : o' = o
  · exact ⟨h, by rw [transfer, if_pos hself]⟩
  · rw [transfer, if_neg hself, if_pos (hs.holding_none.1 ho)]
    exact ⟨_, rfl⟩

end

theorem retire_isSome (hs : Sound h) (ho : h.holding o = none) : h.retire o = some h := by
  rw [retire, if_pos (hs.holding_none.1 ho)]

end Holdings

end Mimidb
