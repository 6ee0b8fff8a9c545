import Mathlib.Data.List.Induction
import Mathlib.Data.List.Nodup
import Mathlib.Logic.Function.Basic

/-!
# Doubly linked lists

`Linked prev next head tail xs` says that the links of the nodes `xs` and the
two ends make one chain of them, with the head first. The lemmas say what
pushing a node to the front and unlinking a node do to the chain.
-/

namespace Mimidb

variable {α : Type} {prev next prev' next' : α → Option α} {head tail p n : Option α}
  {xs as bs : List α} {x y : α}

/-- The nodes `xs` are linked in order, the first one back to `p` and the last one on to `n`. -/
def Segment (prev next : α → Option α) : Option α → List α → Option α → Prop
  | _, [], _ => True
  | p, x :: xs, n => prev x = p ∧ next x = xs.head?.or n ∧ Segment prev next (some x) xs n

/-- The first nodes that a walk along `next` visits. -/
def follow (next : α → Option α) : Nat → Option α → List α
  | 0, _ => []
  | _ + 1, none => []
  | k + 1, some x => x :: follow next k (next x)

structure Linked (prev next : α → Option α) (head tail : Option α) (xs : List α) : Prop where
  nodup : xs.Nodup
  head : head = xs.head?
  tail : tail = xs.getLast?
  links : Segment prev next none xs none

namespace Segment

theorem congr (hp : ∀ x ∈ xs, prev' x = prev x) (hn : ∀ x ∈ xs, next' x = next x)
    (h : Segment prev next p xs n) : Segment prev' next' p xs n := by
  induction xs generalizing p with
  | nil => trivial
  | cons x xs ih =>
    obtain ⟨h1, h2, h3⟩ := h
    exact ⟨(hp x List.mem_cons_self).trans h1, (hn x List.mem_cons_self).trans h2,
      ih (fun z hz => hp z (List.mem_cons_of_mem _ hz)) (fun z hz => hn z (List.mem_cons_of_mem _ hz)) h3⟩

theorem append : Segment prev next p (as ++ bs) n ↔
    Segment prev next p as (bs.head?.or n) ∧ Segment prev next (as.getLast?.or p) bs n := by
  induction as generalizing p with
  | nil => simp [Segment]
  | cons a as ih =>
    have hl : (a :: as).getLast?.or p = as.getLast?.or (some a) := by
      cases as with
      | nil => rfl
      | cons b as => simp [List.getLast?_cons]
    simp only [List.cons_append, Segment, ih, hl, List.head?_append, Option.or_assoc, and_assoc]

theorem prev_mem (h : Segment prev next p xs n) (hx : x ∈ xs) (hy : prev x = some y) : some y = p ∨ y ∈ xs := by
  induction xs generalizing p with
  | nil => cases hx
  | cons z xs ih =>
    rcases List.mem_cons.1 hx with rfl | hx
    · exact .inl (hy.symm.trans h.1)
    · rcases ih h.2.2 hx with he | hm
      · exact .inr (Option.some.inj he ▸ List.mem_cons_self)
      · exact .inr (List.mem_cons_of_mem _ hm)

theorem follow_next (h : Segment prev next p xs none) {k : Nat} (hk : xs.length ≤ k) :
    follow next k xs.head? = xs := by
  induction xs generalizing p k with
  | nil => cases k <;> rfl
  | cons x xs ih =>
    cases k with
    | zero => cases hk
    | succ k =>
      have hx : next x = xs.head? := by rw [h.2.1, Option.or_none]
      rw [List.head?_cons, follow, hx, ih h.2.2 (Nat.le_of_succ_le_succ hk)]

theorem follow_prev (h : Segment prev next none xs n) {k : Nat} (hk : xs.length ≤ k) :
    follow prev k xs.getLast? = xs.reverse := by
  induction xs using List.reverseRecOn generalizing n k with
  | nil => cases k <;> rfl
  | append_singleton xs x ih =>
    obtain ⟨hxs, hx, -⟩ := append.1 h
    rw [List.length_append] at hk
    cases k with
    | zero => cases hk
    | succ k =>
      have hx : prev x = xs.getLast? := by rw [hx, Option.or_none]
      rw [List.getLast?_concat, follow, hx, ih hxs (Nat.le_of_succ_le_succ hk), List.reverse_concat]

section
variable [DecidableEq α]

theorem relinkLast (hnd : as.Nodup) (h : Segment prev next p as n) {n' : Option α} (hl : as.getLast? = some x) :
    Segment prev (Function.update next x n') p as n' := by
  induction as generalizing p with
  | nil => trivial
  | cons a as ih =>
    obtain ⟨h1, h2, h3⟩ := h
    cases as with
    | nil =>
      obtain rfl : a = x := by simpa using hl
      exact ⟨h1, by simp, trivial⟩
    | cons b as =>
      rw [List.getLast?_cons_cons] at hl
      have hax : a ≠ x := fun e => (List.nodup_cons.1 hnd).1 (e ▸ List.mem_of_getLast? hl)
      exact ⟨h1, by rw [Function.update_of_ne hax, h2]; rfl, ih (List.nodup_cons.1 hnd).2 h3 hl⟩

theorem relinkHead (hnd : as.Nodup) (h : Segment prev next p as n) {p' : Option α} (hh : as.head? = some x) :
    Segment (Function.update prev x p') next p' as n := by
  cases as with
  | nil => trivial
  | cons a as =>
    obtain rfl : a = x := by simpa using hh
    refine ⟨by simp, h.2.1, h.2.2.congr (fun z hz => Function.update_of_ne ?_ _ _) fun _ _ => rfl⟩
    exact fun e => (List.nodup_cons.1 hnd).1 (e ▸ hz)

end

end Segment

namespace Linked

theorem congr (h : Linked prev next head tail xs) (hp : ∀ x ∈ xs, prev' x = prev x)
    (hn : ∀ x ∈ xs, next' x = next x) : Linked prev' next' head tail xs :=
  ⟨h.nodup, h.head, h.tail, h.links.congr hp hn⟩

theorem empty : Linked prev next none none ([] : List α) := ⟨List.nodup_nil, rfl, rfl, trivial⟩

theorem single (hp : prev x = none) (hn : next x = none) : Linked prev next (some x) (some x) [x] :=
  ⟨List.nodup_singleton x, rfl, rfl, hp, hn, trivial⟩

section
variable [DecidableEq α]

theorem pushFront (h : Linked prev next head tail (y :: xs)) (hx : x ∉ y :: xs) (hp : prev x = none) :
    Linked (Function.update prev y (some x)) (Function.update next x (some y)) (some x) tail
      (x :: y :: xs) := by
  have hxy : x ≠ y := fun e => hx (e ▸ List.mem_cons_self)
  refine ⟨List.nodup_cons.2 ⟨hx, h.nodup⟩, rfl, ?_, ?_, ?_, ?_⟩
  · rw [h.tail, List.getLast?_cons_cons]
  · rw [Function.update_of_ne hxy, hp]
  · simp
  · refine (h.links.relinkHead h.nodup rfl).congr (fun _ _ => rfl) fun z hz => Function.update_of_ne ?_ _ _
    exact fun e => hx (e ▸ hz)

/-- The links after the neighbours of `x` were linked to each other and `x` to nothing. -/
def unlinkPrev (prev next : α → Option α) (x : α) : α → Option α :=
  Function.update (match next x with
    | none => prev
    | some n => Function.update prev n (prev x)) x none

def unlinkNext (prev next : α → Option α) (x : α) : α → Option α :=
  Function.update (match prev x with
    | none => next
    | some p => Function.update next p (next x)) x none

theorem unlink (h : Linked prev next head tail (as ++ x :: bs)) (hne : as ++ bs ≠ []) :
    Linked (unlinkPrev prev next x) (unlinkNext prev next x)
      (if head = some x then next x else head)
      (if head = some x then tail else if tail = some x then prev x else tail) (as ++ bs) := by
  obtain ⟨ha, hpx, hnx, hb⟩ := Segment.append.1 h.links
  simp only [Option.or_none] at hpx hnx
  obtain ⟨hnda, hndx, hax⟩ := List.nodup_append.1 h.nodup
  obtain ⟨hxb, hndb⟩ := List.nodup_cons.1 hndx
  have hxa : x ∉ as := fun hm => hax x hm x List.mem_cons_self rfl
  have hab : ∀ a ∈ as, ∀ b ∈ bs, a ≠ b := fun a ha b hb => hax a ha b (List.mem_cons_of_mem _ hb)
  refine ⟨List.nodup_append.2 ⟨hnda, hndb, hab⟩, ?_, ?_, Segment.append.2 ⟨?_, ?_⟩⟩
  · rw [h.head, hnx]
    cases as with
    | nil => simp
    | cons a as =>
      have : a ≠ x := fun e => hxa (e ▸ List.mem_cons_self)
      simp [this]
  · rw [h.head, h.tail, hpx]
    cases as with
    | nil =>
      cases bs with
      | nil => exact absurd rfl hne
      | cons b bs => simp [List.getLast?_cons]
    | cons a as =>
      have hah : a ≠ x := fun e => hxa (e ▸ List.mem_cons_self)
      cases bs with
      | nil =>
        have hl : (a :: as ++ [x]).getLast? = some x := List.getLast?_concat
        rw [hl, if_neg (by simp [hah]), if_pos rfl, List.append_nil]
      | cons b bs =>
        have hl : (a :: as ++ x :: b :: bs).getLast? = (b :: bs).getLast? := by
          simp [List.getLast?_append, List.getLast?_cons]
        have hl' : (a :: as ++ b :: bs).getLast? = (b :: bs).getLast? := by
          simp [List.getLast?_append, List.getLast?_cons]
        have hbx : (b :: bs).getLast? ≠ some x := fun e => hxb (List.mem_of_getLast? e)
        rw [hl, hl', if_neg (by simp [hah]), if_neg hbx]
  · -- before `x` only the last node changes
    have hp : ∀ z ∈ as, unlinkPrev prev next x z = prev z := fun z hz => by
      have hzx : z ≠ x := fun e => hxa (e ▸ hz)
      rw [unlinkPrev, Function.update_of_ne hzx, hnx]
      cases bs with
      | nil => rfl
      | cons b bs => exact Function.update_of_ne (hab z hz b List.mem_cons_self) _ _
    have hn : ∀ z ∈ as, unlinkNext prev next x z = (match as.getLast? with
        | none => next
        | some p => Function.update next p (next x)) z := fun z hz => by
      have hzx : z ≠ x := fun e => hxa (e ▸ hz)
      rw [unlinkNext, Function.update_of_ne hzx, hpx]
    refine Segment.congr hp hn ?_
    rw [Option.or_none, ← hnx]
    cases hl : as.getLast? with
    | none => rw [List.getLast?_eq_none_iff.1 hl]; trivial
    | some p => exact ha.relinkLast hnda hl
  · -- behind `x` only the first node changes
    have hn : ∀ z ∈ bs, unlinkNext prev next x z = next z := fun z hz => by
      have hzx : z ≠ x := fun e => hxb (e ▸ hz)
      rw [unlinkNext, Function.update_of_ne hzx, hpx]
      cases hl : as.getLast? with
      | none => rfl
      | some p => exact Function.update_of_ne (Ne.symm (hab p (List.mem_of_getLast? hl) z hz)) _ _
    have hp : ∀ z ∈ bs, unlinkPrev prev next x z = (match bs.head? with
        | none => prev
        | some n => Function.update prev n (prev x)) z := fun z hz => by
      have hzx : z ≠ x := fun e => hxb (e ▸ hz)
      rw [unlinkPrev, Function.update_of_ne hzx, hnx]
    refine Segment.congr hp hn ?_
    rw [Option.or_none, ← hpx]
    cases hh : bs.head? with
    | none => rw [List.head?_eq_none_iff.1 hh]; trivial
    | some n => exact hb.relinkHead hndb hh

end

end Linked

end Mimidb
