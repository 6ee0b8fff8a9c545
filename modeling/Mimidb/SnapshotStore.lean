import Mathlib.Data.List.Basic
import Mathlib.Logic.Function.Basic
import Mimidb.Run

/-!
# A store under snapshot isolation

Transactions read the values behind the first commits of one sequence, as many
as there were when their first statement began, and what their own earlier
statements wrote. A transaction may write a key that nobody else is writing
and that no commit has written since its snapshot. So of two transactions that
commit and write one key, the later one has the other in its snapshot
(`isolated_of_reach`).
-/

namespace Mimidb

namespace SnapshotStore

/-- The values that a transaction wrote: `some none` deletes the key. -/
abbrev Writes (K V : Type*) := K → Option (Option V)

structure Entry (X K V : Type*) where
  xid : X
  /-- The commits that its snapshot has. -/
  start : Nat
  writes : Writes K V

structure Active (K V : Type*) where
  start : Option Nat
  /-- What the earlier statements wrote, and the running one. -/
  done : Writes K V
  now : Writes K V

def Active.own {K V : Type*} (b : Active K V) : Writes K V := fun k => b.now k <|> b.done k

end SnapshotStore

open SnapshotStore

structure SnapshotStore (X K V : Type*) where
  /-- The first one first. -/
  commits : List (Entry X K V)
  active : X → Option (Active K V)

namespace SnapshotStore

variable {X K V : Type*} {s t : SnapshotStore X K V} {x y : X} {k : K} {b : Active K V} {log : List (Entry X K V)}

inductive Op (K V : Type*) where
  | begin
  | statement
  | write (k : K) (v : Option V)
  | commit
  | abort

def init : SnapshotStore X K V := ⟨[], fun _ => none⟩

/-- The value behind a sequence of commits. -/
def replay (log : List (Entry X K V)) (k : K) : Option V := (log.reverse.findSome? fun e => e.writes k).getD none

def Active.read (b : Active K V) (log : List (Entry X K V)) (k : K) : Option V :=
  (b.done k).getD (replay (log.take (b.start.getD 0)) k)

/-- Nobody else is writing the key, and no commit has since the snapshot. -/
def Free (s : SnapshotStore X K V) (x : X) (n : Nat) (k : K) : Prop :=
  (∀ y b, s.active y = some b → y ≠ x → b.own k = none) ∧ ∀ e ∈ s.commits.drop n, e.writes k = none

section
variable [DecidableEq X] [DecidableEq K]

open Classical in
noncomputable def step (s : SnapshotStore X K V) : X × Op K V → Option (SnapshotStore X K V)
  | (x, .begin) =>
    if s.active x = none ∧ ∀ e ∈ s.commits, e.xid ≠ x then
      some { s with active := Function.update s.active x (some ⟨none, fun _ => none, fun _ => none⟩) }
    else none
  | (x, .statement) => (s.active x).map fun b =>
    { s with
      active := Function.update s.active x (some ⟨some (b.start.getD s.commits.length), b.own, fun _ => none⟩) }
  | (x, .write k v) =>
    match s.active x with
    | some ⟨some n, done, now⟩ =>
      if s.Free x n k then some { s with
        active := Function.update s.active x (some ⟨some n, done, Function.update now k (some v)⟩) }
      else none
    | _ => none
  | (x, .commit) => (s.active x).map fun b =>
    { commits := s.commits ++ [⟨x, b.start.getD 0, b.own⟩], active := Function.update s.active x none }
  | (x, .abort) => (s.active x).map fun _ => { s with active := Function.update s.active x none }

end

/-! ## Replays -/

theorem replay_none (h : ∀ e ∈ log, e.writes k = none) : replay log k = none := by
  unfold replay
  rw [List.findSome?_eq_none_iff.2 fun e he => h e (List.mem_reverse.1 he)]
  rfl

theorem replay_last (older : List (Entry X K V)) (e : Entry X K V) (newer : List (Entry X K V)) {v : Option V}
    (hlog : log = older ++ e :: newer) (he : e.writes k = some v)
    (h : ∀ f ∈ newer, f.writes k = none) : replay log k = v := by
  subst hlog
  unfold replay
  have hnone : newer.reverse.findSome? (fun e => e.writes k) = none :=
    List.findSome?_eq_none_iff.2 fun f hf => h f (List.mem_reverse.1 hf)
  rw [List.reverse_append, List.reverse_cons, List.append_assoc, List.findSome?_append, hnone, Option.none_or,
    List.singleton_append, List.findSome?_cons, he]
  rfl

/-! ## Isolation -/

/-- Of two commits that wrote a key, the later one has the earlier one in its snapshot. -/
def Isolated (s : SnapshotStore X K V) : Prop :=
  ∀ i j (e f : Entry X K V) k, i < j → s.commits[i]? = some e → s.commits[j]? = some f → e.writes k ≠ none →
  f.writes k ≠ none → i < f.start

structure StoreInv (s : SnapshotStore X K V) : Prop where
  isolated : s.Isolated
  start : ∀ x b n, s.active x = some b → b.start = some n → n ≤ s.commits.length
  free : ∀ x b k, s.active x = some b → b.own k ≠ none → ∃ n, b.start = some n ∧ s.Free x n k

theorem StoreInv.init : StoreInv (init : SnapshotStore X K V) where
  isolated _ _ _ _ _ _ he := by cases he
  start := nofun
  free := nofun

theorem own_update {v : Option V} {k' : K} [DecidableEq K] {n : Option Nat} {done now : Writes K V} :
    (Active.mk n done (Function.update now k (some v))).own k' = if k' = k then some v
      else (Active.mk n done now).own k' := by
  unfold Active.own
  by_cases h : k' = k
  · subst h
    simp
  · simp [h]

theorem Free.of_active (h : s.Free x n k) (hc : t.commits = s.commits)
    (hactive : ∀ y b, t.active y = some b → y ≠ x → b.own k ≠ none → ∃ b', s.active y = some b' ∧ b'.own k ≠ none) :
    t.Free x n k := by
  refine ⟨fun y b hb hne => ?_, hc ▸ h.2⟩
  by_contra hk
  obtain ⟨b', hb', hk'⟩ := hactive y b hb hne hk
  exact hk' (h.1 y b' hb' hne)

variable [DecidableEq X] [DecidableEq K]

theorem StoreInv.step {a : X × Op K V} (h : StoreInv s) (ht : s.step a = some t) : StoreInv t := by
  obtain ⟨x, op⟩ := a
  have hforget : t.commits = s.commits → (∀ y b, t.active y = some b → y ≠ x → s.active y = some b) →
      (∀ b n, t.active x = some b → b.start = some n → n ≤ s.commits.length) →
      (∀ b, t.active x = some b → ∀ k, b.own k ≠ none →
        ∃ b', s.active x = some b' ∧ b'.own k ≠ none ∧ (b'.start ≠ none → b.start = b'.start)) → StoreInv t := by
    intro hc hother hstart hown
    have hback : ∀ y b k, t.active y = some b → b.own k ≠ none → ∃ b', s.active y = some b' ∧ b'.own k ≠ none :=
      fun y b k hb hk => by
      by_cases e : y = x
      · subst e
        obtain ⟨b', hb', hk', -⟩ := hown b hb k hk
        exact ⟨b', hb', hk'⟩
      · exact ⟨b, hother y b hb e, hk⟩
    refine ⟨fun i j e f k hij he hf => ?_, fun y b n hb hn => ?_, fun y b k hb hk => ?_⟩
    · rw [hc] at he hf
      exact h.isolated i j e f k hij he hf
    · rw [hc]
      by_cases e : y = x
      · subst e
        exact hstart b n hb hn
      · exact h.start y b n (hother y b hb e) hn
    · by_cases e : y = x
      · subst e
        obtain ⟨b', hb', hk', he⟩ := hown b hb k hk
        obtain ⟨n, hn, hfree⟩ := h.free y b' k hb' hk'
        exact ⟨n, (he (by simp [hn])).trans hn, hfree.of_active hc fun z c hz hne hzk => hback z c k hz hzk⟩
      · obtain ⟨n, hn, hfree⟩ := h.free y b k (hother y b hb e) hk
        exact ⟨n, hn, hfree.of_active hc fun z c hz hne hzk => hback z c k hz hzk⟩
  cases op with
  | begin =>
    simp only [SnapshotStore.step] at ht
    split_ifs at ht
    cases ht
    refine hforget rfl (fun y b hb hne => by simpa [hne] using hb) (fun b n hb hn => ?_) fun b hb k hk => ?_
    · simp at hb
      subst hb
      cases hn
    · simp at hb
      subst hb
      exact absurd rfl hk
  | statement =>
    obtain ⟨b, hb, rfl⟩ := Option.map_eq_some_iff.1 ht
    refine hforget rfl (fun y c hc hne => by simpa [hne] using hc) (fun c n hc hn => ?_) fun c hc k hk => ?_
    · simp at hc
      subst hc
      obtain rfl := Option.some.inj hn
      cases hs : b.start with
      | none => simp
      | some m => exact h.start x b m hb hs
    · simp at hc
      subst hc
      refine ⟨b, hb, by simpa [Active.own] using hk, fun hne => ?_⟩
      obtain ⟨m, hm⟩ := Option.ne_none_iff_exists'.1 hne
      simp [hm]
  | write k v =>
    simp only [SnapshotStore.step] at ht
    split at ht
    · rename_i n done now hb
      split_ifs at ht with hfree
      cases ht
      have hother :
        ∀ y c, Function.update s.active x (some ⟨some n, done, Function.update now k (some v)⟩) y = some c → y ≠ x →
          s.active y = some c := fun y c hc hne => by simpa [hne] using hc
      refine ⟨h.isolated, fun y c m hc hm => ?_, fun y c k' hc hk => ?_⟩
      · by_cases e : y = x
        · subst e
          simp at hc
          subst hc
          exact h.start y _ m hb hm
        · exact h.start y c m (hother y c hc e) hm
      · by_cases e : y = x
        · subst e
          simp at hc
          subst hc
          refine ⟨n, rfl, ?_⟩
          by_cases ek : k' = k
          · subst ek
            exact hfree.of_active rfl fun z d hz hne hd => ⟨d, hother z d hz hne, hd⟩
          · rw [own_update, if_neg ek] at hk
            obtain ⟨m, hm, hf⟩ := h.free y _ k' hb hk
            obtain rfl := Option.some.inj hm
            exact hf.of_active rfl fun z d hz hne hd => ⟨d, hother z d hz hne, hd⟩
        · have hc' := hother y c hc e
          obtain ⟨m, hm, hf⟩ := h.free y c k' hc' hk
          refine ⟨m, hm, hf.of_active rfl fun z d hz hne hd => ?_⟩
          by_cases ez : z = x
          · subst ez
            simp at hz
            subst hz
            refine ⟨_, hb, ?_⟩
            rw [own_update] at hd
            split_ifs at hd with ek
            · subst ek
              exact absurd (hfree.1 y c hc' e) hk
            · exact hd
          · exact ⟨d, hother z d hz ez, hd⟩
    · cases ht
  | commit =>
    obtain ⟨b, hb, rfl⟩ := Option.map_eq_some_iff.1 ht
    have hother : ∀ y c, Function.update s.active x none y = some c → y ≠ x ∧ s.active y = some c :=
      fun y c hc => by
      by_cases e : y = x
      · subst e
        simp at hc
      · exact ⟨e, by simpa [e] using hc⟩
    refine ⟨fun i j e f k hij he hf hek hfk => ?_, fun y c n hc hn => ?_, fun y c k hc hk => ?_⟩
    · have hj := (List.getElem?_eq_some_iff.1 hf).1
      simp only [List.length_append, List.length_singleton] at hj
      rw [List.getElem?_append_left (by omega)] at he
      by_cases hlt : j < s.commits.length
      · rw [List.getElem?_append_left hlt] at hf
        exact h.isolated i j e f k hij he hf hek hfk
      · obtain rfl : j = s.commits.length := by omega
        obtain rfl : ⟨x, b.start.getD 0, b.own⟩ = f := by simpa using hf
        obtain ⟨n, hn, hfree⟩ := h.free x b k hb hfk
        by_contra hge
        refine hek (hfree.2 e (List.mem_iff_getElem?.2 ⟨i - n, ?_⟩))
        simp only [hn, Option.getD_some] at hge
        rw [List.getElem?_drop, Nat.add_sub_cancel' (Nat.le_of_not_lt hge)]
        exact he
    · obtain ⟨-, hc'⟩ := hother y c hc
      have := h.start y c n hc' hn
      simp only [List.length_append, List.length_singleton]
      omega
    · obtain ⟨hne, hc'⟩ := hother y c hc
      obtain ⟨n, hn, hfree⟩ := h.free y c k hc' hk
      have hle := h.start y c n hc' hn
      refine ⟨n, hn, fun z d hz hzy => hfree.1 z d (hother z d hz).2 hzy, fun e he => ?_⟩
      rw [List.drop_append_of_le_length hle] at he
      rcases List.mem_append.1 he with he | he
      · exact hfree.2 e he
      · obtain rfl := List.mem_singleton.1 he
        exact hfree.1 x b hb hne.symm
  | abort =>
    obtain ⟨b, hb, rfl⟩ := Option.map_eq_some_iff.1 ht
    refine hforget rfl (fun y c hc hne => by simpa [hne] using hc) (fun c n hc hn => ?_) fun c hc k hk => ?_
    · simp at hc
    · simp at hc

theorem isolated_of_reach (h : Reach SnapshotStore.step anyStep (init : SnapshotStore X K V) s) : s.Isolated := by
  have hinv : StoreInv s := h.inv (fun _ _ _ hi _ ht => hi.step ht) .init
  exact hinv.isolated

/-! ## Repeated reads -/

/-- The transaction has ended, or reads behind `log` what `b` reads there. -/
structure Holds (s : SnapshotStore X K V) (x : X) (k : K) (b : Active K V) (log : List (Entry X K V)) : Prop where
  grown : ∃ new, s.commits = log ++ new
  active : ∀ c, s.active x = some c → c.start = b.start ∧ c.now k = none ∧ c.done k = b.done k

omit [DecidableEq X] [DecidableEq K] in
theorem Holds.read {log : List (Entry X K V)} {c : Active K V} {n : Nat} (h : s.Holds x k b log)
    (hn : b.start = some n) (hle : n ≤ log.length)
    (hc : s.active x = some c) : c.read s.commits k = b.read log k := by
  obtain ⟨new, hnew⟩ := h.grown
  obtain ⟨hstart, -, hdone⟩ := h.active c hc
  unfold Active.read
  rw [hdone, hstart, hn, hnew, Option.getD_some, List.take_append_of_le_length hle]

/-- Another begin of the transaction or a write of the key would lose it. -/
theorem Holds.step {log : List (Entry X K V)} {a : X × Op K V} (h : s.Holds x k b log) (hstart : b.start ≠ none)
    (hbegin : a ≠ (x, .begin)) (hwrite : ∀ v, a ≠ (x, .write k v)) (ht : s.step a = some t) :
    t.Holds x k b log := by
  obtain ⟨y, op⟩ := a
  have hkeep : ∀ c : Option (Active K V),
    (∀ d, c = some d → y = x → d.start = b.start ∧ d.now k = none ∧ d.done k = b.done k) →
      ∀ d, Function.update s.active y c x = some d → d.start = b.start ∧ d.now k = none ∧ d.done k = b.done k := by
    intro c hc d hd
    by_cases e : x = y
    · subst e
      exact hc d (by simpa using hd) rfl
    · exact h.active d (by simpa [e] using hd)
  cases op with
  | begin =>
    simp only [SnapshotStore.step] at ht
    split_ifs at ht
    cases ht
    refine ⟨h.grown, hkeep _ fun d _ e => ?_⟩
    subst e
    exact absurd rfl hbegin
  | statement =>
    obtain ⟨c, hc, rfl⟩ := Option.map_eq_some_iff.1 ht
    refine ⟨h.grown, hkeep _ fun d hd e => ?_⟩
    subst e
    cases hd
    obtain ⟨hs, hnow, hdone⟩ := h.active c hc
    obtain ⟨n, hn⟩ := Option.ne_none_iff_exists'.1 hstart
    refine ⟨by rw [hs, hn]; rfl, rfl, ?_⟩
    have hown : c.own k = c.done k := by simp [Active.own, hnow]
    exact hown.trans hdone
  | write k' v =>
    simp only [SnapshotStore.step] at ht
    split at ht
    · rename_i n done now hc
      split_ifs at ht
      cases ht
      refine ⟨h.grown, hkeep _ fun d hd e => ?_⟩
      subst e
      cases hd
      obtain ⟨hs, hnow, hdone⟩ := h.active _ hc
      have hne : k ≠ k' := fun e => hwrite v (by rw [e])
      exact ⟨hs, by simpa [hne] using hnow, hdone⟩
    · cases ht
  | commit =>
    obtain ⟨c, hc, rfl⟩ := Option.map_eq_some_iff.1 ht
    obtain ⟨new, hnew⟩ := h.grown
    exact ⟨⟨new ++ [⟨y, c.start.getD 0, c.own⟩], by rw [hnew, List.append_assoc]⟩, hkeep _ fun d hd => by cases hd⟩
  | abort =>
    obtain ⟨c, hc, rfl⟩ := Option.map_eq_some_iff.1 ht
    exact ⟨h.grown, hkeep _ fun d hd => by cases hd⟩

theorem Holds.exec {log : List (Entry X K V)} {ops : List (X × Op K V)} (h : s.Holds x k b log)
    (hstart : b.start ≠ none) (hbegin : (x, .begin) ∉ ops) (hwrite : ∀ v, (x, .write k v) ∉ ops)
    (ht : exec SnapshotStore.step s ops = some t) :
    t.Holds x k b log := by
  induction ops generalizing s with
  | nil =>
    cases ht
    exact h
  | cons a ops ih =>
    obtain ⟨u, hu, ht⟩ := Option.bind_eq_some_iff.1 ht
    simp only [List.mem_cons, not_or] at hbegin hwrite
    exact ih (h.step hstart (Ne.symm hbegin.1) (fun v => Ne.symm (hwrite v).1) hu) hbegin.2
      (fun v => (hwrite v).2) ht

end SnapshotStore

end Mimidb
