import Mathlib.Data.List.Perm.Subperm
import Mimidb.BufferLists

/-!
# Lists beside their members

The lists of a pool as list operations would have them, and what each operation
of `CacheEntryList` does to them.
-/

namespace Mimidb

namespace BufferManager

variable {β : Type} {dbg : Bool} {s t u : BufferManager β} {nodes : ListId → List Nat} {e : Nat} {l : ListId}

/-- `nodes` are the members of the lists, and an entry in no list has no links. -/
structure Listed (s : BufferManager β) (nodes : ListId → List Nat) : Prop where
  chain : ∀ l, s.Chain l (nodes l)
  size : ∀ l, (s.lists l).size = (nodes l).length
  one : ∀ l l' e, e ∈ nodes l → e ∈ nodes l' → l = l'
  loose : ∀ e, (∀ l, e ∉ nodes l) → s.isRouge e = true
  entry : ∀ l, ∀ e ∈ nodes l, e < s.npages * 2
  small : s.npages * 2 < counter

/-- `t` is `s` but for links and lists. -/
def OnlyLinks (s t : BufferManager β) : Prop := t = { s with prev := t.prev, next := t.next, lists := t.lists }

theorem OnlyLinks.npages (h : s.OnlyLinks t) : t.npages = s.npages := by rw [h]

theorem OnlyLinks.state (h : s.OnlyLinks t) : t.state = s.state := by rw [h]

theorem OnlyLinks.trans (h : s.OnlyLinks t) (h' : t.OnlyLinks u) : s.OnlyLinks u := by
  unfold OnlyLinks at h h' ⊢
  rw [h', h]

theorem Relinked.onlyLinks {xs : List Nat} (h : Relinked s t l xs) : s.OnlyLinks t := by
  have heq := h.eq
  unfold OnlyLinks
  rw [heq]

theorem Listed.length_le (h : s.Listed nodes) (l : ListId) : (nodes l).length ≤ s.npages * 2 := by
  have hsub : (nodes l).Subperm (List.range (s.npages * 2)) :=
    (h.chain l).nodup.subperm fun e he => List.mem_range.2 (h.entry l e he)
  have hle := hsub.length_le
  rwa [List.length_range] at hle

theorem Listed.withState (h : s.Listed nodes) (e : Nat) (st : EntryState) : (s.withState e st).Listed nodes :=
  ⟨h.chain, h.size, h.one, h.loose, h.entry, h.small⟩

theorem Listed.relinked (h : s.Listed nodes) {u : BufferManager β} {xs ys : List Nat} (hrel : Relinked s u l xs)
    (hsub : ∀ z ∈ nodes l, z ∈ xs) (hxs : ∀ z ∈ xs, z < s.npages * 2 ∧ ∀ l', l' ≠ l → z ∉ nodes l')
    (hys : ∀ z ∈ ys, z ∈ xs) (hout : ∀ z ∈ xs, z ∉ ys → u.isRouge z = true) (hc : u.Chain l ys)
    (hsize : (u.lists l).size = ys.length) : u.Listed (Function.update nodes l ys) := by
  have hnp : u.npages = s.npages := by rw [hrel.eq]
  refine ⟨fun l' => ?_, fun l' => ?_, fun l' l'' z hz hz' => ?_, fun z hz => ?_, fun l' z hz => ?_, ?_⟩
  · show u.Chain l' (Function.update nodes l ys l')
    by_cases hl : l' = l
    · subst hl
      rw [Function.update_self]
      exact hc
    · rw [Function.update_of_ne hl]
      exact hrel.chain hl (h.chain l') fun z hz hzx => (hxs z hzx).2 l' hl hz
  · show (u.lists l').size = (Function.update nodes l ys l').length
    by_cases hl : l' = l
    · subst hl
      rw [Function.update_self]
      exact hsize
    · rw [Function.update_of_ne hl]
      exact (congrArg CacheEntryList.size (hrel.lists hl)).trans (h.size l')
  · change z ∈ Function.update nodes l ys l' at hz
    change z ∈ Function.update nodes l ys l'' at hz'
    by_cases hl : l' = l <;> by_cases hl' : l'' = l
    · rw [hl, hl']
    · rw [hl, Function.update_self] at hz
      rw [Function.update_of_ne hl'] at hz'
      exact absurd hz' ((hxs z (hys z hz)).2 l'' hl')
    · rw [hl', Function.update_self] at hz'
      rw [Function.update_of_ne hl] at hz
      exact absurd hz ((hxs z (hys z hz')).2 l' hl)
    · rw [Function.update_of_ne hl] at hz
      rw [Function.update_of_ne hl'] at hz'
      exact h.one l' l'' z hz hz'
  · change ∀ l', z ∉ Function.update nodes l ys l' at hz
    have hzy : z ∉ ys := by
      have hz := hz l
      rwa [Function.update_self] at hz
    by_cases hzx : z ∈ xs
    · exact hout z hzx hzy
    · have hloose : ∀ l, z ∉ nodes l := by
        intro l' hz'
        by_cases hl : l' = l
        · exact hzx (hsub z (hl ▸ hz'))
        · have hz := hz l'
          rw [Function.update_of_ne hl] at hz
          exact hz hz'
      obtain ⟨hp, hn⟩ := isRouge_iff.1 (h.loose z hloose)
      exact isRouge_iff.2 ⟨(hrel.prev z hzx).trans hp, (hrel.next z hzx).trans hn⟩
  · change z ∈ Function.update nodes l ys l' at hz
    show z < u.npages * 2
    rw [hnp]
    by_cases hl : l' = l
    · rw [hl, Function.update_self] at hz
      exact (hxs z (hys z hz)).1
    · rw [Function.update_of_ne hl] at hz
      exact h.entry l' z hz
  · show u.npages * 2 < counter
    rw [hnp]
    exact h.small

theorem Listed.insert (dbg : Bool) (l : ListId) (h : s.Listed nodes) (he : e < s.npages * 2)
    (hl : ∀ l, e ∉ nodes l) :
    ∃ u, insertMRU dbg l e s = (.ok (), u) ∧ s.OnlyLinks u ∧ u.Listed (Function.update nodes l (e :: nodes l)) := by
  have hz : (s.lists l).size = 0 ↔ nodes l = [] := by rw [h.size, List.length_eq_zero_iff]
  obtain ⟨u, hu, hrel, hc, hsize⟩ := insertMRU_ok dbg (h.chain l) hz (h.loose e hl) (hl l)
  refine ⟨u, hu, hrel.onlyLinks, h.relinked hrel (fun z hz => List.mem_cons_of_mem _ hz) (fun z hz => ?_)
    (fun _ => id) ?_ hc ?_⟩
  · rcases List.mem_cons.1 hz with rfl | hz
    · exact ⟨he, fun l' _ => hl l'⟩
    · exact ⟨h.entry l z hz, fun l' hne hz' => hne (h.one l' l z hz' hz)⟩
  · exact fun z hz hn => absurd hz hn
  · have hlen : (e :: nodes l).length ≤ s.npages * 2 := by
      have hsub : (e :: nodes l).Subperm (List.range (s.npages * 2)) := by
        refine (List.nodup_cons.2 ⟨hl l, (h.chain l).nodup⟩).subperm fun z hz => List.mem_range.2 ?_
        rcases List.mem_cons.1 hz with rfl | hz
        · exact he
        · exact h.entry l z hz
      have hle := hsub.length_le
      rwa [List.length_range] at hle
    have hsmall := h.small
    rw [hsize, h.size]
    split
    · rename_i hnil
      rw [hnil]
      rfl
    · rw [List.length_cons] at hlen ⊢
      exact Nat.mod_eq_of_lt (by omega)

theorem Listed.remove (dbg : Bool) (h : s.Listed nodes) (he : e ∈ nodes l) :
    ∃ u, removeEntry dbg l e s = (.ok (), u) ∧
    s.OnlyLinks u ∧ u.Listed (Function.update nodes l ((nodes l).erase e)) := by
  obtain ⟨as, bs, hxs⟩ := List.append_of_mem he
  have hnd := (h.chain l).nodup
  have hc := h.chain l
  have hsize := h.size l
  rw [hxs] at hnd hc hsize
  have hmid := List.nodup_middle.1 hnd
  have hea : e ∉ as := fun ha => (List.nodup_cons.1 hmid).1 (List.mem_append_left _ ha)
  have herase : (nodes l).erase e = as ++ bs := by rw [hxs, List.erase_append_right _ hea, List.erase_cons_head]
  rw [List.length_append, List.length_cons] at hsize
  have hz : (s.lists l).size = 1 ∧ as ++ bs = [] ∨ 2 ≤ (s.lists l).size ∧ as ++ bs ≠ [] := by
    by_cases hnil : as ++ bs = []
    · have hlen := congrArg List.length hnil
      rw [List.length_append, List.length_nil] at hlen
      exact .inl ⟨by omega, hnil⟩
    · have hpos := List.length_pos_iff.2 hnil
      rw [List.length_append] at hpos
      exact .inr ⟨by omega, hnil⟩
  obtain ⟨u, hu, hrel, hc', hrouge, hsize'⟩ := removeEntry_ok dbg hc hz
  refine ⟨u, hu, hrel.onlyLinks, ?_⟩
  rw [herase]
  refine h.relinked hrel (fun z hz => hxs ▸ hz) (fun z hz => ?_) (fun z hz => ?_) (fun z hz hn => ?_) hc' ?_
  · have hz : z ∈ nodes l := hxs ▸ hz
    exact ⟨h.entry l z hz, fun l' hne hz' => hne (h.one l' l z hz' hz)⟩
  · exact (List.mem_append.1 hz).elim (List.mem_append_left _) fun hb =>
      List.mem_append_right _ (List.mem_cons_of_mem _ hb)
  · have hze : z = e := by
      by_contra hne
      apply hn
      rcases List.mem_append.1 hz with ha | hb
      · exact List.mem_append_left _ ha
      · exact List.mem_append_right _ ((List.mem_cons.1 hb).resolve_left hne)
    rw [hze]
    exact hrouge
  · rw [hsize', hsize, List.length_append]
    omega

theorem Listed.move (dbg : Bool) (h : s.Listed nodes) (he : e ∈ nodes l) : ∃ u, moveMRU dbg l e s = (.ok (), u) ∧
    s.OnlyLinks u ∧ u.Listed (Function.update nodes l (e :: (nodes l).erase e)) := by
  have hpos : decide (0 < (s.lists l).size) = true := by
    rw [h.size]
    exact decide_eq_true (List.length_pos_of_mem he)
  by_cases hone : (s.lists l).size = 1
  · have hnodes : nodes l = [e] := by
      obtain ⟨x, hx⟩ := List.length_eq_one_iff.1 ((h.size l).symm.trans hone)
      rw [hx] at he ⊢
      rw [List.mem_singleton.1 he]
    have hc := h.chain l
    rw [hnodes] at hc
    have hrouge : s.isRouge e = true := isRouge_iff.2 ⟨hc.links.1, hc.links.2.1⟩
    have hsame : e :: (nodes l).erase e = nodes l := by rw [hnodes, List.erase_cons_head]
    refine ⟨s, ?_, rfl, ?_⟩
    · rw [hone] at hpos
      simp only [moveMRU, Fallible.bind_apply, Fallible.get_apply, hone, check_ok hpos, if_true, check_ok hrouge]
    · rw [hsame, Function.update_eq_self]
      exact h
  · obtain ⟨as, bs, hxs⟩ := List.append_of_mem he
    have hne : as ++ bs ≠ [] := by
      intro hnil
      have hlen := h.size l
      rw [hxs, List.length_append, List.length_cons] at hlen
      have hzero := congrArg List.length hnil
      rw [List.length_append, List.length_nil] at hzero
      omega
    have hc := h.chain l
    rw [hxs] at hc
    have hrouge := hc.not_isRouge hne
    obtain ⟨u, hu, honly, hmid⟩ := h.remove dbg he
    have hloose : ∀ l', e ∉ Function.update nodes l ((nodes l).erase e) l' := by
      intro l' hmem
      by_cases hl : l' = l
      · rw [hl, Function.update_self] at hmem
        exact (h.chain l).nodup.not_mem_erase hmem
      · rw [Function.update_of_ne hl] at hmem
        exact hl (h.one l' l e hmem he)
    have hlt : e < u.npages * 2 := honly.npages ▸ h.entry l e he
    obtain ⟨v, hv, hsame, hlast⟩ := hmid.insert dbg l hlt hloose
    refine ⟨v, ?_, honly.trans hsame, ?_⟩
    · simp only [moveMRU, Fallible.bind_apply, Fallible.get_apply, check_ok hpos, hone, if_false, check_ok hrouge,
        hu]
      exact hv
    · simp only [Function.update_idem, Function.update_self] at hlast
      exact hlast

end BufferManager

end Mimidb
