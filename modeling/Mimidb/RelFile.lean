import Mimidb.UndoLogFile

/-!
# Files of relations

`Write` computes the offset of a page in 32 bits and `Read` in 64. A page from
4 GiB on is written over the one whose number is less by a multiple of `2 ^ 19`.
-/

namespace Mimidb

namespace File

variable {file bytes : List UInt8} {offset pos n : Nat}

theorem length_written :
    ((file ++ List.replicate (offset - file.length) (0 : UInt8)).take offset).length = offset := by
  rw [List.length_take, List.length_append, List.length_replicate]
  omega

theorem take_drop_pwrite : ((pwrite file offset bytes).drop offset).take bytes.length = bytes := by
  unfold pwrite
  rw [List.drop_left' length_written, List.take_left]

theorem take_drop_pwrite_disjoint (hn : pos + n ≤ file.length)
    (h : pos + n ≤ offset ∨ offset + bytes.length ≤ pos) :
    ((pwrite file offset bytes).drop pos).take n = (file.drop pos).take n := by
  apply List.ext_getElem?
  intro i
  rw [List.getElem?_take, List.getElem?_take]
  by_cases hi : i < n
  · rw [if_pos hi, if_pos hi, List.getElem?_drop, List.getElem?_drop]
    unfold pwrite
    rcases h with h | h
    · rw [List.getElem?_append_left (by rw [length_written]; omega), List.getElem?_take, if_pos (by omega),
        List.getElem?_append_left (by omega)]
    · rw [List.getElem?_append_right (by rw [length_written]; omega), length_written,
        List.getElem?_append_right (by omega), List.getElem?_drop]
      congr 1
      omega
  · rw [if_neg hi, if_neg hi]

end File

/-- The buffer that a page is written from or read to. -/
@[ext] structure PageBuffer where
  bytes : List UInt8
  length_eq : bytes.length = Config.PageSize

/-- The buffer of `Extend`. -/
def PageBuffer.zero : PageBuffer := ⟨List.replicate Config.PageSize 0, List.length_replicate⟩

structure RelFile where
  file : List UInt8

namespace RelFile

/-- `Config::PageSize * pageno`, of two `unsigned int`. -/
def writeOffset (pageno : UInt32) : UInt32 := UInt32.ofNat Config.PageSize * pageno

/-- `Config::PageSize * static_cast<off64_t>(pageno)`. -/
def readOffset (pageno : UInt32) : Int := Config.PageSize * (pageno.toNat : Int)

def write (f : RelFile) (buffer : PageBuffer) (pageno : UInt32) : Except Fault RelFile :=
  if pageno.toNat = PageNumber.Invalid then .error (.runtimeError "could not write page: pageno is invalid")
  else .ok ⟨File.pwrite f.file (writeOffset pageno).toNat buffer.bytes⟩

def extend (f : RelFile) (pageno : UInt32) : Except Fault RelFile := f.write .zero pageno

def read (f : RelFile) (pageno : UInt32) : Except Fault PageBuffer :=
  if pageno.toNat = PageNumber.Invalid then .error (.runtimeError "could not read page: pageno is invalid")
  else File.pread f.file Config.PageSize (readOffset pageno) >>= fun bytes =>
    if h : bytes.length = Config.PageSize then .ok ⟨bytes, h⟩
    else .error (.runtimeError ("could not read page: read only " ++ toString bytes.length ++ " bytes"))

/-- The file is large enough for the page. -/
def Holds (f : RelFile) (pageno : UInt32) : Prop := Config.PageSize * (pageno.toNat + 1) ≤ f.file.length

/-- The number of the page that a write to `pageno` reaches. -/
def target (pageno : UInt32) : UInt32 := UInt32.ofNat (pageno.toNat % 2 ^ 19)

/-- The bytes of a page of the file. -/
def block (f : RelFile) (pageno : UInt32) : List UInt8 :=
  (f.file.drop (Config.PageSize * pageno.toNat)).take Config.PageSize

section
variable {f g : RelFile} {p q : UInt32} {page : PageBuffer}

theorem target_toNat : (target p).toNat = p.toNat % 2 ^ 19 := by
  unfold target
  rw [UInt32.toNat_ofNat']
  omega

theorem writeOffset_eq : (writeOffset p).toNat = Config.PageSize * (target p).toNat := by
  rw [target_toNat]
  unfold writeOffset
  rw [UInt32.toNat_mul, UInt32.toNat_ofNat']
  unfold Config.PageSize
  omega

theorem target_valid : (target p).toNat ≠ PageNumber.Invalid := by
  rw [target_toNat]
  unfold PageNumber.Invalid
  omega

theorem target_eq_iff : target p = p ↔ p.toNat < 2 ^ 19 := by
  rw [← UInt32.toNat_inj, target_toNat]
  omega

theorem Holds.target (h : f.Holds p) : f.Holds (target p) := by
  unfold Holds at h ⊢
  rw [target_toNat]
  have hle : p.toNat % 2 ^ 19 ≤ p.toNat := Nat.mod_le _ _
  exact (Nat.mul_le_mul_left _ (Nat.succ_le_succ hle)).trans h

theorem block_length (h : f.Holds p) : (f.block p).length = Config.PageSize := by
  unfold block
  unfold Holds Config.PageSize at h
  unfold Config.PageSize
  rw [List.length_take, List.length_drop]
  omega

theorem read_eq (hp : p.toNat ≠ PageNumber.Invalid) (h : f.Holds p) :
    f.read p = .ok ⟨f.block p, block_length h⟩ := by
  have hread : File.pread f.file Config.PageSize (readOffset p) = .ok (f.block p) := by
    have hpos : ¬ readOffset p < 0 := by unfold readOffset Config.PageSize; omega
    unfold File.pread
    rw [if_neg hpos]
    rfl
  unfold read
  rw [if_neg hp, hread]
  exact dif_pos (block_length h)

theorem read_eq_ok (hp : p.toNat ≠ PageNumber.Invalid) (h : f.Holds p) :
    f.read p = .ok page ↔ f.block p = page.bytes := by
  rw [read_eq hp h, Except.ok.injEq, PageBuffer.ext_iff]

theorem read_congr (hp : p.toNat ≠ PageNumber.Invalid) (hf : f.Holds p) (hg : g.Holds p) :
    g.read p = f.read p ↔ g.block p = f.block p := by
  rw [read_eq hp hf, read_eq hp hg, Except.ok.injEq, PageBuffer.mk.injEq]

/-! ## Writes -/

/-- The file after a write to a valid page. -/
def written (f : RelFile) (page : PageBuffer) (p : UInt32) : RelFile :=
  ⟨File.pwrite f.file (writeOffset p).toNat page.bytes⟩

theorem write_eq (hp : p.toNat ≠ PageNumber.Invalid) : f.write page p = .ok (f.written page p) := if_neg hp

theorem Holds.written (h : f.Holds q) : (f.written page p).Holds q := by
  unfold Holds at h ⊢
  refine h.trans ?_
  unfold RelFile.written File.pwrite
  rw [List.length_append, File.length_written, List.length_append, List.length_drop]
  omega

theorem block_written_target : (f.written page p).block (target p) = page.bytes := by
  unfold block written
  have h := @File.take_drop_pwrite f.file page.bytes (writeOffset p).toNat
  rw [page.length_eq, writeOffset_eq] at h
  rw [writeOffset_eq]
  exact h

theorem block_written_other (hq : f.Holds q) (hne : q ≠ target p) : (f.written page p).block q = f.block q := by
  have hn : q.toNat ≠ (target p).toNat := fun h => hne (UInt32.toNat_inj.1 h)
  unfold Holds Config.PageSize at hq
  apply File.take_drop_pwrite_disjoint
  · unfold Config.PageSize
    omega
  · rw [writeOffset_eq, page.length_eq]
    unfold Config.PageSize
    omega

theorem exists_other : ∃ page : PageBuffer, page.bytes ≠ f.block p := by
  by_cases h : PageBuffer.zero.bytes = f.block p
  · refine ⟨⟨List.replicate Config.PageSize 1, List.length_replicate⟩, ?_⟩
    intro he
    exact absurd (List.replicate_right_injective (by decide) (he.trans h.symm)) (by decide)
  · exact ⟨_, h⟩

theorem write_read_same (hp : p.toNat ≠ PageNumber.Invalid) (h : f.Holds p) :
    (f.write page p >>= (·.read p)) = .ok page ↔ target p = p ∨ f.block p = page.bytes := by
  rw [write_eq hp]
  change (f.written page p).read p = .ok page ↔ _
  rw [read_eq_ok hp h.written]
  by_cases ht : target p = p
  · have hblock : (f.written page p).block (target p) = page.bytes := block_written_target
    rw [ht] at hblock
    exact ⟨fun _ => .inl ht, fun _ => hblock⟩
  · rw [block_written_other h (Ne.symm ht)]
    exact ⟨.inr, fun h => h.resolve_left ht⟩

theorem write_read_other (hp : p.toNat ≠ PageNumber.Invalid) (hq : q.toNat ≠ PageNumber.Invalid) (h : f.Holds q) :
    (f.write page p >>= (·.read q)) = f.read q ↔ q ≠ target p ∨ f.block q = page.bytes := by
  rw [write_eq hp]
  change (f.written page p).read q = _ ↔ _
  rw [read_congr hq h h.written]
  by_cases ht : q = target p
  · have hblock : (f.written page p).block (target p) = page.bytes := block_written_target
    rw [← ht] at hblock
    rw [hblock]
    exact ⟨fun h => .inr h.symm, fun h => (h.resolve_left (not_not_intro ht)).symm⟩
  · rw [block_written_other h ht]
    exact ⟨fun _ => .inl ht, fun _ => rfl⟩

/-- Pages of a file of less than 4 GiB keep apart. -/
theorem pages_apart_iff (f : RelFile) (p : UInt32) (hp : p.toNat ≠ PageNumber.Invalid) (h : f.Holds p) :
    ((∀ page, (f.write page p >>= (·.read p)) = .ok page) ↔ p.toNat < 2 ^ 19) ∧
      ((∀ q : UInt32, q.toNat ≠ PageNumber.Invalid → f.Holds q → q ≠ p →
        (∀ page, (f.write page p >>= (·.read q)) = f.read q) ∧ (f.extend p >>= (·.read q)) = f.read q) ↔
        p.toNat < 2 ^ 19) ∧
      ((writeOffset p).toNat = Config.PageSize * p.toNat ↔ p.toNat < 2 ^ 19) := by
  rw [← target_eq_iff]
  obtain ⟨page, hpage⟩ := @exists_other f (target p)
  refine ⟨⟨fun hall => ?_, fun ht page => (write_read_same hp h).2 (.inl ht)⟩,
    ⟨fun hall => ?_, fun ht q hval hh hne => ?_⟩, ?_⟩
  · obtain ⟨page, hpage⟩ := @exists_other f p
    exact ((write_read_same hp h).1 (hall page)).resolve_right (Ne.symm hpage)
  · by_contra ht
    have hkept := (hall (target p) target_valid h.target ht).1 page
    rw [write_read_other hp target_valid h.target] at hkept
    exact hkept.elim (fun hne => hne rfl) fun he => hpage he.symm
  · have hq : q ≠ target p := fun he => hne (he.trans ht)
    exact ⟨fun page => (write_read_other hp hval hh).2 (.inl hq), (write_read_other hp hval hh).2 (.inl hq)⟩
  · rw [writeOffset_eq, Nat.mul_right_inj (by decide), UInt32.toNat_inj]

theorem first_page_apart :
    ((RelFile.mk (List.replicate Config.PageSize 0)).write ⟨List.replicate Config.PageSize 1, List.length_replicate⟩
      0 >>=
      (·.read 0)) = .ok ⟨List.replicate Config.PageSize 1, List.length_replicate⟩ :=
  (pages_apart_iff ⟨List.replicate Config.PageSize 0⟩ 0 (by decide)
    (by rw [Holds, List.length_replicate]; decide)).1.2 (by decide) _

theorem block_replicate {n : Nat} (h : Config.PageSize * (p.toNat + 1) ≤ n) :
    (RelFile.mk (List.replicate n 0)).block p = PageBuffer.zero.bytes := by
  unfold block PageBuffer.zero
  rw [List.drop_replicate, List.take_replicate, Nat.min_eq_left]
  rw [Nat.mul_succ] at h
  omega

theorem write_zeros {n : Nat} (hp : p.toNat ≠ PageNumber.Invalid) (h : Config.PageSize * (p.toNat + 1) ≤ n)
    (ht : p ≠ target p) :
    ((RelFile.mk (List.replicate n 0)).write page p >>= (·.read p)) = .ok .zero ∧
      ((RelFile.mk (List.replicate n 0)).write page p >>= (·.read (target p))) = .ok page := by
  have hholds : (RelFile.mk (List.replicate n 0)).Holds p := by
    rw [Holds, List.length_replicate]
    exact h
  rw [write_eq hp]
  constructor
  · refine (read_eq_ok hp hholds.written).2 ?_
    rw [block_written_other hholds ht, block_replicate h]
  · exact (read_eq_ok target_valid hholds.target.written).2 block_written_target

/-- The write to page `2 ^ 19` of a file of zeros changes page 0 instead. -/
theorem written_below :
    ((RelFile.mk (List.replicate (Config.PageSize * (2 ^ 19 + 1)) 0)).write
        ⟨List.replicate Config.PageSize 1, List.length_replicate⟩ 524288 >>= (·.read 524288)) = .ok .zero ∧
      ((RelFile.mk (List.replicate (Config.PageSize * (2 ^ 19 + 1)) 0)).write
        ⟨List.replicate Config.PageSize 1, List.length_replicate⟩ 524288 >>= (·.read 0)) =
          .ok ⟨List.replicate Config.PageSize 1, List.length_replicate⟩ := by
  have ht : target 524288 = 0 := by decide
  have h :=
    @write_zeros 524288 ⟨List.replicate Config.PageSize 1, List.length_replicate⟩ (Config.PageSize * (2 ^ 19 + 1))
    (by decide) (by decide) (by decide)
  rwa [ht] at h

end

end RelFile

end Mimidb
