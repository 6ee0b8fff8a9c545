import Mathlib.Data.List.Basic
import Mathlib.Order.Bounds.Basic
import Mathlib.Order.Lattice
import Mimidb.Config

/-!
# Tables for the terminal

`format` prints the rows of an answer below the names of their columns. All
lines of a table have one length, and a column has its bytes at the same place
in each of them.
-/

namespace Mimidb

namespace TableFormatter

abbrev Text := List UInt8

def spaces (n : Nat) : Text := List.replicate n 32

/-- A number of spaces that wraps around is too long for a string. -/
def writeColumnValue (dbg : Bool) (value : Text) (width : Nat) (align : Bool) : Except Fault Text := do
  assert dbg (decide (value.length + 2 ≤ width))
  if width < value.length + (if align then 0 else 1) then throw (.runtimeError "basic_string::_M_create")
  else
    let spacesCount := width - value.length
    let leftSpaces := if align then spacesCount / 2 else 1
    let rightSpaces := spacesCount - leftSpaces
    return spaces leftSpaces ++ value ++ spaces rightSpaces

def valWidth (value : Option Text) : Nat := (value.map List.length).getD 0

/-- The widths with one row counted in, which may have more values than there are columns. -/
def widen : List Nat → List (Option Text) → Except Fault (List Nat)
  | [], _ => return []
  | _ :: _, [] => throw .outOfBounds
  | width :: widths, value :: values => do return max width (valWidth value) :: (← widen widths values)

/-- A line of columns with a separator between them. -/
def writeColumns (separator : UInt8) : List Text → Text
  | [] => []
  | [column] => column
  | column :: columns => column ++ separator :: writeColumns separator columns

def writeHeader (dbg : Bool) : List Text → List Nat → Except Fault (List Text)
  | name :: names, width :: widths => do
    let column ← writeColumnValue dbg name width true
    return column :: (← writeHeader dbg names widths)
  | _, _ => return []

def writeValue (dbg : Bool) (width : Nat) : Option Text → Except Fault Text
  | some value => writeColumnValue dbg value width false
  | none => return spaces width

def writeRow (dbg : Bool) : List Nat → List (Option Text) → Except Fault (List Text)
  | [], _ => return []
  | _ :: _, [] => throw .outOfBounds
  | width :: widths, value :: values => do
    let column ← writeValue dbg width value
    return column :: (← writeRow dbg widths values)

def lines (ls : List Text) : Text := ls.flatMap fun line => line ++ [10]

def format (dbg : Bool) (attributes : List Text) (rows : List (List (Option Text))) : Except Fault Text := do
  let maxWidths ← rows.foldlM widen (attributes.map List.length)
  let maxWidths := maxWidths.map (· + 2)
  let header ← writeHeader dbg attributes maxWidths
  let tuples ← rows.mapM (writeRow dbg maxWidths)
  return lines (writeColumns 124 header :: writeColumns 43 (maxWidths.map fun width => List.replicate width 45) ::
    tuples.map (writeColumns 124))

/-! ## Columns of a line -/

/-- The bytes from `start` on, as many as `width`. -/
def part (text : Text) (start width : Nat) : Text := (text.drop start).take width

def columnStart (widths : List Nat) (j : Nat) : Nat := (widths.take j).sum + j

def lineLength (widths : List Nat) : Nat := widths.sum + (widths.length - 1)

variable {separator : UInt8} {columns : List Text} {column : Text} {widths : List Nat} {j width : Nat}

theorem writeColumns_cons (h : columns ≠ []) :
    writeColumns separator (column :: columns) = column ++ separator :: writeColumns separator columns := by
  cases columns with
  | nil => exact absurd rfl h
  | cons c cs => rfl

theorem writeColumns_length (separator : UInt8) (columns : List Text) (h : columns.map List.length = widths) :
    (writeColumns separator columns).length = lineLength widths := by
  subst h
  induction columns with
  | nil => rfl
  | cons c cs ih =>
    cases cs with
    | nil => simp [writeColumns, lineLength]
    | cons d ds =>
      rw [writeColumns_cons (by simp), List.length_append, List.length_cons, ih]
      simp [lineLength]
      omega

theorem columnStart_cons (w : Nat) (widths : List Nat) (j : Nat) :
    columnStart (w :: widths) (j + 1) = w + (columnStart widths j + 1) := by
  unfold columnStart
  rw [List.take_succ_cons, List.sum_cons]
  omega

theorem writeColumns_column (columns : List Text) (h : columns.map List.length = widths)
    (hj : columns[j]? = some column) :
    part (writeColumns separator columns) (columnStart widths j) column.length = column := by
  subst h
  induction columns generalizing j with
  | nil => simp at hj
  | cons c cs ih =>
    cases j with
    | zero =>
      obtain rfl : c = column := by simpa using hj
      cases cs <;> simp [part, columnStart, writeColumns]
    | succ j =>
      have hj' : cs[j]? = some column := by simpa using hj
      have hne : cs ≠ [] := by
        rintro rfl
        simp at hj'
      rw [writeColumns_cons hne, List.map_cons, columnStart_cons]
      unfold part at ih ⊢
      rw [List.drop_length_add_append, List.drop_succ_cons]
      exact ih hj'

theorem writeColumns_separator (separator : UInt8) (columns : List Text) (h : columns.map List.length = widths)
    (hj : j + 1 < columns.length) :
    (writeColumns separator columns)[columnStart widths (j + 1) - 1]? = some separator := by
  subst h
  induction columns generalizing j with
  | nil => simp at hj
  | cons c cs ih =>
    have hne : cs ≠ [] := by
      rintro rfl
      simp at hj
    rw [writeColumns_cons hne, List.map_cons, columnStart_cons, Nat.add_sub_assoc (Nat.le_add_left _ _),
      Nat.add_sub_cancel, List.getElem?_append_right (Nat.le_add_right _ _), Nat.add_sub_cancel_left]
    cases j with
    | zero => rfl
    | succ j =>
      have hstart : columnStart (cs.map List.length) (j + 1) ≠ 0 := by
        unfold columnStart
        omega
      have hj' : j + 1 < cs.length := by simpa using hj
      rw [← Nat.succ_pred_eq_of_ne_zero hstart, List.getElem?_cons_succ]
      exact ih hj'

/-! ## Lines of a table -/

variable {ls : List Text} {line : Text} {i n : Nat}

theorem lines_length (ls : List Text) (h : ∀ line ∈ ls, line.length = n) :
    (lines ls).length = ls.length * (n + 1) := by
  unfold lines
  rw [List.length_flatMap, List.map_congr_left (g := fun _ => n + 1)
    fun line hl => by rw [List.length_append, h line hl]; rfl]
  simp

theorem lines_drop (ls : List Text) (h : ∀ line ∈ ls, line.length = n) (hi : ls[i]? = some line) :
    ∃ rest, (lines ls).drop (i * (n + 1)) = line ++ 10 :: rest := by
  induction ls generalizing i with
  | nil => simp at hi
  | cons l ls ih =>
    have hl := h l List.mem_cons_self
    cases i with
    | zero =>
      obtain rfl : l = line := by simpa using hi
      exact ⟨lines ls, by simp [lines]⟩
    | succ i =>
      obtain ⟨rest, hrest⟩ := ih (fun l hl => h l (List.mem_cons_of_mem _ hl)) (by simpa using hi)
      refine ⟨rest, ?_⟩
      have hcons : lines (l :: ls) = (l ++ [10]) ++ lines ls := rfl
      have hlen : (l ++ [10]).length = n + 1 := by rw [List.length_append, hl]; rfl
      rw [hcons, Nat.succ_mul, Nat.add_comm, ← hlen, List.drop_length_add_append, hlen]
      exact hrest

/-- Where column `j` of line `i` starts. -/
def offset (widths : List Nat) (i j : Nat) : Nat := i * (lineLength widths + 1) + columnStart widths j

theorem lines_part (h : ∀ line ∈ ls, line.length = n) (hi : ls[i]? = some line) {start width : Nat}
    (hle : start + width ≤ n) :
    part (lines ls) (i * (n + 1) + start) width = part line start width := by
  obtain ⟨rest, hrest⟩ := lines_drop ls h hi
  have hlen := h line (List.mem_of_getElem? hi)
  unfold part
  rw [← List.drop_drop, hrest, List.drop_append_of_le_length (by omega), List.take_append_of_le_length]
  rw [List.length_drop]
  omega

theorem lines_get (h : ∀ line ∈ ls, line.length = n) (hi : ls[i]? = some line) {start : Nat} (hle : start ≤ n) :
    (lines ls)[i * (n + 1) + start]? = (line ++ [10])[start]? := by
  obtain ⟨rest, hrest⟩ := lines_drop ls h hi
  have hlen := h line (List.mem_of_getElem? hi)
  rw [← List.getElem?_drop, hrest, ← List.singleton_append, ← List.append_assoc, List.getElem?_append_left]
  rw [List.length_append, hlen]
  exact Nat.lt_succ_of_le hle

/-! ## Grids -/

/-- Lines with their separators and columns. -/
abbrev Grid := List (UInt8 × List Text)

def Grid.text (g : Grid) : Text := lines (g.map fun line => writeColumns line.1 line.2)

def Grid.Even (g : Grid) (widths : List Nat) : Prop := ∀ line ∈ g, line.2.map List.length = widths

variable {g : Grid}

theorem columnStart_le (hw : widths[j]? = some width) : columnStart widths j + width ≤ lineLength widths := by
  induction widths generalizing j with
  | nil => simp at hw
  | cons w ws ih =>
    cases j with
    | zero =>
      obtain rfl : w = width := by simpa using hw
      simp [columnStart, lineLength]
      omega
    | succ j =>
      have hw' : ws[j]? = some width := by simpa using hw
      have hlt := (List.getElem?_eq_some_iff.1 hw').1
      have := ih hw'
      rw [columnStart_cons]
      simp only [lineLength, List.sum_cons, List.length_cons] at this ⊢
      omega

theorem Grid.Even.lines (h : g.Even widths) :
    ∀ line ∈ g.map fun line => writeColumns line.1 line.2, line.length = lineLength widths := by
  intro line hline
  obtain ⟨⟨separator, columns⟩, hmem, rfl⟩ := List.mem_map.1 hline
  exact writeColumns_length _ columns (h _ hmem)

theorem Grid.Even.length (h : g.Even widths) : g.text.length = g.length * (lineLength widths + 1) := by
  unfold Grid.text
  rw [lines_length _ h.lines, List.length_map]

theorem Grid.text_line (hi : g[i]? = some (separator, columns)) :
    (g.map fun line => writeColumns line.1 line.2)[i]? = some (writeColumns separator columns) := by
  rw [List.getElem?_map, hi]
  rfl

theorem Grid.Even.part_column (h : g.Even widths) (hi : g[i]? = some (separator, columns))
    (hj : columns[j]? = some column)
    (hw : widths[j]? = some width) : part g.text (offset widths i j) width = column := by
  have hcolumns := h _ (List.mem_of_getElem? hi)
  obtain rfl : column.length = width := by
    rw [← hcolumns, List.getElem?_map, hj] at hw
    exact Option.some.inj hw
  unfold Grid.text offset
  rw [lines_part h.lines (Grid.text_line hi) (columnStart_le hw)]
  exact writeColumns_column columns hcolumns hj

theorem Grid.Even.get_separator (h : g.Even widths) (hi : g[i]? = some (separator, columns))
    (hj : j + 1 < widths.length) :
    g.text[offset widths i (j + 1) - 1]? = some separator := by
  have hcolumns : columns.map List.length = widths := h _ (List.mem_of_getElem? hi)
  have hstart : columnStart widths (j + 1) ≠ 0 := by
    unfold columnStart
    omega
  have hle := columnStart_le (List.getElem?_eq_getElem hj)
  have hsep := writeColumns_separator separator columns hcolumns (by rwa [← hcolumns, List.length_map] at hj)
  unfold Grid.text offset
  rw [Nat.add_sub_assoc (Nat.one_le_iff_ne_zero.2 hstart), lines_get h.lines (Grid.text_line hi) (by omega),
    List.getElem?_append_left, hsep]
  exact (List.getElem?_eq_some_iff.1 hsep).1

theorem Grid.Even.get_newline (h : g.Even widths) (hi : g[i]? = some (separator, columns)) :
    g.text[offset widths i 0 + lineLength widths]? = some 10 := by
  have hlen := writeColumns_length separator columns (h _ (List.mem_of_getElem? hi))
  have hstart : offset widths i 0 + lineLength widths = i * (lineLength widths + 1) + lineLength widths := by
    simp [offset, columnStart]
  unfold Grid.text
  rw [hstart, lines_get h.lines (Grid.text_line hi) (Nat.le_refl _), List.getElem?_append_right (Nat.le_of_eq hlen),
    hlen]
  simp

/-! ## Widths -/

variable {attributes : List Text} {rows : List (List (Option Text))} {row : List (Option Text)}
  {value : Option Text}

/-- The lengths of what stands in column `j`. -/
def lengths (attributes : List Text) (rows : List (List (Option Text))) (j : Nat) : Set Nat :=
  {n | (∃ name, attributes[j]? = some name ∧ name.length = n) ∨ ∃ row ∈ rows, ∃ value,
    row[j]? = some value ∧ valWidth value = n}

/-- The widths are the longest of each column so far. -/
structure Fits (attributes : List Text) (rows : List (List (Option Text))) (widths : List Nat) : Prop where
  columns : widths.length = attributes.length
  greatest : ∀ j width, widths[j]? = some width → IsGreatest (lengths attributes rows j) width

theorem Fits.init : Fits attributes [] (attributes.map List.length) where
  columns := List.length_map _
  greatest j width hj := by
    rw [List.getElem?_map] at hj
    obtain ⟨name, hname, rfl⟩ := Option.map_eq_some_iff.1 hj
    refine ⟨.inl ⟨name, hname, rfl⟩, fun n hn => ?_⟩
    rcases hn with ⟨name', hname', rfl⟩ | ⟨row, hrow, -⟩
    · rw [Option.some.inj (hname.symm.trans hname')]
    · cases hrow

theorem widen_eq (h : widths.length ≤ row.length) :
    ∃ ws, widen widths row = .ok ws ∧ ws.length = widths.length ∧
      ∀ (j width : Nat), ws[j]? = some width → ∃ w v, widths[j]? = some w ∧ row[j]? = some v ∧
      width = max w (valWidth v) := by
  induction widths generalizing row with
  | nil => exact ⟨[], rfl, rfl, fun j width hj => by simp at hj⟩
  | cons w ws ih =>
    cases row with
    | nil => simp at h
    | cons v vs =>
      obtain ⟨us, hus, hlen, hget⟩ := ih (Nat.le_of_succ_le_succ h)
      refine ⟨max w (valWidth v) :: us, by rw [widen, hus]; rfl, by simp [hlen], fun j width hj => ?_⟩
      cases j with
      | zero => exact ⟨w, v, rfl, rfl, by simpa using hj.symm⟩
      | succ j => exact hget j width (by simpa using hj)

theorem Fits.widen (h : Fits attributes rows widths) (hrow : attributes.length ≤ row.length) :
    ∃ ws, widen widths row = .ok ws ∧ Fits attributes (rows ++ [row]) ws := by
  obtain ⟨ws, hws, hlen, hget⟩ := widen_eq (h.columns ▸ hrow)
  refine ⟨ws, hws, hlen.trans h.columns, fun j width hj => ?_⟩
  obtain ⟨w, v, hw, hv, rfl⟩ := hget j width hj
  obtain ⟨hmem, hmax⟩ := h.greatest j w hw
  refine ⟨?_, fun n hn => ?_⟩
  · rcases max_choice w (valWidth v) with e | e
    · rw [e]
      exact hmem.imp_right fun ⟨r, hr, hvalue⟩ => ⟨r, List.mem_append_left _ hr, hvalue⟩
    · rw [e]
      exact .inr ⟨row, by simp, v, hv, rfl⟩
  · rcases hn with hname | ⟨r, hr, v', hv', rfl⟩
    · exact le_max_of_le_left (hmax (.inl hname))
    · rcases List.mem_append.1 hr with hr | hr
      · exact le_max_of_le_left (hmax (.inr ⟨r, hr, v', hv', rfl⟩))
      · obtain rfl := List.mem_singleton.1 hr
        obtain rfl := Option.some.inj (hv.symm.trans hv')
        exact le_max_right _ _

theorem maxWidths_eq (rest : List (List (Option Text))) (h : Fits attributes rows widths)
    (hrows : ∀ row ∈ rest, attributes.length ≤ row.length) :
    ∃ ws, rest.foldlM TableFormatter.widen widths = .ok ws ∧ Fits attributes (rows ++ rest) ws := by
  induction rest generalizing rows widths with
  | nil => exact ⟨widths, rfl, by simpa using h⟩
  | cons row rest ih =>
    obtain ⟨us, hus, hfits⟩ := h.widen (hrows row List.mem_cons_self)
    obtain ⟨ws, hws, hfits'⟩ := ih hfits fun r hr => hrows r (List.mem_cons_of_mem _ hr)
    refine ⟨ws, ?_, by simpa using hfits'⟩
    rw [List.foldlM_cons, hus]
    exact hws

/-! ## What is written -/

/-- A value in the middle of its column or behind one space. -/
def padded (value : Text) (width : Nat) (align : Bool) : Text :=
  let left := if align then (width - value.length) / 2 else 1
  spaces left ++ value ++ spaces (width - value.length - left)

def cell (width : Nat) : Option Text → Text
  | some value => padded value width false
  | none => spaces width

theorem padded_length {value : Text} {align : Bool} (h : value.length + 2 ≤ width) :
    (padded value width align).length = width := by
  unfold padded spaces
  cases align <;> simp <;> omega

theorem cell_length (h : valWidth value + 2 ≤ width) : (cell width value).length = width := by
  cases value with
  | none => simp [cell, spaces]
  | some value => exact padded_length h

theorem writeColumnValue_eq {value : Text} {dbg align : Bool} (h : value.length + 2 ≤ width) :
    writeColumnValue dbg value width align = .ok (padded value width align) := by
  have hassert : assert dbg (decide (value.length + 2 ≤ width)) = .ok () := by simp [assert, h]
  have hfits : ¬ width < value.length + (if align then 0 else 1) := by split <;> omega
  unfold writeColumnValue
  rw [hassert]
  exact if_neg hfits

theorem writeValue_eq {dbg : Bool} (h : valWidth value + 2 ≤ width) :
    writeValue dbg width value = .ok (cell width value) := by
  cases value with
  | none => rfl
  | some value => exact writeColumnValue_eq h

theorem writeHeader_eq {dbg : Bool} (hlen : widths.length = attributes.length)
    (h : ∀ (j : Nat) (name : Text) (width : Nat), attributes[j]? = some name → widths[j]? = some width →
      name.length + 2 ≤ width) :
    writeHeader dbg attributes widths =
    .ok (List.zipWith (fun width name => padded name width true) widths attributes) := by
  induction attributes generalizing widths with
  | nil => cases widths <;> rfl
  | cons name names ih =>
    cases widths with
    | nil => rfl
    | cons width widths =>
      have hrest :=
        ih (by simpa using hlen) fun j n w hn hw => h (j + 1) n w (by simpa using hn) (by simpa using hw)
      rw [writeHeader, writeColumnValue_eq (h 0 name width rfl rfl), hrest]
      rfl

theorem writeRow_eq {dbg : Bool} (hlen : widths.length ≤ row.length)
    (h : ∀ (j : Nat) (value : Option Text) (width : Nat), row[j]? = some value → widths[j]? = some width →
      valWidth value + 2 ≤ width) :
    writeRow dbg widths row = .ok (List.zipWith cell widths row) := by
  induction widths generalizing row with
  | nil => rfl
  | cons width widths ih =>
    cases row with
    | nil => simp at hlen
    | cons value values =>
      have hrest :=
        ih (by simpa using hlen) fun j v w hv hw => h (j + 1) v w (by simpa using hv) (by simpa using hw)
      rw [writeRow, writeValue_eq (h 0 value width rfl rfl), hrest]
      rfl

theorem zipWith_lengths {α : Type} {f : Nat → α → Text} {l : List α} (hlen : widths.length ≤ l.length)
    (h : ∀ (j : Nat) (a : α) (width : Nat), l[j]? = some a → widths[j]? = some width → (f width a).length = width) :
    (List.zipWith f widths l).map List.length = widths := by
  induction widths generalizing l with
  | nil => rfl
  | cons width widths ih =>
    cases l with
    | nil => simp at hlen
    | cons a l =>
      rw [List.zipWith_cons_cons, List.map_cons, h 0 a width rfl rfl]
      exact congrArg _ (ih (by simpa using hlen) fun j b w hb hw => h (j + 1) b w (by simpa using hb)
        (by simpa using hw))

theorem mapM_eq {α β : Type} {f : α → Except Fault β} {g : α → β} {l : List α} (h : ∀ a ∈ l, f a = .ok (g a)) :
    l.mapM f = .ok (l.map g) := by
  induction l with
  | nil => rfl
  | cons a l ih =>
    rw [List.mapM_cons, h a List.mem_cons_self, ih fun b hb => h b (List.mem_cons_of_mem _ hb)]
    rfl

/-! ## Tables -/

/-- The names, a rule and the rows. -/
def table (attributes : List Text) (rows : List (List (Option Text))) (widths : List Nat) : Grid :=
  (124, List.zipWith (fun width name => padded name width true) widths attributes) ::
    (43, widths.map fun width => List.replicate width 45) :: rows.map fun row => (124, List.zipWith cell widths row)

/-- There is room for all names and values, and two spaces. -/
structure Roomy (attributes : List Text) (rows : List (List (Option Text))) (widths : List Nat) : Prop where
  columns : widths.length = attributes.length
  full : ∀ row ∈ rows, widths.length ≤ row.length
  name : ∀ (j : Nat) (name : Text) (width : Nat), attributes[j]? = some name → widths[j]? = some width →
    name.length + 2 ≤ width
  value : ∀ row ∈ rows, ∀ (j : Nat) (value : Option Text) (width : Nat), row[j]? = some value →
    widths[j]? = some width →
    valWidth value + 2 ≤ width

theorem Fits.get (h : Fits attributes rows widths) (hw : (widths.map (· + 2))[j]? = some width) :
    ∃ n, width = n + 2 ∧ IsGreatest (lengths attributes rows j) n := by
  rw [List.getElem?_map] at hw
  obtain ⟨n, hn, rfl⟩ := Option.map_eq_some_iff.1 hw
  exact ⟨n, rfl, h.greatest j n hn⟩

theorem Fits.roomy (h : Fits attributes rows widths) (hrows : ∀ row ∈ rows, attributes.length ≤ row.length) :
    Roomy attributes rows (widths.map (· + 2)) := by
  have hlen : (widths.map (· + 2)).length = attributes.length := (List.length_map _).trans h.columns
  refine ⟨hlen, fun row hrow => hlen ▸ hrows row hrow, fun j name width hn hw => ?_,
    fun row hrow j value width hv hw => ?_⟩
  · obtain ⟨n, rfl, -, hmax⟩ := h.get hw
    exact Nat.add_le_add_right (hmax (.inl ⟨name, hn, rfl⟩)) 2
  · obtain ⟨n, rfl, -, hmax⟩ := h.get hw
    exact Nat.add_le_add_right (hmax (.inr ⟨row, hrow, value, hv, rfl⟩)) 2

theorem Roomy.even (h : Roomy attributes rows widths) : (table attributes rows widths).Even widths := by
  intro line hline
  simp only [table, List.mem_cons, List.mem_map] at hline
  rcases hline with rfl | rfl | ⟨row, hrow, rfl⟩
  · exact zipWith_lengths (Nat.le_of_eq h.columns) fun j name width hn hw =>
      padded_length (h.name j name width hn hw)
  · simp [Function.comp_def]
  · exact zipWith_lengths (h.full row hrow) fun j value width hv hw =>
      cell_length (h.value row hrow j value width hv hw)

theorem format_eq {dbg : Bool} (h : Fits attributes rows widths)
    (hwidths : rows.foldlM TableFormatter.widen (attributes.map List.length) = .ok widths)
    (hrows : ∀ row ∈ rows, attributes.length ≤ row.length) :
    format dbg attributes rows = .ok (table attributes rows (widths.map (· + 2))).text := by
  have hroomy := h.roomy hrows
  have htuples :
    rows.mapM (writeRow dbg (widths.map (· + 2))) = .ok (rows.map (List.zipWith cell (widths.map (· + 2)))) :=
    mapM_eq fun row hrow => writeRow_eq (hroomy.full row hrow) (hroomy.value row hrow)
  unfold format
  refine bind_eq_ok.2
    ⟨widths, hwidths, bind_eq_ok.2 ⟨_, writeHeader_eq hroomy.columns hroomy.name, bind_eq_ok.2 ⟨_, htuples, ?_⟩⟩⟩
  unfold Grid.text table
  simp only [List.map_cons, List.map_map, Function.comp_def]
  rfl

theorem format_returns (dbg : Bool) (hrows : ∀ row ∈ rows, attributes.length ≤ row.length) :
    ∃ text, format dbg attributes rows = .ok text := by
  obtain ⟨ws, hws, hfits⟩ := maxWidths_eq rows (Fits.init : Fits attributes [] _) hrows
  rw [List.nil_append] at hfits
  exact ⟨_, format_eq hfits hws hrows⟩

/-- Where the names, the rule and the values of a printed table are. -/
structure Layout (attributes : List Text) (rows : List (List (Option Text))) (widths : List Nat) (text : Text) :
    Prop where
  columns : widths.length = attributes.length
  -- the longest in the column and two spaces
  width : ∀ (j width : Nat), widths[j]? = some width → ∃ n, width = n + 2 ∧ IsGreatest (lengths attributes rows j) n
  length : text.length = (rows.length + 2) * (lineLength widths + 1)
  newline : ∀ i, i < rows.length + 2 → text[offset widths i 0 + lineLength widths]? = some 10
  separator : ∀ i j, i < rows.length + 2 → j + 1 < widths.length →
    text[offset widths i (j + 1) - 1]? = some (if i = 1 then 43 else 124)
  name : ∀ (j : Nat) (name : Text) (width : Nat), attributes[j]? = some name → widths[j]? = some width →
    part text (offset widths 0 j) width = padded name width true
  rule : ∀ (j width : Nat), widths[j]? = some width → part text (offset widths 1 j) width = List.replicate width 45
  value : ∀ (i j : Nat) (row : List (Option Text)) (value : Option Text) (width : Nat), rows[i]? = some row →
    row[j]? = some value →
    widths[j]? = some width → part text (offset widths (i + 2) j) width = cell width value

theorem table_line (attributes : List Text) (rows : List (List (Option Text))) (widths : List Nat)
    (hi : i < rows.length + 2) :
    ∃ columns, (table attributes rows widths)[i]? = some (if i = 1 then 43 else 124, columns) := by
  match i with
  | 0 => exact ⟨_, rfl⟩
  | 1 => exact ⟨_, rfl⟩
  | i + 2 =>
    have hi' : i < rows.length := by omega
    exact ⟨List.zipWith cell widths rows[i], by simp [table, hi']⟩

theorem Roomy.layout (h : Roomy attributes rows widths)
    (hwidth : ∀ (j width : Nat), widths[j]? = some width → ∃ n,
      width = n + 2 ∧ IsGreatest (lengths attributes rows j) n) :
    Layout attributes rows widths (table attributes rows widths).text where
  columns := h.columns
  width := hwidth
  length := by
    rw [h.even.length]
    simp [table]
  newline i hi := by
    obtain ⟨columns, hline⟩ := table_line attributes rows widths hi
    exact h.even.get_newline hline
  separator i j hi hj := by
    obtain ⟨columns, hline⟩ := table_line attributes rows widths hi
    exact h.even.get_separator hline hj
  name j name width hn hw := by
    refine h.even.part_column (i := 0) rfl ?_ hw
    rw [List.getElem?_zipWith, hw, hn]
  rule j width hw := by
    refine h.even.part_column (i := 1) rfl ?_ hw
    rw [List.getElem?_map, hw]
    rfl
  value i j row value width hrow hv hw := by
    have hline : (table attributes rows widths)[i + 2]? = some (124, List.zipWith cell widths row) := by
      simp [table, hrow]
    refine h.even.part_column hline ?_ hw
    rw [List.getElem?_zipWith, hw, hv]

/-- A table is printed when no row lacks a value; all its lines are of one length,
and every value stands in its column. -/
theorem format_layout (dbg : Bool) (attributes : List Text) (rows : List (List (Option Text)))
    (h : ∀ row ∈ rows, attributes.length ≤ row.length) :
    ∃ text widths, format dbg attributes rows = .ok text ∧ Layout attributes rows widths text := by
  obtain ⟨ws, hws, hfits⟩ := maxWidths_eq rows (Fits.init : Fits attributes [] _) h
  rw [List.nil_append] at hfits
  exact ⟨_, _, format_eq hfits hws h, (hfits.roomy h).layout fun _ _ hw => hfits.get hw⟩

/-- Two columns with a `NULL` and a value that is longer than its name. -/
theorem format_layout_two :
    ∃ text widths, format true [[97], [98]] [[some [49, 50], none], [some [51], some []]] = .ok text ∧
    Layout [[97], [98]] [[some [49, 50], none], [some [51], some []]] widths text :=
  format_layout true [[97], [98]] [[some [49, 50], none], [some [51], some []]] (by decide)

end TableFormatter

end Mimidb
