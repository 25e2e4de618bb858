import LeonUtils.Text.Sheet
import Mathlib.Algebra.Order.BigOperators.Group.List
import Mathlib.Data.List.Forall2

/-!
# The lines of a table are equally wide

A line of a table is a name and one part for each visible column, with a character before each of
them and one at the end (`line`); the border, the titles and the rows are lines in this sense. When
each part is as wide as its column, the width of the line is the sum.

A text is a sequence of lines, each after a line break. `Ruled` says so of a text whose lines all
have one width, and it is closed under `++`, which is how `makeWstr` puts a table together.

## Main definitions

* `Spans`, `Ruled` — lines, and texts of lines, of a given width
* `TextSheet.Tidy` — what is asked of a sheet
* `TextSheet.Drawn` — what `skeleton` makes of it

## Main results

* `TextSheet.lines_equally_wide` — all lines have the width of the border
-/

namespace LeonUtils.Text

/-- The visible columns. -/
def shown (cols : List ColSpec) : List ColSpec := cols.filter (·.v)

/-! ## Lines -/

/-- A text without a line break, of width `w`. -/
def Spans (w : ℤ) (text : WStr) : Prop := '\n' ∉ text ∧ (displWidth text : ℤ) = w

theorem Spans.append {v w : ℤ} {a b : WStr} (ha : Spans v a) (hb : Spans w b) :
    Spans (v + w) (a ++ b) := by
  refine ⟨?_, ?_⟩
  · rw [List.mem_append, not_or]
    exact ⟨ha.1, hb.1⟩
  · rw [displWidth_append, Nat.cast_add, ha.2, hb.2]

/-- A character of a border. -/
def Narrow (c : Char) : Prop := c ≠ '\n' ∧ isChinese c = false

instance : DecidablePred Narrow := fun _ => inferInstanceAs (Decidable (_ ∧ _))

theorem Narrow.spans {c : Char} (hc : Narrow c) : Spans 1 [c] := by
  refine ⟨?_, ?_⟩
  · rw [List.mem_singleton]
    exact hc.1.symm
  · rw [displWidth_cons, hc.2]
    rfl

theorem Narrow.spans_cons {c : Char} (hc : Narrow c) {w : ℤ} {text : WStr} (h : Spans w text) :
    Spans (1 + w) (c :: text) :=
  hc.spans.append h

theorem Narrow.spans_replicate {c : Char} (hc : Narrow c) {w : ℤ} (hw : 0 ≤ w) :
    Spans w (List.replicate w.toNat c) := by
  refine ⟨fun h => hc.1 (List.eq_of_mem_replicate h).symm, ?_⟩
  rw [displWidth_replicate _ hc.2, Int.toNat_of_nonneg hw]

theorem spans_adaptWidth {w : ℤ} {text : WStr} (hbreak : '\n' ∉ text) (h : displWidth text ≤ w) :
    Spans w (adaptWidth w text) :=
  ⟨fun hmem => (mem_adaptWidth hmem).elim (by decide) hbreak, displWidth_adaptWidth h⟩

theorem spans_adaptCentr {w : ℤ} {text : WStr} (hbreak : '\n' ∉ text) (h : displWidth text ≤ w) :
    Spans w (adaptCentr w text) :=
  ⟨fun hmem => (mem_adaptCentr hmem).elim (by decide) hbreak, displWidth_adaptCentr h⟩

/-- A part of a line fits its column. -/
def Fits (col : ColSpec) (part : WStr) : Prop := Spans col.w part

/-- The width of a table whose name column has width `w`. -/
def tableWidth (w : ℤ) (cols : List ColSpec) : ℤ :=
  w + ((shown cols).map (·.w)).sum + (shown cols).length + 2

/-- A line of a table. -/
def line (left mid right : Char) (name : WStr) (parts : List WStr) : WStr :=
  left :: name ++ parts.flatMap (mid :: ·) ++ [right]

theorem spans_parts {mid : Char} (hmid : Narrow mid) {cols : List ColSpec} {parts : List WStr}
    (h : List.Forall₂ Fits cols parts) :
    Spans ((cols.map (·.w)).sum + cols.length) (parts.flatMap (mid :: ·)) := by
  induction h with
  | nil => exact ⟨List.not_mem_nil, rfl⟩
  | cons hfits _ ih =>
    have := (hmid.spans_cons hfits).append ih
    simp only [List.map_cons, List.sum_cons, List.length_cons, List.flatMap_cons]
    convert this using 1
    push_cast
    omega

/-- **A line is as wide as the table** when its parts fit. -/
theorem spans_line {left mid right : Char} (hleft : Narrow left) (hmid : Narrow mid)
    (hright : Narrow right) {w : ℤ} {name : WStr} (hname : Spans w name) {cols : List ColSpec}
    {parts : List WStr} (h : List.Forall₂ Fits (shown cols) parts) :
    Spans (tableWidth w cols) (line left mid right name parts) := by
  have := ((hleft.spans_cons hname).append (spans_parts hmid h)).append hright.spans
  rw [tableWidth, line]
  convert this using 1
  omega

/-! ## Texts -/

/-- A text of lines of width `w`, each of them after a line break. -/
def Ruled (w : ℤ) (text : WStr) : Prop :=
  ∃ lines : List WStr, text = lines.flatMap ('\n' :: ·) ∧ ∀ l ∈ lines, Spans w l

theorem Ruled.nil (w : ℤ) : Ruled w [] :=
  ⟨[], rfl, by simp⟩

theorem Ruled.append {w : ℤ} {a b : WStr} (ha : Ruled w a) (hb : Ruled w b) : Ruled w (a ++ b) := by
  obtain ⟨as, rfl, has⟩ := ha
  obtain ⟨bs, rfl, hbs⟩ := hb
  refine ⟨as ++ bs, List.flatMap_append.symm, ?_⟩
  intro l hl
  exact (List.mem_append.mp hl).elim (has l) (hbs l)

theorem Spans.ruled {w : ℤ} {l : WStr} (h : Spans w l) : Ruled w ('\n' :: l) :=
  ⟨[l], by simp, by simpa using h⟩

/-- The lines after the first break are the lines of the text. -/
theorem Ruled.splitOn {w : ℤ} {text : WStr} (h : Ruled w ('\n' :: text)) :
    ∀ l ∈ text.splitOn '\n', Spans w l := by
  obtain ⟨lines, htext, hlines⟩ := h
  cases lines with
  | nil => cases htext
  | cons l ls =>
    have hjoin : text = ['\n'].intercalate (l :: ls) := by
      simp only [List.flatMap_cons, List.cons_append, List.cons.injEq, true_and] at htext
      rw [htext]
      clear htext hlines
      induction ls generalizing l with
      | nil => simp
      | cons l' ls ih => simp [List.intercalate_cons_cons, ih l']
    rw [hjoin, List.splitOn_intercalate '\n' (fun l hl => (hlines l hl).1) (List.cons_ne_nil _ _)]
    exact hlines

namespace TextSheet

/-! ## The header -/

/-- What is asked of a sheet before `skeleton`: no line breaks; every visible column has a width
from 3 to 127, a title that fits, and a printable separator. -/
structure Tidy (t : TextSheet) : Prop where
  sheetName : '\n' ∉ t.sheetName
  rows : ∀ row ∈ t.rowSpecs, '\n' ∉ row.n
  cols : ∀ col ∈ t.colSpecs, '\n' ∉ col.n
  width : ∀ col ∈ t.colSpecs, 3 ≤ col.w ∧ col.w ≤ 127
  title : ∀ col ∈ shown t.colSpecs, displWidth col.n ≤ col.w
  separator : ∀ col ∈ t.colSpecs, Printable col.s

/-- What `skeleton` makes of a tidy sheet, and `fill` keeps. -/
structure Drawn (t : TextSheet) : Prop where
  head : Ruled (tableWidth t.nameWidth t.colSpecs) t.headLine
  headBreak : ∃ rest, t.headLine = '\n' :: rest
  sepa : Ruled (tableWidth t.nameWidth t.colSpecs) t.sepaLine
  foot : Ruled (tableWidth t.nameWidth t.colSpecs) t.footLine
  names : ∀ row ∈ t.rowSpecs, row.v = true → Spans t.nameWidth row.n
  width : ∀ col ∈ t.colSpecs, 3 ≤ col.w ∧ col.w ≤ 127
  separator : ∀ col ∈ t.colSpecs, Printable col.s
  numRows : t.allData.length = t.rowSpecs.length
  numCols : ∀ rd ∈ t.allData, rd.length = t.colSpecs.length

theorem wfill_eq {n : ℤ} (h : 0 ≤ n) (c : Char) : wfill n c = .ok (List.replicate n.toNat c) :=
  if_neg (by omega)

/-- The border of a column. -/
def dcLine (col : ColSpec) : WStr := List.replicate col.w.toNat '─'

theorem mem_shown {cols : List ColSpec} {col : ColSpec} :
    col ∈ shown cols ↔ col ∈ cols ∧ col.v = true := List.mem_filter

/-- The widths of the visible columns are looked at, and no others. -/
theorem Lines.foldlM_addCol {cols : List ColSpec} (h : ∀ col ∈ shown cols, 0 ≤ col.w) (l : Lines) :
    cols.foldlM Lines.addCol l = .ok
      { head := l.head ++ ((shown cols).map dcLine).flatMap ('┬' :: ·)
        sepa := l.sepa ++ ((shown cols).map dcLine).flatMap ('┼' :: ·)
        foot := l.foot ++ ((shown cols).map dcLine).flatMap ('┴' :: ·)
        first := l.first ++
          ((shown cols).map fun col => adaptCentr col.w col.n).flatMap ('│' :: ·) } := by
  induction cols generalizing l with
  | nil => simp [shown, pure, Except.pure]
  | cons col cols ih =>
    have ih := ih fun col' hcol' =>
      h col' (mem_shown.mpr ⟨List.mem_cons_of_mem _ (mem_shown.mp hcol').1, (mem_shown.mp hcol').2⟩)
    rw [List.foldlM_cons, Lines.addCol]
    cases hv : col.v with
    | true =>
      rw [if_pos rfl, wfill_eq (h col (mem_shown.mpr ⟨List.mem_cons_self, hv⟩))]
      exact (ih _).trans (by simp [shown, hv, dcLine])
    | false =>
      rw [if_neg Bool.false_ne_true]
      exact (ih _).trans (by simp [shown, hv])

/-- The name column is wider than every name in it. -/
theorem le_widest (sheetName : WStr) (rows : List RowSpec) :
    displWidth sheetName + 2 ≤ widest sheetName rows ∧
      ∀ row ∈ rows, row.v = true → displWidth row.n + 2 ≤ widest sheetName rows := by
  rw [widest]
  generalize displWidth sheetName = w
  induction rows generalizing w with
  | nil => simp
  | cons row rows ih =>
    rw [List.foldl_cons]
    obtain ⟨hstart, hrows⟩ := ih (if row.v = true then max w (displWidth row.n) else w)
    refine ⟨?_, ?_⟩
    · refine le_trans ?_ hstart
      split <;> omega
    · intro row' hmem hv
      rcases List.mem_cons.mp hmem with rfl | hmem
      · rw [if_pos hv] at hstart ⊢
        omega
      · exact hrows row' hmem hv

/-- A line of the border of a sheet. -/
def border (t : TextSheet) (left mid right : Char) : WStr :=
  line left mid right (List.replicate (widest t.sheetName t.rowSpecs).toNat '─')
    ((shown t.colSpecs).map dcLine)

/-- The titles. -/
def titles (t : TextSheet) : WStr :=
  line '│' '│' '│' (adaptCentr (widest t.sheetName t.rowSpecs) t.sheetName)
    ((shown t.colSpecs).map fun col => adaptCentr col.w col.n)

/-- A sheet after `skeleton`, with its lines written as such. -/
def drawn (t : TextSheet) : TextSheet :=
  { t with
    nameWidth := widest t.sheetName t.rowSpecs
    rowSpecs := t.rowSpecs.map (RowSpec.adapt (widest t.sheetName t.rowSpecs))
    headLine := '\n' :: t.border '┌' '┬' '┐' ++ '\n' :: t.titles
    sepaLine := '\n' :: t.border '├' '┼' '┤'
    footLine := '\n' :: t.border '└' '┴' '┘'
    allData := List.replicate t.rowSpecs.length
      (List.replicate t.colSpecs.length (.finite false 0)) }

theorem skeleton_eq {t : TextSheet} (h : ∀ col ∈ shown t.colSpecs, 0 ≤ col.w) :
    t.skeleton = .ok t.drawn := by
  have hw : 0 ≤ widest t.sheetName t.rowSpecs := by
    have := (le_widest t.sheetName t.rowSpecs).1
    omega
  rw [TextSheet.skeleton, wfill_eq hw]
  simp only [bind, Except.bind]
  rw [Lines.foldlM_addCol h]
  simp [drawn, border, titles, line]

theorem spans_border {t : TextSheet} (h : ∀ col ∈ t.colSpecs, 0 ≤ col.w) {left mid right : Char}
    (hleft : Narrow left) (hmid : Narrow mid) (hright : Narrow right) :
    Spans (tableWidth (widest t.sheetName t.rowSpecs) t.colSpecs) (t.border left mid right) := by
  have hw := (le_widest t.sheetName t.rowSpecs).1
  refine spans_line hleft hmid hright (Narrow.spans_replicate (by decide) (by omega)) ?_
  rw [List.forall₂_map_right_iff, List.forall₂_same]
  intro col hcol
  exact Narrow.spans_replicate (by decide) (h col (List.mem_filter.mp hcol).1)

theorem Tidy.spans_titles {t : TextSheet} (h : t.Tidy) :
    Spans (tableWidth (widest t.sheetName t.rowSpecs) t.colSpecs) t.titles := by
  have hw := (le_widest t.sheetName t.rowSpecs).1
  refine spans_line (by decide) (by decide) (by decide) (spans_adaptCentr h.sheetName (by omega)) ?_
  rw [List.forall₂_map_right_iff, List.forall₂_same]
  intro col hcol
  exact spans_adaptCentr (h.cols col (List.mem_filter.mp hcol).1) (h.title col hcol)

theorem Tidy.width_nonneg {t : TextSheet} (h : t.Tidy) : ∀ col ∈ t.colSpecs, 0 ≤ col.w := by
  intro col hcol
  have := h.width col hcol
  omega

/-- The names whose widths `skeleton` computes. -/
def measured (t : TextSheet) : List WStr :=
  t.sheetName :: ((t.rowSpecs.filter (·.v)).map (·.n) ++ (shown t.colSpecs).map (·.n))

/-- A table narrower than 2³¹ columns has no name that is too wide for an `int`. -/
theorem Tidy.measured_lt {t : TextSheet} (h : t.Tidy)
    (hwidth : tableWidth (widest t.sheetName t.rowSpecs) t.colSpecs < 2 ^ 31) :
    ∀ name ∈ t.measured, displWidth name < 2 ^ 31 := by
  obtain ⟨hsheet, hrows⟩ := le_widest t.sheetName t.rowSpecs
  have hsum : 0 ≤ ((shown t.colSpecs).map (·.w)).sum := by
    refine List.sum_nonneg fun w hw => ?_
    obtain ⟨col, hcol, rfl⟩ := List.mem_map.mp hw
    exact h.width_nonneg col (mem_shown.mp hcol).1
  rw [tableWidth] at hwidth
  refine List.forall_mem_cons.mpr ⟨by omega, fun name hname => ?_⟩
  obtain hname | hname := List.mem_append.mp hname
  · obtain ⟨row, hrow, rfl⟩ := List.mem_map.mp hname
    have hle := hrows row (List.mem_filter.mp hrow).1 (List.mem_filter.mp hrow).2
    omega
  · obtain ⟨col, hcol, rfl⟩ := List.mem_map.mp hname
    have hle := h.title col hcol
    have hmax := (h.width col (mem_shown.mp hcol).1).2
    omega

/-- **`skeleton` draws a tidy sheet.** -/
theorem Tidy.drawn {t : TextSheet} (h : t.Tidy) : t.drawn.Drawn where
  head := (spans_border h.width_nonneg (by decide) (by decide) (by decide)).ruled.append
    h.spans_titles.ruled
  headBreak := ⟨_, rfl⟩
  sepa := (spans_border h.width_nonneg (by decide) (by decide) (by decide)).ruled
  foot := (spans_border h.width_nonneg (by decide) (by decide) (by decide)).ruled
  names := by
    intro row hmem hv
    obtain ⟨row', hmem', rfl⟩ := List.mem_map.mp hmem
    cases hv' : row'.v with
    | false => simp [RowSpec.adapt, hv'] at hv
    | true =>
      have hw : displWidth row'.n ≤ t.drawn.nameWidth :=
        (by omega : (_ : ℤ) ≤ _ + 2).trans ((le_widest t.sheetName t.rowSpecs).2 row' hmem' hv')
      simp only [RowSpec.adapt, hv', if_true]
      exact spans_adaptWidth (h.rows row' hmem') hw
  width := h.width
  separator := h.separator
  numRows := by simp [TextSheet.drawn]
  numCols := by
    intro rd hrd
    rw [List.eq_of_mem_replicate hrd, List.length_replicate]
    rfl

/-! ## The rows -/

/-- A cell is as wide as its column, whatever the number in it. -/
theorem cell_fits {spec : ColSpec} (hw : 3 ≤ spec.w ∧ spec.w ≤ 127) (hs : Printable spec.s)
    (d : Double) : ∃ part, cell spec d = .ok ('│' :: part) ∧ Fits spec part := by
  have hnat : ((spec.w - 2) % 2 ^ 64).toNat = (spec.w - 2).toNat := by
    rw [Int.emod_eq_of_lt (by omega) (by omega)]
  obtain ⟨text, htext, hlen⟩ := fmt_fits d (w := ((spec.w - 2) % 2 ^ 64).toNat) (by omega)
    (by omega) spec.p spec.g ' ' spec.s
  have hprint := fmt_printable (by decide) hs htext
  refine ⟨adaptWidth spec.w text, ?_, spans_adaptWidth (fun h => ?_) ?_⟩
  · rw [cell, textOf, htext]
    simp only [bind, Except.bind]
    rw [u82ws_of_printable hprint]
  · exact absurd (hprint _ h) (by decide)
  · rw [displWidth_eq_length fun c hc => (hprint c hc).not_chinese]
    omega

theorem cells_fit {specs : List ColSpec} (hw : ∀ spec ∈ specs, 3 ≤ spec.w ∧ spec.w ≤ 127)
    (hs : ∀ spec ∈ specs, Printable spec.s) {rd : List Double} (hlen : rd.length = specs.length) :
    ∃ parts, cells specs rd = .ok (parts.flatMap ('│' :: ·)) ∧
      List.Forall₂ Fits (shown specs) parts := by
  induction specs generalizing rd with
  | nil =>
    obtain rfl := List.length_eq_zero_iff.mp hlen
    exact ⟨[], rfl, List.Forall₂.nil⟩
  | cons spec specs ih =>
    cases rd with
    | nil => cases hlen
    | cons d ds =>
      obtain ⟨parts, hparts, hfit⟩ := ih (fun spec h => hw spec (List.mem_cons_of_mem _ h))
        (fun spec h => hs spec (List.mem_cons_of_mem _ h)) (Nat.succ.inj hlen)
      rw [cells, hparts]
      cases hv : spec.v with
      | false => exact ⟨parts, rfl, by simpa [shown, hv] using hfit⟩
      | true =>
        obtain ⟨part, hpart, hfits⟩ :=
          cell_fits (hw spec List.mem_cons_self) (hs spec List.mem_cons_self) d
        refine ⟨part :: parts, ?_, ?_⟩
        · rw [hpart]
          rfl
        · simpa [shown, hv] using ⟨hfits, hfit⟩

theorem rows_ruled {w : ℤ} {sepaLine : WStr} {specs : List ColSpec}
    (hsepa : Ruled (tableWidth w specs) sepaLine)
    (hw : ∀ spec ∈ specs, 3 ≤ spec.w ∧ spec.w ≤ 127) (hs : ∀ spec ∈ specs, Printable spec.s)
    {rss : List RowSpec} (hnames : ∀ rs ∈ rss, rs.v = true → Spans w rs.n)
    {data : List (List Double)} (hlen : data.length = rss.length)
    (hdata : ∀ rd ∈ data, rd.length = specs.length) :
    ∃ body, rows sepaLine specs rss data = .ok body ∧ Ruled (tableWidth w specs) body := by
  induction rss generalizing data with
  | nil => exact ⟨[], rfl, Ruled.nil _⟩
  | cons rs rss ih =>
    cases data with
    | nil => cases hlen
    | cons rd data =>
      obtain ⟨body, hbody, hruled⟩ := ih (fun rs h => hnames rs (List.mem_cons_of_mem _ h))
        (Nat.succ.inj hlen) (fun rd h => hdata rd (List.mem_cons_of_mem _ h))
      rw [rows, hbody]
      cases hv : rs.v with
      | false => exact ⟨body, rfl, hruled⟩
      | true =>
        obtain ⟨parts, hparts, hfit⟩ := cells_fit hw hs (hdata rd List.mem_cons_self)
        have hline := spans_line (by decide : Narrow '│') (by decide : Narrow '│')
          (by decide : Narrow '│') (hnames rs List.mem_cons_self hv) hfit
        rw [hparts]
        refine ⟨_, rfl, ?_⟩
        have := (hsepa.append hline.ruled).append hruled
        simpa [line] using this

/-- **The text of a sheet that is drawn consists of equally wide lines.** -/
theorem Drawn.makeWstr {t : TextSheet} (h : t.Drawn) :
    ∃ text, t.makeWstr = .ok ('\n' :: text) ∧
      Ruled (tableWidth t.nameWidth t.colSpecs) ('\n' :: text) := by
  obtain ⟨body, hbody, hruled⟩ :=
    rows_ruled h.sepa h.width h.separator h.names h.numRows h.numCols
  obtain ⟨rest, hrest⟩ := h.headBreak
  have hall := (h.head.append hruled).append h.foot
  rw [TextSheet.makeWstr, hbody]
  rw [hrest] at hall ⊢
  exact ⟨_, rfl, hall⟩

/-! ## The data -/

/-- `fill` inside the table changes the data only. -/
theorem Drawn.fill {t : TextSheet} (h : t.Drawn) {r c : ℕ} (hr : r < t.rowSpecs.length)
    (hc : c < t.colSpecs.length) (d : Double) :
    ∃ data, t.fill r c d = .ok { t with allData := data } ∧ Drawn { t with allData := data } := by
  have hr' : r < t.allData.length := h.numRows ▸ hr
  have hrow := h.numCols _ (List.getElem_mem hr')
  refine ⟨t.allData.set r (t.allData[r].set c d), ?_, ?_⟩
  · rw [TextSheet.fill, List.getElem?_eq_getElem hr']
    exact if_pos (hrow ▸ hc)
  · exact
      { h with
        numRows := by rw [List.length_set, h.numRows]
        numCols := by
          intro rd hrd
          rcases List.mem_or_eq_of_mem_set hrd with hrd | rfl
          · exact h.numCols rd hrd
          · rw [List.length_set, hrow] }

/-- The numbers that a client fills in. -/
abbrev Fill : Type := ℕ × ℕ × Double

def Fill.op (f : Fill) : Op := .fill f.1 f.2.1 f.2.2

/-- Any numbers may be filled in before the text is made. -/
theorem Drawn.calls {t : TextSheet} (h : t.Drawn) {fills : List Fill}
    (hin : ∀ f ∈ fills, f.1 < t.rowSpecs.length ∧ f.2.1 < t.colSpecs.length) :
    ∃ s text, t.calls (fills.map Fill.op ++ [.makeWstr]) = .ok (s, ['\n' :: text]) ∧
      Ruled (tableWidth t.nameWidth t.colSpecs) ('\n' :: text) := by
  induction fills generalizing t with
  | nil =>
    obtain ⟨text, htext, hruled⟩ := h.makeWstr
    refine ⟨t, text, ?_, hruled⟩
    rw [List.map_nil, List.nil_append, TextSheet.calls, TextSheet.call, htext]
    rfl
  | cons f fills ih =>
    obtain ⟨hr, hc⟩ := hin f List.mem_cons_self
    obtain ⟨data, hfill, hdrawn⟩ := h.fill hr hc f.2.2
    obtain ⟨s, text, htext, hruled⟩ := ih hdrawn fun f hf => hin f (List.mem_cons_of_mem _ hf)
    refine ⟨s, text, ?_, hruled⟩
    rw [List.map_cons, List.cons_append, TextSheet.calls, Fill.op, TextSheet.call, hfill]
    simp only [bind, Except.bind]
    rw [htext]
    rfl

/-- A line of a table that is narrower than 2³¹ columns is not too wide for an `int` either. -/
theorem Spans.lt {w : ℤ} {l : WStr} (h : Spans w l) (hw : w < 2 ^ 31) : displWidth l < 2 ^ 31 := by
  have := h.2
  omega

/-- **All lines of a table are equally wide**: the name column, the visible columns, and the
characters between them. As long as that is an `int`, so are the widths of the names and the
lines. -/
theorem lines_equally_wide {t : TextSheet} (ht : t.Tidy) {fills : List Fill}
    (hin : ∀ f ∈ fills, f.1 < t.rowSpecs.length ∧ f.2.1 < t.colSpecs.length) :
    ∃ text, t.run (.skeleton :: (fills.map Fill.op ++ [.makeWstr])) = .ok ['\n' :: text] ∧
      (∀ line ∈ text.splitOn '\n', (displWidth line : ℤ) =
        widest t.sheetName t.rowSpecs + ((shown t.colSpecs).map (·.w)).sum +
          (shown t.colSpecs).length + 2) ∧
      (tableWidth (widest t.sheetName t.rowSpecs) t.colSpecs < 2 ^ 31 →
        ∀ part ∈ t.measured ++ text.splitOn '\n', displWidth part < 2 ^ 31) := by
  have hdrawn := ht.drawn
  have hin : ∀ f ∈ fills, f.1 < t.drawn.rowSpecs.length ∧ f.2.1 < t.drawn.colSpecs.length := by
    simpa [TextSheet.drawn] using hin
  obtain ⟨s, text, htext, hruled⟩ := hdrawn.calls hin
  refine ⟨text, ?_, ?_, fun hwidth => List.forall_mem_append.mpr ⟨ht.measured_lt hwidth, ?_⟩⟩
  · rw [TextSheet.run, TextSheet.calls, TextSheet.call,
      skeleton_eq fun col hcol => ht.width_nonneg col (mem_shown.mp hcol).1]
    simp only [bind, Except.bind]
    rw [htext]
    rfl
  · intro line hline
    exact (hruled.splitOn line hline).2
  · intro line hline
    exact Spans.lt (hruled.splitOn line hline) hwidth

/-- A number too wide for its column, and a value that is not a number. -/
theorem lines_equally_wide_sample :
    let t : TextSheet :=
      { sheetName := "表".toList
        rowSpecs := [⟨"a".toList, true⟩, ⟨"行".toList, false⟩]
        colSpecs := [⟨"x".toList, 5, 0, 3, ',', true⟩, ⟨"列".toList, 4, 1, 0, ',', true⟩] }
    ∃ text, t.run (.skeleton :: ([(0, 0, .finite false 11111), (0, 1, .nan)].map Fill.op ++
        [.makeWstr])) = .ok ['\n' :: text] ∧
      ∀ line ∈ text.splitOn '\n', displWidth line = 17 := by
  intro t
  have ht : t.Tidy :=
    { sheetName := by decide
      rows := by decide
      cols := by decide
      width := by decide
      title := by decide
      separator := by decide }
  obtain ⟨text, hrun, hlines, -⟩ :=
    @lines_equally_wide t ht [(0, 0, .finite false 11111), (0, 1, .nan)] (by decide)
  have hwidth : widest t.sheetName t.rowSpecs + ((shown t.colSpecs).map (·.w)).sum +
      (shown t.colSpecs).length + 2 = 17 := by decide
  exact ⟨text, hrun, fun line hline => Int.ofNat_inj.mp ((hlines line hline).trans hwidth)⟩

end TextSheet

end LeonUtils.Text
