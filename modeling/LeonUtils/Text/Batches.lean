import LeonUtils.Text.Hiding

/-!
# Sheets made in batches

`skeleton` may be called again after more rows and columns have been added, and each call draws the
border for all of them. What a client gets who calls it after each batch of additions is a fold over
the batches (`calls_inBatches`).

A sheet that has just been drawn has zeros in all its cells, and these can be printed whatever the
columns are: a text always exists (`makeWstr_drawn`).

## Main definitions

* `Item`, `inBatches`, `atOnce` — a client that draws after each batch, and one that draws once
* `TextSheet.Accepts` — what can be added
* `TextSheet.redrawn` — a sheet after some batches

## Main results

* `TextSheet.calls_inBatches`, `TextSheet.calls_inBatches_error` — what batches make of a sheet
* `TextSheet.makeWstr_drawn` — the text of a sheet without numbers
-/

namespace LeonUtils.Text

/-! ## The two clients -/

/-- A row or a column to be added. -/
inductive Item
  | col (n : Str) (w p g : ℤ) (s : Char) (v : Bool)
  | row (n : Str) (v : Bool)

namespace Item

def op : Item → Op
  | .col n w p g s v => .addCol n w p g s v
  | .row n v => .addRow n v

def name : Item → Str
  | .col n _ _ _ _ _ => n
  | .row n _ => n

/-- The row that an item adds. -/
def row? : Item → Option RowSpec
  | .col .. => none
  | .row n v => (u82ws n).toOption.map (⟨·, v⟩)

/-- The column that an item adds. -/
def col? : Item → Option ColSpec
  | .col n w p g s v => (u82ws n).toOption.map (⟨·, w, p, g, s, v⟩)
  | .row .. => none

end Item

def rowsOf (items : List Item) : List RowSpec := items.filterMap Item.row?

def colsOf (items : List Item) : List ColSpec := items.filterMap Item.col?

/-- One call to `skeleton` after each batch. -/
def inBatches (batches : List (List Item)) : List Op :=
  batches.flatMap fun items => items.map Item.op ++ [.skeleton]

/-- One call to `skeleton` at the end. -/
def atOnce (batches : List (List Item)) : List Op :=
  batches.flatten.map Item.op ++ [.skeleton]

/-- The numbers of a column are of type `int8_t`. -/
structure ColSpec.Int8 (col : ColSpec) : Prop where
  w : -128 ≤ col.w ∧ col.w ≤ 127
  p : -128 ≤ col.p ∧ col.p ≤ 127
  g : -128 ≤ col.g ∧ col.g ≤ 127

namespace TextSheet

/-- A sheet with more rows and columns. -/
def add (t : TextSheet) (items : List Item) : TextSheet :=
  { t with rowSpecs := t.rowSpecs ++ rowsOf items, colSpecs := t.colSpecs ++ colsOf items }

/-- The names can be read, and no visible column has a negative width. -/
structure Accepts (t : TextSheet) (items : List Item) : Prop where
  decodes : ∀ item ∈ items, ∃ ws, u82ws item.name = .ok ws
  width : ∀ col ∈ shown (t.colSpecs ++ colsOf items), 0 ≤ col.w

/-- A sheet after some batches. -/
def redrawn (t : TextSheet) (batches : List (List Item)) : TextSheet :=
  batches.foldl (fun t items => (t.add items).drawn) t

/-! ## What batches make of a sheet -/

theorem call_item {t : TextSheet} {item : Item} {ws : WStr} (h : u82ws item.name = .ok ws) :
    t.call item.op = .ok (t.add [item], []) := by
  cases item <;> simp only [Item.name] at h <;>
    simp [Item.op, call, addCol, addRow, add, rowsOf, colsOf, Item.row?, Item.col?, h, bind,
      Except.bind, Except.toOption]

theorem add_add (t : TextSheet) (items items' : List Item) :
    (t.add items).add items' = t.add (items ++ items') := by
  simp [add, rowsOf, colsOf]

theorem calls_items {t : TextSheet} {items : List Item}
    (h : ∀ item ∈ items, ∃ ws, u82ws item.name = .ok ws) :
    t.calls (items.map Item.op) = .ok (t.add items, []) := by
  induction items generalizing t with
  | nil => simp [calls, add, rowsOf, colsOf]
  | cons item items ih =>
    obtain ⟨ws, hws⟩ := h item List.mem_cons_self
    rw [List.map_cons, calls, call_item hws]
    simp only [bind, Except.bind]
    rw [ih fun item hitem => h item (List.mem_cons_of_mem _ hitem)]
    simp only [add_add, List.append_nil, List.singleton_append]

theorem calls_items_error {t : TextSheet} {items : List Item}
    (h : ¬ ∀ item ∈ items, ∃ ws, u82ws item.name = .ok ws) :
    ∃ e, t.calls (items.map Item.op) = .error e := by
  induction items generalizing t with
  | nil => simp at h
  | cons item items ih =>
    rw [List.map_cons, calls]
    cases hname : u82ws item.name with
    | error e =>
      refine ⟨e, ?_⟩
      cases item <;> simp only [Item.name] at hname <;>
        simp [Item.op, call, addCol, addRow, hname, bind, Except.bind]
    | ok ws =>
      rw [call_item hname]
      obtain ⟨e, he⟩ := ih (t := t.add [item]) fun hall => h fun item' hmem => by
        rcases List.mem_cons.mp hmem with rfl | hmem
        · exact ⟨ws, hname⟩
        · exact hall item' hmem
      refine ⟨e, ?_⟩
      simp only [bind, Except.bind, he]

theorem Lines.foldlM_error {cols : List ColSpec} (h : ¬ ∀ col ∈ shown cols, 0 ≤ col.w) (l : Lines) :
    ∃ e, cols.foldlM Lines.addCol l = .error e := by
  induction cols generalizing l with
  | nil => simp [shown] at h
  | cons col cols ih =>
    rw [List.foldlM_cons, Lines.addCol]
    cases hv : col.v with
    | false =>
      rw [if_neg Bool.false_ne_true]
      refine ih (fun hall => h ?_) l
      simpa [shown, hv] using hall
    | true =>
      rw [if_pos rfl, wfill]
      by_cases hw : col.w < 0
      · exact ⟨.length, by rw [if_pos hw]; rfl⟩
      · rw [if_neg hw]
        refine ih (fun hall => h ?_) _
        simp only [shown, List.filter_cons, hv, if_true, List.mem_cons, forall_eq_or_imp]
        exact ⟨not_lt.mp hw, hall⟩

theorem skeleton_error {t : TextSheet} (h : ¬ ∀ col ∈ shown t.colSpecs, 0 ≤ col.w) :
    ∃ e, t.skeleton = .error e := by
  have hw : 0 ≤ widest t.sheetName t.rowSpecs := by
    have := (le_widest t.sheetName t.rowSpecs).1
    omega
  rw [TextSheet.skeleton, wfill_eq hw]
  simp only [bind, Except.bind]
  obtain ⟨e, he⟩ := Lines.foldlM_error h {
    head := "\n┌".toList ++ List.replicate (widest t.sheetName t.rowSpecs).toNat '─'
    sepa := "\n├".toList ++ List.replicate (widest t.sheetName t.rowSpecs).toNat '─'
    foot := "\n└".toList ++ List.replicate (widest t.sheetName t.rowSpecs).toNat '─'
    first := "\n│".toList ++ adaptCentr (widest t.sheetName t.rowSpecs) t.sheetName }
  rw [he]
  exact ⟨e, rfl⟩

theorem calls_batch {t : TextSheet} {items : List Item} (h : t.Accepts items) :
    t.calls (items.map Item.op ++ [.skeleton]) = .ok ((t.add items).drawn, []) := by
  rw [calls_append, calls_items h.decodes]
  simp only [bind, Except.bind]
  rw [calls_single, call, skeleton_eq h.width]
  rfl

theorem calls_batch_error {t : TextSheet} {items : List Item} (h : ¬ t.Accepts items) :
    ∃ e, t.calls (items.map Item.op ++ [.skeleton]) = .error e := by
  rw [calls_append]
  by_cases hdecodes : ∀ item ∈ items, ∃ ws, u82ws item.name = .ok ws
  · have hwidth : ¬ ∀ col ∈ shown (t.add items).colSpecs, 0 ≤ col.w :=
      fun hwidth => h ⟨hdecodes, hwidth⟩
    obtain ⟨e, he⟩ := skeleton_error hwidth
    rw [calls_items hdecodes]
    simp only [bind, Except.bind]
    rw [calls_single, call, he]
    exact ⟨e, rfl⟩
  · obtain ⟨e, he⟩ := calls_items_error (t := t) hdecodes
    rw [he]
    exact ⟨e, rfl⟩

theorem accepts_append {t : TextSheet} {items items' : List Item} :
    t.Accepts (items ++ items') ↔ t.Accepts items ∧ (t.add items).drawn.Accepts items' := by
  have hcols : t.colSpecs ++ colsOf (items ++ items') =
      (t.add items).drawn.colSpecs ++ colsOf items' := by
    simp [drawn, add, colsOf]
  have hmem : ∀ col ∈ shown (t.colSpecs ++ colsOf items),
      col ∈ shown (t.colSpecs ++ colsOf (items ++ items')) := by
    intro col hcol
    rw [hcols, shown, List.filter_append]
    exact List.mem_append_left _ hcol
  refine ⟨fun h => ⟨⟨fun item hitem => h.decodes item (List.mem_append_left _ hitem),
      fun col hcol => h.width col (hmem col hcol)⟩,
    ⟨fun item hitem => h.decodes item (List.mem_append_right _ hitem), hcols ▸ h.width⟩⟩, ?_⟩
  rintro ⟨h, h'⟩
  refine ⟨fun item hitem => ?_, hcols ▸ h'.width⟩
  exact (List.mem_append.mp hitem).elim (h.decodes item) (h'.decodes item)

/-- **What batches make of a sheet.** -/
theorem calls_inBatches {t : TextSheet} {batches : List (List Item)}
    (h : t.Accepts batches.flatten) :
    t.calls (inBatches batches) = .ok (t.redrawn batches, []) := by
  induction batches generalizing t with
  | nil => rfl
  | cons items batches ih =>
    obtain ⟨hitems, hrest⟩ := accepts_append.mp (List.flatten_cons ▸ h)
    rw [inBatches, List.flatMap_cons, calls_append, calls_batch hitems]
    simp only [bind, Except.bind]
    rw [← inBatches, ih hrest]
    rfl

theorem calls_inBatches_error {t : TextSheet} {batches : List (List Item)}
    (h : ¬ t.Accepts batches.flatten) (hne : batches ≠ []) :
    ∃ e, t.calls (inBatches batches) = .error e := by
  induction batches generalizing t with
  | nil => exact absurd rfl hne
  | cons items batches ih =>
    rw [inBatches, List.flatMap_cons, calls_append]
    by_cases hitems : t.Accepts items
    · rw [List.flatten_cons, accepts_append, not_and] at h
      have hrest := h hitems
      rw [calls_batch hitems]
      simp only [bind, Except.bind]
      rw [← inBatches]
      by_cases hnil : batches = []
      · -- the last batch adds to columns that have been accepted
        subst hnil
        refine absurd ⟨by simp, fun col hcol => hitems.width col ?_⟩ hrest
        simpa [drawn, add, colsOf] using hcol
      · obtain ⟨e, he⟩ := ih hrest hnil
        rw [he]
        exact ⟨e, rfl⟩
    · obtain ⟨e, he⟩ := calls_batch_error hitems
      rw [he]
      exact ⟨e, rfl⟩

/-! ## The text of a sheet without numbers -/

/-- The zero of a new cell has no digits to group. -/
theorem text_zero (p g : ℤ) (s : Char) :
    (Double.finite false 0).text p g s = (Double.finite false 0).text p 0 ' ' := by
  have hzero : roundDiv ((0 : ℚ≥0).num * 10 ^ places p) (0 : ℚ≥0).den / 10 ^ places p = 0 := by
    simp [roundDiv]
  have hgrouped : grouped g s (Nat.toDigits 10 0) = grouped 0 ' ' (Nat.toDigits 10 0) := by
    have hdigits : Nat.toDigits 10 0 = ['0'] := rfl
    rw [hdigits, grouped, grouped]
    split <;> simp [group]
  simp only [Double.text, fixed, hzero, hgrouped]

theorem length_text_zero (p : ℤ) :
    ((Double.finite false 0).text p 0 ' ').length ≤ places p + 2 := by
  have hzero : roundDiv ((0 : ℚ≥0).num * 10 ^ places p) (0 : ℚ≥0).den = 0 := by
    simp [roundDiv]
  have hdigits : Nat.toDigits 10 0 = ['0'] := rfl
  simp only [Double.text, fixed, hzero, Nat.zero_div, Nat.zero_mod, hdigits, grouped, padded]
  by_cases hplaces : places p = 0
  · simp [hplaces]
  · simp [hplaces]
    omega

/-- A new cell can be printed. -/
theorem cell_zero {spec : ColSpec} (h : spec.Int8) :
    ∃ part, cell spec (.finite false 0) = .ok part := by
  have hplaces : places spec.p ≤ 127 := by
    have := h.p.2
    rw [places]
    split <;> omega
  have hlen := length_text_zero spec.p
  have hnone : (Double.finite false 0).special = none := by
    simp only [Double.special]
    exact if_neg (by decide +kernel)
  obtain ⟨text, htext⟩ : ∃ text, textOf (.finite false 0) spec = .ok text := by
    simp only [textOf, fmt, fmtText, hnone, text_zero]
    split
    · rename_i hlong
      refine ⟨_, fill_eq (hlong.2.trans ?_) '*'⟩
      have hbmod : Int.bmod ((((spec.w - 2) % 2 ^ 64).toNat : ℕ) : ℤ) (2 ^ 32) < 2 ^ 31 :=
        Int.bmod_lt (by norm_num)
      rw [length_setw]
      omega
    · exact ⟨_, rfl⟩
  have hprint : ∀ c ∈ text, Printable c := by
    have heq : fmt (.finite false 0) ((spec.w - 2) % 2 ^ 64).toNat spec.p 0 ' ' ' ' = .ok text := by
      rw [← htext, textOf, fmt, fmt, text_zero spec.p spec.g spec.s]
    exact fmt_printable (by decide) (by decide) heq
  rw [cell, htext]
  simp only [bind, Except.bind]
  rw [u82ws_of_printable hprint]
  exact ⟨_, rfl⟩

theorem cells_zero {specs : List ColSpec} (h : ∀ spec ∈ specs, spec.Int8) :
    ∃ text, cells specs (List.replicate specs.length (.finite false 0)) = .ok text := by
  induction specs with
  | nil => exact ⟨[], rfl⟩
  | cons spec specs ih =>
    obtain ⟨texts, htexts⟩ := ih fun spec hspec => h spec (List.mem_cons_of_mem _ hspec)
    obtain ⟨text, htext⟩ := cell_zero (h spec List.mem_cons_self)
    rw [List.length_cons, List.replicate_succ, cells]
    cases spec.v with
    | true =>
      rw [if_pos rfl, htext, htexts]
      exact ⟨_, rfl⟩
    | false =>
      rw [if_neg Bool.false_ne_true]
      exact ⟨texts, htexts⟩

/-- The rows of a table in which all cells are the same. -/
def emptyRows (sepaLine text : WStr) (rows : List RowSpec) : WStr :=
  (rows.filter (·.v)).flatMap fun row => sepaLine ++ ("\n│".toList ++ row.n ++ text ++ ['│'])

theorem rows_zero {specs : List ColSpec} {text : WStr} {rd : List Double}
    (h : cells specs rd = .ok text) (sepaLine : WStr) (rss : List RowSpec) :
    rows sepaLine specs rss (List.replicate rss.length rd) = .ok (emptyRows sepaLine text rss) := by
  induction rss with
  | nil => rfl
  | cons rs rss ih =>
    rw [List.length_cons, List.replicate_succ, rows, ih, h, emptyRows, emptyRows, List.filter_cons]
    cases rs.v with
    | true => rfl
    | false => rfl

/-- **A sheet that is drawn has a text**, whatever its columns are. -/
theorem makeWstr_drawn {t : TextSheet} (h : ∀ col ∈ t.colSpecs, col.Int8) :
    ∃ text, cells t.colSpecs (List.replicate t.colSpecs.length (.finite false 0)) = .ok text ∧
      t.drawn.makeWstr = .ok (t.drawn.headLine ++
        emptyRows t.drawn.sepaLine text t.drawn.rowSpecs ++ t.drawn.footLine) := by
  obtain ⟨text, htext⟩ := cells_zero h
  refine ⟨text, htext, ?_⟩
  have hrows := rows_zero htext t.drawn.sepaLine t.drawn.rowSpecs
  rw [show t.drawn.rowSpecs.length = t.rowSpecs.length by simp [drawn]] at hrows
  change (do
    let body ← rows t.drawn.sepaLine t.colSpecs t.drawn.rowSpecs
      (List.replicate t.rowSpecs.length (List.replicate t.colSpecs.length (.finite false 0)))
    .ok (t.drawn.headLine ++ body ++ t.drawn.footLine)) = _
  rw [hrows]
  rfl

/-! ## Two drawn sheets -/

/-- How many characters are equal at the beginning is seen in the text. -/
theorem replicate_append_inj {m n : ℕ} {x c d : Char} {a b : WStr} (hc : c ≠ x) (hd : d ≠ x)
    (h : List.replicate m x ++ c :: a = List.replicate n x ++ d :: b) : m = n := by
  induction m generalizing n with
  | zero =>
    cases n with
    | zero => rfl
    | succ n =>
      rw [List.replicate_succ, List.replicate_zero, List.nil_append, List.cons_append] at h
      exact absurd (List.cons.inj h).1 hc
  | succ m ih =>
    cases n with
    | zero =>
      rw [List.replicate_succ, List.replicate_zero, List.nil_append, List.cons_append] at h
      exact absurd (List.cons.inj h).1.symm hd
    | succ n =>
      rw [List.replicate_succ, List.replicate_succ, List.cons_append, List.cons_append] at h
      rw [ih (List.cons.inj h).2]

end TextSheet

end LeonUtils.Text
