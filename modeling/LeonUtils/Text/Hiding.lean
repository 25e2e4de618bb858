import LeonUtils.Text.Width
import LeonUtils.Mask

/-!
# Hidden rows and columns

A client that adds no hidden rows and columns, and numbers the others without them, gets the same
texts (`hidden_as_absent`). Its calls are `withoutHidden`: what is hidden is known from the calls
before, and the numbers of a `fill` become ranks among what is visible.

Between two calls the sheet of that client is a function of the sheet of the other one, `visible`:
the specifications are filtered, and the data chosen by the same masks. The lines of the border are
the same in both. Each call keeps this (`calls_shown`), in any order of calls, `clear` and further
calls to `skeleton` among them.

## Main definitions

* `withoutHidden` — the calls of a client that has nothing to hide
* `TextSheet.visible` — its sheet

## Main results

* `TextSheet.visible_skeleton`, `TextSheet.visible_fill`, `TextSheet.visible_makeWstr` — the members
* `hidden_as_absent` — the texts are the same
-/

namespace LeonUtils.Text

open Mask (keep keep₂ rank)

/-! ## Calls without hidden rows and columns -/

namespace Op

/-- The visibility of the rows after a call. -/
def rows (rows : List Bool) : Op → List Bool
  | .clear => []
  | .addRow _ v => rows ++ [v]
  | _ => rows

/-- The visibility of the columns after a call. -/
def cols (cols : List Bool) : Op → List Bool
  | .clear => []
  | .addCol _ _ _ _ _ v => cols ++ [v]
  | _ => cols

/-- What is left of a call. -/
def shown (rows cols : List Bool) : Op → List Op
  | .addCol n w p g s v => if v then [.addCol n w p g s true] else []
  | .addRow n v => if v then [.addRow n true] else []
  | .fill r c d =>
    if rows[r]? = some true ∧ cols[c]? = some true then [.fill (rank rows r) (rank cols c) d]
    else []
  | op => [op]

/-- The name of something hidden can be read; otherwise it is not added. -/
def Decodes : Op → Prop
  | .addCol n _ _ _ _ false => ∃ ws, u82ws n = .ok ws
  | .addRow n false => ∃ ws, u82ws n = .ok ws
  | _ => True

end Op

/-- The calls, after some that have left rows and columns of the given visibility. -/
def withoutHidden (rows cols : List Bool) : List Op → List Op
  | [] => []
  | op :: ops => op.shown rows cols ++ withoutHidden (op.rows rows) (op.cols cols) ops

namespace TextSheet

def rowMask (t : TextSheet) : List Bool := t.rowSpecs.map (·.v)

def colMask (t : TextSheet) : List Bool := t.colSpecs.map (·.v)

/-- A sheet without what is hidden. -/
def visible (t : TextSheet) : TextSheet :=
  { t with
    rowSpecs := t.rowSpecs.filter (·.v)
    colSpecs := shown t.colSpecs
    allData := keep₂ t.rowMask t.colMask t.allData }

/-- There are no data beyond the rows and columns. -/
structure Sized (t : TextSheet) : Prop where
  rows : t.allData.length ≤ t.rowSpecs.length
  cols : ∀ rd ∈ t.allData, rd.length ≤ t.colSpecs.length

/-! ## Rows and columns -/

/-- A new column has no data yet. -/
theorem visible_push_col {t : TextSheet} (ht : t.Sized) (col : ColSpec) :
    visible { t with colSpecs := t.colSpecs ++ [col] } =
      { t.visible with
        colSpecs := if col.v then t.visible.colSpecs ++ [col] else t.visible.colSpecs } := by
  have hcols : ∀ rd ∈ t.allData, rd.length ≤ (t.colSpecs.map (·.v)).length := by
    rw [List.length_map]
    exact ht.cols
  simp only [visible, rowMask, colMask, shown, List.map_append, List.filter_append,
    Mask.keep₂_append_cols _ hcols]
  cases hv : col.v <;> simp [hv]

/-- A new row has no data yet. -/
theorem visible_push_row {t : TextSheet} (ht : t.Sized) (row : RowSpec) :
    visible { t with rowSpecs := t.rowSpecs ++ [row] } =
      { t.visible with
        rowSpecs := if row.v then t.visible.rowSpecs ++ [row] else t.visible.rowSpecs } := by
  have hrows : t.allData.length ≤ (t.rowSpecs.map (·.v)).length := by
    rw [List.length_map]
    exact ht.rows
  simp only [visible, rowMask, colMask, List.map_append, List.filter_append,
    Mask.keep₂_append_rows hrows]
  cases hv : row.v <;> simp [hv]

/-! ## The header -/

theorem widest_filter (sheetName : WStr) (rows : List RowSpec) :
    widest sheetName (rows.filter (·.v)) = widest sheetName rows := by
  rw [widest, widest]
  generalize displWidth sheetName = w
  induction rows generalizing w with
  | nil => rfl
  | cons row rows ih =>
    rw [List.filter_cons, List.foldl_cons]
    cases hv : row.v with
    | true => rw [if_pos rfl, List.foldl_cons, hv, ih]
    | false => rw [if_neg Bool.false_ne_true, ih, if_neg Bool.false_ne_true]

theorem Lines.foldlM_shown (cols : List ColSpec) (l : Lines) :
    (shown cols).foldlM Lines.addCol l = cols.foldlM Lines.addCol l := by
  rw [shown]
  induction cols generalizing l with
  | nil => rfl
  | cons col cols ih =>
    rw [List.filter_cons, List.foldlM_cons]
    cases hv : col.v with
    | true =>
      rw [if_pos rfl, List.foldlM_cons]
      congr 1
      funext l
      exact ih l
    | false =>
      rw [if_neg Bool.false_ne_true, ih, Lines.addCol, hv, if_neg Bool.false_ne_true]
      rfl

theorem filter_adapt (w : ℤ) (rows : List RowSpec) :
    (rows.map (RowSpec.adapt w)).filter (·.v) = (rows.filter (·.v)).map (RowSpec.adapt w) := by
  rw [List.filter_map]
  congr 2
  funext row
  rw [Function.comp_apply, RowSpec.adapt]
  split <;> rfl

theorem adapt_v (w : ℤ) (row : RowSpec) : (RowSpec.adapt w row).v = row.v := by
  rw [RowSpec.adapt]
  split <;> rfl

theorem count_map_v {α : Type*} (v : α → Bool) (xs : List α) :
    (xs.map v).count true = (xs.filter v).length := by
  rw [List.count, List.countP_map, List.countP_eq_length_filter]
  congr 2
  funext x
  exact beq_true (v x)

/-- **`skeleton` does not see what is hidden.** -/
theorem visible_skeleton (t : TextSheet) :
    t.visible.skeleton = (do
      let s ← t.skeleton
      .ok s.visible) := by
  have hzeros := Mask.keep₂_replicate t.rowMask t.colMask (Double.finite false 0)
  simp only [rowMask, colMask, List.length_map, count_map_v] at hzeros
  simp only [skeleton, visible, widest_filter, Lines.foldlM_shown, bind, Except.bind]
  cases wfill (widest t.sheetName t.rowSpecs) '─' with
  | error e => rfl
  | ok ncLine =>
    simp only
    cases t.colSpecs.foldlM Lines.addCol _ with
    | error e => rfl
    | ok l =>
      have hmask : (fun row : RowSpec => row.v) ∘ RowSpec.adapt (widest t.sheetName t.rowSpecs) =
          fun row => row.v := by
        funext row
        exact adapt_v _ row
      simp only [rowMask, colMask, List.map_map, hmask, filter_adapt, hzeros, shown]

/-! ## The data -/

/-- A number goes to its new place, or nowhere. -/
theorem visible_fill {t t' : TextSheet} {r c : ℕ} {d : Double} (h : t.fill r c d = .ok t') :
    if t.rowMask[r]? = some true ∧ t.colMask[c]? = some true then
      t.visible.fill (rank t.rowMask r) (rank t.colMask c) d = .ok t'.visible
    else t'.visible = t.visible := by
  rw [fill] at h
  split at h
  · cases h
  · rename_i rd hrd
    by_cases hc : c < rd.length
    · rw [if_pos hc] at h
      obtain rfl := Except.ok.inj h
      have hset := Mask.keep₂_set t.rowMask t.colMask hrd c d
      by_cases hvis : t.rowMask[r]? = some true ∧ t.colMask[c]? = some true
      · rw [if_pos hvis] at hset ⊢
        have hrow : t.visible.allData[rank t.rowMask r]? = some (keep t.colMask rd) := by
          rw [visible, Mask.keep₂, List.getElem?_map, Mask.getElem?_keep hvis.1, hrd]
          rfl
        have hlt : rank t.colMask c < (keep t.colMask rd).length := by
          have hget := Mask.getElem?_keep hvis.2 rd
          rw [List.getElem?_eq_getElem hc] at hget
          exact (List.getElem?_eq_some_iff.mp hget).1
        rw [fill, hrow]
        simp only
        rw [if_pos hlt]
        simp only [visible, rowMask, colMask] at hset ⊢
        rw [hset]
      · rw [if_neg hvis] at hset ⊢
        simp only [visible, rowMask, colMask] at hset ⊢
        rw [hset]
    · rw [if_neg hc] at h
      cases h

/-! ## The text -/

theorem cells_shown (specs : List ColSpec) {rd : List Double} (h : rd.length ≤ specs.length) :
    cells (shown specs) (keep (specs.map (·.v)) rd) = cells specs rd := by
  induction specs generalizing rd with
  | nil =>
    obtain rfl := List.length_eq_zero_iff.mp (Nat.le_zero.mp h)
    rfl
  | cons spec specs ih =>
    cases rd with
    | nil =>
      rw [Mask.keep_nil, cells, cells]
    | cons d ds =>
      have hlen : ds.length ≤ specs.length := Nat.succ_le_succ_iff.mp h
      have ih := ih hlen
      rw [shown] at ih
      rw [shown, List.filter_cons, List.map_cons, keep, cells]
      cases hv : spec.v with
      | true =>
        rw [if_pos rfl, if_pos rfl, cells, hv, ih]
      | false => exact ih

theorem rows_shown {sepaLine : WStr} {specs : List ColSpec} {rss : List RowSpec}
    {data : List (List Double)} (hdata : ∀ rd ∈ data, rd.length ≤ specs.length)
    (hin : rows sepaLine specs rss data ≠ .error .outside) :
    rows sepaLine (shown specs) (rss.filter (·.v))
        (keep₂ (rss.map (·.v)) (specs.map (·.v)) data) = rows sepaLine specs rss data := by
  induction rss generalizing data with
  | nil => rw [List.filter_nil, rows, rows]
  | cons rs rss ih =>
    cases data with
    | nil =>
      rw [rows] at hin
      exact absurd rfl hin
    | cons rd data =>
      have hdata' : ∀ rd ∈ data, rd.length ≤ specs.length :=
        fun rd hrd => hdata rd (List.mem_cons_of_mem _ hrd)
      have ih := ih hdata'
      have hcells := cells_shown specs (hdata rd List.mem_cons_self)
      rw [Mask.keep₂] at ih
      rw [rows] at hin
      rw [List.filter_cons, List.map_cons, Mask.keep₂, keep, rows]
      cases hv : rs.v with
      | true =>
        rw [hv, if_pos rfl] at hin
        rw [if_pos rfl, if_pos rfl, List.map_cons, rows, hv, hcells]
        cases hrow : cells specs rd with
        | error e => rfl
        | ok text =>
          rw [ih]
          intro hrest
          rw [hrow, hrest] at hin
          exact hin rfl
      | false =>
        rw [hv, if_neg Bool.false_ne_true] at hin
        exact ih hin

/-- **`makeWstr` does not see what is hidden.** -/
theorem visible_makeWstr {t : TextSheet} (ht : t.Sized) (hin : t.makeWstr ≠ .error .outside) :
    t.visible.makeWstr = t.makeWstr := by
  have hrows : rows t.sepaLine t.colSpecs t.rowSpecs t.allData ≠ .error .outside := by
    intro h
    rw [makeWstr, h] at hin
    exact hin rfl
  have hshown := rows_shown ht.cols hrows
  simp only [makeWstr, visible, rowMask, colMask, hshown]

/-! ## Calls -/

theorem Sized.clear (t : TextSheet) : t.clear.Sized :=
  ⟨le_rfl, by simp [TextSheet.clear]⟩

theorem skeleton_ok {t t' : TextSheet} (h : t.skeleton = .ok t') :
    t'.Sized ∧ t'.rowMask = t.rowMask ∧ t'.colMask = t.colMask := by
  simp only [skeleton, bind, Except.bind] at h
  split at h
  · cases h
  · split at h
    · cases h
    · obtain rfl := Except.ok.inj h
      refine ⟨⟨by simp, ?_⟩, ?_, rfl⟩
      · intro rd hrd
        rw [List.eq_of_mem_replicate hrd, List.length_replicate]
      · simp only [rowMask, List.map_map]
        refine List.map_congr_left fun row _ => adapt_v _ row

theorem fill_ok {t t' : TextSheet} (ht : t.Sized) {r c : ℕ} {d : Double}
    (h : t.fill r c d = .ok t') :
    t'.Sized ∧ t'.rowMask = t.rowMask ∧ t'.colMask = t.colMask := by
  rw [fill] at h
  split at h
  · cases h
  · rename_i rd hrd
    split at h
    · obtain rfl := Except.ok.inj h
      refine ⟨⟨?_, ?_⟩, rfl, rfl⟩
      · rw [List.length_set]
        exact ht.rows
      · intro rd' hrd'
        rcases List.mem_or_eq_of_mem_set hrd' with hrd' | rfl
        · exact ht.cols rd' hrd'
        · rw [List.length_set]
          exact ht.cols rd (List.mem_of_getElem? hrd)
    · cases h

/-- What a call makes of the size of a sheet and of what is visible. -/
theorem call_ok {t t' : TextSheet} {op : Op} {texts : List WStr} (ht : t.Sized)
    (h : t.call op = .ok (t', texts)) :
    t'.Sized ∧ t'.rowMask = op.rows t.rowMask ∧ t'.colMask = op.cols t.colMask := by
  cases op with
  | clear =>
    cases h
    exact ⟨Sized.clear t, rfl, rfl⟩
  | addCol n w p g s v =>
    obtain ⟨s, hs, h⟩ := bind_ok h
    obtain ⟨ws, -, hs⟩ := bind_ok hs
    cases h
    cases hs
    refine ⟨⟨ht.rows, fun rd hrd => ?_⟩, rfl, by simp [colMask, Op.cols]⟩
    rw [List.length_append]
    exact (ht.cols rd hrd).trans (Nat.le_add_right _ _)
  | addRow n v =>
    obtain ⟨s, hs, h⟩ := bind_ok h
    obtain ⟨ws, -, hs⟩ := bind_ok hs
    cases h
    cases hs
    refine ⟨⟨?_, ht.cols⟩, by simp [rowMask, Op.rows], rfl⟩
    rw [List.length_append]
    exact ht.rows.trans (Nat.le_add_right _ _)
  | skeleton =>
    obtain ⟨s, hs, h⟩ := bind_ok h
    cases h
    exact skeleton_ok hs
  | fill r c d =>
    obtain ⟨s, hs, h⟩ := bind_ok h
    cases h
    exact fill_ok ht hs
  | makeWstr =>
    obtain ⟨text, -, h⟩ := bind_ok h
    cases h
    exact ⟨ht, rfl, rfl⟩

theorem calls_single (t : TextSheet) (op : Op) : t.calls [op] = t.call op := by
  rw [calls]
  cases t.call op with
  | error e => rfl
  | ok r =>
    simp only [calls, bind, Except.bind, List.append_nil]

/-- **What is left of a call does to the visible sheet what the call does to the sheet.** -/
theorem calls_shown {t : TextSheet} (ht : t.Sized) {op : Op} (hop : op.Decodes)
    (hin : t.call op ≠ .error .outside) :
    t.visible.calls (op.shown t.rowMask t.colMask) = (do
      let (t', texts) ← t.call op
      .ok (t'.visible, texts)) := by
  cases op with
  | clear => rfl
  | addCol n w p g s v =>
    cases v with
    | true =>
      rw [Op.shown, if_pos rfl, calls_single]
      simp only [call, addCol, bind, Except.bind]
      cases u82ws n with
      | error e => rfl
      | ok ws =>
        simp only
        rw [visible_push_col ht, if_pos rfl]
    | false =>
      obtain ⟨ws, hws⟩ := hop
      simp only [Op.shown, if_neg Bool.false_ne_true, call, addCol, hws, bind, Except.bind, calls]
      rw [visible_push_col ht, if_neg Bool.false_ne_true]
  | addRow n v =>
    cases v with
    | true =>
      rw [Op.shown, if_pos rfl, calls_single]
      simp only [call, addRow, bind, Except.bind]
      cases u82ws n with
      | error e => rfl
      | ok ws =>
        simp only
        rw [visible_push_row ht, if_pos rfl]
    | false =>
      obtain ⟨ws, hws⟩ := hop
      simp only [Op.shown, if_neg Bool.false_ne_true, call, addRow, hws, bind, Except.bind, calls]
      rw [visible_push_row ht, if_neg Bool.false_ne_true]
  | skeleton =>
    change t.visible.calls [.skeleton] = _
    rw [calls_single, call, call, visible_skeleton]
    cases t.skeleton <;> rfl
  | fill r c d =>
    rw [call] at hin ⊢
    cases hf : t.fill r c d with
    | error e =>
      -- `fill` fails outside the table only
      obtain rfl : e = .outside := by
        rw [fill] at hf
        split at hf
        · cases hf
          rfl
        · split at hf <;> cases hf
          rfl
      rw [hf] at hin
      exact absurd rfl hin
    | ok t' =>
      have hfill := visible_fill hf
      rw [Op.shown]
      by_cases hvis : t.rowMask[r]? = some true ∧ t.colMask[c]? = some true
      · rw [if_pos hvis] at hfill ⊢
        rw [calls_single, call, hfill]
        rfl
      · rw [if_neg hvis] at hfill ⊢
        simp only [calls, bind, Except.bind, hfill]
  | makeWstr =>
    have hmake : t.makeWstr ≠ .error .outside := by
      intro h
      rw [call, h] at hin
      exact hin rfl
    change t.visible.calls [.makeWstr] = _
    rw [calls_single, call, call, visible_makeWstr ht hmake]
    cases t.makeWstr <;> rfl

/-- **So do any calls.** -/
theorem calls_withoutHidden {t : TextSheet} (ht : t.Sized) {ops : List Op}
    (hops : ∀ op ∈ ops, op.Decodes) (hin : t.calls ops ≠ .error .outside) :
    t.visible.calls (withoutHidden t.rowMask t.colMask ops) = (do
      let (t', texts) ← t.calls ops
      .ok (t'.visible, texts)) := by
  induction ops generalizing t with
  | nil => rfl
  | cons op ops ih =>
    have hcall : t.call op ≠ .error .outside := by
      intro h
      rw [calls, h] at hin
      exact hin rfl
    have hshown := calls_shown ht (hops op List.mem_cons_self) hcall
    rw [withoutHidden, calls_append, hshown, calls]
    cases hop : t.call op with
    | error e => rfl
    | ok r =>
      obtain ⟨ht', hrows, hcols⟩ := call_ok ht hop
      have hrest : r.1.calls ops ≠ .error .outside := by
        intro h
        simp only [calls, hop, h, bind, Except.bind] at hin
        exact hin rfl
      have ih := ih ht' (fun op hop => hops op (List.mem_cons_of_mem _ hop)) hrest
      rw [hrows, hcols] at ih
      simp only [bind, Except.bind] at ih ⊢
      rw [ih]
      cases r.1.calls ops <;> rfl

end TextSheet

/-- The texts that a client gets from a new sheet. -/
def texts (name : Str) (ops : List Op) : Except Exn (List WStr) := do
  let t ← TextSheet.construct name
  t.run ops

/-- **What is hidden might as well never have been added.** -/
theorem hidden_as_absent (name : Str) {ops : List Op} (hops : ∀ op ∈ ops, op.Decodes)
    (hin : texts name ops ≠ .error .outside) :
    texts name (withoutHidden [] [] ops) = texts name ops := by
  rw [texts, texts, TextSheet.construct] at *
  cases hname : u82ws name with
  | error e => rfl
  | ok n =>
    let t : TextSheet := { sheetName := n }
    have ht : t.Sized := ⟨le_rfl, by simp [t]⟩
    have hcalls : t.calls ops ≠ .error .outside := by
      intro h
      simp only [hname, bind, Except.bind, TextSheet.run] at hin
      rw [h] at hin
      exact hin rfl
    have hvisible := TextSheet.calls_withoutHidden ht hops hcalls
    have hstart : t.visible = t := rfl
    simp only [bind, Except.bind, TextSheet.run]
    rw [hstart] at hvisible
    simp only [TextSheet.rowMask, TextSheet.colMask, t, List.map_nil] at hvisible
    rw [hvisible]
    simp only [bind, Except.bind]
    cases TextSheet.calls _ ops <;> rfl

/-- The second column and the first row are hidden. -/
theorem hidden_as_absent_sample :
    let ops : List Op :=
      [.addCol "c0".toList 7 0 0 ',' true, .addCol "c1".toList 7 0 0 ',' false,
        .addRow "r0".toList false, .addRow "r1".toList true, .skeleton,
        .fill 1 0 (.finite false 2221), .fill 1 1 .nan, .fill 0 0 .nan, .makeWstr]
    texts "t".toList (withoutHidden [] [] ops) = texts "t".toList ops := by
  intro ops
  refine hidden_as_absent _ ?_ (by decide +kernel)
  have hcol : ∃ ws, u82ws "c1".toList = .ok ws := ⟨_, rfl⟩
  have hrow : ∃ ws, u82ws "r0".toList = .ok ws := ⟨_, rfl⟩
  simpa [ops, Op.Decodes] using And.intro hcol hrow

end LeonUtils.Text
