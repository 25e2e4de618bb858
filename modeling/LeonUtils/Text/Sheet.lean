import LeonUtils.Text.Unicodes

/-!
# Tables as text

The class `TextSheet_t`, its members in the order of the source. Columns and rows are added, hidden
ones among them; `skeleton` computes the lines of the border and makes room for the data; `fill`
stores numbers under the full row and column numbers; `makeWstr` prints what is not hidden.

The source leaves it undefined what an index outside the data does, and so does `makeWstr` for rows
that have come after the last `skeleton`: here both are the failure `Exn.outside`. A negative index
is as good as a very large one, and indices are natural numbers. A run ends with the first call that
fails; what that call leaves behind plays no part.

## Main definitions

* `TextSheet` — a sheet
* `TextSheet.skeleton`, `TextSheet.makeWstr` — the header and the text
* `Op`, `TextSheet.run` — what a client calls, and the texts that it gets
-/

namespace LeonUtils.Text

/-- `ColSpec_t`: name, width, precision, width of the digit groups, their separator, visibility. -/
structure ColSpec where
  n : WStr
  w : ℤ
  p : ℤ
  g : ℤ
  s : Char
  v : Bool

/-- `RowSpec_t`: name and visibility. -/
structure RowSpec where
  n : WStr
  v : Bool

/-- The name of a visible row is padded once and for all. -/
def RowSpec.adapt (w : ℤ) (row : RowSpec) : RowSpec :=
  if row.v then { row with n := adaptWidth w row.n } else row

/-- `TextSheet_t`. -/
structure TextSheet where
  sheetName : WStr
  nameWidth : ℤ := 24
  rowSpecs : List RowSpec := []
  colSpecs : List ColSpec := []
  headLine : WStr := []
  sepaLine : WStr := []
  footLine : WStr := []
  allData : List (List Double) := []

/-- A wide string of `n` equal characters. A negative number is a huge one. -/
def wfill (n : ℤ) (c : Char) : Except Exn WStr :=
  if n < 0 then .error .length else .ok (List.replicate n.toNat c)

namespace TextSheet

/-! ## The header -/

/-- The four lines that `skeleton` works on: top, between, bottom, and the titles. -/
structure Lines where
  head : WStr
  sepa : WStr
  foot : WStr
  first : WStr

/-- The part of a column in the four lines. -/
def Lines.addCol (l : Lines) (col : ColSpec) : Except Exn Lines :=
  if col.v then do
    let dcLine ← wfill col.w '─'
    .ok {
      head := l.head ++ '┬' :: dcLine
      sepa := l.sepa ++ '┼' :: dcLine
      foot := l.foot ++ '┴' :: dcLine
      first := l.first ++ '│' :: adaptCentr col.w col.n }
  else .ok l

/-- The width of the name column: the widest name, and a blank on either side. -/
def widest (sheetName : WStr) (rows : List RowSpec) : ℤ :=
  (rows.foldl (fun w row => if row.v then max w (displWidth row.n) else w) (displWidth sheetName)
    : ℕ) + 2

/-- `skeleton`. -/
def skeleton (t : TextSheet) : Except Exn TextSheet := do
  let nameWidth := widest t.sheetName t.rowSpecs
  let ncLine ← wfill nameWidth '─'
  let l ← t.colSpecs.foldlM Lines.addCol {
    head := "\n┌".toList ++ ncLine
    sepa := "\n├".toList ++ ncLine
    foot := "\n└".toList ++ ncLine
    first := "\n│".toList ++ adaptCentr nameWidth t.sheetName }
  .ok { t with
    nameWidth := nameWidth
    rowSpecs := t.rowSpecs.map (RowSpec.adapt nameWidth)
    headLine := l.head ++ ['┐'] ++ (l.first ++ ['│'])
    sepaLine := l.sepa ++ ['┤']
    footLine := l.foot ++ ['┘']
    allData := List.replicate t.rowSpecs.length
      (List.replicate t.colSpecs.length (.finite false 0)) }

/-! ## The text -/

/-- `textOf`. -/
def textOf (d : Double) (spec : ColSpec) : Except Exn Str :=
  fmt d ((spec.w - 2) % 2 ^ 64).toNat spec.p spec.g ' ' spec.s

/-- A cell. -/
def cell (spec : ColSpec) (d : Double) : Except Exn WStr := do
  let text ← textOf d spec
  let wide ← u82ws text
  .ok ('│' :: adaptWidth spec.w wide)

/-- The visible cells of a row. -/
def cells : List ColSpec → List Double → Except Exn WStr
  | _, [] => .ok []
  | [], _ :: _ => .error .outside
  | spec :: specs, d :: ds =>
    if spec.v then do
      let text ← cell spec d
      let texts ← cells specs ds
      .ok (text ++ texts)
    else cells specs ds

/-- The visible rows, and the line above each of them. -/
def rows (sepaLine : WStr) (specs : List ColSpec) :
    List RowSpec → List (List Double) → Except Exn WStr
  | [], _ => .ok []
  | _ :: _, [] => .error .outside
  | rs :: rss, rd :: rds =>
    if rs.v then do
      let text ← cells specs rd
      let texts ← rows sepaLine specs rss rds
      .ok (sepaLine ++ ("\n│".toList ++ rs.n ++ text ++ ['│']) ++ texts)
    else rows sepaLine specs rss rds

/-- `makeWstr`. -/
def makeWstr (t : TextSheet) : Except Exn WStr := do
  let body ← rows t.sepaLine t.colSpecs t.rowSpecs t.allData
  .ok (t.headLine ++ body ++ t.footLine)

/-! ## The other members -/

/-- `TextSheet_t::TextSheet_t`. -/
def construct (name : Str) : Except Exn TextSheet := do
  let n ← u82ws name
  .ok { sheetName := n }

/-- `clear`, which keeps the name of the sheet and the width of the name column. -/
def clear (t : TextSheet) : TextSheet :=
  { sheetName := t.sheetName, nameWidth := t.nameWidth }

def addCol (t : TextSheet) (n : Str) (w p g : ℤ) (s : Char) (v : Bool) : Except Exn TextSheet := do
  let n ← u82ws n
  .ok { t with colSpecs := t.colSpecs ++ [⟨n, w, p, g, s, v⟩] }

def addRow (t : TextSheet) (n : Str) (v : Bool) : Except Exn TextSheet := do
  let n ← u82ws n
  .ok { t with rowSpecs := t.rowSpecs ++ [⟨n, v⟩] }

def fill (t : TextSheet) (r c : ℕ) (d : Double) : Except Exn TextSheet :=
  match t.allData[r]? with
  | none => .error .outside
  | some rd =>
    if c < rd.length then .ok { t with allData := t.allData.set r (rd.set c d) }
    else .error .outside

end TextSheet

/-- A call to a sheet. -/
inductive Op
  | clear
  | addCol (n : Str) (w p g : ℤ) (s : Char) (v : Bool)
  | addRow (n : Str) (v : Bool)
  | skeleton
  | fill (r c : ℕ) (d : Double)
  | makeWstr

namespace TextSheet

/-- What a call makes of a sheet, and the text that it returns. -/
def call (t : TextSheet) : Op → Except Exn (TextSheet × List WStr)
  | .clear => .ok (t.clear, [])
  | .addCol n w p g s v => do .ok (← t.addCol n w p g s v, [])
  | .addRow n v => do .ok (← t.addRow n v, [])
  | .skeleton => do .ok (← t.skeleton, [])
  | .fill r c d => do .ok (← t.fill r c d, [])
  | .makeWstr => do .ok (t, [← t.makeWstr])

/-- What calls make of a sheet, and the texts that they return. -/
def calls (t : TextSheet) : List Op → Except Exn (TextSheet × List WStr)
  | [] => .ok (t, [])
  | op :: ops => do
    let (t, texts) ← t.call op
    let (t, rest) ← t.calls ops
    .ok (t, texts ++ rest)

/-- The texts that a client gets. -/
def run (t : TextSheet) (ops : List Op) : Except Exn (List WStr) := do
  let (_, texts) ← t.calls ops
  .ok texts

theorem calls_append (t : TextSheet) (ops ops' : List Op) :
    t.calls (ops ++ ops') = (do
      let (t, texts) ← t.calls ops
      let (t, rest) ← t.calls ops'
      .ok (t, texts ++ rest)) := by
  induction ops generalizing t with
  | nil =>
    simp only [List.nil_append, calls, bind, Except.bind]
    cases t.calls ops' <;> rfl
  | cons op ops ih =>
    simp only [List.cons_append, calls, bind, Except.bind]
    cases t.call op with
    | error e => rfl
    | ok r =>
      simp only [ih, bind, Except.bind]
      cases r.1.calls ops with
      | error e => rfl
      | ok r' =>
        simp only
        cases r'.1.calls ops' with
        | error e => rfl
        | ok r'' => simp only [List.append_assoc]

end TextSheet

end LeonUtils.Text
