import LeonUtils.Text.Batches

/-!
# A header that is drawn more than once

`skeleton` also pads the visible names where they are stored, so that the next call takes the blanks
for a part of the name, and asks for two more columns.

A client that adds in batches, with a call after each, gets the same texts as one that adds
everything and calls `skeleton` once, unless a visible row was there at an earlier call. Then the
texts differ (`rebuilt_iff`), but for names that consist of blanks only and are too narrow to
matter.

Between two calls a name is what it was, with blanks around it (`Shifted`); after a call there is at
least one before it, and all visible names have one width (`Moved`).

## Main definitions

* `TextSheet.Spared` — when nothing is seen of the earlier calls
* `textAfter` — what a client sees

## Main results

* `TextSheet.repad_moved`, `TextSheet.repad_le_iff` — names after some calls
* `TextSheet.drawn_eq`, `TextSheet.of_makeWstr_eq` — when two drawn sheets have the same texts
* `rebuilt_iff` — when the two clients get the same texts
-/

namespace LeonUtils.Text

/-- The width of the widest visible name. -/
def widestName (rows : List RowSpec) : ℕ :=
  (rows.filter (·.v)).foldr (fun row w => max (displWidth row.n) w) 0

/-- Rows come in batches, and `skeleton` is called after each of them. The names of the sheet and of
the visible rows are not wider than `m`, not even with two more columns for each call. -/
def Room (sheetName : WStr) (m : ℕ) : List RowSpec → List (List RowSpec) → Prop
  | _, [] => True
  | rows, batch :: batches =>
    (∀ row ∈ rows ++ batch, row.v = true →
      max (displWidth sheetName) (displWidth row.n) + 2 * (batches.length + 1) ≤ m) ∧
    Room sheetName m [] batches

namespace TextSheet

/-- Nothing is seen of the calls to `skeleton` before the last batch: the visible rows that were
there have blanks only for names, and the last batch has a name that is wider. -/
structure Spared (t : TextSheet) (early : List (List Item)) (last : List Item) : Prop where
  blank : ∀ row ∈ t.rowSpecs ++ rowsOf early.flatten, row.v = true → ∀ c ∈ row.n, c = ' '
  room : Room t.sheetName (widestName (rowsOf last)) t.rowSpecs (early.map rowsOf)

/-! ## Names that have been padded -/

/-- Rows after some batches, each of which has been padded with all rows before it. -/
def repad (sheetName : WStr) : List RowSpec → List (List RowSpec) → List RowSpec
  | rows, [] => rows
  | rows, batch :: batches =>
    repad sheetName ((rows ++ batch).map (RowSpec.adapt (widest sheetName (rows ++ batch)))) batches

theorem redrawn_eq (t : TextSheet) (batches : List (List Item)) :
    (t.redrawn batches).sheetName = t.sheetName ∧
      (t.redrawn batches).colSpecs = t.colSpecs ++ colsOf batches.flatten ∧
      (t.redrawn batches).rowSpecs = repad t.sheetName t.rowSpecs (batches.map rowsOf) := by
  induction batches generalizing t with
  | nil => simp [redrawn, colsOf, repad]
  | cons items batches ih =>
    obtain ⟨hname, hcols, hrows⟩ := ih (t.add items).drawn
    refine ⟨hname, ?_, hrows⟩
    rw [redrawn, List.foldl_cons, ← redrawn, hcols]
    simp [drawn, add, colsOf]

theorem widestName_cons (row : RowSpec) (rows : List RowSpec) :
    widestName (row :: rows) =
      if row.v then max (displWidth row.n) (widestName rows) else widestName rows := by
  rw [widestName, List.filter_cons]
  split <;> rfl

theorem widestName_append (rows rows' : List RowSpec) :
    widestName (rows ++ rows') = max (widestName rows) (widestName rows') := by
  induction rows with
  | nil => simp [widestName]
  | cons row rows ih =>
    rw [List.cons_append, widestName_cons, widestName_cons, ih]
    split
    · exact (max_assoc ..).symm
    · rfl

theorem widestName_le_iff {rows : List RowSpec} {m : ℕ} :
    widestName rows ≤ m ↔ ∀ row ∈ rows, row.v = true → displWidth row.n ≤ m := by
  induction rows with
  | nil => simp [widestName]
  | cons row rows ih =>
    rw [widestName_cons, List.forall_mem_cons, ← ih]
    cases row.v <;> simp

theorem widest_eq (sheetName : WStr) (rows : List RowSpec) :
    widest sheetName rows = (max (displWidth sheetName) (widestName rows) + 2 : ℕ) := by
  rw [widest, Nat.cast_add]
  generalize displWidth sheetName = w
  congr 2
  induction rows generalizing w with
  | nil => simp [widestName]
  | cons row rows ih =>
    rw [List.foldl_cons, ih, widestName_cons]
    cases row.v <;> simp [max_assoc]

/-- A row whose name may have been padded. -/
structure Shifted (o p : RowSpec) : Prop where
  v : p.v = o.v
  hidden : o.v = false → p = o
  name : o.v = true → ∃ a b, p.n = blanks a ++ o.n ++ blanks b

/-- A row whose name has been padded, to the width `w`. -/
structure Moved (w : ℤ) (o p : RowSpec) : Prop where
  v : p.v = o.v
  hidden : o.v = false → p = o
  name : o.v = true → ∃ a b, p.n = blanks (a + 1) ++ o.n ++ blanks b
  width : o.v = true → (displWidth p.n : ℤ) = w ∧ displWidth o.n + 2 ≤ w

theorem Moved.shifted {w : ℤ} {o p : RowSpec} (h : Moved w o p) : Shifted o p where
  v := h.v
  hidden := h.hidden
  name := by
    intro hv
    obtain ⟨a, b, hname⟩ := h.name hv
    exact ⟨a + 1, b, hname⟩

theorem Shifted.refl (o : RowSpec) : Shifted o o :=
  ⟨rfl, fun _ => rfl, fun _ => ⟨0, 0, by simp⟩⟩

theorem shifted_self (os : List RowSpec) : List.Forall₂ Shifted os os :=
  List.forall₂_same.mpr fun o _ => Shifted.refl o

theorem displWidth_blanks (a b : ℕ) (n : WStr) :
    displWidth (blanks a ++ n ++ blanks b) = a + displWidth n + b := by
  rw [displWidth_append, displWidth_append, displWidth_replicate _ (by decide),
    displWidth_replicate _ (by decide)]

/-- `skeleton` pads what has been padded before. -/
theorem Shifted.adapt {o p : RowSpec} (h : Shifted o p) {w : ℤ}
    (hw : p.v = true → displWidth p.n + 2 ≤ w) : Moved w o (p.adapt w) := by
  cases hv : o.v with
  | false =>
    have hpv : p.v = false := h.v.trans hv
    have heq : p.adapt w = p := by
      rw [RowSpec.adapt, hpv, if_neg Bool.false_ne_true]
    rw [heq]
    exact ⟨h.v, h.hidden, by simp [hv], by simp [hv]⟩
  | true =>
    have hpv : p.v = true := h.v.trans hv
    have hw := hw hpv
    obtain ⟨a, b, hname⟩ := h.name hv
    have hn : (p.adapt w).n = adaptWidth w p.n := by
      rw [RowSpec.adapt, if_pos hpv]
    refine ⟨(adapt_v w p).trans h.v, by simp [hv], fun _ => ?_, fun _ => ⟨?_, ?_⟩⟩
    · refine ⟨a, b + ((w - displWidth p.n).toNat - 1), ?_⟩
      rw [hn, adaptWidth_eq, if_neg (by omega), hname]
      simp only [blanks, List.replicate_succ, List.cons_append, List.append_assoc,
        List.replicate_append_replicate]
    · rw [hn, displWidth_adaptWidth (by omega)]
    · rw [hname, displWidth_blanks] at hw
      omega

theorem moved_adapt {os ps : List RowSpec} (h : List.Forall₂ Shifted os ps) {w : ℤ}
    (hw : ∀ p ∈ ps, p.v = true → displWidth p.n + 2 ≤ w) :
    List.Forall₂ (Moved w) os (ps.map (RowSpec.adapt w)) := by
  induction h with
  | nil => exact List.Forall₂.nil
  | cons hrow _ ih =>
    exact List.Forall₂.cons (hrow.adapt (hw _ List.mem_cons_self))
      (ih fun p hp => hw p (List.mem_cons_of_mem _ hp))

/-- **After a call to `skeleton` all visible names have one width**, and a blank before them. -/
theorem repad_moved (sheetName : WStr) {os ps : List RowSpec} {batches : List (List RowSpec)}
    (h : List.Forall₂ Shifted os ps) (hne : batches ≠ []) :
    ∃ w : ℤ, displWidth sheetName + 2 ≤ w ∧
      List.Forall₂ (Moved w) (os ++ batches.flatten) (repad sheetName ps batches) := by
  induction batches generalizing os ps with
  | nil => exact absurd rfl hne
  | cons batch batches ih =>
    obtain ⟨hname, hrows⟩ := le_widest sheetName (ps ++ batch)
    have hshift : List.Forall₂ Shifted (os ++ batch) (ps ++ batch) :=
      List.rel_append h (shifted_self batch)
    have hmoved := moved_adapt hshift hrows
    rw [repad, List.flatten_cons, ← List.append_assoc]
    by_cases hnil : batches = []
    · subst hnil
      rw [repad, List.flatten_nil, List.append_nil]
      exact ⟨_, hname, hmoved⟩
    · exact ih (hmoved.imp fun _ _ => Moved.shifted) hnil

/-- How wide names are before and after. -/
theorem widestName_moved {w : ℤ} {os ps : List RowSpec} (h : List.Forall₂ (Moved w) os ps) :
    (widestName os = 0 ∧ widestName ps = 0 ∧ ∀ p ∈ ps, p.v = false) ∨
      ((widestName ps : ℤ) = w ∧ (widestName os : ℤ) + 2 ≤ w) := by
  induction h with
  | nil => exact Or.inl ⟨rfl, rfl, by simp⟩
  | @cons o p os ps hrow _ ih =>
    rw [widestName_cons, widestName_cons, hrow.v]
    cases hv : o.v with
    | false =>
      refine ih.imp_left fun ⟨hos, hps, hall⟩ => ⟨hos, hps, ?_⟩
      exact List.forall_mem_cons.mpr ⟨hrow.v.trans hv, hall⟩
    | true =>
      have hwidth := hrow.width hv
      rw [if_pos rfl, if_pos rfl]
      omega

/-- All visible names are as wide as the name column. -/
theorem adapt_le_iff {sheetName : WStr} {rows : List RowSpec} {m k : ℕ} :
    (∀ row ∈ rows.map (RowSpec.adapt (widest sheetName rows)), row.v = true →
        max (displWidth sheetName) (displWidth row.n) + k ≤ m) ↔
      ∀ row ∈ rows, row.v = true →
        max (displWidth sheetName) (displWidth row.n) + 2 + k ≤ m := by
  have hwidest := widest_eq sheetName rows
  have hadapt : ∀ row ∈ rows, row.v = true →
      displWidth (row.adapt (widest sheetName rows)).n =
        max (displWidth sheetName) (widestName rows) + 2 := by
    intro row hrow hv
    have hle := (le_widest sheetName rows).2 row hrow hv
    have hwidth : (displWidth (adaptWidth (widest sheetName rows) row.n) : ℤ) =
        widest sheetName rows := displWidth_adaptWidth (by omega)
    rw [RowSpec.adapt, if_pos hv]
    simp only
    omega
  rw [List.forall_mem_map]
  refine ⟨fun h row hrow hv => ?_, fun h row hrow hv => ?_⟩
  · have hall := h row hrow ((adapt_v _ row).trans hv)
    rw [hadapt row hrow hv] at hall
    have hle := widestName_le_iff.mp le_rfl row hrow hv
    omega
  · have hv : row.v = true := (adapt_v _ row).symm.trans hv
    have hall : widestName rows ≤ m - 2 - k := by
      rw [widestName_le_iff]
      intro row hrow hv
      have := h row hrow hv
      omega
    have hrow' := h row hrow hv
    rw [hadapt row hrow hv]
    omega

/-- **What `Room` is about**: how wide the visible names are after all batches. -/
theorem repad_le_iff {sheetName : WStr} {m : ℕ} {rows : List RowSpec}
    {batches : List (List RowSpec)} (hne : batches ≠ []) :
    (∀ row ∈ repad sheetName rows batches, row.v = true →
        max (displWidth sheetName) (displWidth row.n) ≤ m) ↔ Room sheetName m rows batches := by
  induction batches generalizing rows with
  | nil => exact absurd rfl hne
  | cons batch batches ih =>
    rw [repad, Room]
    cases batches with
    | nil =>
      have h := @adapt_le_iff sheetName (rows ++ batch) m 0
      simp only [Nat.add_zero] at h
      rw [repad, h, Room, List.length_nil]
      simp
    | cons next batches =>
      rw [ih (List.cons_ne_nil _ _), Room, Room, List.nil_append, List.length_cons]
      have h := @adapt_le_iff sheetName (rows ++ batch) m (2 * (batches.length + 1))
      have hcalls : 2 + 2 * (batches.length + 1) = 2 * (batches.length + 1 + 1) := by omega
      simp only [Nat.add_assoc, hcalls, List.forall_mem_append] at h ⊢
      rw [h, and_assoc]

/-! ## When names do not show that they have been padded -/

/-- Only blanks can be moved without being seen. -/
theorem blank_of_shift {a : ℕ} {n x y : WStr}
    (h : blanks (a + 1) ++ n ++ x = n ++ y) : ∀ c ∈ n, c = ' ' := by
  induction n generalizing x with
  | nil => simp
  | cons c n ih =>
    have hcomm : blanks (a + 1) ++ n = blanks a ++ ' ' :: n := by
      rw [blanks, List.replicate_succ', List.append_assoc, List.singleton_append]
    simp only [blanks, List.replicate_succ, List.cons_append] at h
    obtain ⟨rfl, h⟩ := List.cons.inj h
    intro c hc
    rcases List.mem_cons.mp hc with rfl | hc
    · rfl
    · exact ih (x := x) (by rw [hcomm, h]) c hc

theorem eq_blanks {n : WStr} (h : ∀ c ∈ n, c = ' ') : n = blanks n.length :=
  List.eq_replicate_iff.mpr ⟨rfl, h⟩

/-- A name that has been moved differs, if it does not consist of blanks. -/
theorem Moved.adapt_eq_iff {w w' : ℤ} {o p : RowSpec} (h : Moved w o p)
    (hw : p.v = true → displWidth p.n + 2 ≤ w') :
    p.adapt w' = o.adapt w' ↔ (o.v = true → ∀ c ∈ o.n, c = ' ') := by
  cases hv : o.v with
  | false => simp [h.hidden hv]
  | true =>
    have hpv : p.v = true := h.v.trans hv
    obtain ⟨a, b, hname⟩ := h.name hv
    obtain ⟨hp, ho⟩ := h.width hv
    have hw := hw hpv
    simp only [RowSpec.adapt, hv, hpv, if_true, RowSpec.mk.injEq, and_true, forall_const]
    rw [adaptWidth_eq, adaptWidth_eq, if_neg (by omega), if_neg (by omega)]
    refine ⟨fun heq => ?_, fun hblank => ?_⟩
    · rw [hname] at heq
      simp only [List.cons_append, List.cons.injEq, true_and, List.append_assoc] at heq
      rw [← List.append_assoc] at heq
      exact blank_of_shift heq
    · have hwidth := displWidth_blanks (a + 1) b o.n
      rw [← hname] at hwidth
      have heq : displWidth o.n = o.n.length := by
        rw [eq_blanks hblank, displWidth_replicate _ (by decide), List.length_replicate]
      rw [hname, eq_blanks hblank]
      simp only [blanks, List.replicate_append_replicate, ← List.replicate_succ]
      congr 1
      simp only [displWidth_replicate _ (show isChinese ' ' = false by decide)]
      omega

theorem Moved.length_adapt {w w' : ℤ} {o p : RowSpec} (h : Moved w o p)
    (hw : p.v = true → displWidth p.n + 2 ≤ w') :
    (p.adapt w').n.length = (o.adapt w').n.length := by
  cases hv : o.v with
  | false => rw [h.hidden hv]
  | true =>
    have hpv : p.v = true := h.v.trans hv
    obtain ⟨a, b, hname⟩ := h.name hv
    obtain ⟨hp, ho⟩ := h.width hv
    have hw := hw hpv
    have hwidth := displWidth_blanks (a + 1) b o.n
    rw [← hname] at hwidth
    simp only [RowSpec.adapt, hv, hpv, if_true]
    have hlen : p.n.length = a + 1 + o.n.length + b := by
      rw [hname, List.length_append, List.length_append, List.length_replicate,
        List.length_replicate]
    rw [adaptWidth_eq, adaptWidth_eq, if_neg (by omega), if_neg (by omega)]
    simp only [List.length_append, List.length_cons, List.length_replicate]
    omega

/-! ## Texts that are the same -/

/-- The names of rows are seen in the text. -/
theorem blank_of_emptyRows {sepaLine text : WStr} {w w' : ℤ} {os ps : List RowSpec}
    (h : List.Forall₂ (Moved w) os ps)
    (hw : ∀ p ∈ ps, p.v = true → displWidth p.n + 2 ≤ w')
    (heq : emptyRows sepaLine text (ps.map (RowSpec.adapt w')) =
      emptyRows sepaLine text (os.map (RowSpec.adapt w'))) :
    ∀ o ∈ os, o.v = true → ∀ c ∈ o.n, c = ' ' := by
  induction h with
  | nil => simp
  | @cons o p os ps hmoved _ ih =>
    have hp := hw p List.mem_cons_self
    have ih := ih fun p hp => hw p (List.mem_cons_of_mem _ hp)
    have hv : (p.adapt w').v = (o.adapt w').v := by rw [adapt_v, adapt_v, hmoved.v]
    rw [emptyRows, emptyRows, List.map_cons, List.map_cons, List.filter_cons, List.filter_cons, hv,
      adapt_v] at heq
    rw [List.forall_mem_cons]
    cases hov : o.v with
    | false =>
      rw [hov, if_neg Bool.false_ne_true, if_neg Bool.false_ne_true] at heq
      exact ⟨by simp, ih heq⟩
    | true =>
      rw [hov, if_pos rfl, if_pos rfl, List.flatMap_cons, List.flatMap_cons] at heq
      obtain ⟨hrow, hrest⟩ := List.append_inj heq (by simp [hmoved.length_adapt hp])
      have hname : (p.adapt w').n = (o.adapt w').n := by simpa using hrow
      have hrows : p.adapt w' = o.adapt w' := by
        rw [RowSpec.mk.injEq]
        exact ⟨hname, hv⟩
      exact ⟨fun _ => (hmoved.adapt_eq_iff hp).mp hrows hov, ih hrest⟩

theorem map_adapt_eq {w w' : ℤ} {os ps : List RowSpec} (h : List.Forall₂ (Moved w) os ps)
    (hw : ∀ p ∈ ps, p.v = true → displWidth p.n + 2 ≤ w')
    (hblank : ∀ o ∈ os, o.v = true → ∀ c ∈ o.n, c = ' ') :
    ps.map (RowSpec.adapt w') = os.map (RowSpec.adapt w') := by
  induction h with
  | nil => rfl
  | @cons o p os ps hmoved _ ih =>
    rw [List.map_cons, List.map_cons, ih (fun p hp => hw p (List.mem_cons_of_mem _ hp))
      fun o ho => hblank o (List.mem_cons_of_mem _ ho)]
    rw [(hmoved.adapt_eq_iff (hw p List.mem_cons_self)).mpr (hblank o List.mem_cons_self)]

/-- The border begins with as many lines as the name column is wide. -/
theorem headLine_drawn (t : TextSheet) :
    ∃ c rest, c ≠ '─' ∧ t.drawn.headLine =
      '\n' :: '┌' :: (List.replicate (widest t.sheetName t.rowSpecs).toNat '─' ++ c :: rest) := by
  cases hcols : shown t.colSpecs with
  | nil =>
    refine ⟨'┐', '\n' :: t.titles, by decide, ?_⟩
    simp [drawn, border, line, hcols]
  | cons col cols =>
    refine ⟨'┬', dcLine col ++ (cols.map dcLine).flatMap ('┬' :: ·) ++ ['┐'] ++ '\n' :: t.titles,
      by decide, ?_⟩
    simp [drawn, border, line, hcols]

/-- The lines of a drawn sheet depend on the names and columns, and on how wide the name column
is. -/
theorem drawn_congr {s t : TextSheet} (hname : s.sheetName = t.sheetName)
    (hcols : s.colSpecs = t.colSpecs) (hlen : s.rowSpecs.length = t.rowSpecs.length)
    (hw : widest t.sheetName s.rowSpecs = widest t.sheetName t.rowSpecs) :
    s.drawn = { t.drawn with
      rowSpecs := s.rowSpecs.map (RowSpec.adapt (widest t.sheetName t.rowSpecs)) } := by
  simp only [drawn, border, titles, hname, hcols, hlen, hw]

section Moved

variable {s t : TextSheet} {os ps last : List RowSpec} {w : ℤ}

/-- Rows padded before are no wider than the name column. -/
theorem le_widest_of_moved (hs : s.rowSpecs = ps ++ last)
    (hw : widest t.sheetName s.rowSpecs = widest t.sheetName t.rowSpecs) :
    ∀ p ∈ ps, p.v = true → displWidth p.n + 2 ≤ widest t.sheetName t.rowSpecs := by
  rw [← hw, hs]
  exact fun p hp => (le_widest _ _).2 p (List.mem_append_left _ hp)

theorem length_rowSpecs_eq (hs : s.rowSpecs = ps ++ last) (ht : t.rowSpecs = os ++ last)
    (hmoved : List.Forall₂ (Moved w) os ps) : s.rowSpecs.length = t.rowSpecs.length := by
  rw [hs, ht, List.length_append, List.length_append, hmoved.length_eq]

variable (hname : s.sheetName = t.sheetName) (hcols : s.colSpecs = t.colSpecs)
  (hs : s.rowSpecs = ps ++ last) (ht : t.rowSpecs = os ++ last)
  (hmoved : List.Forall₂ (Moved w) os ps)
include hname hcols hs ht hmoved

/-- Rows that had been padded before do not matter if their names are blank, and the name column
is wide enough for other reasons. -/
theorem drawn_eq (hw : widest t.sheetName s.rowSpecs = widest t.sheetName t.rowSpecs)
    (hblank : ∀ o ∈ os, o.v = true → ∀ c ∈ o.n, c = ' ') : s.drawn = t.drawn := by
  have hlen := length_rowSpecs_eq hs ht hmoved
  have hle := le_widest_of_moved hs hw
  rw [drawn_congr hname hcols hlen hw, hs, List.map_append, map_adapt_eq hmoved hle hblank,
    ← List.map_append, ← ht]
  rfl

/-- **Otherwise the texts differ.** -/
theorem of_makeWstr_eq (hint8 : ∀ col ∈ t.colSpecs, col.Int8)
    (heq : s.drawn.makeWstr = t.drawn.makeWstr) :
    widest t.sheetName s.rowSpecs = widest t.sheetName t.rowSpecs ∧
      ∀ o ∈ os, o.v = true → ∀ c ∈ o.n, c = ' ' := by
  obtain ⟨text, htext, hmake⟩ := makeWstr_drawn hint8
  obtain ⟨text', htext', hmake'⟩ := makeWstr_drawn (t := s) (hcols ▸ hint8)
  rw [hcols, htext] at htext'
  obtain rfl := Except.ok.inj htext'
  rw [hmake, hmake'] at heq
  have heq := Except.ok.inj heq
  have hw : widest t.sheetName s.rowSpecs = widest t.sheetName t.rowSpecs := by
    obtain ⟨c, rest, hc, hhead⟩ := headLine_drawn s
    obtain ⟨d, rest', hd, hhead'⟩ := headLine_drawn t
    rw [hhead, hhead'] at heq
    simp only [List.cons_append, List.append_assoc, List.cons.injEq, true_and] at heq
    have hnat := replicate_append_inj hc hd heq
    have hpos := (le_widest s.sheetName s.rowSpecs).1
    have hpos' := (le_widest t.sheetName t.rowSpecs).1
    rw [hname] at hnat hpos
    omega
  have hlen := length_rowSpecs_eq hs ht hmoved
  have hle := le_widest_of_moved hs hw
  refine ⟨hw, @blank_of_emptyRows t.drawn.sepaLine text _ _ _ _ hmoved hle ?_⟩
  rw [drawn_congr hname hcols hlen hw] at heq
  have hrows : emptyRows t.drawn.sepaLine text
        ((ps ++ last).map (RowSpec.adapt (widest t.sheetName t.rowSpecs))) =
      emptyRows t.drawn.sepaLine text
        ((os ++ last).map (RowSpec.adapt (widest t.sheetName t.rowSpecs))) := by
    rw [← hs, ← ht]
    exact List.append_cancel_left (List.append_cancel_right heq)
  simp only [emptyRows, List.map_append, List.filter_append, List.flatMap_append] at hrows
  exact List.append_cancel_right hrows

end Moved

/-- The name column is as wide as it should be if a name of the last batch makes it so. -/
theorem widest_repad_iff (sheetName : WStr) (rows last : List RowSpec)
    {batches : List (List RowSpec)} (hne : batches ≠ []) :
    widest sheetName (repad sheetName rows batches ++ last) =
        widest sheetName ((rows ++ batches.flatten) ++ last) ↔
      Room sheetName (widestName last) rows batches := by
  obtain ⟨w, hw, hmoved⟩ := repad_moved sheetName (shifted_self rows) hne
  rw [← repad_le_iff hne, widest_eq, widest_eq, widestName_append, widestName_append, Nat.cast_inj]
  rcases widestName_moved hmoved with ⟨hos, hps, hall⟩ | ⟨hps, hos⟩
  · rw [hos, hps]
    refine iff_of_true rfl fun row hrow hv => ?_
    exact absurd ((hall row hrow).symm.trans hv) Bool.false_ne_true
  · refine ⟨fun h row hrow hv => ?_, fun h => ?_⟩
    · have hle := widestName_le_iff.mp le_rfl row hrow hv
      omega
    · have hle : widestName (repad sheetName rows batches) ≤ widestName last :=
        widestName_le_iff.mpr fun row hrow hv => (le_max_right _ _).trans (h row hrow hv)
      omega

end TextSheet

/-- The text that a client gets who fills in some numbers. -/
def textAfter (t : TextSheet) (ops : List Op) (fills : List TextSheet.Fill) :
    Option (List WStr) :=
  (t.run (ops ++ (fills.map TextSheet.Fill.op ++ [.makeWstr]))).toOption

namespace TextSheet

theorem textAfter_ok {t s : TextSheet} {ops : List Op} (h : t.calls ops = .ok (s, []))
    (fills : List Fill) :
    textAfter t ops fills = (s.run (fills.map Fill.op ++ [.makeWstr])).toOption := by
  rw [textAfter, run, run, calls_append, h]
  simp only [bind, Except.bind]
  cases s.calls (fills.map Fill.op ++ [.makeWstr]) <;> rfl

theorem textAfter_error {t : TextSheet} {ops : List Op} {e : Exn} (h : t.calls ops = .error e)
    (fills : List Fill) : textAfter t ops fills = none := by
  rw [textAfter, run, calls_append, h]
  rfl

theorem run_makeWstr_inj {s t : TextSheet}
    (h : (s.run [.makeWstr]).toOption = (t.run [.makeWstr]).toOption) {text : WStr}
    (ht : t.makeWstr = .ok text) : s.makeWstr = t.makeWstr := by
  rw [run, run, calls_single, calls_single, call, call, ht] at h
  cases hs : s.makeWstr with
  | error e =>
    rw [hs] at h
    cases h
  | ok text' =>
    rw [hs] at h
    simp only [bind, Except.bind, Except.toOption, Option.some.injEq, List.cons.injEq,
      and_true] at h
    rw [ht, h]

/-- What a client sees of the earlier calls to `skeleton`. -/
theorem run_drawn_iff {t : TextSheet} {early : List (List Item)} {last : List Item}
    (hne : early ≠ [])
    (hint8 : ∀ col ∈ t.colSpecs ++ colsOf (early.flatten ++ last), col.Int8) :
    (∀ fills : List Fill,
        (((t.redrawn early).add last).drawn.run (fills.map Fill.op ++ [.makeWstr])).toOption =
          ((t.add (early.flatten ++ last)).drawn.run (fills.map Fill.op ++ [.makeWstr])).toOption) ↔
      t.Spared early last := by
  obtain ⟨hname, hcols, hrows⟩ := t.redrawn_eq early
  have hne : early.map rowsOf ≠ [] := by simpa using hne
  obtain ⟨w, -, hmoved⟩ := repad_moved t.sheetName (shifted_self t.rowSpecs) hne
  have hflat : rowsOf early.flatten = (early.map rowsOf).flatten := List.filterMap_flatten ..
  have hs : ((t.redrawn early).add last).rowSpecs =
      repad t.sheetName t.rowSpecs (early.map rowsOf) ++ rowsOf last := by
    rw [add, hrows]
  have ht : (t.add (early.flatten ++ last)).rowSpecs =
      (t.rowSpecs ++ (early.map rowsOf).flatten) ++ rowsOf last := by
    rw [add, List.append_assoc, ← hflat]
    simp [rowsOf]
  have hname : ((t.redrawn early).add last).sheetName =
      (t.add (early.flatten ++ last)).sheetName := hname
  have hcols : ((t.redrawn early).add last).colSpecs =
      (t.add (early.flatten ++ last)).colSpecs := by
    simp [add, hcols, colsOf]
  have hwidest := widest_repad_iff t.sheetName t.rowSpecs (rowsOf last) hne
  rw [← hs, ← ht] at hwidest
  refine ⟨fun h => ?_, fun h fills => ?_⟩
  · obtain ⟨text, -, htext⟩ := makeWstr_drawn (t := t.add (early.flatten ++ last)) hint8
    have hmake := run_makeWstr_inj (h []) htext
    obtain ⟨hw, hblank⟩ := of_makeWstr_eq hname hcols hs ht hmoved hint8 hmake
    exact ⟨hflat ▸ hblank, hwidest.mp hw⟩
  · rw [drawn_eq hname hcols hs ht hmoved (hwidest.mpr h.room) (hflat ▸ h.blank)]

end TextSheet

/-- **More than one call to `skeleton`** changes the text, unless no visible row was there at an
earlier one, or nothing is seen of it. -/
theorem rebuilt_iff (t : TextSheet) (early : List (List Item)) (last : List Item)
    (hint8 : ∀ col ∈ t.colSpecs ++ colsOf (early.flatten ++ last), col.Int8) :
    (∀ fills, textAfter t (inBatches (early ++ [last])) fills =
        textAfter t (atOnce (early ++ [last])) fills) ↔
      early = [] ∨ ¬ t.Accepts (early.flatten ++ last) ∨ t.Spared early last := by
  have hflat : (early ++ [last]).flatten = early.flatten ++ last := by simp
  have hone : early.flatten ++ last = [early.flatten ++ last].flatten := by simp
  have honce : atOnce (early ++ [last]) = inBatches [early.flatten ++ last] := by
    simp [atOnce, inBatches]
  rw [honce]
  by_cases hearly : early = []
  · subst hearly
    exact iff_of_true (fun _ => rfl) (Or.inl rfl)
  rw [or_iff_right hearly]
  by_cases haccepts : t.Accepts (early.flatten ++ last)
  swap
  · -- neither client gets a text
    obtain ⟨e, he⟩ := TextSheet.calls_inBatches_error (hflat ▸ haccepts)
      (by simp : early ++ [last] ≠ [])
    obtain ⟨e', he'⟩ := TextSheet.calls_inBatches_error (hone ▸ haccepts)
      (by simp : [early.flatten ++ last] ≠ [])
    refine iff_of_true (fun fills => ?_) (Or.inl haccepts)
    rw [TextSheet.textAfter_error he, TextSheet.textAfter_error he']
  rw [or_iff_right (not_not.mpr haccepts)]
  have hcalls : t.calls (inBatches (early ++ [last])) = .ok (t.redrawn (early ++ [last]), []) :=
    TextSheet.calls_inBatches (hflat ▸ haccepts)
  have hcalls' : t.calls (inBatches [early.flatten ++ last]) =
      .ok (t.redrawn [early.flatten ++ last], []) :=
    TextSheet.calls_inBatches (hone ▸ haccepts)
  have hs : t.redrawn (early ++ [last]) = ((t.redrawn early).add last).drawn := by
    simp [TextSheet.redrawn]
  have ht : t.redrawn [early.flatten ++ last] = (t.add (early.flatten ++ last)).drawn := rfl
  simp only [TextSheet.textAfter_ok hcalls, TextSheet.textAfter_ok hcalls', hs, ht]
  exact TextSheet.run_drawn_iff hearly hint8

/-- `skeleton` twice, with one row. -/
theorem not_rebuilt_twice :
    let t : TextSheet := { sheetName := "t".toList }
    ¬ ∀ fills, textAfter t (inBatches [[.row "a".toList true], []]) fills =
      textAfter t (atOnce [[.row "a".toList true], []]) fills := by
  intro t h
  exact absurd (h []) (by decide +kernel)

/-- A sheet to which columns are added after the first call. -/
theorem rebuilt_iff_sample :
    let t : TextSheet := { sheetName := "t".toList }
    let early : List (List Item) := [[.row "a".toList false]]
    let last : List Item := [.row "b".toList true, .col "c".toList 7 2 3 ',' true]
    (∀ fills, textAfter t (inBatches (early ++ [last])) fills =
        textAfter t (atOnce (early ++ [last])) fills) ↔
      early = [] ∨ ¬ t.Accepts (early.flatten ++ last) ∨ t.Spared early last :=
  rebuilt_iff _ _ _ fun col hcol => by
    rw [show _ ++ _ = [⟨"c".toList, 7, 2, 3, ',', true⟩] from rfl, List.mem_singleton] at hcol
    subst hcol
    exact ⟨by decide, by decide, by decide⟩

end LeonUtils.Text
