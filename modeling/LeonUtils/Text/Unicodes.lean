import LeonUtils.Text.Format

/-!
# Wide text and how wide it is

A `wstr_t` is a list of characters. A Chinese character takes two columns of a terminal and every
other character one, which is how `displWidth` counts.

The source counts with `int`. Here the counts are not bounded; what is measured for a table is shown
to be below 2³¹ as long as the table is.

## UTF-8

`u82ws` is `std::wstring_convert` over `codecvt_utf8`, as libstdc++ has them from GCC 13 on. Its
state between two bytes is what is left of a character that has begun. A byte that no character goes
on with is an error at once, but the end of the bytes is none.

## Main definitions

* `u82ws` — UTF-8 as wide text
* `displWidth` — the width of a text
* `adaptWidth`, `adaptCentr` — a text with blanks around it

## Main results

* `u82ws_of_printable` — printable ASCII stays as it is
* `displWidth_adaptWidth`, `displWidth_adaptCentr` — a text that is not too wide gets the width
  asked for
-/

namespace LeonUtils

/-- `wstr_t`. -/
abbrev WStr : Type := List Char

namespace Text

/-! ## UTF-8 -/

/-- A character that has begun: how many bytes are to come, its first bits, and from where to below
where the next byte is. -/
structure Begun where
  left : ℕ
  code : ℕ
  low : ℕ
  high : ℕ

/-- The first byte of a character of several bytes. What may come next makes no overlong form, no
surrogate, and no code beyond the last one. -/
def begin (b : ℕ) : Option Begun :=
  if b < 0xC2 then none
  else if b < 0xE0 then some ⟨1, b - 0xC0, 0x80, 0xC0⟩
  else if b < 0xF0 then
    some ⟨2, b - 0xE0, if b = 0xE0 then 0xA0 else 0x80, if b = 0xED then 0xA0 else 0xC0⟩
  else if b < 0xF5 then
    some ⟨3, b - 0xF0, if b = 0xF0 then 0x90 else 0x80, if b = 0xF4 then 0x90 else 0xC0⟩
  else none

/-- `u82ws`, in the middle of a text. -/
def u82wsFrom : Option Begun → Str → Except Exn WStr
  | none, [] => .ok []
  -- `from_bytes` takes a character that is cut off for one still to come, and drops it
  | some _, [] => .ok []
  | none, b :: bs =>
    if b.toNat < 0x80 then do
      let ws ← u82wsFrom none bs
      .ok (b :: ws)
    else match begin b.toNat with
      | some begun => u82wsFrom (some begun) bs
      | none => .error .range
  | some ⟨left, code, low, high⟩, b :: bs =>
    if low ≤ b.toNat ∧ b.toNat < high then
      let code := code * 64 + b.toNat % 64
      if 1 < left then u82wsFrom (some ⟨left - 1, code, 0x80, 0xC0⟩) bs
      else do
        let ws ← u82wsFrom none bs
        .ok (Char.ofNat code :: ws)
    else .error .range

/-- `u8_2_ws`. -/
def u82ws (s : Str) : Except Exn WStr := u82wsFrom none s

theorem u82ws_of_printable {s : Str} (h : ∀ c ∈ s, Printable c) : u82ws s = .ok s := by
  rw [u82ws]
  induction s with
  | nil => rfl
  | cons c s ih =>
    have hc : c.toNat < 0x80 := (h c List.mem_cons_self).2.trans_lt (by decide)
    rw [u82wsFrom, if_pos hc, ih fun c hc => h c (List.mem_cons_of_mem _ hc)]
    rfl

/-! ## Widths -/

/-- From `CHINESE_BEG` to `CHINESE_END`. -/
def isChinese (c : Char) : Bool := 0x4E00 ≤ c.toNat && c.toNat ≤ 0x9FFF

/-- `chinese_chars`. -/
def chineseChars (ws : WStr) : ℕ := ws.countP isChinese

/-- `displ_width`. -/
def displWidth (ws : WStr) : ℕ := ws.length + chineseChars ws

@[simp]
theorem displWidth_append (ws ws' : WStr) :
    displWidth (ws ++ ws') = displWidth ws + displWidth ws' := by
  rw [displWidth, displWidth, displWidth, chineseChars, chineseChars, chineseChars,
    List.length_append, List.countP_append]
  omega

@[simp]
theorem displWidth_cons (c : Char) (ws : WStr) :
    displWidth (c :: ws) = (if isChinese c then 2 else 1) + displWidth ws := by
  rw [displWidth, displWidth, chineseChars, chineseChars, List.length_cons, List.countP_cons]
  split <;> omega

/-- Where nothing is Chinese, the width is the length. -/
theorem displWidth_eq_length {ws : WStr} (h : ∀ c ∈ ws, isChinese c = false) :
    displWidth ws = ws.length := by
  have hcount : chineseChars ws = 0 := List.countP_eq_zero.mpr fun c hc => by simp [h c hc]
  rw [displWidth, hcount, Nat.add_zero]

@[simp]
theorem displWidth_replicate (n : ℕ) {c : Char} (h : isChinese c = false) :
    displWidth (List.replicate n c) = n := by
  rw [displWidth_eq_length fun _ hc => List.eq_of_mem_replicate hc ▸ h, List.length_replicate]

theorem Printable.not_chinese {c : Char} (h : Printable c) : isChinese c = false := by
  have hc : ¬ 0x4E00 ≤ c.toNat := by
    have := h.2
    omega
  simp [isChinese, hc]

/-! ## Blanks around a text -/

/-- `n` blanks. -/
abbrev blanks (n : ℕ) : WStr := List.replicate n ' '

/-- `adapt_width`. -/
def adaptWidth (exp : ℤ) (txt : WStr) : WStr :=
  let chinese := chineseChars txt
  let other := txt.length - chinese
  let diff : ℤ := exp - (chinese * 2 + other : ℕ)
  if diff ≤ 0 then txt
  else (' ' :: txt ++ blanks diff.toNat).take (chinese + other + diff.toNat)

/-- `adapt_centr`. -/
def adaptCentr (exp : ℤ) (txt : WStr) : WStr :=
  let chinese := chineseChars txt
  let other := txt.length - chinese
  let diff : ℤ := exp - (chinese * 2 + other : ℕ)
  if diff ≤ 0 then txt
  else
    let left := diff.toNat / 2
    let rght := diff.toNat - left
    (blanks left ++ txt ++ blanks rght).take (chinese + other + diff.toNat)

theorem chineseChars_le (ws : WStr) : chineseChars ws ≤ ws.length := List.countP_le_length

/-- The two counts of a text make up its length, and with the Chinese characters twice its width. -/
theorem counts (txt : WStr) :
    chineseChars txt + (txt.length - chineseChars txt) = txt.length ∧
      chineseChars txt * 2 + (txt.length - chineseChars txt) = displWidth txt := by
  have hle := chineseChars_le txt
  rw [displWidth]
  omega

/-- What `adaptWidth` does: one blank before the text, and the others after it. -/
theorem adaptWidth_eq (exp : ℤ) (txt : WStr) :
    adaptWidth exp txt = if exp ≤ displWidth txt then txt
      else ' ' :: txt ++ blanks ((exp - displWidth txt).toNat - 1) := by
  obtain ⟨hlen, hwidth⟩ := counts txt
  simp only [adaptWidth, hlen, hwidth]
  by_cases hexp : exp ≤ displWidth txt
  · rw [if_pos (by omega), if_pos hexp]
  · rw [if_neg (by omega), if_neg hexp]
    obtain ⟨k, hk⟩ : ∃ k, (exp - displWidth txt).toNat = k + 1 :=
      ⟨(exp - displWidth txt).toNat - 1, by omega⟩
    rw [hk, List.cons_append, List.cons_append, ← Nat.add_assoc, List.take_succ_cons,
      List.take_length_add_append, List.take_replicate, Nat.add_sub_cancel,
      Nat.min_eq_left k.le_succ]

/-- What `adaptCentr` does: nothing is cut off. -/
theorem adaptCentr_eq (exp : ℤ) (txt : WStr) :
    adaptCentr exp txt = if exp ≤ displWidth txt then txt
      else
        let diff := (exp - displWidth txt).toNat
        blanks (diff / 2) ++ txt ++ blanks (diff - diff / 2) := by
  obtain ⟨hlen, hwidth⟩ := counts txt
  simp only [adaptCentr, hlen, hwidth]
  by_cases hexp : exp ≤ displWidth txt
  · rw [if_pos (by omega), if_pos hexp]
  · rw [if_neg (by omega), if_neg hexp, List.take_of_length_le]
    simp only [List.length_append, List.length_replicate]
    omega

/-- **A text that is not too wide gets the width asked for.** -/
theorem displWidth_adaptWidth {exp : ℤ} {txt : WStr} (h : displWidth txt ≤ exp) :
    (displWidth (adaptWidth exp txt) : ℤ) = exp := by
  rw [adaptWidth_eq]
  split
  · omega
  · rw [displWidth_append, displWidth_cons, displWidth_replicate _ (by decide), if_neg (by decide)]
    omega

theorem displWidth_adaptCentr {exp : ℤ} {txt : WStr} (h : displWidth txt ≤ exp) :
    (displWidth (adaptCentr exp txt) : ℤ) = exp := by
  rw [adaptCentr_eq]
  split
  · omega
  · simp only [displWidth_append]
    rw [displWidth_replicate _ (by decide), displWidth_replicate _ (by decide)]
    omega

/-- Only blanks are added. -/
theorem mem_adaptWidth {exp : ℤ} {txt : WStr} {c : Char} (h : c ∈ adaptWidth exp txt) :
    c = ' ' ∨ c ∈ txt := by
  rw [adaptWidth_eq] at h
  split at h
  · exact Or.inr h
  · simp only [List.cons_append, List.mem_cons, List.mem_append, List.mem_replicate] at h
    tauto

theorem mem_adaptCentr {exp : ℤ} {txt : WStr} {c : Char} (h : c ∈ adaptCentr exp txt) :
    c = ' ' ∨ c ∈ txt := by
  rw [adaptCentr_eq] at h
  split at h
  · exact Or.inr h
  · simp only [List.mem_append, List.mem_replicate] at h
    tauto

example : u82ws "\xe8\xa1\xa8 1".toList = .ok "表 1".toList := by decide +kernel

example : u82ws "a\xe5\x95".toList = .ok "a".toList := by decide +kernel

end Text

end LeonUtils
