import LeonUtils.Text.Gb
import LeonUtils.Text.Width

/-!
# UTF-8 there and back

`ws_2_u8` and `u8_2_ws` are the two directions of one `wstring_convert`. What is written is read
back, and what is read as a text are the bytes that it is written as, but for one thing: a character
that is cut off at the end of the bytes is dropped without a word. What can be written are the texts
of characters that are no surrogates and none beyond the last one.

`makeUtf8` of a table is its text in UTF-8, from which `u8_2_ws` gets the text again.

## Main definitions

* `CutOff` — the beginning of a character's bytes
* `wide`, `encode` — a text as wide characters, and as bytes
* `displWidthU8` — the width of a text in UTF-8
* `TextSheet.makeUtf8` — a table in UTF-8

## Main results

* `u82wsFrom_utf8`, `u82wsFrom_ok` — one character, written and read
* `u82ws_eq_ok_iff` — reading is the inverse of writing, but for what is cut off
* `displWidth_le_length_encode`, `splitOn_encode` — columns and bytes, lines of either
* `utf8_inverse`, `makeUtf8_lines` — that for texts, and for tables
-/

namespace LeonUtils

namespace Text

/-! ## One character -/

theorem toNat_ofNat {n : ℕ} (h : n.isValidChar) : (Char.ofNat n).toNat = n := by
  rw [Char.ofNat, dif_pos h]
  rfl

theorem toNat_ofNat_byte {n : ℕ} (h : n < 256) : (Char.ofNat n).toNat = n :=
  toNat_ofNat (Or.inl (by omega))

/-- A byte in the middle of a character. -/
abbrev Tail (b : Char) : Prop := b.toNat / 64 = 2

theorem tail_ofNat (n : ℕ) : Tail (Char.ofNat (0x80 + n % 64)) ∧
    (Char.ofNat (0x80 + n % 64)).toNat = 0x80 + n % 64 := by
  have hbyte : (Char.ofNat (0x80 + n % 64)).toNat = 0x80 + n % 64 := toNat_ofNat_byte (by omega)
  constructor <;> omega

/-- Such a byte is known by its last six bits. -/
theorem Tail.eq {b : Char} (h : Tail b) {n : ℕ} (hn : n % 64 = b.toNat % 64) :
    Char.ofNat (0x80 + n % 64) = b := by
  have hb : 0x80 + n % 64 = b.toNat := by omega
  rw [hb, Char.ofNat_toNat]

/-- In the middle of a character, with more than one byte to come. -/
theorem u82wsFrom_some {left code low high : ℕ} {b : Char} (hlow : low ≤ b.toNat)
    (hhigh : b.toNat < high) (s : Str) :
    u82wsFrom (some ⟨left + 2, code, low, high⟩) (b :: s) =
      u82wsFrom (some ⟨left + 1, code * 64 + b.toNat % 64, 0x80, 0xC0⟩) s := by
  rw [u82wsFrom, if_pos ⟨hlow, hhigh⟩]
  exact if_pos (by omega)

/-- The last byte of a character. -/
theorem u82wsFrom_last {code low high : ℕ} {b c : Char} (hlow : low ≤ b.toNat)
    (hhigh : b.toNat < high) (hc : code * 64 + b.toNat % 64 = c.toNat) (s : Str) :
    u82wsFrom (some ⟨1, code, low, high⟩) (b :: s) =
      (do let ws ← u82wsFrom none s; .ok (c :: ws)) := by
  rw [u82wsFrom, if_pos ⟨hlow, hhigh⟩]
  simp only [lt_irrefl, if_false, hc, Char.ofNat_toNat]

/-- The first byte of a character of several bytes. -/
theorem u82wsFrom_begin {b : ℕ} (hlow : 0x80 ≤ b) (hhigh : b < 256) {begun : Begun}
    (h : begin b = some begun) (s : Str) :
    u82wsFrom none (Char.ofNat b :: s) = u82wsFrom (some begun) s := by
  rw [u82wsFrom, toNat_ofNat_byte hhigh, if_neg (by omega), h]

/-- **One character is written and read.** -/
theorem u82wsFrom_utf8 (c : Char) : ∃ bytes, utf8 c.val = .ok bytes ∧
    ∀ s, u82wsFrom none (bytes ++ s) = (do let ws ← u82wsFrom none s; .ok (c :: ws)) := by
  have hvalid : c.toNat < 0xD800 ∨ 0xDFFF < c.toNat ∧ c.toNat < 0x110000 := c.valid
  have hval : c.val.toNat = c.toNat := rfl
  simp only [utf8, hval]
  obtain ⟨-, hlast⟩ := tail_ofNat c.toNat
  obtain ⟨-, hmid⟩ := tail_ofNat (c.toNat / 64)
  obtain ⟨-, hfirst⟩ := tail_ofNat (c.toNat / 4096)
  by_cases h1 : c.toNat < 0x80
  · refine ⟨_, if_pos h1, fun s => ?_⟩
    rw [List.singleton_append, Char.ofNat_toNat, u82wsFrom, if_pos h1]
  rw [if_neg h1]
  by_cases h2 : c.toNat < 0x800
  · refine ⟨_, if_pos h2, fun s => ?_⟩
    have hbegin : begin (0xC0 + c.toNat / 64) = some ⟨1, c.toNat / 64, 0x80, 0xC0⟩ := by
      rw [begin, if_neg (by omega), if_pos (by omega), Nat.add_sub_cancel_left]
    exact (u82wsFrom_begin (by omega) (by omega) hbegin _).trans
      (u82wsFrom_last (by omega) (by omega) (by omega) s)
  rw [if_neg h2, if_neg (by omega)]
  by_cases h3 : c.toNat < 0x10000
  · refine ⟨_, if_pos h3, fun s => ?_⟩
    have hbegin : begin (0xE0 + c.toNat / 4096) = some ⟨2, c.toNat / 4096,
        if 0xE0 + c.toNat / 4096 = 0xE0 then 0xA0 else 0x80,
        if 0xE0 + c.toNat / 4096 = 0xED then 0xA0 else 0xC0⟩ := by
      rw [begin, if_neg (by omega), if_neg (by omega), if_pos (by omega), Nat.add_sub_cancel_left]
    exact (u82wsFrom_begin (by omega) (by omega) hbegin _).trans
      ((u82wsFrom_some (by split <;> omega) (by split <;> omega) _).trans
        (u82wsFrom_last (by omega) (by omega) (by omega) s))
  · refine ⟨_, if_neg h3, fun s => ?_⟩
    have hbegin : begin (0xF0 + c.toNat / 262144) = some ⟨3, c.toNat / 262144,
        if 0xF0 + c.toNat / 262144 = 0xF0 then 0x90 else 0x80,
        if 0xF0 + c.toNat / 262144 = 0xF4 then 0x90 else 0xC0⟩ := by
      rw [begin, if_neg (by omega), if_neg (by omega), if_neg (by omega), if_pos (by omega),
        Nat.add_sub_cancel_left]
    exact (u82wsFrom_begin (by omega) (by omega) hbegin _).trans
      ((u82wsFrom_some (by split <;> omega) (by split <;> omega) _).trans
        ((u82wsFrom_some (by omega) (by omega) _).trans
          (u82wsFrom_last (by omega) (by omega) (by omega) s)))

/-! ## Bytes that are read as a character -/

/-- Two bytes of a character. -/
theorem utf8_two {b b1 : Char} (hlow : 0xC2 ≤ b.toNat) (hhigh : b.toNat < 0xE0) (h1 : Tail b1) :
    ∃ c : Char, c.toNat = (b.toNat - 0xC0) * 64 + b1.toNat % 64 ∧ utf8 c.val = .ok [b, b1] := by
  have htoNat := toNat_ofNat (n := (b.toNat - 0xC0) * 64 + b1.toNat % 64) (Or.inl (by omega))
  generalize Char.ofNat ((b.toNat - 0xC0) * 64 + b1.toNat % 64) = c at htoNat
  refine ⟨c, htoNat, ?_⟩
  have hval : c.val.toNat = c.toNat := rfl
  have hfirst : 0xC0 + c.toNat / 64 = b.toNat := by omega
  simp only [utf8, hval, if_neg (show ¬ c.toNat < 0x80 by omega),
    if_pos (show c.toNat < 0x800 by omega), hfirst, Char.ofNat_toNat,
    h1.eq (n := c.toNat) (by omega)]

/-- Three bytes. -/
theorem utf8_three {b b1 b2 : Char} (hlow : 0xE0 ≤ b.toNat) (hhigh : b.toNat < 0xF0) (h1 : Tail b1)
    (hleast : b.toNat = 0xE0 → 0xA0 ≤ b1.toNat) (hsurrogate : b.toNat = 0xED → b1.toNat < 0xA0)
    (h2 : Tail b2) :
    ∃ c : Char, c.toNat = ((b.toNat - 0xE0) * 64 + b1.toNat % 64) * 64 + b2.toNat % 64 ∧
      utf8 c.val = .ok [b, b1, b2] := by
  have htoNat := toNat_ofNat
    (n := ((b.toNat - 0xE0) * 64 + b1.toNat % 64) * 64 + b2.toNat % 64)
    (by rw [Nat.isValidChar]; omega)
  generalize Char.ofNat (((b.toNat - 0xE0) * 64 + b1.toNat % 64) * 64 + b2.toNat % 64) = c at htoNat
  refine ⟨c, htoNat, ?_⟩
  have hvalid : c.toNat < 0xD800 ∨ 0xDFFF < c.toNat ∧ c.toNat < 0x110000 := c.valid
  have hval : c.val.toNat = c.toNat := rfl
  have hfirst : 0xE0 + c.toNat / 4096 = b.toNat := by omega
  simp only [utf8, hval, if_neg (show ¬ c.toNat < 0x80 by omega),
    if_neg (show ¬ c.toNat < 0x800 by omega),
    if_neg (show ¬ (0xD800 ≤ c.toNat ∧ c.toNat ≤ 0xDFFF ∨ 0x10FFFF < c.toNat) by omega),
    if_pos (show c.toNat < 0x10000 by omega), hfirst, Char.ofNat_toNat,
    h1.eq (n := c.toNat / 64) (by omega), h2.eq (n := c.toNat) (by omega)]

/-- Four bytes. -/
theorem utf8_four {b b1 b2 b3 : Char} (hlow : 0xF0 ≤ b.toNat) (hhigh : b.toNat < 0xF5)
    (h1 : Tail b1) (hleast : b.toNat = 0xF0 → 0x90 ≤ b1.toNat)
    (hlast : b.toNat = 0xF4 → b1.toNat < 0x90) (h2 : Tail b2) (h3 : Tail b3) :
    ∃ c : Char, c.toNat =
        (((b.toNat - 0xF0) * 64 + b1.toNat % 64) * 64 + b2.toNat % 64) * 64 + b3.toNat % 64 ∧
      utf8 c.val = .ok [b, b1, b2, b3] := by
  have htoNat := toNat_ofNat
    (n := (((b.toNat - 0xF0) * 64 + b1.toNat % 64) * 64 + b2.toNat % 64) * 64 + b3.toNat % 64)
    (by rw [Nat.isValidChar]; omega)
  generalize Char.ofNat
    ((((b.toNat - 0xF0) * 64 + b1.toNat % 64) * 64 + b2.toNat % 64) * 64 + b3.toNat % 64) = c
    at htoNat
  refine ⟨c, htoNat, ?_⟩
  have hvalid : c.toNat < 0xD800 ∨ 0xDFFF < c.toNat ∧ c.toNat < 0x110000 := c.valid
  have hval : c.val.toNat = c.toNat := rfl
  have hfirst : 0xF0 + c.toNat / 262144 = b.toNat := by omega
  simp only [utf8, hval, if_neg (show ¬ c.toNat < 0x80 by omega),
    if_neg (show ¬ c.toNat < 0x800 by omega),
    if_neg (show ¬ (0xD800 ≤ c.toNat ∧ c.toNat ≤ 0xDFFF ∨ 0x10FFFF < c.toNat) by omega),
    if_neg (show ¬ c.toNat < 0x10000 by omega), hfirst, Char.ofNat_toNat,
    h1.eq (n := c.toNat / 4096) (by omega), h2.eq (n := c.toNat / 64) (by omega),
    h3.eq (n := c.toNat) (by omega)]

/-- A beginning of a character's bytes that is not all of them, be it none. -/
def CutOff (s : Str) : Prop := ∃ (c : Char) (bytes : Str), utf8 c.val = .ok bytes ∧ s <+: bytes ∧
  s ≠ bytes

theorem CutOff.mk {c : Char} {s t : Str} (h : utf8 c.val = .ok (s ++ t)) (ht : t ≠ []) :
    CutOff s :=
  ⟨c, s ++ t, h, List.prefix_append s t, fun heq => ht (List.self_eq_append_right.mp heq)⟩

theorem CutOff.nil : CutOff [] :=
  CutOff.mk (c := 'a') (s := []) (t := ['a']) rfl (List.cons_ne_nil _ _)

/-- What is accepted in the middle of a character, with more than one byte to come. -/
theorem u82wsFrom_some_ok {left code low high : ℕ} {s : Str} {ws : WStr}
    (h : u82wsFrom (some ⟨left + 2, code, low, high⟩) s = .ok ws) :
    s = [] ∧ ws = [] ∨ ∃ b rest, s = b :: rest ∧ low ≤ b.toNat ∧ b.toNat < high ∧
      u82wsFrom (some ⟨left + 1, code * 64 + b.toNat % 64, 0x80, 0xC0⟩) rest = .ok ws := by
  cases s with
  | nil => exact Or.inl ⟨rfl, (Except.ok.inj h).symm⟩
  | cons b rest =>
    by_cases hbyte : low ≤ b.toNat ∧ b.toNat < high
    · exact Or.inr ⟨b, rest, rfl, hbyte.1, hbyte.2,
        (u82wsFrom_some hbyte.1 hbyte.2 rest).symm.trans h⟩
    · rw [u82wsFrom, if_neg hbyte] at h
      cases h

/-- What is accepted as the last byte of a character. -/
theorem u82wsFrom_last_ok {code low high : ℕ} {s : Str} {ws : WStr}
    (h : u82wsFrom (some ⟨1, code, low, high⟩) s = .ok ws) :
    s = [] ∧ ws = [] ∨ ∃ b rest ws', s = b :: rest ∧ low ≤ b.toNat ∧ b.toNat < high ∧
      ws = Char.ofNat (code * 64 + b.toNat % 64) :: ws' ∧ u82wsFrom none rest = .ok ws' := by
  cases s with
  | nil => exact Or.inl ⟨rfl, (Except.ok.inj h).symm⟩
  | cons b rest =>
    by_cases hbyte : low ≤ b.toNat ∧ b.toNat < high
    · rw [u82wsFrom, if_pos hbyte] at h
      simp only [lt_irrefl, if_false] at h
      obtain ⟨ws', hws', heq⟩ := bind_ok h
      exact Or.inr ⟨b, rest, ws', rfl, hbyte.1, hbyte.2, (Except.ok.inj heq).symm, hws'⟩
    · rw [u82wsFrom, if_neg hbyte] at h
      cases h

/-- What begins a character, and how many bytes are to come. -/
theorem begin_eq_some {b : ℕ} {begun : Begun} (h : begin b = some begun) :
    0xC2 ≤ b ∧ b < 0xE0 ∧ begun = ⟨1, b - 0xC0, 0x80, 0xC0⟩ ∨
      0xE0 ≤ b ∧ b < 0xF0 ∧ begun = ⟨2, b - 0xE0, if b = 0xE0 then 0xA0 else 0x80,
        if b = 0xED then 0xA0 else 0xC0⟩ ∨
      0xF0 ≤ b ∧ b < 0xF5 ∧ begun = ⟨3, b - 0xF0, if b = 0xF0 then 0x90 else 0x80,
        if b = 0xF4 then 0x90 else 0xC0⟩ := by
  rw [begin] at h
  by_cases h1 : b < 0xC2
  · rw [if_pos h1] at h
    cases h
  rw [if_neg h1] at h
  by_cases h2 : b < 0xE0
  · rw [if_pos h2] at h
    exact Or.inl ⟨by omega, h2, (Option.some.inj h).symm⟩
  rw [if_neg h2] at h
  by_cases h3 : b < 0xF0
  · rw [if_pos h3] at h
    exact Or.inr (Or.inl ⟨by omega, h3, (Option.some.inj h).symm⟩)
  rw [if_neg h3] at h
  by_cases h4 : b < 0xF5
  · rw [if_pos h4] at h
    exact Or.inr (Or.inr ⟨by omega, h4, (Option.some.inj h).symm⟩)
  · rw [if_neg h4] at h
    cases h

/-- What the reading of a text comes to: it is cut off in its first character, or that is read, and
then the text behind it. -/
def FirstRead (s : Str) (ws : WStr) : Prop :=
  ws = [] ∧ CutOff s ∨ ∃ (c : Char) (bytes rest : Str) (ws' : WStr), utf8 c.val = .ok bytes ∧
    s = bytes ++ rest ∧ ws = c :: ws' ∧ u82wsFrom none rest = .ok ws'

theorem FirstRead.two {b : Char} {s : Str} {ws : WStr} (hlow : 0xC2 ≤ b.toNat)
    (hhigh : b.toNat < 0xE0)
    (h : u82wsFrom (some ⟨1, b.toNat - 0xC0, 0x80, 0xC0⟩) s = .ok ws) : FirstRead (b :: s) ws := by
  obtain ⟨rfl, rfl⟩ | ⟨b1, rest, ws', rfl, hlow1, hhigh1, rfl, hrest⟩ := u82wsFrom_last_ok h
  · obtain ⟨c, -, hc⟩ := utf8_two hlow hhigh (tail_ofNat 0).1
    exact Or.inl ⟨rfl, CutOff.mk (s := [b]) hc (List.cons_ne_nil _ _)⟩
  · have htail : Tail b1 := by omega
    obtain ⟨c, hcode, hc⟩ := utf8_two hlow hhigh htail
    exact Or.inr ⟨c, [b, b1], rest, ws', hc, rfl, by rw [← hcode, Char.ofNat_toNat], hrest⟩

theorem FirstRead.three {b : Char} {s : Str} {ws : WStr} (hlow : 0xE0 ≤ b.toNat)
    (hhigh : b.toNat < 0xF0)
    (h : u82wsFrom (some ⟨2, b.toNat - 0xE0, if b.toNat = 0xE0 then 0xA0 else 0x80,
      if b.toNat = 0xED then 0xA0 else 0xC0⟩) s = .ok ws) : FirstRead (b :: s) ws := by
  obtain ⟨rfl, rfl⟩ | ⟨b1, rest, rfl, hlow1, hhigh1, h⟩ := u82wsFrom_some_ok h
  · -- 0xA0 may follow 0xE0, and 0x80 any other
    obtain ⟨htail, hbyte⟩ := tail_ofNat (if b.toNat = 0xE0 then 0x20 else 0)
    obtain ⟨c, -, hc⟩ := utf8_three hlow hhigh htail
      (fun hb => by rw [hbyte, if_pos hb])
      (fun hb => by rw [hbyte, if_neg (by omega)]; decide) (tail_ofNat 0).1
    exact Or.inl ⟨rfl, CutOff.mk (s := [b]) hc (List.cons_ne_nil _ _)⟩
  have htail : Tail b1 := by split_ifs at hlow1 hhigh1 <;> omega
  have hleast : b.toNat = 0xE0 → 0xA0 ≤ b1.toNat := fun hb => by rwa [if_pos hb] at hlow1
  have hsurrogate : b.toNat = 0xED → b1.toNat < 0xA0 := fun hb => by rwa [if_pos hb] at hhigh1
  obtain ⟨rfl, rfl⟩ | ⟨b2, rest, ws', rfl, hlow2, hhigh2, rfl, hrest⟩ := u82wsFrom_last_ok h
  · obtain ⟨c, -, hc⟩ := utf8_three hlow hhigh htail hleast hsurrogate (tail_ofNat 0).1
    exact Or.inl ⟨rfl, CutOff.mk (s := [b, b1]) hc (List.cons_ne_nil _ _)⟩
  · have htail2 : Tail b2 := by omega
    obtain ⟨c, hcode, hc⟩ := utf8_three hlow hhigh htail hleast hsurrogate htail2
    exact Or.inr ⟨c, [b, b1, b2], rest, ws', hc, rfl, by rw [← hcode, Char.ofNat_toNat], hrest⟩

theorem FirstRead.four {b : Char} {s : Str} {ws : WStr} (hlow : 0xF0 ≤ b.toNat)
    (hhigh : b.toNat < 0xF5)
    (h : u82wsFrom (some ⟨3, b.toNat - 0xF0, if b.toNat = 0xF0 then 0x90 else 0x80,
      if b.toNat = 0xF4 then 0x90 else 0xC0⟩) s = .ok ws) : FirstRead (b :: s) ws := by
  obtain ⟨rfl, rfl⟩ | ⟨b1, rest, rfl, hlow1, hhigh1, h⟩ := u82wsFrom_some_ok h
  · -- 0x90 may follow 0xF0, and 0x80 any other
    obtain ⟨htail, hbyte⟩ := tail_ofNat (if b.toNat = 0xF0 then 0x10 else 0)
    obtain ⟨c, -, hc⟩ := utf8_four hlow hhigh htail
      (fun hb => by rw [hbyte, if_pos hb])
      (fun hb => by rw [hbyte, if_neg (by omega)]; decide) (tail_ofNat 0).1 (tail_ofNat 0).1
    exact Or.inl ⟨rfl, CutOff.mk (s := [b]) hc (List.cons_ne_nil _ _)⟩
  have htail : Tail b1 := by split_ifs at hlow1 hhigh1 <;> omega
  have hleast : b.toNat = 0xF0 → 0x90 ≤ b1.toNat := fun hb => by rwa [if_pos hb] at hlow1
  have hlast : b.toNat = 0xF4 → b1.toNat < 0x90 := fun hb => by rwa [if_pos hb] at hhigh1
  obtain ⟨rfl, rfl⟩ | ⟨b2, rest, rfl, hlow2, hhigh2, h⟩ := u82wsFrom_some_ok h
  · obtain ⟨c, -, hc⟩ := utf8_four hlow hhigh htail hleast hlast (tail_ofNat 0).1 (tail_ofNat 0).1
    exact Or.inl ⟨rfl, CutOff.mk (s := [b, b1]) hc (List.cons_ne_nil _ _)⟩
  have htail2 : Tail b2 := by omega
  obtain ⟨rfl, rfl⟩ | ⟨b3, rest, ws', rfl, hlow3, hhigh3, rfl, hrest⟩ := u82wsFrom_last_ok h
  · obtain ⟨c, -, hc⟩ := utf8_four hlow hhigh htail hleast hlast htail2 (tail_ofNat 0).1
    exact Or.inl ⟨rfl, CutOff.mk (s := [b, b1, b2]) hc (List.cons_ne_nil _ _)⟩
  · have htail3 : Tail b3 := by omega
    obtain ⟨c, hcode, hc⟩ := utf8_four hlow hhigh htail hleast hlast htail2 htail3
    exact Or.inr ⟨c, [b, b1, b2, b3], rest, ws', hc, rfl, by rw [← hcode, Char.ofNat_toNat], hrest⟩

/-- **What is read is a character as it is written**, and a text behind it, or else it is cut off.
-/
theorem u82wsFrom_ok {s : Str} {ws : WStr} (h : u82wsFrom none s = .ok ws) : FirstRead s ws := by
  cases s with
  | nil => exact Or.inl ⟨(Except.ok.inj h).symm, CutOff.nil⟩
  | cons b s =>
    rw [u82wsFrom] at h
    by_cases h1 : b.toNat < 0x80
    · rw [if_pos h1] at h
      obtain ⟨ws', hws', heq⟩ := bind_ok h
      obtain rfl := Except.ok.inj heq
      refine Or.inr ⟨b, [b], s, ws', ?_, rfl, rfl, hws'⟩
      have hval : b.val.toNat = b.toNat := rfl
      simp only [utf8, hval, if_pos h1, Char.ofNat_toNat]
    rw [if_neg h1] at h
    cases hbegin : begin b.toNat with
    | none =>
      rw [hbegin] at h
      cases h
    | some begun =>
      rw [hbegin] at h
      obtain ⟨hlow, hhigh, rfl⟩ | ⟨hlow, hhigh, rfl⟩ | ⟨hlow, hhigh, rfl⟩ := begin_eq_some hbegin
      · exact FirstRead.two hlow hhigh h
      · exact FirstRead.three hlow hhigh h
      · exact FirstRead.four hlow hhigh h

/-- The beginning of what is accepted is accepted. -/
theorem u82wsFrom_of_append {begun : Option Begun} {s t : Str} {ws : WStr}
    (h : u82wsFrom begun (s ++ t) = .ok ws) : ∃ ws', u82wsFrom begun s = .ok ws' := by
  induction s generalizing begun ws with
  | nil => cases begun <;> exact ⟨[], rfl⟩
  | cons b s ih =>
    rw [List.cons_append] at h
    cases begun with
    | none =>
      rw [u82wsFrom] at h ⊢
      by_cases hlow : b.toNat < 0x80
      · rw [if_pos hlow] at h ⊢
        obtain ⟨ws', hws', -⟩ := bind_ok h
        obtain ⟨ws'', hws''⟩ := ih hws'
        exact ⟨b :: ws'', by rw [hws'']; rfl⟩
      · rw [if_neg hlow] at h ⊢
        cases hbegin : begin b.toNat with
        | none =>
          rw [hbegin] at h
          cases h
        | some begun =>
          rw [hbegin] at h
          exact ih h
    | some begun =>
      rw [u82wsFrom] at h ⊢
      by_cases hbyte : begun.low ≤ b.toNat ∧ b.toNat < begun.high
      · rw [if_pos hbyte] at h ⊢
        by_cases hleft : 1 < begun.left
        · simp only [if_pos hleft] at h ⊢
          exact ih h
        · simp only [if_neg hleft] at h ⊢
          obtain ⟨ws', hws', -⟩ := bind_ok h
          obtain ⟨ws'', hws''⟩ := ih hws'
          exact ⟨_ :: ws'', by rw [hws'']; rfl⟩
      · rw [if_neg hbyte] at h
        cases h

/-- What is cut off is dropped. -/
theorem CutOff.u82wsFrom {s : Str} (h : CutOff s) : u82wsFrom none s = .ok [] := by
  obtain ⟨c, bytes, hbytes, ⟨t, rfl⟩, hne⟩ := h
  obtain ⟨_, hbytes', hread⟩ := u82wsFrom_utf8 c
  obtain rfl := Except.ok.inj (hbytes.symm.trans hbytes')
  have hall := hread []
  rw [List.append_nil] at hall
  obtain ⟨ws, hws⟩ := u82wsFrom_of_append hall
  obtain ⟨rfl, -⟩ | ⟨c', bytes', rest, ws', hbytes'', rfl, rfl, hrest⟩ := u82wsFrom_ok hws
  · exact hws
  · -- a whole character would be the same one, and leave nothing to be cut off
    obtain ⟨bytes, hbytes, hread'⟩ := u82wsFrom_utf8 c'
    obtain rfl := Except.ok.inj (hbytes''.symm.trans hbytes)
    rw [List.append_assoc, hread'] at hall
    obtain ⟨_, -, heq⟩ := bind_ok hall
    obtain ⟨rfl, -⟩ := List.cons.inj (Except.ok.inj heq)
    have hlen := congrArg List.length (Except.ok.inj (hbytes''.symm.trans hbytes'))
    simp only [List.length_append] at hlen
    have ht : t = [] := List.length_eq_zero_iff.mp (by omega)
    exact absurd (by rw [ht, List.append_nil]) hne

/-! ## Texts -/

/-- A text as wide characters. -/
def wide (ws : WStr) : List UInt32 := ws.map Char.val

/-- **Reading is the inverse of writing**, but for a character that is cut off at the end. -/
theorem u82ws_eq_ok_iff (s : Str) (ws : WStr) : u82ws s = .ok ws ↔
    ∃ bytes rest, ws2u8 (wide ws) = .ok bytes ∧ s = bytes ++ rest ∧ CutOff rest := by
  rw [u82ws, ws2u8, wide]
  induction ws generalizing s with
  | nil =>
    constructor
    · intro h
      obtain ⟨-, hcut⟩ | ⟨c, bytes, rest, ws', -, -, hcons, -⟩ := u82wsFrom_ok h
      · exact ⟨[], s, rfl, rfl, hcut⟩
      · cases hcons
    · rintro ⟨bytes, rest, h, rfl, hcut⟩
      cases h
      exact hcut.u82wsFrom
  | cons c ws ih =>
    obtain ⟨bytes, hbytes, hread⟩ := u82wsFrom_utf8 c
    constructor
    · intro h
      obtain ⟨hnil, -⟩ | ⟨c', bytes', text, ws', hbytes', rfl, hcons, htext⟩ := u82wsFrom_ok h
      · cases hnil
      obtain ⟨rfl, rfl⟩ := List.cons.inj hcons
      obtain ⟨more, rest, hmore, rfl, hcut⟩ := (ih text).mp htext
      refine ⟨bytes' ++ more, rest, ?_, (List.append_assoc _ _ _).symm, hcut⟩
      rw [List.map_cons, toBytes, hbytes', hmore]
      rfl
    · rintro ⟨all, rest, h, rfl, hcut⟩
      rw [List.map_cons, toBytes, hbytes] at h
      obtain ⟨_, hfirst, h⟩ := bind_ok h
      obtain rfl := Except.ok.inj hfirst
      obtain ⟨more, hmore, heq⟩ := bind_ok h
      obtain rfl := Except.ok.inj heq
      rw [List.append_assoc, hread, (ih (more ++ rest)).mpr ⟨more, rest, hmore, rfl, hcut⟩]
      rfl

/-! ## What can be written -/

/-- The bytes of a character. -/
def charBytes (c : Char) : Str :=
  match utf8 c.val with
  | .ok bytes => bytes
  | .error _ => []

/-- The bytes of a text. -/
def encode (ws : WStr) : Str := ws.flatMap charBytes

theorem utf8_val (c : Char) : utf8 c.val = .ok (charBytes c) := by
  obtain ⟨bytes, hbytes, -⟩ := u82wsFrom_utf8 c
  rw [charBytes, hbytes]

/-- Every text has a form in UTF-8. -/
theorem ws2u8_wide (ws : WStr) : ws2u8 (wide ws) = .ok (encode ws) := by
  rw [ws2u8, wide, encode]
  induction ws with
  | nil => rfl
  | cons c ws ih =>
    rw [List.map_cons, toBytes, utf8_val, ih]
    rfl

/-- What is read as a text are its bytes, and the beginning of a character that is cut off. -/
theorem u82ws_eq_ok_iff_encode (s : Str) (ws : WStr) :
    u82ws s = .ok ws ↔ ∃ rest, s = encode ws ++ rest ∧ CutOff rest := by
  rw [u82ws_eq_ok_iff, ws2u8_wide]
  constructor
  · rintro ⟨bytes, rest, h, hs, hcut⟩
    obtain rfl := Except.ok.inj h
    exact ⟨rest, hs, hcut⟩
  · rintro ⟨rest, hs, hcut⟩
    exact ⟨encode ws, rest, rfl, hs, hcut⟩

/-- The bytes of a text are read as it. -/
theorem u82ws_encode (ws : WStr) : u82ws (encode ws) = .ok ws :=
  (u82ws_eq_ok_iff_encode _ ws).mpr ⟨[], (List.append_nil _).symm, CutOff.nil⟩

/-- Other wide characters have none. -/
theorem utf8_ok_iff (c : UInt32) : (∃ bytes, utf8 c = .ok bytes) ↔ c.toNat.isValidChar := by
  have hvalid : c.toNat.isValidChar ↔
      c.toNat < 0xD800 ∨ 0xDFFF < c.toNat ∧ c.toNat < 0x110000 := Iff.rfl
  rw [hvalid]
  simp only [utf8]
  by_cases h1 : c.toNat < 0x80
  · exact iff_of_true ⟨_, if_pos h1⟩ (by omega)
  rw [if_neg h1]
  by_cases h2 : c.toNat < 0x800
  · exact iff_of_true ⟨_, if_pos h2⟩ (by omega)
  rw [if_neg h2]
  by_cases h3 : 0xD800 ≤ c.toNat ∧ c.toNat ≤ 0xDFFF ∨ 0x10FFFF < c.toNat
  · rw [if_pos h3]
    refine iff_of_false ?_ (by omega)
    rintro ⟨bytes, hbytes⟩
    cases hbytes
  rw [if_neg h3]
  by_cases h4 : c.toNat < 0x10000
  · exact iff_of_true ⟨_, if_pos h4⟩ (by omega)
  · exact iff_of_true ⟨_, if_neg h4⟩ (by omega)

theorem ws2u8_ok_iff (ws : List UInt32) :
    (∃ s, ws2u8 ws = .ok s) ↔ ∀ c ∈ ws, c.toNat.isValidChar := by
  rw [ws2u8]
  induction ws with
  | nil => exact iff_of_true ⟨[], rfl⟩ (List.forall_mem_nil _)
  | cons c ws ih =>
    rw [List.forall_mem_cons, ← ih, ← utf8_ok_iff]
    constructor
    · rintro ⟨s, h⟩
      obtain ⟨bytes, hbytes, h⟩ := bind_ok h
      obtain ⟨rest, hrest, -⟩ := bind_ok h
      exact ⟨⟨bytes, hbytes⟩, rest, hrest⟩
    · rintro ⟨⟨bytes, hbytes⟩, rest, hrest⟩
      refine ⟨bytes ++ rest, ?_⟩
      rw [toBytes, hbytes, hrest]
      rfl

/-! ## Bytes and columns -/

/-- The bytes of a character: itself, or several, none of which is ASCII. -/
theorem charBytes_cases (c : Char) :
    (c.toNat < 0x80 ∧ charBytes c = [c]) ∨
      (0x80 ≤ c.toNat ∧ 2 ≤ (charBytes c).length ∧
        (0x800 ≤ c.toNat → 3 ≤ (charBytes c).length) ∧ ∀ b ∈ charBytes c, 0x80 ≤ b.toNat) := by
  have hvalid : c.toNat < 0xD800 ∨ 0xDFFF < c.toNat ∧ c.toNat < 0x110000 := c.valid
  have hval : c.val.toNat = c.toNat := rfl
  have hbyte : ∀ n, 0x80 ≤ n → n < 256 → 0x80 ≤ (Char.ofNat n).toNat := fun n hn hlt => by
    rwa [toNat_ofNat_byte hlt]
  have hutf8 := utf8_val c
  simp only [utf8, hval] at hutf8
  by_cases h1 : c.toNat < 0x80
  · rw [if_pos h1, Char.ofNat_toNat] at hutf8
    exact Or.inl ⟨h1, (Except.ok.inj hutf8).symm⟩
  refine Or.inr ⟨by omega, ?_⟩
  rw [if_neg h1] at hutf8
  by_cases h2 : c.toNat < 0x800
  · rw [if_pos h2] at hutf8
    rw [← Except.ok.inj hutf8]
    exact ⟨le_rfl, fun h => absurd h2 (by omega), List.forall_mem_cons.mpr
      ⟨hbyte _ (by omega) (by omega), List.forall_mem_singleton.mpr
        (hbyte _ (by omega) (by omega))⟩⟩
  rw [if_neg h2, if_neg (by omega)] at hutf8
  by_cases h3 : c.toNat < 0x10000
  · rw [if_pos h3] at hutf8
    rw [← Except.ok.inj hutf8]
    exact ⟨Nat.le_succ 2, fun _ => le_rfl, List.forall_mem_cons.mpr
      ⟨hbyte _ (by omega) (by omega), List.forall_mem_cons.mpr
        ⟨hbyte _ (by omega) (by omega), List.forall_mem_singleton.mpr
          (hbyte _ (by omega) (by omega))⟩⟩⟩
  · rw [if_neg h3] at hutf8
    rw [← Except.ok.inj hutf8]
    exact ⟨Nat.le_add_left 2 2, fun _ => Nat.le_succ 3, List.forall_mem_cons.mpr
      ⟨hbyte _ (by omega) (by omega), List.forall_mem_cons.mpr
        ⟨hbyte _ (by omega) (by omega), List.forall_mem_cons.mpr
          ⟨hbyte _ (by omega) (by omega), List.forall_mem_singleton.mpr
            (hbyte _ (by omega) (by omega))⟩⟩⟩⟩

/-- A character is at most as wide as it has bytes, and just as wide only if it is ASCII. -/
theorem charBytes_width (c : Char) :
    (if isChinese c then 2 else 1) ≤ (charBytes c).length ∧
      ((if isChinese c then 2 else 1) = (charBytes c).length ↔ c.toNat < 0x80) := by
  have hchinese : isChinese c = true → 0x4E00 ≤ c.toNat := by
    intro h
    rw [isChinese, Bool.and_eq_true, decide_eq_true_iff] at h
    exact h.1
  obtain ⟨hlt, hbytes⟩ | ⟨hge, hlen, hlen', -⟩ := charBytes_cases c
  · have hnot : ¬ isChinese c = true := fun h => absurd (hchinese h) (by omega)
    rw [if_neg hnot, hbytes]
    exact ⟨le_rfl, iff_of_true rfl hlt⟩
  · split
    · next h =>
      have hthree := hlen' (le_trans (by decide) (hchinese h))
      omega
    · omega

/-- Only a line break has the byte of a line break. -/
theorem break_mem_charBytes {c : Char} : '\n' ∈ charBytes c ↔ c = '\n' := by
  obtain ⟨-, hbytes⟩ | ⟨hge, -, -, hall⟩ := charBytes_cases c
  · rw [hbytes, List.mem_singleton]
    exact eq_comm
  · constructor
    · intro h
      exact absurd (hall _ h) (by decide)
    · rintro rfl
      exact absurd hge (by decide)

/-- A text is at most as wide as it has bytes. -/
theorem displWidth_le_length_encode (ws : WStr) :
    displWidth ws ≤ (encode ws).length ∧
      (displWidth ws = (encode ws).length ↔ ∀ c ∈ ws, c.toNat < 0x80) := by
  induction ws with
  | nil => exact ⟨le_rfl, iff_of_true rfl (List.forall_mem_nil _)⟩
  | cons c ws ih =>
    obtain ⟨hle, heq⟩ := charBytes_width c
    obtain ⟨ihle, iheq⟩ := ih
    have hencode : encode (c :: ws) = charBytes c ++ encode ws := rfl
    rw [displWidth_cons, hencode, List.length_append, List.forall_mem_cons, ← heq, ← iheq]
    omega

/-! ## Lines -/

theorem splitOn_append {α : Type*} [BEq α] [LawfulBEq α] {a : α} {xs : List α} (h : a ∉ xs)
    (ys : List α) : (xs ++ ys).splitOn a = (ys.splitOn a).modifyHead (xs ++ ·) := by
  induction xs with
  | nil =>
    cases hsplit : ys.splitOn a with
    | nil => exact absurd hsplit (List.splitOn_ne_nil a ys)
    | cons l ls => exact hsplit
  | cons x xs ih =>
    obtain ⟨hx, hxs⟩ := not_or.mp (mt List.mem_cons.mpr h)
    rw [List.cons_append, List.splitOn_cons_eq_if_modifyHead, ih hxs,
      if_neg (by simpa using Ne.symm hx)]
    cases ys.splitOn a <;> rfl

/-- The lines of a text are those of its bytes. -/
theorem splitOn_encode (ws : WStr) :
    (encode ws).splitOn '\n' = (ws.splitOn '\n').map encode := by
  induction ws with
  | nil => rfl
  | cons c ws ih =>
    have hencode : encode (c :: ws) = charBytes c ++ encode ws := rfl
    rw [hencode, List.splitOn_cons_eq_if_modifyHead]
    by_cases hc : c = '\n'
    · subst hc
      have hbytes : charBytes '\n' = ['\n'] := rfl
      rw [hbytes, List.singleton_append, List.splitOn_cons_eq_if_modifyHead, ih]
      rfl
    · rw [splitOn_append (mt break_mem_charBytes.mp hc), ih, if_neg (by simpa using hc)]
      cases ws.splitOn '\n' <;> rfl

/-! ## Both directions -/

/-- `displ_width`, of a text in UTF-8. -/
def displWidthU8 (s : Str) : Except Exn ℕ := do
  let ws ← u82ws s
  .ok (displWidth ws)

theorem displWidthU8_encode (ws : WStr) : displWidthU8 (encode ws) = .ok (displWidth ws) := by
  rw [displWidthU8, u82ws_encode]
  rfl

/-- **UTF-8 there and back**: every text is written as some bytes, and they are read as it; other
bytes are only if they go on after these with a character that is cut off. The bytes are as many as
the text is wide just if all of it is ASCII, and more otherwise; their lines are its lines. Wide
characters that are none of a text cannot be written. -/
theorem utf8_inverse :
    (∀ ws : WStr, ∃ s, ws2u8 (wide ws) = .ok s ∧ u82ws s = .ok ws ∧
      (∀ s', u82ws s' = .ok ws ↔ ∃ rest, s' = s ++ rest ∧ CutOff rest) ∧
      displWidthU8 s = .ok (displWidth ws) ∧ displWidth ws ≤ s.length ∧
      (displWidth ws = s.length ↔ ∀ c ∈ ws, c.toNat < 0x80) ∧
      List.Forall₂ (fun line bytes => ws2u8 (wide line) = .ok bytes) (ws.splitOn '\n')
        (s.splitOn '\n')) ∧
    ∀ ws : List UInt32, (∃ s, ws2u8 ws = .ok s) ↔ ∀ c ∈ ws, c.toNat.isValidChar := by
  refine ⟨fun ws => ?_, ws2u8_ok_iff⟩
  obtain ⟨hle, heq⟩ := displWidth_le_length_encode ws
  refine ⟨encode ws, ws2u8_wide ws, u82ws_encode ws, fun s' => u82ws_eq_ok_iff_encode s' ws,
    displWidthU8_encode ws, hle, heq, ?_⟩
  rw [splitOn_encode, List.forall₂_map_right_iff, List.forall₂_same]
  exact fun line _ => ws2u8_wide line

/-! ## Tables -/

namespace TextSheet

/-- `makeUtf8`. -/
def makeUtf8 (t : TextSheet) : Except Exn Str := do
  let ws ← t.makeWstr
  ws2u8 (wide ws)

/-- A table in UTF-8 are the bytes of its text. -/
theorem makeUtf8_eq {t : TextSheet} {ws : WStr} (h : t.makeWstr = .ok ws) :
    t.makeUtf8 = .ok (encode ws) := by
  rw [makeUtf8, h]
  exact ws2u8_wide ws

/-- A text that is read as lines that are equally wide has such lines. -/
theorem displWidthU8_of_ruled {w : ℤ} {text : WStr} (h : Ruled w ('\n' :: text)) :
    ∀ line ∈ (encode text).splitOn '\n', ∃ n, displWidthU8 line = .ok n ∧ (n : ℤ) = w := by
  intro line hline
  rw [splitOn_encode] at hline
  obtain ⟨wline, hwline, rfl⟩ := List.mem_map.mp hline
  exact ⟨_, displWidthU8_encode wline, (h.splitOn wline hwline).2⟩

/-- Numbers that are filled in change the data only. -/
theorem Drawn.fills {t : TextSheet} (h : t.Drawn) {fills : List Fill}
    (hin : ∀ f ∈ fills, f.1 < t.rowSpecs.length ∧ f.2.1 < t.colSpecs.length) :
    ∃ data, t.calls (fills.map Fill.op) = .ok ({ t with allData := data }, []) ∧
      Drawn { t with allData := data } := by
  induction fills generalizing t with
  | nil => exact ⟨t.allData, rfl, h⟩
  | cons f fills ih =>
    obtain ⟨hr, hc⟩ := hin f List.mem_cons_self
    obtain ⟨data, hfill, hdrawn⟩ := h.fill hr hc f.2.2
    obtain ⟨data', hcalls, hdrawn'⟩ := ih hdrawn fun f hf => hin f (List.mem_cons_of_mem _ hf)
    refine ⟨data', ?_, hdrawn'⟩
    rw [List.map_cons, TextSheet.calls, Fill.op, TextSheet.call, hfill]
    simp only [bind, Except.bind]
    rw [hcalls]
    rfl

/-- **A table in UTF-8**: once a sheet is drawn, whatever numbers are filled in, its table in UTF-8
can be made; it is read as the table in wide characters, and `displ_width` is the same for all of
its lines, and as long as that is an `int`, so are the widths of the names. -/
theorem makeUtf8_lines {t : TextSheet} (ht : t.Tidy) {fills : List Fill}
    (hin : ∀ f ∈ fills, f.1 < t.rowSpecs.length ∧ f.2.1 < t.colSpecs.length) :
    ∃ u bytes, t.calls (.skeleton :: fills.map Fill.op) = .ok (u, []) ∧
      u.makeUtf8 = .ok ('\n' :: bytes) ∧ u82ws ('\n' :: bytes) = u.makeWstr ∧
      (∀ line ∈ bytes.splitOn '\n', ∃ n, displWidthU8 line = .ok n ∧
        (n : ℤ) = tableWidth (widest t.sheetName t.rowSpecs) t.colSpecs) ∧
      (tableWidth (widest t.sheetName t.rowSpecs) t.colSpecs < 2 ^ 31 →
        ∀ name ∈ t.measured, displWidth name < 2 ^ 31) := by
  have hskeleton : t.skeleton = .ok t.drawn :=
    skeleton_eq fun col hcol => ht.width_nonneg col (mem_shown.mp hcol).1
  have hin' : ∀ f ∈ fills, f.1 < t.drawn.rowSpecs.length ∧ f.2.1 < t.drawn.colSpecs.length := by
    simpa [TextSheet.drawn] using hin
  obtain ⟨data, hcalls, hdrawn⟩ := ht.drawn.fills hin'
  obtain ⟨text, htext, hruled⟩ := hdrawn.makeWstr
  have hread : u82ws ('\n' :: encode text) = .ok ('\n' :: text) := u82ws_encode ('\n' :: text)
  refine ⟨_, encode text, ?_, makeUtf8_eq htext, hread.trans htext.symm,
    displWidthU8_of_ruled hruled, ht.measured_lt⟩
  rw [TextSheet.calls, TextSheet.call, hskeleton]
  simp only [bind, Except.bind]
  rw [hcalls]
  rfl

/-- A table with a Chinese name, and a number too wide for its column. -/
theorem makeUtf8_lines_sample :
    let t : TextSheet :=
      { sheetName := "表".toList
        rowSpecs := [⟨"行".toList, true⟩]
        colSpecs := [⟨"x".toList, 5, 0, 3, ',', true⟩] }
    ∃ u bytes, t.calls (.skeleton :: [(0, 0, .finite false 11111)].map Fill.op) = .ok (u, []) ∧
      u.makeUtf8 = .ok ('\n' :: bytes) ∧
      ∀ line ∈ bytes.splitOn '\n', ∃ n, displWidthU8 line = .ok n ∧
        (n : ℤ) = tableWidth (widest t.sheetName t.rowSpecs) t.colSpecs := by
  intro t
  have ht : t.Tidy :=
    { sheetName := by decide
      rows := by decide
      cols := by decide
      width := by decide
      title := by decide
      separator := by decide }
  obtain ⟨u, bytes, hcalls, hmake, -, hlines, -⟩ :=
    @makeUtf8_lines t ht [(0, 0, .finite false 11111)] (by decide)
  exact ⟨u, bytes, hcalls, hmake, hlines⟩

end TextSheet

end Text

end LeonUtils
