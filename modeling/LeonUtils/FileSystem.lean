import LeonUtils.FileTree
import LeonUtils.Text.Format

/-!
# Deleting a temporary directory

`del_tmp_dir` deletes a path recursively, and then the path with a slash added, or with its last
slash dropped. If the two denote the same directory, then the second call has nothing left to do.
They do not for the empty path, which becomes that of the root, and the empty path denotes nothing.
They do not, either, for a link that leads nowhere: with a slash it denotes nothing, and without the
slash it is the link.

`std::filesystem::remove_all` and `remove` are taken as the library of GCC implements them on Linux:
nothing to remove is no error, links are removed rather than followed, and the root and directories
called `.` or `..` are emptied but not removed, which throws.

## Main definitions

* `FileTree.removeAll` — `std::filesystem::remove_all`
* `FileTree.delTmpDir` — the function
* `FileTree.KeepsRest` — everything else is still there

## Main results

* `FileTree.removeAll_entry` — what `remove_all` leaves alone
* `FileTree.keepsRest_iff` — when `del_tmp_dir` leaves everything else alone
* `FileTree.delTmpDir_gone` — what it deletes
-/

namespace LeonUtils

namespace FileTree

/-! ## The library -/

/-- `remove` of C: `unlink`, and `rmdir` for a directory. What comes to be removed as a directory
has been emptied before (`entry_below_of_lookup`). -/
def unlink (t : FileTree) (cwd : Place) (p : Path) : FileTree × Except Errno Unit :=
  match p.names.getLast? with
  | none => (t, .error .busy)
  | some c =>
    match t.follow maxLinks (p.start cwd) p.names.dropLast with
    | .error e => (t, .error e)
    | .ok (_, l) =>
      if c = ['.'] then (t, .error .inval)
      else if c = ['.', '.'] then (t, .error .notempty)
      else match t.entry (l ++ [c]) with
        | none => (t, .error .noent)
        | some .dir => (t.prune (.at l c), .ok ())
        | some _ => if p.slash then (t, .error .notdir) else (t.prune (.at l c), .ok ())

/-- `std::filesystem::remove`. -/
def remove (t : FileTree) (cwd : Place) (p : Path) : FileTree × Except Errno Unit :=
  match t.unlink cwd p with
  | (t, .error .noent) => (t, .ok ())
  | r => r

/-- `std::filesystem::remove_all`: a directory is emptied first. -/
def removeAll (t : FileTree) (cwd : Place) (s : Str) : FileTree × Except Errno Unit :=
  match Path.parse s with
  | none => (t, .ok ())
  | some p =>
    match t.lookup cwd p with
    | .error .noent => (t, .ok ())
    | .error _ => t.remove cwd p
    | .ok l =>
      match t.entry l with
      | some .file => t.remove cwd p
      | some (.link _) => t.remove cwd p
      | _ => (t.prune (.below l)).remove cwd p

/-! ## The code -/

/-- The path that is deleted next: `p2`. -/
def otherPath (path : Str) : Str :=
  if path.getLast? = some '/' then path.dropLast else path ++ ['/']

/-- `del_tmp_dir`. -/
def delTmpDir (t : FileTree) (cwd : Place) (path : Str) : FileTree × Except Errno Unit :=
  match t.removeAll cwd path with
  | (t, .error e) => (t, .error e)
  | (t, .ok ()) => t.removeAll cwd (otherPath path)

/-! ## What a string denotes -/

/-- The place that a string denotes, as a path. -/
def locate (t : FileTree) (cwd : Place) (s : Str) : Except Errno Place :=
  match Path.parse s with
  | none => .error .noent
  | some p => t.lookup cwd p

/-- The place is in the subtree that a string denotes. -/
def Names (t : FileTree) (cwd : Place) (s : Str) (q : Place) : Prop :=
  ∃ l, t.locate cwd s = .ok l ∧ l <+: q

/-- Everything that the string does not denote is still there. -/
def KeepsRest (t : FileTree) (cwd : Place) (s : Str) : Prop :=
  ∀ q, ¬ t.Names cwd s q → (t.delTmpDir cwd s).1.entry q = t.entry q

/-- A link that leads nowhere, with a slash. -/
def Dangling (t : FileTree) (cwd : Place) (s : Str) : Prop :=
  ∃ s', s = s' ++ ['/'] ∧ t.locate cwd s = .error .noent ∧
    ∃ l target, t.locate cwd s' = .ok l ∧ t.entry l = some (.link target)

section Locate

variable {t t' : FileTree} {cwd : Place} {s : Str} {p : Path}

theorem locate_of_none (h : Path.parse s = none) : t.locate cwd s = .error .noent := by
  rw [locate, h]

theorem locate_of_some (h : Path.parse s = some p) : t.locate cwd s = t.lookup cwd p := by
  rw [locate, h]

theorem locate_of_le (hle : t' ≤ t) (h : t.locate cwd s = .error .noent) :
    t'.locate cwd s = .error .noent := by
  cases hp : Path.parse s with
  | none => exact locate_of_none hp
  | some p =>
    rw [locate_of_some hp] at h ⊢
    rcases lookup_of_le hle cwd p with heq | hnone
    · exact heq.trans h
    · exact hnone

/-- Even without a slash the path denotes nothing any more. -/
def Gone (t : FileTree) (cwd : Place) (p : Path) : Prop :=
  t.lookup cwd { p with slash := false } = .error .noent

/-- A path by its last name, without a slash. -/
theorem lookup_bare (t : FileTree) (cwd : Place) {ns : List (List Char)} {c : List Char}
    (hp : p.names = ns ++ [c]) :
    t.lookup cwd { p with slash := false } =
      t.follow maxLinks (p.start cwd) ns >>= fun r => t.lookupIn r.2 c :=
  lookup_concat t cwd (p := { p with slash := false }) hp

/-- And with one. -/
theorem lookup_slash (t : FileTree) (cwd : Place) {ns : List (List Char)} {c : List Char}
    (hp : p.names = ns ++ [c]) :
    t.lookup cwd { p with slash := true } =
      t.follow maxLinks (p.start cwd) ns >>= fun r => (t.follow r.1 r.2 [c]).map Prod.snd :=
  lookup_concat t cwd (p := { p with slash := true }) hp

theorem lookup_slash_of_error {e : Errno} (h : t.lookup cwd { p with slash := false } = .error e) :
    t.lookup cwd { p with slash := true } = .error e := by
  rcases p.names.eq_nil_or_concat with hp | ⟨ns, c, hp⟩
  · rw [lookup_of_nil t cwd (p := { p with slash := false }) hp] at h
    cases h
  rw [List.concat_eq_append] at hp
  rw [lookup_bare t cwd hp] at h
  rw [lookup_slash t cwd hp]
  cases hr : t.follow maxLinks (p.start cwd) ns with
  | error e' =>
    rw [hr] at h
    cases h
    rfl
  | ok r =>
    rw [hr] at h
    exact congrArg (Except.map Prod.snd) (follow_of_lookupIn_error h)

/-- An entry denotes the same with a slash if it is neither a file nor a link. -/
theorem lookup_slash_of_ok {l : Place} (h : t.lookup cwd { p with slash := false } = .ok l) :
    t.lookup cwd { p with slash := true } = .ok l ∨
      t.lookup cwd { p with slash := true } = .error .notdir ∨
      ∃ ns m n c target, p.names = ns ++ [c] ∧ Normal c ∧
        t.follow maxLinks (p.start cwd) ns = .ok (n, m) ∧ l = m ++ [c] ∧
        t.entry (m ++ [c]) = some (.link target) := by
  rcases p.names.eq_nil_or_concat with hp | ⟨ns, c, hp⟩
  · left
    rw [lookup_of_nil t cwd (p := { p with slash := false }) hp] at h
    rw [lookup_of_nil t cwd (p := { p with slash := true }) hp]
    exact h
  rw [List.concat_eq_append] at hp
  rw [lookup_bare t cwd hp] at h
  rw [lookup_slash t cwd hp]
  cases hr : t.follow maxLinks (p.start cwd) ns with
  | error e' =>
    rw [hr] at h
    cases h
  | ok r =>
    rw [hr] at h
    obtain ⟨n, m⟩ := r
    rcases follow_of_lookupIn_ok (n := n) h with hok | ⟨-, hnotdir⟩ | ⟨hc, rfl, target, hlink⟩
    · exact Or.inl hok
    · exact Or.inr (Or.inl hnotdir)
    · exact Or.inr (Or.inr ⟨ns, m, n, c, target, hp, hc, hr, rfl, hlink⟩)

theorem Gone.lookup {p' : Path} (h : t.Gone cwd p)
    (hp : { p' with slash := false } = { p with slash := false }) :
    t.lookup cwd p' = .error .noent := by
  rw [Gone, ← hp] at h
  cases hs : p'.slash with
  | false =>
    rw [← hs] at h
    exact h
  | true =>
    have := lookup_slash_of_error h
    rw [← hs] at this
    exact this

end Locate

/-! ## What is removed -/

section Remove

variable {t t' : FileTree} {cwd : Place} {s : Str} {p : Path} {ns : List (List Char)}
  {c : List Char} {r : Except Errno Unit}

theorem unlink_concat (t : FileTree) (cwd : Place) (hp : p.names = ns ++ [c]) :
    t.unlink cwd p =
      match t.follow maxLinks (p.start cwd) ns with
      | .error e => (t, .error e)
      | .ok (_, l) =>
        if c = ['.'] then (t, .error .inval)
        else if c = ['.', '.'] then (t, .error .notempty)
        else match t.entry (l ++ [c]) with
          | none => (t, .error .noent)
          | some .dir => (t.prune (.at l c), .ok ())
          | some _ => if p.slash then (t, .error .notdir) else (t.prune (.at l c), .ok ()) := by
  rw [unlink, hp, List.getLast?_concat, List.dropLast_concat]

theorem gone_of_follow (hp : p.names = ns ++ [c])
    (h : t.follow maxLinks (p.start cwd) ns = .error .noent) : t.Gone cwd p := by
  rw [Gone, lookup_bare t cwd hp, h]
  rfl

theorem gone_of_entry {n : ℕ} {l : Place} (hp : p.names = ns ++ [c]) (hc : Normal c)
    (h : t.follow maxLinks (p.start cwd) ns = .ok (n, l)) (hnone : t.entry (l ++ [c]) = none) :
    t.Gone cwd p := by
  rw [Gone, lookup_bare t cwd hp, h]
  exact (lookupIn_normal hc).trans (if_pos hnone)

/-- When an entry has been removed, it is gone. -/
theorem gone_prune {n : ℕ} {l : Place} (hp : p.names = ns ++ [c]) (hc : Normal c)
    (h : t.follow maxLinks (p.start cwd) ns = .ok (n, l)) : (t.prune (.at l c)).Gone cwd p := by
  rcases follow_of_le (t.prune_le (.at l c)) maxLinks (p.start cwd) ns with heq | hnone
  · refine gone_of_entry hp hc (heq.trans h) ?_
    rw [prune_entry]
    exact if_pos (Cut.at_dead.mpr (List.prefix_refl _))
  · exact gone_of_follow hp hnone

/-- **What `remove` does**: it removes the entry that the path denotes, or finds nothing there, or
fails. -/
theorem unlink_cases (t : FileTree) (cwd : Place) (p : Path) :
    (∃ l c, t.lookup cwd p = .ok (l ++ [c]) ∧ t.unlink cwd p = (t.prune (.at l c), .ok ()) ∧
        (t.prune (.at l c)).Gone cwd p) ∨
      t.unlink cwd p = (t, .error .noent) ∧ t.Gone cwd p ∨
      ∃ e, e ≠ .noent ∧ t.unlink cwd p = (t, .error e) := by
  rcases p.names.eq_nil_or_concat with hp | ⟨ns, c, hp⟩
  · right
    right
    rw [unlink, hp]
    exact ⟨.busy, by decide, rfl⟩
  rw [List.concat_eq_append] at hp
  rw [unlink_concat t cwd hp, lookup_concat t cwd hp]
  rcases hr : t.follow maxLinks (p.start cwd) ns with e | ⟨n, l⟩
  · right
    by_cases he : e = .noent
    · subst he
      exact Or.inl ⟨rfl, gone_of_follow hp hr⟩
    · exact Or.inr ⟨e, he, rfl⟩
  rcases name_cases c with rfl | rfl | hc
  · right
    right
    exact ⟨.inval, by decide, if_pos rfl⟩
  · right
    right
    exact ⟨.notempty, by decide, (if_neg (by decide)).trans (if_pos rfl)⟩
  simp only [hc.1, hc.2, if_false]
  cases hentry : t.entry (l ++ [c]) with
  | none => exact Or.inr (Or.inl ⟨rfl, gone_of_entry hp hc hr hentry⟩)
  | some e =>
    have hgone := gone_prune hp hc hr
    cases hs : p.slash with
    | false =>
      have hin : t.lookupIn l c = .ok (l ++ [c]) :=
        (lookupIn_normal hc).trans (if_neg (by simp [hentry]))
      exact Or.inl ⟨l, c, hin, by cases e <;> rfl, hgone⟩
    | true =>
      cases e with
      | file => exact Or.inr (Or.inr ⟨.notdir, by decide, rfl⟩)
      | link target => exact Or.inr (Or.inr ⟨.notdir, by decide, rfl⟩)
      | dir =>
        have hfollow : t.follow n l [c] = .ok (n, l ++ [c]) := by
          rw [follow_dir hc hentry, follow_nil]
        exact Or.inl ⟨l, c, congrArg (Except.map Prod.snd) hfollow, rfl, hgone⟩

/-- The same for `std::filesystem::remove`, which finds nothing wrong with an entry that is not
there. -/
theorem remove_cases (h : t.remove cwd p = (t', r)) :
    (∃ l c, t.lookup cwd p = .ok (l ++ [c]) ∧ t' = t.prune (.at l c) ∧ r = .ok () ∧ t'.Gone cwd p) ∨
      t' = t ∧ (r = .ok () → t.Gone cwd p) := by
  rw [remove] at h
  rcases unlink_cases t cwd p with ⟨l, c, hlookup, hunlink, hgone⟩ | ⟨hunlink, hgone⟩ |
    ⟨e, he, hunlink⟩
  · rw [hunlink] at h
    cases h
    exact Or.inl ⟨l, c, hlookup, rfl, rfl, hgone⟩
  · rw [hunlink] at h
    cases h
    exact Or.inr ⟨rfl, fun _ => hgone⟩
  · rw [hunlink] at h
    have hr : (t, Except.error e) = (t', r) := by
      cases e <;> first | exact absurd rfl he | exact h
    cases hr
    exact Or.inr ⟨rfl, fun h => by cases h⟩

/-- A directory that comes to be removed is empty. -/
theorem entry_below_of_lookup {l m : Place} (hl : t.lookup cwd p = .ok l)
    (hm : (t.prune (.below l)).lookup cwd p = .ok m) {q : Place} (hq : m <+: q) (hne : q ≠ m) :
    (t.prune (.below l)).entry q = none := by
  rcases lookup_of_le (t.prune_le (.below l)) cwd p with heq | hnone
  · rw [heq, hl] at hm
    cases hm
    exact if_pos (Cut.below_dead.mpr ⟨hq, hne⟩)
  · rw [hnone] at hm
    cases hm

/-- What `remove` leaves of a tree that has lost something already: what the path denoted before
may be removed. -/
theorem remove_entry {t₁ : FileTree} (hle : t₁ ≤ t) (h : t₁.remove cwd p = (t', r)) :
    t' ≤ t₁ ∧ (r = .ok () → t'.Gone cwd p) ∧
      ∀ q, (∀ l, t.lookup cwd p = .ok l → ¬ l <+: q) → t'.entry q = t₁.entry q := by
  rcases remove_cases h with ⟨l, c, hlookup, rfl, rfl, hgone⟩ | ⟨rfl, hgone⟩
  · refine ⟨prune_le _ _, fun _ => hgone, fun q hq => ?_⟩
    rcases lookup_of_le hle cwd p with heq | hnone
    · rw [prune_entry]
      exact if_neg (mt Cut.at_dead.mp (hq _ (heq.symm.trans hlookup)))
    · rw [hnone] at hlookup
      cases hlookup
  · exact ⟨le_rfl, hgone, fun q _ => rfl⟩

/-- `remove_all` finds nothing to remove, or calls `remove` with what is left after the place has
been emptied, if it is a directory. -/
theorem removeAll_cases (hp : Path.parse s = some p) (h : t.removeAll cwd s = (t', r)) :
    t' = t ∧ t.lookup cwd p = .error .noent ∨
      ∃ t₁ ≤ t, (∀ q, (∀ l, t.lookup cwd p = .ok l → ¬ l <+: q) → t₁.entry q = t.entry q) ∧
        t₁.remove cwd p = (t', r) := by
  rw [removeAll, hp] at h
  rcases hl : t.lookup cwd p with e | l
  · simp only [hl] at h
    by_cases he : e = .noent
    · subst he
      cases h
      exact Or.inl ⟨rfl, rfl⟩
    · right
      refine ⟨t, le_rfl, fun _ _ => rfl, ?_⟩
      cases e <;> first | exact absurd rfl he | exact h
  · right
    simp only [hl] at h
    by_cases hempty : t.entry l = none ∨ t.entry l = some .dir
    · refine ⟨t.prune (.below l), t.prune_le _, fun q hq => ?_, ?_⟩
      · exact if_neg fun hdead => hq l rfl (Cut.below_dead.mp hdead).1
      · rcases hempty with hentry | hentry
        · rw [hentry] at h
          exact h
        · rw [hentry] at h
          exact h
    · refine ⟨t, le_rfl, fun _ _ => rfl, ?_⟩
      cases hentry : t.entry l with
      | none => exact absurd (Or.inl hentry) hempty
      | some e =>
        rw [hentry] at h
        cases e with
        | file => exact h
        | link target => exact h
        | dir => exact absurd (Or.inr hentry) hempty

/-- **What `remove_all` leaves alone.** -/
theorem removeAll_entry (h : t.removeAll cwd s = (t', r)) :
    t' ≤ t ∧ ∀ q, ¬ t.Names cwd s q → t'.entry q = t.entry q := by
  cases hp : Path.parse s with
  | none =>
    rw [removeAll, hp] at h
    cases h
    exact ⟨le_rfl, fun _ _ => rfl⟩
  | some p =>
    rcases removeAll_cases hp h with ⟨rfl, -⟩ | ⟨t₁, hle, hkeep, hremove⟩
    · exact ⟨le_rfl, fun _ _ => rfl⟩
    obtain ⟨hle', -, hkeep'⟩ := remove_entry hle hremove
    refine ⟨hle'.trans hle, fun q hq => ?_⟩
    have hnot : ∀ l, t.lookup cwd p = .ok l → ¬ l <+: q :=
      fun l hl hpre => hq ⟨l, (locate_of_some hp).trans hl, hpre⟩
    exact (hkeep' q hnot).trans (hkeep q hnot)

/-- When it returns, the path denotes nothing, not even without a slash unless there was nothing
to remove. -/
theorem removeAll_ok (hp : Path.parse s = some p) (h : t.removeAll cwd s = (t', .ok ())) :
    t'.Gone cwd p ∨ t' = t ∧ t.lookup cwd p = .error .noent := by
  rcases removeAll_cases hp h with hnone | ⟨t₁, hle, -, hremove⟩
  · exact Or.inr hnone
  · exact Or.inl ((remove_entry hle hremove).2.1 rfl)

theorem removeAll_locate (h : t.removeAll cwd s = (t', .ok ())) :
    t'.locate cwd s = .error .noent := by
  cases hp : Path.parse s with
  | none => exact locate_of_none hp
  | some p =>
    rw [locate_of_some hp]
    rcases removeAll_ok hp h with hgone | ⟨rfl, hnone⟩
    · exact hgone.lookup rfl
    · exact hnone

/-- Nothing is removed by a path that denotes nothing. -/
theorem removeAll_of_noent (h : t.locate cwd s = .error .noent) :
    t.removeAll cwd s = (t, .ok ()) := by
  rw [removeAll]
  cases hp : Path.parse s with
  | none => rfl
  | some p =>
    rw [locate_of_some hp] at h
    simp only [h]

theorem otherPath_concat (s : Str) : otherPath (s ++ ['/']) = s := by
  rw [otherPath, List.getLast?_concat, if_pos rfl, List.dropLast_concat]

theorem otherPath_of_ne {s : Str} (h : s.getLast? ≠ some '/') : otherPath s = s ++ ['/'] :=
  if_neg h

/-- After `remove_all` the other path denotes nothing, unless the path is empty or a link that leads
nowhere. -/
theorem locate_otherPath (hs : s ≠ []) (hlink : ¬ t.Dangling cwd s)
    (h : t.removeAll cwd s = (t', .ok ())) : t'.locate cwd (otherPath s) = .error .noent := by
  have hsame : Path.parse (otherPath s) = Path.parse s →
      t'.locate cwd (otherPath s) = .error .noent := by
    intro heq
    rw [locate, heq]
    exact removeAll_locate h
  by_cases hlast : s.getLast? = some '/'
  · obtain ⟨s', rfl⟩ := List.getLast?_eq_some_iff.mp hlast
    rw [otherPath_concat] at hsame ⊢
    rcases Path.parse_append_slash s' with rfl | heq | ⟨a, ha, ha'⟩
    · exact locate_of_none Path.parse_nil
    · exact hsame heq.symm
    rw [locate_of_some ha]
    rcases removeAll_ok ha' h with hgone | ⟨rfl, hnone⟩
    · exact hgone.lookup rfl
    · -- without the slash there is nothing either, or it is a link
      cases hslash : a.slash with
      | true => rwa [Path.eq_of_slash hslash] at hnone
      | false =>
        rw [← Path.eq_of_slash hslash]
        rcases hl : t'.lookup cwd { a with slash := false } with e | l
        · rw [lookup_slash_of_error hl] at hnone
          exact hnone
        · rcases lookup_slash_of_ok hl with hok | hnotdir |
            ⟨ns, m, n, c, target, -, -, -, rfl, hlink'⟩
          · rw [hok] at hnone
            cases hnone
          · rw [hnotdir] at hnone
            cases hnone
          · rw [Path.eq_of_slash hslash] at hl
            exact absurd ⟨s', rfl, (locate_of_some ha').trans hnone, m ++ [c], target,
              (locate_of_some ha).trans hl, hlink'⟩ hlink
  · rw [otherPath_of_ne hlast] at hsame ⊢
    rcases Path.parse_append_slash s with hnil | heq | ⟨a, ha, ha'⟩
    · exact absurd hnil hs
    · exact hsame heq
    rw [locate_of_some ha']
    rcases removeAll_ok ha h with hgone | ⟨rfl, hnone⟩
    · exact hgone.lookup rfl
    · cases hslash : a.slash with
      | true => rwa [Path.eq_of_slash hslash]
      | false =>
        rw [← Path.eq_of_slash hslash] at hnone
        exact lookup_slash_of_error hnone

end Remove

/-! ## The function -/

section DelTmpDir

variable {t t' : FileTree} {cwd : Place} {s : Str}

/-- Once `remove_all` has deleted the path, the other call deletes nothing. -/
theorem keepsRest_of_ne (hs : s ≠ []) (hlink : ¬ t.Dangling cwd s) : t.KeepsRest cwd s := by
  intro q hq
  rw [delTmpDir]
  rcases h : t.removeAll cwd s with ⟨t₁, e | ⟨⟩⟩
  · exact (removeAll_entry h).2 q hq
  · simp only [removeAll_of_noent (locate_otherPath hs hlink h)]
    exact (removeAll_entry h).2 q hq

/-- A path that denotes nothing is deleted under its other name. -/
theorem delTmpDir_of_noent (h : t.locate cwd s = .error .noent) :
    t.delTmpDir cwd s = t.removeAll cwd (otherPath s) := by
  rw [delTmpDir, removeAll_of_noent h]

theorem not_names_of_noent (h : t.locate cwd s = .error .noent) (q : Place) :
    ¬ t.Names cwd s q := by
  rintro ⟨l, hl, -⟩
  rw [h] at hl
  cases hl

/-- The empty path deletes everything but the root. -/
theorem delTmpDir_nil (t : FileTree) (cwd : Place) :
    t.delTmpDir cwd [] = (t.prune (.below []), .error .busy) := by
  have hroot : t.lookup cwd ⟨true, [], true⟩ = .ok [] := lookup_of_nil t cwd rfl
  rw [delTmpDir_of_noent (locate_of_none Path.parse_nil)]
  simp only [otherPath, List.getLast?_nil, reduceCtorEq, if_false, List.nil_append, removeAll,
    Path.parse_slash, hroot, t.root]
  rfl

/-- A link that leads nowhere is deleted once the slash is dropped. -/
theorem delTmpDir_entry_of_dangling (h : t.Dangling cwd s) :
    ∃ l target, t.entry l = some (.link target) ∧ (t.delTmpDir cwd s).1.entry l = none := by
  obtain ⟨s', rfl, hnone, l, target, hl, hlink⟩ := h
  rw [delTmpDir_of_noent hnone, otherPath_concat]
  refine ⟨l, target, hlink, ?_⟩
  rcases Path.parse_append_slash s' with rfl | heq | ⟨a, ha, ha'⟩
  · cases hl
  · rw [locate, heq, ← locate, hl] at hnone
    cases hnone
  rw [locate_of_some ha] at hl
  rw [locate_of_some ha'] at hnone
  cases hslash : a.slash with
  | true =>
    rw [Path.eq_of_slash hslash, hl] at hnone
    cases hnone
  | false =>
    have hbare := hl
    rw [← Path.eq_of_slash hslash] at hbare
    rcases lookup_slash_of_ok hbare with hok | hnotdir |
      ⟨ns, m, n, c, target', hp, hc, hr, rfl, hentry⟩
    · rw [hok] at hnone
      cases hnone
    · rw [hnotdir] at hnone
      cases hnone
    · have hunlink : t.unlink cwd a = (t.prune (.at m c), .ok ()) := by
        rw [unlink_concat t cwd hp, hr]
        simp only [hc.1, hc.2, if_false, hentry, hslash, Bool.false_eq_true]
      simp only [removeAll, ha, hl, hentry, remove, hunlink]
      exact if_pos (Cut.at_dead.mpr (List.prefix_refl _))

/-- **When `del_tmp_dir` leaves everything else alone.** -/
theorem keepsRest_iff (t : FileTree) (cwd : Place) (s : Str) :
    t.KeepsRest cwd s ↔ (s = [] → ∀ q ≠ [], t.entry q = none) ∧ ¬ t.Dangling cwd s := by
  constructor
  · intro hkeep
    refine ⟨?_, fun hdangling => ?_⟩
    · rintro rfl q hq
      have hsame := hkeep q (not_names_of_noent (locate_of_none Path.parse_nil) q)
      rw [delTmpDir_nil, prune_entry, if_pos (Cut.below_dead.mpr ⟨q.nil_prefix, hq⟩)] at hsame
      exact hsame.symm
    · obtain ⟨l, target, hlink, hgone⟩ := delTmpDir_entry_of_dangling hdangling
      obtain ⟨s', rfl, hnone, -⟩ := hdangling
      have hsame := hkeep l (not_names_of_noent hnone l)
      rw [hgone, hlink] at hsame
      cases hsame
  · rintro ⟨hnil, hdangling⟩
    rcases eq_or_ne s [] with rfl | hs
    · intro q _
      rw [delTmpDir_nil, prune_entry]
      split
      · rename_i hdead
        exact (hnil rfl q (Cut.below_dead.mp hdead).2).symm
      · rfl
    · exact keepsRest_of_ne hs hdangling

/-- **What `del_tmp_dir` deletes**: once it has returned, neither path denotes anything. -/
theorem delTmpDir_gone (h : t.delTmpDir cwd s = (t', .ok ())) :
    t'.locate cwd s = .error .noent ∧ t'.locate cwd (otherPath s) = .error .noent := by
  rw [delTmpDir] at h
  rcases h₁ : t.removeAll cwd s with ⟨t₁, e | ⟨⟩⟩
  · rw [h₁] at h
    cases h
  · rw [h₁] at h
    exact ⟨locate_of_le (removeAll_entry h).1 (removeAll_locate h₁), removeAll_locate h⟩

/-- A directory below the root. -/
def oneDir : FileTree where
  entry l := if l = [] ∨ l = [['e', 't', 'c']] then some .dir else none
  root := rfl
  parent := by
    intro l c h
    rcases l with _ | ⟨b, l⟩
    · rfl
    · simp at h

/-- The empty string deletes it. -/
theorem not_keepsRest : ¬ oneDir.KeepsRest [] [] := by
  intro h
  have hsame := h [['e', 't', 'c']] (not_names_of_noent rfl _)
  rw [delTmpDir_nil] at hsame
  revert hsame
  decide

end DelTmpDir

end FileTree

end LeonUtils
