import Mathlib.Data.List.Basic
import Mathlib.Data.List.Infix
import Mathlib.Data.List.TakeWhile
import Mathlib.Order.Basic

/-!
# File trees

Files, directories and symbolic links, and what a path denotes among them. A place is the list of
the names that lead to it from the root. A tree has directories above everything that it has, and
its root is always there.

## Paths

A path is taken as POSIX has it: empty names between slashes do not count, a link is followed
wherever it is not the last name of a path, and a path with a slash at its end denotes the directory
to which its last name leads. Without the slash the last name is an entry of a directory, which may
be a link that is not followed. Following more than `maxLinks` links fails.

The functions refuse nothing for want of permission, and no name is too long for them. What else a
system may refuse is up to those who use them.

## Smaller trees

Removing something leaves a tree that has less (`t' ≤ t`). A path then denotes what it denoted, or
nothing any more (`lookup_of_le`).

## Main definitions

* `FileTree` — the trees
* `FileTree.Cut`, `FileTree.prune` — what can be removed
* `Path`, `Path.parse` — paths
* `FileTree.follow`, `FileTree.lookup` — what a path denotes

## Main results

* `FileTree.follow_of_le`, `FileTree.lookup_of_le` — a path in a smaller tree
* `FileTree.lookup_concat` — a path by its last name
* `Path.parse_append_slash` — a path with a slash added
-/

namespace LeonUtils

/-- What is at a place. -/
inductive Entry
  | file
  | dir
  | link (target : List Char)
deriving DecidableEq

/-- The names from the root to a place. -/
abbrev Place : Type := List (List Char)

/-- A file tree. -/
structure FileTree where
  entry : Place → Option Entry
  root : entry [] = some .dir
  parent : ∀ {l : Place} {c : List Char}, entry (l ++ [c]) ≠ none → entry l = some .dir

/-- How a path can fail to denote anything, or an entry to be removed. -/
inductive Errno
  | noent
  | notdir
  | loop
  | inval
  | notempty
  | busy
deriving DecidableEq

namespace FileTree

/-! ## Removing places -/

/-- Places that can be removed together: with each of them what is below, and never the root. -/
structure Cut where
  dead : Place → Bool
  root : dead [] = false
  down : ∀ {l : Place} {c : List Char}, dead l → dead (l ++ [c])

/-- Everything below a place. -/
def Cut.below (l : Place) : Cut where
  dead q := decide (l <+: q ∧ q ≠ l)
  root := by
    simp only [decide_eq_false_iff_not, not_and_not_right, List.prefix_nil]
    exact Eq.symm
  down := by
    intro q c h
    obtain ⟨hle, -⟩ := of_decide_eq_true h
    refine decide_eq_true ⟨hle.trans (List.prefix_append q [c]), fun heq => ?_⟩
    have hlen := hle.length_le
    have := congrArg List.length heq
    rw [List.length_append, List.length_singleton] at this
    omega

/-- The entry `c` of the directory at `l`, and everything below. -/
def Cut.at (l : Place) (c : List Char) : Cut where
  dead q := decide (l ++ [c] <+: q)
  root := by simp
  down h := decide_eq_true ((of_decide_eq_true h).trans (List.prefix_append _ _))

/-- What is left of a tree. -/
def prune (t : FileTree) (k : Cut) : FileTree where
  entry l := if k.dead l then none else t.entry l
  root := by
    rw [k.root]
    exact t.root
  parent := by
    intro l c h
    have hlive : ¬ k.dead (l ++ [c]) := fun hdead => h (if_pos hdead)
    rw [if_neg hlive] at h
    rw [if_neg fun hdead => hlive (k.down hdead)]
    exact t.parent h

theorem prune_entry (t : FileTree) (k : Cut) (l : Place) :
    (t.prune k).entry l = if k.dead l then none else t.entry l := rfl

@[simp]
theorem Cut.below_dead {l q : Place} : (Cut.below l).dead q ↔ l <+: q ∧ q ≠ l := decide_eq_true_iff

@[simp]
theorem Cut.at_dead {l q : Place} {c : List Char} : (Cut.at l c).dead q ↔ l ++ [c] <+: q :=
  decide_eq_true_iff

/-- A tree that has less than another one. -/
instance : Preorder FileTree where
  le t' t := ∀ l, t'.entry l = t.entry l ∨ t'.entry l = none
  le_refl _ _ := Or.inl rfl
  le_trans a b c hab hbc l := by
    rcases hab l with hl | hl
    · rw [hl]
      exact hbc l
    · exact Or.inr hl

theorem prune_le (t : FileTree) (k : Cut) : t.prune k ≤ t := by
  intro l
  rw [prune_entry]
  split
  · exact Or.inr rfl
  · exact Or.inl rfl

end FileTree

/-! ## Paths -/

/-- A path: whether it starts at the root, its names, and whether it ends with a slash. -/
structure Path where
  absolute : Bool
  names : List (List Char)
  slash : Bool
deriving DecidableEq

namespace Path

/-- The path in a string of C: up to the first NUL, if there is anything before it. -/
def parse (s : List Char) : Option Path :=
  let s := s.takeWhile (· ≠ '\x00')
  if s = [] then none
  else some ⟨s.head? = some '/', (s.splitOn '/').filter (· ≠ []), s.getLast? = some '/'⟩

/-- Where the names of a path start from, in a process or a link at `l`. -/
def start (p : Path) (l : Place) : Place := if p.absolute then [] else l

theorem eq_of_slash {p : Path} {b : Bool} (h : p.slash = b) : { p with slash := b } = p := by
  subst h
  rfl

@[simp]
theorem parse_nil : parse [] = none := rfl

@[simp]
theorem parse_slash : parse ['/'] = some ⟨true, [], true⟩ := by decide

/-- A slash at the end changes the end only, behind a NUL nothing, and alone it is the root. -/
theorem parse_append_slash (s : List Char) :
    s = [] ∨ parse (s ++ ['/']) = parse s ∨
      ∃ a, parse s = some a ∧ parse (s ++ ['/']) = some { a with slash := true } := by
  rcases eq_or_ne s [] with hs | hs
  · exact Or.inl hs
  right
  by_cases hnul : (s.takeWhile (· ≠ '\x00')).length = s.length
  · right
    have htake : s.takeWhile (· ≠ '\x00') = s :=
      (List.takeWhile_prefix _).eq_of_length hnul
    have htake' : (s ++ ['/']).takeWhile (· ≠ '\x00') = s ++ ['/'] := by
      rw [List.takeWhile_append, if_pos hnul]
      rfl
    have hsplit : ((s ++ ['/']).splitOn '/').filter (· ≠ []) =
        (s.splitOn '/').filter (· ≠ []) := by
      rw [List.splitOn_append_cons_self, List.filter_append]
      exact List.append_nil _
    have hhead : (s ++ ['/']).head? = s.head? := List.head?_append_of_ne_nil s hs
    refine ⟨_, by rw [parse, htake]; exact if_neg hs, ?_⟩
    rw [parse, htake', hsplit, hhead, List.getLast?_concat]
    exact if_neg (List.append_ne_nil_of_left_ne_nil hs _)
  · -- the string of C ends before the slash
    left
    have htake : (s ++ ['/']).takeWhile (· ≠ '\x00') = s.takeWhile (· ≠ '\x00') := by
      rw [List.takeWhile_append, if_neg hnul]
    rw [parse, htake, parse]

end Path

namespace FileTree

/-- `MAXSYMLINKS`. -/
def maxLinks : ℕ := 40

/-- The directory to which names lead from a place, with the number of links that may still be
followed. -/
def follow (t : FileTree) : ℕ → Place → List (List Char) → Except Errno (ℕ × Place)
  | n, l, [] => .ok (n, l)
  | n, l, c :: cs =>
    if c = ['.'] then t.follow n l cs
    else if c = ['.', '.'] then t.follow n l.dropLast cs
    else match t.entry (l ++ [c]) with
      | none => .error .noent
      | some .file => .error .notdir
      | some .dir => t.follow n (l ++ [c]) cs
      | some (.link target) =>
        match n, Path.parse target with
        | 0, _ => .error .loop
        | _ + 1, none => .error .noent
        | n + 1, some q => t.follow n (q.start l) (q.names ++ cs)
termination_by n _ cs => (n, cs.length)

/-- The entry `c` of the directory at `l`. -/
def lookupIn (t : FileTree) (l : Place) (c : List Char) : Except Errno Place :=
  if c = ['.'] then .ok l
  else if c = ['.', '.'] then .ok l.dropLast
  else if t.entry (l ++ [c]) = none then .error .noent
  else .ok (l ++ [c])

/-- The place that a path denotes, in a process whose working directory is at `cwd`. -/
def lookup (t : FileTree) (cwd : Place) (p : Path) : Except Errno Place :=
  if p.slash then (t.follow maxLinks (p.start cwd) p.names).map Prod.snd
  else match p.names.getLast? with
    | none => .ok (p.start cwd)
    | some c => do
      let (_, l) ← t.follow maxLinks (p.start cwd) p.names.dropLast
      t.lookupIn l c

section Follow

variable {t t' : FileTree} {n : ℕ} {l : Place} {c : List Char} {cs : List (List Char)}

/-- A name that is looked up in a directory. -/
def Normal (c : List Char) : Prop := c ≠ ['.'] ∧ c ≠ ['.', '.']

theorem name_cases (c : List Char) : c = ['.'] ∨ c = ['.', '.'] ∨ Normal c := by
  rw [Normal]
  tauto

theorem follow_nil (t : FileTree) (n : ℕ) (l : Place) : t.follow n l [] = .ok (n, l) := by
  rw [follow]

theorem follow_dot : t.follow n l (['.'] :: cs) = t.follow n l cs := by
  rw [follow.eq_def]
  exact if_pos rfl

theorem follow_dotdot : t.follow n l (['.', '.'] :: cs) = t.follow n l.dropLast cs := by
  rw [follow.eq_def]
  exact (if_neg (by decide)).trans (if_pos rfl)

theorem follow_normal (hc : Normal c) :
    t.follow n l (c :: cs) =
      match t.entry (l ++ [c]) with
      | none => .error .noent
      | some .file => .error .notdir
      | some .dir => t.follow n (l ++ [c]) cs
      | some (.link target) =>
        match n, Path.parse target with
        | 0, _ => .error .loop
        | _ + 1, none => .error .noent
        | n + 1, some q => t.follow n (q.start l) (q.names ++ cs) := by
  rw [follow.eq_def]
  exact (if_neg hc.1).trans (if_neg hc.2)

theorem follow_none (hc : Normal c) (h : t.entry (l ++ [c]) = none) :
    t.follow n l (c :: cs) = .error .noent := by
  rw [follow_normal hc, h]

theorem follow_file (hc : Normal c) (h : t.entry (l ++ [c]) = some .file) :
    t.follow n l (c :: cs) = .error .notdir := by
  rw [follow_normal hc, h]

theorem follow_dir (hc : Normal c) (h : t.entry (l ++ [c]) = some .dir) :
    t.follow n l (c :: cs) = t.follow n (l ++ [c]) cs := by
  rw [follow_normal hc, h]

theorem follow_loop {target : List Char} (hc : Normal c)
    (h : t.entry (l ++ [c]) = some (.link target)) :
    t.follow 0 l (c :: cs) = .error .loop := by
  rw [follow_normal hc, h]

theorem follow_link_none {target : List Char} (hc : Normal c)
    (h : t.entry (l ++ [c]) = some (.link target)) (hq : Path.parse target = none) :
    t.follow (n + 1) l (c :: cs) = .error .noent := by
  simp only [follow_normal hc, h, hq]

theorem follow_link {target : List Char} {q : Path} (hc : Normal c)
    (h : t.entry (l ++ [c]) = some (.link target)) (hq : Path.parse target = some q) :
    t.follow (n + 1) l (c :: cs) = t.follow n (q.start l) (q.names ++ cs) := by
  simp only [follow_normal hc, h, hq]

/-- Induction over the names that are followed. -/
@[elab_as_elim]
theorem follow_induction (t : FileTree) {motive : ℕ → Place → List (List Char) → Prop}
    (nil : ∀ n l, motive n l [])
    (dot : ∀ n l cs, motive n l cs → motive n l (['.'] :: cs))
    (dotdot : ∀ n l cs, motive n l.dropLast cs → motive n l (['.', '.'] :: cs))
    (missing : ∀ n l c cs, Normal c → t.entry (l ++ [c]) = none → motive n l (c :: cs))
    (file : ∀ n l c cs, Normal c → t.entry (l ++ [c]) = some .file → motive n l (c :: cs))
    (dir : ∀ n l c cs, Normal c → t.entry (l ++ [c]) = some .dir → motive n (l ++ [c]) cs →
      motive n l (c :: cs))
    (loop : ∀ l c cs target, Normal c → t.entry (l ++ [c]) = some (.link target) →
      motive 0 l (c :: cs))
    (broken : ∀ n l c cs target, Normal c → t.entry (l ++ [c]) = some (.link target) →
      Path.parse target = none → motive (n + 1) l (c :: cs))
    (link : ∀ n l c cs target q, Normal c → t.entry (l ++ [c]) = some (.link target) →
      Path.parse target = some q → motive n (q.start l) (q.names ++ cs) →
      motive (n + 1) l (c :: cs))
    (n : ℕ) (l : Place) (cs : List (List Char)) : motive n l cs := by
  induction n, l, cs using follow.induct t with
  | case1 n l => exact nil n l
  | case2 n l cs ih => exact dot n l cs ih
  | case3 n l cs _ ih => exact dotdot n l cs ih
  | case4 n l c cs hdot hdotdot h => exact missing n l c cs ⟨hdot, hdotdot⟩ h
  | case5 n l c cs hdot hdotdot h => exact file n l c cs ⟨hdot, hdotdot⟩ h
  | case6 n l c cs hdot hdotdot h ih => exact dir n l c cs ⟨hdot, hdotdot⟩ h ih
  | case7 l c cs hdot hdotdot target h => exact loop l c cs target ⟨hdot, hdotdot⟩ h
  | case8 l c cs hdot hdotdot target h n hq =>
    exact broken n l c cs target ⟨hdot, hdotdot⟩ h hq
  | case9 l c cs hdot hdotdot target h n q hq ih =>
    exact link n l c cs target q ⟨hdot, hdotdot⟩ h hq ih

theorem follow_append (t : FileTree) (n : ℕ) (l : Place) (xs ys : List (List Char)) :
    t.follow n l (xs ++ ys) = t.follow n l xs >>= fun r => t.follow r.1 r.2 ys := by
  induction n, l, xs using t.follow_induction with
  | nil n l =>
    rw [follow_nil]
    rfl
  | dot n l cs ih => rw [List.cons_append, follow_dot, follow_dot, ih]
  | dotdot n l cs ih => rw [List.cons_append, follow_dotdot, follow_dotdot, ih]
  | missing n l c cs hc h =>
    rw [List.cons_append, follow_none hc h, follow_none hc h]
    rfl
  | file n l c cs hc h =>
    rw [List.cons_append, follow_file hc h, follow_file hc h]
    rfl
  | dir n l c cs hc h ih => rw [List.cons_append, follow_dir hc h, follow_dir hc h, ih]
  | loop l c cs target hc h =>
    rw [List.cons_append, follow_loop hc h, follow_loop hc h]
    rfl
  | broken n l c cs target hc h hq =>
    rw [List.cons_append, follow_link_none hc h hq, follow_link_none hc h hq]
    rfl
  | link n l c cs target q hc h hq ih =>
    rw [List.cons_append, follow_link hc h hq, follow_link hc h hq, ← List.append_assoc, ih]

/-- In a smaller tree names lead where they led, or nowhere. -/
theorem follow_of_le (hle : t' ≤ t) (n : ℕ) (l : Place) (cs : List (List Char)) :
    t'.follow n l cs = t.follow n l cs ∨ t'.follow n l cs = .error .noent := by
  induction n, l, cs using t.follow_induction with
  | nil n l =>
    left
    rw [follow_nil, follow_nil]
  | dot n l cs ih =>
    rw [follow_dot, follow_dot]
    exact ih
  | dotdot n l cs ih =>
    rw [follow_dotdot, follow_dotdot]
    exact ih
  | missing n l c cs hc h =>
    have h' : t'.entry (l ++ [c]) = none := (hle _).elim (fun heq => heq.trans h) id
    exact Or.inr (follow_none hc h')
  | file n l c cs hc h =>
    rcases hle (l ++ [c]) with heq | hnone
    · left
      rw [follow_file hc h, follow_file hc (heq.trans h)]
    · exact Or.inr (follow_none hc hnone)
  | dir n l c cs hc h ih =>
    rcases hle (l ++ [c]) with heq | hnone
    · rw [follow_dir hc h, follow_dir hc (heq.trans h)]
      exact ih
    · exact Or.inr (follow_none hc hnone)
  | loop l c cs target hc h =>
    rcases hle (l ++ [c]) with heq | hnone
    · left
      rw [follow_loop hc h, follow_loop hc (heq.trans h)]
    · exact Or.inr (follow_none hc hnone)
  | broken n l c cs target hc h hq =>
    rcases hle (l ++ [c]) with heq | hnone
    · left
      rw [follow_link_none hc h hq, follow_link_none hc (heq.trans h) hq]
    · exact Or.inr (follow_none hc hnone)
  | link n l c cs target q hc h hq ih =>
    rcases hle (l ++ [c]) with heq | hnone
    · rw [follow_link hc h hq, follow_link hc (heq.trans h) hq]
      exact ih
    · exact Or.inr (follow_none hc hnone)

theorem lookupIn_dot (t : FileTree) (l : Place) : t.lookupIn l ['.'] = .ok l := if_pos rfl

theorem lookupIn_dotdot (t : FileTree) (l : Place) : t.lookupIn l ['.', '.'] = .ok l.dropLast :=
  (if_neg (by decide)).trans (if_pos rfl)

theorem lookupIn_normal (hc : Normal c) :
    t.lookupIn l c = if t.entry (l ++ [c]) = none then .error .noent else .ok (l ++ [c]) :=
  (if_neg hc.1).trans (if_neg hc.2)

theorem lookupIn_of_le (hle : t' ≤ t) (l : Place) (c : List Char) :
    t'.lookupIn l c = t.lookupIn l c ∨ t'.lookupIn l c = .error .noent := by
  rcases name_cases c with rfl | rfl | hc
  · left
    rw [lookupIn_dot, lookupIn_dot]
  · left
    rw [lookupIn_dotdot, lookupIn_dotdot]
  · rw [lookupIn_normal hc, lookupIn_normal hc]
    rcases hle (l ++ [c]) with heq | hnone
    · rw [heq]
      exact Or.inl rfl
    · exact Or.inr (if_pos hnone)

/-- The directory to which an entry leads, if the entry is not a link. -/
theorem follow_of_lookupIn_ok {q : Place} (h : t.lookupIn l c = .ok q) :
    (t.follow n l [c]).map Prod.snd = .ok q ∨
      t.entry q = some .file ∧ (t.follow n l [c]).map Prod.snd = .error .notdir ∨
      Normal c ∧ q = l ++ [c] ∧ ∃ target, t.entry q = some (.link target) := by
  rcases name_cases c with rfl | rfl | hc
  · rw [lookupIn_dot] at h
    cases h
    left
    rw [follow_dot, follow_nil]
    rfl
  · rw [lookupIn_dotdot] at h
    cases h
    left
    rw [follow_dotdot, follow_nil]
    rfl
  rw [lookupIn_normal hc] at h
  split at h
  · cases h
  rename_i hsome
  cases h
  obtain ⟨e, he⟩ := Option.ne_none_iff_exists'.mp hsome
  cases e with
  | file =>
    right
    left
    rw [follow_file hc he]
    exact ⟨he, rfl⟩
  | dir =>
    left
    rw [follow_dir hc he, follow_nil]
    rfl
  | link target => exact Or.inr (Or.inr ⟨hc, rfl, target, he⟩)

theorem follow_of_lookupIn_error {e : Errno} (h : t.lookupIn l c = .error e) :
    t.follow n l [c] = .error e := by
  rcases name_cases c with rfl | rfl | hc
  · rw [lookupIn_dot] at h
    cases h
  · rw [lookupIn_dotdot] at h
    cases h
  rw [lookupIn_normal hc] at h
  split at h
  · rename_i hnone
    cases h
    exact follow_none hc hnone
  · cases h

end Follow

/-! ## By the last name -/

section Lookup

variable {t t' : FileTree} {cwd : Place} {p : Path} {ns : List (List Char)} {c : List Char}

theorem lookup_concat (t : FileTree) (cwd : Place) (hp : p.names = ns ++ [c]) :
    t.lookup cwd p = t.follow maxLinks (p.start cwd) ns >>= fun r =>
      if p.slash then (t.follow r.1 r.2 [c]).map Prod.snd else t.lookupIn r.2 c := by
  rw [lookup, hp]
  split
  · rw [follow_append]
    cases t.follow maxLinks (p.start cwd) ns <;> rfl
  · rw [List.getLast?_concat, List.dropLast_concat]

theorem lookup_of_nil (t : FileTree) (cwd : Place) (hp : p.names = []) :
    t.lookup cwd p = .ok (p.start cwd) := by
  rw [lookup, hp, follow_nil]
  split <;> rfl

/-- **In a smaller tree a path denotes what it denoted, or nothing.** -/
theorem lookup_of_le (hle : t' ≤ t) (cwd : Place) (p : Path) :
    t'.lookup cwd p = t.lookup cwd p ∨ t'.lookup cwd p = .error .noent := by
  rcases p.names.eq_nil_or_concat with hp | ⟨ns, c, hp⟩
  · left
    rw [lookup_of_nil t' cwd hp, lookup_of_nil t cwd hp]
  rw [List.concat_eq_append] at hp
  rw [lookup_concat t' cwd hp, lookup_concat t cwd hp]
  rcases follow_of_le hle maxLinks (p.start cwd) ns with heq | hnone
  · rw [heq]
    cases t.follow maxLinks (p.start cwd) ns with
    | error e => exact Or.inl rfl
    | ok r =>
      simp only [bind, Except.bind]
      split
      · rcases follow_of_le hle r.1 r.2 [c] with heq | hnone
        · exact Or.inl (congrArg _ heq)
        · exact Or.inr (congrArg _ hnone)
      · exact lookupIn_of_le hle r.2 c
  · right
    rw [hnone]
    rfl

end Lookup

end FileTree

end LeonUtils
