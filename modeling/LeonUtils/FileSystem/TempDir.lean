import LeonUtils.FileSystem
import LeonUtils.FileTree.Scratch

/-!
# Making a temporary directory

`new_tmp_dir` copies a path that ends with six X into 256 bytes, and `mkdtemp` puts letters in their
place until there is no such directory yet. A path that is too long is cut: `mkdtemp` then finds no
six X at the end and fails, unless the cut has laid bare another six.

Either way the paths of the new directories are one stem and six letters, and the stem does not
depend on the file tree. What is behind its last slash begins their names.

`std::filesystem::temp_directory_path` and `mkdtemp` are taken as the libraries of GNU implement
them. The names that `mkdtemp` tries are a parameter.

## Main definitions

* `copyStr` — `copy_str`
* `FileTree.mkdtemp`, `FileTree.newTmpDir` — the library's function, and the code
* `Stem` — the paths of the new directories

## Main results

* `FileTree.newTmpDir_cases`, `FileTree.newTmpDir_of_free` — what `new_tmp_dir` does, and when it
  returns
* `FileTree.removeAll_dir`, `FileTree.delTmpDir_dir` — what `del_tmp_dir` does to a directory
-/

namespace LeonUtils

/-! ## The libraries -/

/-- The string of C in a buffer. -/
def cString (s : Str) : Str := s.takeWhile (· ≠ '\x00')

/-- `copy_str`: the bytes at `dest` afterwards, if none behind them has been touched. -/
def copyStr (src dest : Str) (size : ℤ) : Option Str :=
  let srcLen : ℤ := src.length
  let size := if size < 0 then srcLen + 1 else size
  let toCp := min srcLen (size - 1)
  -- `memcpy` takes a negative length for a large one
  if toCp < 0 ∨ (dest.length : ℤ) ≤ toCp then none
  else some (src.take toCp.toNat ++ '\x00' :: dest.drop (toCp.toNat + 1))

/-- With the size of the buffer, a string of C is copied as far as there is room for it. -/
theorem cString_copyStr {src dest : Str} (h0 : '\x00' ∉ src) (hdest : dest ≠ []) :
    (copyStr src dest dest.length).map cString = some (src.take (dest.length - 1)) := by
  have hpos := List.length_pos_iff.mpr hdest
  have hn : (min (src.length : ℤ) (dest.length - 1)).toNat = min src.length (dest.length - 1) := by
    omega
  have htake : ∀ c ∈ src.take (dest.length - 1), decide (c ≠ '\x00') = true := by
    intro c hc
    exact decide_eq_true fun heq => h0 (heq ▸ List.mem_of_mem_take hc)
  rw [copyStr, if_neg (by omega), if_neg (by omega), hn, min_comm, ← List.take_eq_take_min,
    Option.map_some, cString, List.takeWhile_append_of_pos htake,
    List.takeWhile_cons_of_neg (by decide), List.append_nil]

/-- `char buffer[256]`. -/
abbrev Buffer : Type := {b : Str // b.length = 256}

theorem cString_copyStr_buffer {src : Str} (h0 : '\x00' ∉ src) (buffer : Buffer) :
    (copyStr src buffer.1 buffer.1.length).map cString = some (src.take 255) := by
  have hne : buffer.1 ≠ [] := by
    intro h
    have hlen := buffer.2
    rw [h] at hlen
    cases hlen
  rw [cString_copyStr h0 hne, buffer.2]

/-- `operator/` of two paths, the second of which is relative. -/
def joinPath (p q : Str) : Str :=
  if p = [] ∨ p.getLast? = some '/' then p ++ q else p ++ '/' :: q

/-- Six letters and digits, in place of the six X. -/
structure Letters where
  chars : Str
  length : chars.length = 6
  alnum : ∀ c ∈ chars, c.isAlphanum

namespace FileTree

/-- The path that the environment has for temporary files. -/
def tmpFromEnv (getenv : String → Option Str) : Str :=
  ((["TMPDIR", "TMP", "TEMP", "TEMPDIR"].findSome? getenv).map cString).getD ['/', 't', 'm', 'p']

/-- `std::filesystem::temp_directory_path`: that path, if it leads to a directory. -/
def tempDirectoryPath (t : FileTree) (cwd : Place) (getenv : String → Option Str) :
    Except Errno Str :=
  let p := tmpFromEnv getenv
  match Path.parse p with
  | none => .error .noent
  | some q =>
    match t.follow maxLinks (q.start cwd) q.names with
    | .error e => .error e
    | .ok _ => .ok p

/-- How making a directory can fail. -/
inductive MkErr
  | exist
  | errno (e : Errno)
deriving DecidableEq

/-- `mkdir` of C. -/
def mkdir (t : FileTree) (cwd : Place) (s : Str) : Except MkErr FileTree :=
  match Path.parse s with
  | none => .error (.errno .noent)
  | some p =>
    match p.names.getLast? with
    | none => .error .exist
    | some c =>
      match t.follow maxLinks (p.start cwd) p.names.dropLast with
      | .error e => .error (.errno e)
      | .ok (_, l) =>
        if c = ['.'] ∨ c = ['.', '.'] ∨ t.entry (l ++ [c]) ≠ none then .error .exist
        else if h : t.entry l = some .dir then .ok (t.plant l c h)
        else .error (.errno .noent)

/-- The names that `mkdtemp` tries, until one of them is new. What is in the buffer is the last
one. -/
def tryNames (t : FileTree) (cwd : Place) (stem : Str) :
    Str → List Letters → Str × Except MkErr FileTree
  | buf, [] => (buf, .error .exist)
  | _, x :: xs =>
    match t.mkdir cwd (stem ++ x.chars) with
    | .error .exist => tryNames t cwd stem (stem ++ x.chars) xs
    | r => (stem ++ x.chars, r)

/-- `mkdtemp`: what is in the buffer afterwards, and the tree. -/
def mkdtemp (t : FileTree) (cwd : Place) (template : Str) (tries : List Letters) :
    Str × Except MkErr FileTree :=
  let n := template.length - 6
  if template.drop n ≠ List.replicate 6 'X' then (template, .error (.errno .inval))
  else t.tryNames cwd (template.take n) template tries

/-! ## The code -/

/-- What `new_tmp_dir` throws. -/
inductive Thrown
  | filesystem (e : Errno)
  | runtime (what : Str)

/-- `new_tmp_dir`. -/
def newTmpDir (t : FileTree) (cwd : Place) (getenv : String → Option Str) (buffer : Buffer)
    (tries : List Letters) : Option (Except Thrown (FileTree × Str)) :=
  match t.tempDirectoryPath cwd getenv with
  | .error e => some (.error (.filesystem e))
  | .ok tmp =>
    match copyStr (joinPath tmp "CTP.XXXXXX".toList) buffer.1 buffer.1.length with
    | none => none
    | some buffer =>
      match t.mkdtemp cwd (cString buffer) tries with
      | (buffer, .ok t) => some (.ok (t, buffer))
      | (buffer, .error _) =>
        some (.error (.runtime ("临时目录:\"".toList ++ buffer ++ "\"创建失败!".toList)))

end FileTree

/-! ## The names -/

/-- The path of a string without NUL. -/
theorem Path.parse_of_noNul {s : Str} (h0 : '\x00' ∉ s) (hs : s ≠ []) :
    Path.parse s =
      some ⟨s.head? = some '/', (s.splitOn '/').filter (· ≠ []), s.getLast? = some '/'⟩ := by
  have htake : s.takeWhile (· ≠ '\x00') = s :=
    List.takeWhile_eq_self_iff.mpr fun c hc => decide_eq_true fun heq => h0 (heq ▸ hc)
  rw [Path.parse, htake]
  exact if_neg hs

/-- A string up to its last slash, and what is behind it. -/
theorem exists_last_slash (s : Str) :
    ∃ dir name, s = dir ++ name ∧ '/' ∉ name ∧ (dir = [] ∨ dir.getLast? = some '/') := by
  induction s using List.reverseRecOn with
  | nil => exact ⟨[], [], rfl, List.not_mem_nil, Or.inl rfl⟩
  | append_singleton s c ih =>
    obtain ⟨dir, name, rfl, hname, hdir⟩ := ih
    rcases eq_or_ne c '/' with rfl | hc
    · exact ⟨dir ++ name ++ ['/'], [], (List.append_nil _).symm, List.not_mem_nil,
        Or.inr List.getLast?_concat⟩
    · refine ⟨dir, name ++ [c], List.append_assoc .., fun hmem => ?_, hdir⟩
      rcases List.mem_append.mp hmem with hmem | hmem
      · exact hname hmem
      · exact hc (List.mem_singleton.mp hmem).symm

/-- What the paths of the new directories have in common: a path that ends with a slash, and how
the names begin. -/
structure Stem where
  dir : Str
  name : Str
  noNul : '\x00' ∉ dir ++ name
  noSlash : '/' ∉ name
  ends : dir = [] ∨ dir.getLast? = some '/'

namespace Stem

variable {p : Stem} {x y : Letters} {c : Char}

/-- The name of a new directory. -/
def base (p : Stem) (x : Letters) : List Char := p.name ++ x.chars

/-- The path of a new directory. -/
def path (p : Stem) (x : Letters) : Str := p.dir ++ p.base x

/-- The names that lead to the new directories. -/
def names (p : Stem) : List (List Char) := (p.dir.splitOn '/').filter (· ≠ [])

/-- Where they start from. -/
def start (p : Stem) (cwd : Place) : Place := if p.dir.head? = some '/' then [] else cwd

/-- Any string without NUL is a stem. -/
theorem exists_eq {s : Str} (h0 : '\x00' ∉ s) : ∃ p : Stem, s = p.dir ++ p.name := by
  obtain ⟨dir, name, rfl, hname, hdir⟩ := exists_last_slash s
  exact ⟨⟨dir, name, h0, hname, hdir⟩, rfl⟩

theorem path_eq (p : Stem) (x : Letters) : p.path x = p.dir ++ p.name ++ x.chars :=
  (List.append_assoc ..).symm

theorem path_inj : p.path x = p.path y ↔ p.base x = p.base y := List.append_right_inj _

theorem ne_of_mem_chars (hc : c ∈ x.chars) : c ≠ '/' ∧ c ≠ '\x00' ∧ c ≠ '.' := by
  have halnum := x.alnum c hc
  refine ⟨?_, ?_, ?_⟩ <;> rintro rfl <;> exact absurd halnum (by decide)

theorem chars_ne_nil (x : Letters) : x.chars ≠ [] := by
  intro h
  have hlen := x.length
  rw [h] at hlen
  cases hlen

theorem base_ne_nil (p : Stem) (x : Letters) : p.base x ≠ [] :=
  List.append_ne_nil_of_right_ne_nil _ (chars_ne_nil x)

theorem slash_notMem_base (p : Stem) (x : Letters) : '/' ∉ p.base x := by
  intro hmem
  rcases List.mem_append.mp hmem with hmem | hmem
  · exact p.noSlash hmem
  · exact (ne_of_mem_chars hmem).1 rfl

theorem nul_notMem_path (p : Stem) (x : Letters) : '\x00' ∉ p.path x := by
  intro hmem
  rw [path_eq] at hmem
  rcases List.mem_append.mp hmem with hmem | hmem
  · exact p.noNul hmem
  · exact (ne_of_mem_chars hmem).2.1 rfl

theorem normal_base (p : Stem) (x : Letters) : FileTree.Normal (p.base x) := by
  have hlen : 6 ≤ (p.base x).length := by
    rw [base, List.length_append, x.length]
    omega
  constructor <;> intro heq <;> rw [heq] at hlen <;> exact absurd hlen (by decide)

/-- The names of a path of which the last one has no slash in it. -/
theorem filter_splitOn (p : Stem) (x : Letters) :
    ((p.path x).splitOn '/').filter (· ≠ []) = p.names ++ [p.base x] := by
  have hbase : (p.base x).splitOn '/' = [p.base x] :=
    List.splitOn_eq_singleton (p.slash_notMem_base x)
  have hfilter : [p.base x].filter (· ≠ []) = [p.base x] := by
    simp [p.base_ne_nil x]
  rcases p.ends with hdir | hdir
  · rw [path, names, hdir, List.nil_append, hbase, hfilter]
    rfl
  · obtain ⟨dir, hdir⟩ := List.getLast?_eq_some_iff.mp hdir
    rw [path, names, hdir, List.append_assoc, List.singleton_append,
      List.splitOn_append_cons_self, List.splitOn_append_cons_self, hbase, List.filter_append,
      List.filter_append, hfilter]
    simp

theorem head?_path (p : Stem) (x : Letters) :
    (p.path x).head? = some '/' ↔ p.dir.head? = some '/' := by
  rcases eq_or_ne p.dir [] with hdir | hdir
  · rw [path, hdir, List.nil_append]
    refine ⟨fun h => absurd (List.mem_of_head? h) (p.slash_notMem_base x), fun h => by cases h⟩
  · rw [path, List.head?_append_of_ne_nil _ hdir]

theorem head?_dir (p : Stem) (h : (p.dir ++ p.name).head? = some '/') :
    p.dir.head? = some '/' := by
  rcases eq_or_ne p.dir [] with hdir | hdir
  · rw [hdir, List.nil_append] at h
    exact absurd (List.mem_of_head? h) p.noSlash
  · rwa [List.head?_append_of_ne_nil _ hdir] at h

/-- **The paths of a new directory**, without a slash at its end and with one. -/
theorem parse_path (p : Stem) (x : Letters) :
    Path.parse (p.path x) = some ⟨p.dir.head? = some '/', p.names ++ [p.base x], false⟩ := by
  have hlast : (p.path x).getLast? ≠ some '/' := by
    rw [path, List.getLast?_append_of_ne_nil _ (p.base_ne_nil x)]
    exact fun h => p.slash_notMem_base x (List.mem_of_getLast? h)
  rw [Path.parse_of_noNul (p.nul_notMem_path x)
    (List.append_ne_nil_of_right_ne_nil _ (p.base_ne_nil x)), filter_splitOn, decide_eq_false hlast,
    decide_eq_decide.mpr (p.head?_path x)]

theorem parse_path_slash (p : Stem) (x : Letters) :
    Path.parse (p.path x ++ ['/']) =
      some ⟨p.dir.head? = some '/', p.names ++ [p.base x], true⟩ := by
  have hne : p.path x ≠ [] := List.append_ne_nil_of_right_ne_nil _ (p.base_ne_nil x)
  have h0 : '\x00' ∉ p.path x ++ ['/'] := by
    intro hmem
    rcases List.mem_append.mp hmem with hmem | hmem
    · exact p.nul_notMem_path x hmem
    · exact absurd (List.mem_singleton.mp hmem) (by decide)
  have hfilter : ((p.path x ++ ['/']).splitOn '/').filter (· ≠ []) = p.names ++ [p.base x] := by
    rw [List.splitOn_append_cons_self, List.filter_append, filter_splitOn]
    exact List.append_nil _
  rw [Path.parse_of_noNul h0 (List.append_ne_nil_of_left_ne_nil hne _), hfilter,
    List.head?_append_of_ne_nil _ hne, List.getLast?_concat, decide_eq_true rfl,
    decide_eq_decide.mpr (p.head?_path x)]

theorem start_eq (p : Stem) (x : Letters) (b : Bool) (cwd : Place) :
    Path.start ⟨p.dir.head? = some '/', p.names ++ [p.base x], b⟩ cwd = p.start cwd := by
  simp only [Path.start, start, decide_eq_true_eq]

end Stem

namespace FileTree

/-! ## What the calls do -/

section Make

variable {t t' : FileTree} {cwd : Place} {p : Stem} {x : Letters} {getenv : String → Option Str}
  {buffer : Buffer} {tries : List Letters} {s buf : Str}

/-- When `mkdir` makes a directory, its path led to a directory that had no such entry. -/
theorem mkdir_path_ok (h : t.mkdir cwd (p.path x) = .ok t') :
    ∃ n l, ∃ hl : t.entry l = some .dir, t.follow maxLinks (p.start cwd) p.names = .ok (n, l) ∧
      t.entry (l ++ [p.base x]) = none ∧ t' = t.plant l (p.base x) hl := by
  simp only [mkdir, p.parse_path x, List.getLast?_concat, List.dropLast_concat, p.start_eq x] at h
  split at h
  · cases h
  rename_i n l hfollow
  split at h
  · cases h
  rename_i hnew
  split at h
  · rename_i hl
    cases h
    exact ⟨n, l, hl, hfollow, not_not.mp fun hne => hnew (Or.inr (Or.inr hne)), rfl⟩
  · cases h

/-- In a directory to which its path leads, `mkdir` makes what is not there. -/
theorem mkdir_path {n : ℕ} {l : Place}
    (hfollow : t.follow maxLinks (p.start cwd) p.names = .ok (n, l)) (hl : t.entry l = some .dir)
    (x : Letters) : t.mkdir cwd (p.path x) =
      if t.entry (l ++ [p.base x]) = none then .ok (t.plant l (p.base x) hl)
      else .error .exist := by
  obtain ⟨hdot, hdotdot⟩ := p.normal_base x
  simp only [mkdir, p.parse_path x, List.getLast?_concat, List.dropLast_concat, p.start_eq x,
    hfollow, hdot, hdotdot, false_or]
  by_cases hnone : t.entry (l ++ [p.base x]) = none
  · rw [if_neg (not_not.mpr hnone), if_pos hnone, dif_pos hl]
  · rw [if_pos hnone, if_neg hnone]

/-- So that `mkdtemp` finds a name, unless all are taken. -/
theorem tryNames_of_free {n : ℕ} {l : Place}
    (hfollow : t.follow maxLinks (p.start cwd) p.names = .ok (n, l)) (hl : t.entry l = some .dir)
    (hfree : ∃ x ∈ tries, t.entry (l ++ [p.base x]) = none) :
    ∃ s t', t.tryNames cwd (p.dir ++ p.name) buf tries = (s, .ok t') := by
  induction tries generalizing buf with
  | nil =>
    obtain ⟨x, hx, -⟩ := hfree
    cases hx
  | cons x xs ih =>
    by_cases hnone : t.entry (l ++ [p.base x]) = none
    · rw [tryNames, ← p.path_eq, mkdir_path hfollow hl, if_pos hnone]
      exact ⟨_, _, rfl⟩
    · rw [tryNames, ← p.path_eq, mkdir_path hfollow hl, if_neg hnone]
      obtain ⟨y, hy, hy'⟩ := hfree
      refine ih ⟨y, (List.mem_cons.mp hy).resolve_left ?_, hy'⟩
      rintro rfl
      exact hnone hy'

theorem tryNames_ok {stem : Str} (h : t.tryNames cwd stem buf tries = (s, .ok t')) :
    ∃ x ∈ tries, s = stem ++ x.chars ∧ t.mkdir cwd s = .ok t' := by
  induction tries generalizing buf with
  | nil => cases h
  | cons x xs ih =>
    rw [tryNames] at h
    split at h
    · obtain ⟨y, hy, hs⟩ := ih h
      exact ⟨y, List.mem_cons_of_mem _ hy, hs⟩
    · obtain ⟨rfl, hmk⟩ := Prod.mk.inj h
      exact ⟨x, List.mem_cons_self, rfl, hmk⟩

/-- Nothing is cut. -/
def Fits (getenv : String → Option Str) : Prop :=
  (joinPath (tmpFromEnv getenv) "CTP.XXXXXX".toList).length < 256

/-- The path that is copied, without the six X. -/
def stemOf (getenv : String → Option Str) : Str :=
  let template := (joinPath (tmpFromEnv getenv) "CTP.XXXXXX".toList).take 255
  template.take (template.length - 6)

theorem nul_notMem_tmpFromEnv (getenv : String → Option Str) : '\x00' ∉ tmpFromEnv getenv := by
  rw [tmpFromEnv]
  cases ["TMPDIR", "TMP", "TEMP", "TEMPDIR"].findSome? getenv with
  | none => decide
  | some s =>
    intro hmem
    have hmem : '\x00' ∈ s.takeWhile (· ≠ '\x00') := hmem
    have hne := List.mem_takeWhile_imp hmem
    simp at hne

theorem joinPath_eq (tmp q : Str) : joinPath tmp q = joinPath tmp [] ++ q := by
  rw [joinPath, joinPath]
  split <;> simp

theorem joinPath_nil_eq_nil {tmp : Str} : joinPath tmp [] = [] ↔ tmp = [] := by
  rw [joinPath]
  split
  · rw [List.append_nil]
  · rename_i h
    exact ⟨fun hnil => by simp at hnil, fun hnil => absurd (Or.inl hnil) h⟩

theorem nul_notMem_joinPath {tmp q : Str} (htmp : '\x00' ∉ tmp) (hq : '\x00' ∉ q) :
    '\x00' ∉ joinPath tmp q := by
  rw [joinPath]
  split <;> simp [htmp, hq]

/-- **What `new_tmp_dir` does**: it never writes behind the buffer, and when it returns, then
`mkdir` has made a directory of which the path is the stem and six letters. -/
theorem newTmpDir_cases (t : FileTree) (cwd : Place) (getenv : String → Option Str)
    (buffer : Buffer) (tries : List Letters) :
    (∃ e, t.newTmpDir cwd getenv buffer tries = some (.error e)) ∨
      ∃ t', ∃ x ∈ tries,
        t.newTmpDir cwd getenv buffer tries = some (.ok (t', stemOf getenv ++ x.chars)) ∧
        t.mkdir cwd (stemOf getenv ++ x.chars) = .ok t' := by
  rw [newTmpDir]
  cases htmp : t.tempDirectoryPath cwd getenv with
  | error e => exact Or.inl ⟨_, rfl⟩
  | ok tmp =>
    have heq : tmp = tmpFromEnv getenv := by
      simp only [tempDirectoryPath] at htmp
      split at htmp
      · cases htmp
      · split at htmp
        · cases htmp
        · cases htmp
          rfl
    have h0 : '\x00' ∉ joinPath tmp "CTP.XXXXXX".toList := by
      rw [heq]
      exact nul_notMem_joinPath (nul_notMem_tmpFromEnv getenv) (by decide)
    obtain ⟨copied, hcopied, hcstr⟩ := Option.map_eq_some_iff.mp (cString_copyStr_buffer h0 buffer)
    simp only [hcopied, hcstr, mkdtemp]
    split
    · rename_i name t' hmk
      split at hmk
      · cases hmk
      obtain ⟨x, hx, rfl, hmkdir⟩ := tryNames_ok hmk
      rw [heq] at hmkdir ⊢
      exact Or.inr ⟨t', x, hx, rfl, hmkdir⟩
    · exact Or.inl ⟨_, rfl⟩

/-- And it makes one, if the path fits and leads to a directory and a name is left. -/
theorem newTmpDir_of_free {n : ℕ} {l : Place} (hne : tmpFromEnv getenv ≠ [])
    (hfits : Fits getenv)
    (hdir : p.dir = joinPath (tmpFromEnv getenv) []) (hname : p.name = "CTP.".toList)
    (hfollow : t.follow maxLinks (p.start cwd) p.names = .ok (n, l)) (hl : t.entry l = some .dir)
    (hfree : ∃ x ∈ tries, t.entry (l ++ [p.base x]) = none) (buffer : Buffer) :
    ∃ t' path, t.newTmpDir cwd getenv buffer tries = some (.ok (t', path)) := by
  have h0 := nul_notMem_tmpFromEnv getenv
  have htmp : t.tempDirectoryPath cwd getenv = .ok (tmpFromEnv getenv) := by
    have hnames : ((tmpFromEnv getenv).splitOn '/').filter (· ≠ []) = p.names := by
      rw [Stem.names, hdir, joinPath]
      split
      · rw [List.append_nil]
      · rw [List.splitOn_append_cons_self, List.filter_append]
        exact (List.append_nil _).symm
    have hhead : (tmpFromEnv getenv).head? = p.dir.head? := by
      rw [hdir, joinPath]
      split <;> rw [List.head?_append_of_ne_nil _ hne]
    have hstart : ∀ ns b, Path.start ⟨(tmpFromEnv getenv).head? = some '/', ns, b⟩ cwd =
        p.start cwd := by
      intro ns b
      simp only [Path.start, Stem.start, decide_eq_true_eq, hhead]
    simp only [tempDirectoryPath, Path.parse_of_noNul h0 hne, hstart, hnames, hfollow]
  have htemplate : joinPath (tmpFromEnv getenv) "CTP.XXXXXX".toList =
      p.dir ++ p.name ++ List.replicate 6 'X' := by
    rw [joinPath_eq, hdir, hname, List.append_assoc]
    rfl
  have hnul : '\x00' ∉ joinPath (tmpFromEnv getenv) "CTP.XXXXXX".toList :=
    nul_notMem_joinPath h0 (by decide)
  obtain ⟨copied, hcopied, hcstr⟩ := Option.map_eq_some_iff.mp (cString_copyStr_buffer hnul buffer)
  rw [List.take_of_length_le (Nat.le_of_lt_succ hfits), htemplate] at hcstr
  have hlen : (p.dir ++ p.name ++ List.replicate 6 'X').length - 6 = (p.dir ++ p.name).length := by
    rw [List.length_append, List.length_replicate, Nat.add_sub_cancel]
  obtain ⟨s, t', htry⟩ := @tryNames_of_free t cwd p tries (p.dir ++ p.name ++ List.replicate 6 'X')
    n l hfollow hl hfree
  refine ⟨t', s, ?_⟩
  simp only [newTmpDir, htmp, hcopied, hcstr, mkdtemp, hlen, List.drop_left, List.take_left, ne_eq,
    not_true_eq_false, if_false, htry]

end Make

section Delete

variable {t : FileTree} {cwd : Place} {s : Str} {p : Path} {ns : List (List Char)} {c : List Char}
  {l : Place} {n : ℕ}

/-- The place of a directory, with a slash or without one. -/
theorem lookup_dir (hp : p.names = ns ++ [c]) (hc : Normal c)
    (hfollow : t.follow maxLinks (p.start cwd) ns = .ok (n, l))
    (hdir : t.entry (l ++ [c]) = some .dir) : t.lookup cwd p = .ok (l ++ [c]) := by
  rw [lookup_concat t cwd hp, hfollow]
  change (if p.slash then (t.follow n l [c]).map Prod.snd else t.lookupIn l c) = _
  split
  · rw [follow_dir hc hdir, follow_nil]
    rfl
  · rw [lookupIn_normal hc, if_neg (by rw [hdir]; exact Option.some_ne_none _)]

/-- `remove_all` removes a directory, and then neither path denotes anything. -/
theorem removeAll_dir (hs : Path.parse s = some p) (hp : p.names = ns ++ [c]) (hc : Normal c)
    (hdir : t.entry (l ++ [c]) = some .dir)
    (hfollow : t.follow maxLinks (p.start cwd) ns = .ok (n, l))
    (hfollow' : (t.prune (.below (l ++ [c]))).follow maxLinks (p.start cwd) ns = .ok (n, l)) :
    t.removeAll cwd s = (t.uproot l c, .ok ()) ∧
      (t.uproot l c).locate cwd (otherPath s) = .error .noent := by
  have hlookup := lookup_dir hp hc hfollow hdir
  have hdir' : (t.prune (.below (l ++ [c]))).entry (l ++ [c]) = some .dir := by
    rw [prune_entry, if_neg fun hdead => (Cut.below_dead.mp hdead).2 rfl, hdir]
  have hunlink : (t.prune (.below (l ++ [c]))).unlink cwd p = (t.uproot l c, .ok ()) := by
    rw [unlink_concat _ cwd hp, hfollow']
    simp only [hc.1, hc.2, if_false, hdir']
    rfl
  have hremove : t.removeAll cwd s = (t.uproot l c, .ok ()) := by
    simp only [removeAll, hs, hlookup, hdir, remove, hunlink]
  have hne : s ≠ [] := by
    rintro rfl
    cases hs
  have hlink : ¬ t.Dangling cwd s := by
    rintro ⟨-, -, hnone, -⟩
    rw [locate_of_some hs, hlookup] at hnone
    cases hnone
  exact ⟨hremove, locate_otherPath hne hlink hremove⟩

/-- **What `del_tmp_dir` does to a directory.** -/
theorem delTmpDir_dir (hs : Path.parse s = some p) (hp : p.names = ns ++ [c]) (hc : Normal c)
    (hdir : t.entry (l ++ [c]) = some .dir)
    (hfollow : t.follow maxLinks (p.start cwd) ns = .ok (n, l))
    (hfollow' : (t.prune (.below (l ++ [c]))).follow maxLinks (p.start cwd) ns = .ok (n, l)) :
    t.delTmpDir cwd s = (t.uproot l c, .ok ()) := by
  obtain ⟨hremove, hother⟩ := removeAll_dir hs hp hc hdir hfollow hfollow'
  rw [delTmpDir, hremove]
  exact removeAll_of_noent hother

end Delete

/-- Where the directories are made. -/
theorem locate_stem {t : FileTree} {cwd : Place} {p : Stem} (hdir : p.dir ≠ []) :
    t.locate cwd p.dir = (t.follow maxLinks (p.start cwd) p.names).map Prod.snd := by
  have hnul : '\x00' ∉ p.dir := fun hmem => p.noNul (List.mem_append_left _ hmem)
  have hstart : Path.start ⟨p.dir.head? = some '/', p.names, true⟩ cwd = p.start cwd := by
    simp only [Path.start, Stem.start, decide_eq_true_eq]
  have hparse : Path.parse p.dir = some ⟨p.dir.head? = some '/', p.names, true⟩ := by
    rw [Path.parse_of_noNul hnul hdir, decide_eq_true (p.ends.resolve_left hdir)]
    rfl
  rw [locate_of_some hparse, lookup, if_pos rfl, hstart]

/-- The stem of all the directories. It is absolute if the path is, and if nothing is cut then it is
what the code says. -/
theorem exists_stem (getenv : String → Option Str) :
    ∃ p : Stem, stemOf getenv = p.dir ++ p.name ∧
      ((tmpFromEnv getenv).head? = some '/' → p.dir.head? = some '/') ∧
      (Fits getenv → p.dir = joinPath (tmpFromEnv getenv) [] ∧ p.name = "CTP.".toList) := by
  have h0 := nul_notMem_tmpFromEnv getenv
  have hhead : (tmpFromEnv getenv).head? = some '/' → (stemOf getenv).head? = some '/' := by
    intro hhead
    have hne : tmpFromEnv getenv ≠ [] := by
      intro h
      rw [h] at hhead
      cases hhead
    have hlen : 10 ≤ (joinPath (tmpFromEnv getenv) "CTP.XXXXXX".toList).length := by
      rw [joinPath_eq, List.length_append]
      exact Nat.le_add_left ..
    rw [stemOf, List.head?_take, if_neg (by rw [List.length_take]; omega), List.head?_take,
      if_neg (by decide), joinPath]
    split <;> rw [List.head?_append_of_ne_nil _ hne, hhead]
  by_cases hfits : Fits getenv
  · have hstem : stemOf getenv = joinPath (tmpFromEnv getenv) [] ++ "CTP.".toList := by
      have hten : "CTP.XXXXXX".toList.length = 10 := by decide
      rw [stemOf, List.take_of_length_le (Nat.le_of_lt_succ hfits), joinPath_eq,
        List.length_append, hten, Nat.add_sub_assoc (by decide), List.take_length_add_append]
      rfl
    have hends : joinPath (tmpFromEnv getenv) [] = [] ∨
        (joinPath (tmpFromEnv getenv) []).getLast? = some '/' := by
      rw [joinPath]
      split
      · rename_i h
        rw [List.append_nil]
        exact h
      · exact Or.inr List.getLast?_concat
    have hnul : '\x00' ∉ joinPath (tmpFromEnv getenv) [] ++ "CTP.".toList := by
      rw [← joinPath_eq]
      exact nul_notMem_joinPath h0 (by decide)
    let p : Stem := ⟨joinPath (tmpFromEnv getenv) [], "CTP.".toList, hnul, by decide, hends⟩
    exact ⟨p, hstem, fun h => p.head?_dir (hstem ▸ hhead h), fun _ => ⟨rfl, rfl⟩⟩
  · have hnul : '\x00' ∉ stemOf getenv := by
      intro hmem
      exact nul_notMem_joinPath h0 (by decide) (List.mem_of_mem_take (List.mem_of_mem_take hmem))
    obtain ⟨p, hp⟩ := Stem.exists_eq hnul
    exact ⟨p, hp, fun h => p.head?_dir (hp ▸ hhead h), fun h => absurd h hfits⟩

end FileTree

end LeonUtils
