import LeonUtils.FileSystem.TempDir
import LeonUtils.Transition

/-!
# Temporary directories, from the first to the last

Programs that make any number of temporary directories, one after the other or several at a time, do
anything at all inside, and delete them in any order, each by its path or by its path with a slash
added. Whatever they do, the file tree is the one from before except for the directories that are
still there.

The system may refuse any call, at any time: for want of permission, which a program may have taken
from itself, or because there are not enough descriptors for directories so deep. Then nothing is
made; and what was to be deleted has lost some of what is inside, unless it was gone already when
`del_tmp_dir` came to the other path.

The stem of their paths leads to the same place each time, since nothing that leads there is ever
changed. A program with a relative path in its environment has to stay in its working directory.

## Main definitions

* `FileTree.RefusedRemoveAll` — what is left when a deletion is refused
* `TempDir.Next`, `TempDir.system` — the programs
* `TempDir.Inv` — the invariant

## Main results

* `TempDir.Inv.step`, `TempDir.Inv.run` — what one step does, and what a whole run preserves
* `TempDir.leaves_nothing` — the whole program
-/

namespace LeonUtils

/-- What `remove_all` may leave of a tree when one of its calls is refused: the directory itself
would have been the last to go. -/
def FileTree.RefusedRemoveAll (t : FileTree) (cwd : Place) (path : Str) (t' : FileTree) : Prop :=
  t' ≤ t ∧ ∀ q, (∀ l, t.locate cwd path = .ok l → ¬ (l <+: q ∧ q ≠ l)) → t'.entry q = t.entry q

namespace TempDir

open FileTree Transition

/-- A program with temporary directories: the file tree, its working directory, and the paths that
it has been given and has not deleted. -/
structure Work where
  tree : FileTree
  cwd : Place
  dirs : List Str

/-- What it does next, and what the calls return. -/
inductive Call
  | make (r : Except Thrown Str)
  | delete (path : Str) (r : Except Errno Unit)
  /-- The system refuses `new_tmp_dir` or `del_tmp_dir` something, and it throws. -/
  | refused
  | edit
  | chdir

/-- One step. Anything may be done inside of the directories. -/
inductive Next (getenv : String → Option Str) : Work → Call → Work → Prop
  | made {s : Work} {buffer : Buffer} {tries : List Letters} {t : FileTree} {path : Str} :
      s.tree.newTmpDir s.cwd getenv buffer tries = some (.ok (t, path)) →
      Next getenv s (.make (.ok path)) { s with tree := t, dirs := path :: s.dirs }
  | threw {s : Work} {buffer : Buffer} {tries : List Letters} {e : Thrown} :
      s.tree.newTmpDir s.cwd getenv buffer tries = some (.error e) →
      Next getenv s (.make (.error e)) s
  | deleted {s : Work} {path arg : Str} {t : FileTree} : path ∈ s.dirs →
      arg = path ∨ arg = path ++ ['/'] → s.tree.delTmpDir s.cwd arg = (t, .ok ()) →
      Next getenv s (.delete path (.ok ())) { s with tree := t, dirs := s.dirs.erase path }
  | undeleted {s : Work} {path arg : Str} {t : FileTree} {e : Errno} : path ∈ s.dirs →
      arg = path ∨ arg = path ++ ['/'] → s.tree.delTmpDir s.cwd arg = (t, .error e) →
      Next getenv s (.delete path (.error e)) { s with tree := t }
  | refusedMake {s : Work} : Next getenv s .refused s
  | refusedDelete {s : Work} {path arg : Str} {t : FileTree} : path ∈ s.dirs →
      arg = path ∨ arg = path ++ ['/'] → s.tree.RefusedRemoveAll s.cwd arg t →
      Next getenv s .refused { s with tree := t }
  -- the first `remove_all` has been granted everything, and the second is refused something
  | refusedOther {s : Work} {path arg : Str} {t₁ t : FileTree} : path ∈ s.dirs →
      arg = path ∨ arg = path ++ ['/'] → s.tree.removeAll s.cwd arg = (t₁, .ok ()) →
      t₁.RefusedRemoveAll s.cwd (otherPath arg) t →
      Next getenv s .refused { s with tree := t, dirs := s.dirs.erase path }
  | edit {s : Work} {t : FileTree} :
      (∀ q, (∀ path ∈ s.dirs, ∀ d, s.tree.locate s.cwd path = .ok d → ¬ (d <+: q ∧ q ≠ d)) →
        t.entry q = s.tree.entry q) →
      Next getenv s .edit { s with tree := t }
  | chdir {s : Work} {cwd : Place} : (tmpFromEnv getenv).head? = some '/' →
      Next getenv s .chdir { s with cwd }

/-- Programs that start with no temporary directories. -/
def system (getenv : String → Option Str) (t₀ : FileTree) (cwd₀ : Place) : System Work Call where
  init s := s = ⟨t₀, cwd₀, []⟩
  next := Next getenv

/-- The places of the directories. -/
def places (p : Stem) (l : Place) (dirs : List Str) : Set Place :=
  {d | ∃ x, p.path x ∈ dirs ∧ d = l ++ [p.base x]}

/-- The invariant: the directories are all at one place, to which the stem led at first. -/
structure Inv (p : Stem) (t₀ : FileTree) (cwd₀ l : Place) (s : Work) : Prop where
  stem : ∀ path ∈ s.dirs, ∃ x, path = p.path x
  nodup : s.dirs.Nodup
  leads : s.dirs ≠ [] → ∃ n, t₀.follow maxLinks (p.start cwd₀) p.names = .ok (n, l)
  scratch : Scratch t₀ (places p l s.dirs) s.tree
  start : p.start s.cwd = p.start cwd₀

namespace Inv

variable {getenv : String → Option Str} {p : Stem} {t₀ t : FileTree} {cwd₀ l m : Place}
  {s s' : Work} {x : Letters} {n : ℕ}

theorem mem_places (hx : p.path x ∈ s.dirs) : l ++ [p.base x] ∈ places p l s.dirs := ⟨x, hx, rfl⟩

theorem live (h : Inv p t₀ cwd₀ l s) (hx : p.path x ∈ s.dirs) :
    s.tree.entry (l ++ [p.base x]) = some .dir :=
  h.scratch.live _ (mem_places hx)

/-- The stem leads where it led. -/
theorem follow_eq (h : Inv p t₀ cwd₀ l s) (hle : t₀ ≤ t)
    (hn : t₀.follow maxLinks (p.start cwd₀) p.names = .ok (n, m)) :
    t.follow maxLinks (p.start s.cwd) p.names = .ok (n, m) := by
  rw [h.start]
  rcases follow_of_le hle maxLinks (p.start cwd₀) p.names with heq | hnone
  · rw [← heq, hn]
  · rw [hn] at hnone
    cases hnone

/-- The place of a directory, by its path and by the path with a slash. -/
theorem locate (h : Inv p t₀ cwd₀ l s) (hx : p.path x ∈ s.dirs) {arg : Str}
    (harg : arg = p.path x ∨ arg = p.path x ++ ['/']) :
    s.tree.locate s.cwd arg = .ok (l ++ [p.base x]) := by
  obtain ⟨n, hn⟩ := h.leads (List.ne_nil_of_mem hx)
  have hfollow := h.follow_eq h.scratch.le hn
  rcases harg with rfl | rfl
  · rw [locate_of_some (p.parse_path x)]
    refine lookup_dir (n := n) rfl (p.normal_base x) ?_ (h.live hx)
    rw [p.start_eq, hfollow]
  · rw [locate_of_some (p.parse_path_slash x)]
    refine lookup_dir (n := n) rfl (p.normal_base x) ?_ (h.live hx)
    rw [p.start_eq, hfollow]

theorem init (p : Stem) (t₀ : FileTree) (cwd₀ l : Place) : Inv p t₀ cwd₀ l ⟨t₀, cwd₀, []⟩ where
  stem _ h := by cases h
  nodup := List.nodup_nil
  leads h := absurd rfl h
  scratch := by
    have hnil : places p l [] = ∅ := by
      ext d
      simp [places]
    rw [hnil]
    exact .refl t₀
  start := rfl

/-- A new directory is where the others are. -/
theorem made (h : Inv p t₀ cwd₀ l s) (hmk : s.tree.mkdir s.cwd (p.path x) = .ok t) :
    ∃ l', Inv p t₀ cwd₀ l' { s with tree := t, dirs := p.path x :: s.dirs } := by
  obtain ⟨n, l', hl', hfollow, hnone, rfl⟩ := mkdir_path_ok hmk
  have hsame : places p l s.dirs = places p l' s.dirs ∧
      t₀.follow maxLinks (p.start cwd₀) p.names = .ok (n, l') := by
    by_cases hdirs : s.dirs = []
    · have hnil : ∀ l, places p l s.dirs = ∅ := by
        intro l
        ext d
        simp [places, hdirs]
      have hscratch := h.scratch
      rw [hnil] at hscratch
      rw [hscratch.eq, h.start] at hfollow
      exact ⟨(hnil l).trans (hnil l').symm, hfollow⟩
    · obtain ⟨m, hm⟩ := h.leads hdirs
      have heq := h.follow_eq h.scratch.le hm
      rw [hfollow] at heq
      cases heq
      exact ⟨rfl, hm⟩
  obtain ⟨hplaces, hleads⟩ := hsame
  have hscratch := h.scratch
  rw [hplaces] at hscratch
  have hnew : ∀ y, p.path y ∈ s.dirs → p.base y ≠ p.base x := by
    intro y hy heq
    have hlive := hscratch.live _ (mem_places hy)
    rw [heq, hnone] at hlive
    cases hlive
  have hinsert : places p l' (p.path x :: s.dirs) =
      insert (l' ++ [p.base x]) (places p l' s.dirs) := by
    ext d
    constructor
    · rintro ⟨y, hy, rfl⟩
      rcases List.mem_cons.mp hy with hy | hy
      · rw [Stem.path_inj.mp hy]
        exact Or.inl rfl
      · exact Or.inr (mem_places hy)
    · rintro (rfl | ⟨y, hy, rfl⟩)
      · exact ⟨x, List.mem_cons_self, rfl⟩
      · exact ⟨y, List.mem_cons_of_mem _ hy, rfl⟩
  refine ⟨l', ?_, ?_, fun _ => ⟨n, hleads⟩, ?_, h.start⟩
  · intro path hpath
    rcases List.mem_cons.mp hpath with rfl | hpath
    · exact ⟨x, rfl⟩
    · exact h.stem path hpath
  · exact List.nodup_cons.mpr ⟨fun hx => hnew x hx rfl, h.nodup⟩
  · rw [hinsert]
    refine hscratch.plant hl' hnone ?_
    rintro - ⟨y, hy, rfl⟩ hpre
    have heq := hpre.eq_of_length (by simp)
    exact hnew y hy (List.singleton_inj.mp (List.append_cancel_left heq))

/-- A directory that is deleted, by its path or by the path with a slash. -/
theorem deleted (h : Inv p t₀ cwd₀ l s) (hx : p.path x ∈ s.dirs) {arg : Str}
    (harg : arg = p.path x ∨ arg = p.path x ++ ['/']) :
    (s.tree.removeAll s.cwd arg = (s.tree.uproot l (p.base x), .ok ()) ∧
      (s.tree.uproot l (p.base x)).locate s.cwd (otherPath arg) = .error .noent) ∧
      Inv p t₀ cwd₀ l
        { s with tree := s.tree.uproot l (p.base x), dirs := s.dirs.erase (p.path x) } := by
  obtain ⟨n, hn⟩ := h.leads (List.ne_nil_of_mem hx)
  have hle : t₀ ≤ s.tree.prune (.below (l ++ [p.base x])) := by
    intro q
    by_cases hq : l ++ [p.base x] <+: q
    · exact Or.inr (entry_below_none (h.scratch.fresh _ (mem_places hx)) hq)
    · rw [prune_entry, if_neg fun hdead => hq (Cut.below_dead.mp hdead).1]
      exact h.scratch.le q
  have hfollow := h.follow_eq h.scratch.le hn
  have hfollow' := h.follow_eq hle hn
  constructor
  · rcases harg with rfl | rfl
    · refine removeAll_dir (n := n) (p.parse_path x) rfl (p.normal_base x) (h.live hx) ?_ ?_
      · rw [p.start_eq, hfollow]
      · rw [p.start_eq, hfollow']
    · refine removeAll_dir (n := n) (p.parse_path_slash x) rfl (p.normal_base x) (h.live hx) ?_ ?_
      · rw [p.start_eq, hfollow]
      · rw [p.start_eq, hfollow']
  · have herase : places p l (s.dirs.erase (p.path x)) =
        places p l s.dirs \ {l ++ [p.base x]} := by
      ext d
      constructor
      · rintro ⟨y, hy, rfl⟩
        obtain ⟨hne, hy⟩ := h.nodup.mem_erase_iff.mp hy
        refine ⟨mem_places hy, fun heq => hne (Stem.path_inj.mpr ?_)⟩
        exact List.singleton_inj.mp (List.append_cancel_left heq)
      · rintro ⟨⟨y, hy, rfl⟩, hne⟩
        refine ⟨y, h.nodup.mem_erase_iff.mpr ⟨fun heq => hne ?_, hy⟩, rfl⟩
        rw [Stem.path_inj.mp heq]
        exact Set.mem_singleton _
    refine ⟨fun path hpath => h.stem path (List.mem_of_mem_erase hpath), h.nodup.erase _,
      fun _ => ⟨n, hn⟩, ?_, h.start⟩
    rw [herase]
    exact h.scratch.uproot (mem_places hx)

/-- `del_tmp_dir` does not fail where nothing is refused. -/
theorem delTmpDir_eq (h : Inv p t₀ cwd₀ l s) (hx : p.path x ∈ s.dirs) {arg : Str}
    (harg : arg = p.path x ∨ arg = p.path x ++ ['/']) :
    s.tree.delTmpDir s.cwd arg = (s.tree.uproot l (p.base x), .ok ()) := by
  obtain ⟨⟨hremove, hother⟩, -⟩ := h.deleted hx harg
  rw [delTmpDir, hremove]
  exact removeAll_of_noent hother

/-- What is done inside of the directories is of no matter. -/
theorem edit (h : Inv p t₀ cwd₀ l s)
    (ht : ∀ q, (∀ d ∈ places p l s.dirs, ¬ (d <+: q ∧ q ≠ d)) → t.entry q = s.tree.entry q) :
    Inv p t₀ cwd₀ l { s with tree := t } :=
  ⟨h.stem, h.nodup, h.leads, h.scratch.edit ht, h.start⟩

/-- A deletion that is refused leaves the directory, or else it is gone already. -/
theorem refusedDelete (h : Inv p t₀ cwd₀ l s) (hx : p.path x ∈ s.dirs) {arg : Str}
    (harg : arg = p.path x ∨ arg = p.path x ++ ['/'])
    (hrefused : s.tree.RefusedRemoveAll s.cwd arg t) : Inv p t₀ cwd₀ l { s with tree := t } := by
  refine h.edit fun q hq => hrefused.2 q fun d hd => ?_
  rw [h.locate hx harg] at hd
  cases hd
  exact hq _ (mem_places hx)

theorem refusedOther (h : Inv p t₀ cwd₀ l s) (hx : p.path x ∈ s.dirs) {arg : Str}
    (harg : arg = p.path x ∨ arg = p.path x ++ ['/']) {t₁ : FileTree}
    (hremove : s.tree.removeAll s.cwd arg = (t₁, .ok ()))
    (hrefused : t₁.RefusedRemoveAll s.cwd (otherPath arg) t) :
    Inv p t₀ cwd₀ l { s with tree := t, dirs := s.dirs.erase (p.path x) } := by
  obtain ⟨⟨hremove', hother⟩, hinv⟩ := h.deleted hx harg
  rw [hremove'] at hremove
  cases hremove
  have ht : t = s.tree.uproot l (p.base x) := FileTree.ext fun q => hrefused.2 q fun d hd => by
    rw [hother] at hd
    cases hd
  rw [ht]
  exact hinv

/-- **The invariant rule**: what one step does. -/
theorem step (hstem : stemOf getenv = p.dir ++ p.name)
    (habs : (tmpFromEnv getenv).head? = some '/' → p.dir.head? = some '/')
    (h : Inv p t₀ cwd₀ l s) {c : Call} (hnext : Next getenv s c s') :
    (∃ l', Inv p t₀ cwd₀ l' s') ∧ ∀ path e, c ≠ .delete path (.error e) := by
  cases hnext with
  | @made buffer tries t path hnew =>
    refine ⟨?_, fun _ _ hc => by cases hc⟩
    rcases newTmpDir_cases s.tree s.cwd getenv buffer tries with ⟨e, herror⟩ | ⟨t', x, -, hok, hmk⟩
    · rw [herror] at hnew
      cases hnew
    · rw [hok] at hnew
      cases hnew
      rw [hstem, ← p.path_eq] at hmk ⊢
      exact h.made hmk
  | threw _ => exact ⟨⟨l, h⟩, fun _ _ hc => by cases hc⟩
  | deleted hmem harg hdel =>
    refine ⟨?_, fun _ _ hc => by cases hc⟩
    obtain ⟨x, rfl⟩ := h.stem _ hmem
    rw [h.delTmpDir_eq hmem harg] at hdel
    cases hdel
    exact ⟨l, (h.deleted hmem harg).2⟩
  | undeleted hmem harg hdel =>
    obtain ⟨x, rfl⟩ := h.stem _ hmem
    rw [h.delTmpDir_eq hmem harg] at hdel
    cases hdel
  | refusedMake => exact ⟨⟨l, h⟩, fun _ _ hc => by cases hc⟩
  | refusedDelete hmem harg hrefused =>
    obtain ⟨x, rfl⟩ := h.stem _ hmem
    exact ⟨⟨l, h.refusedDelete hmem harg hrefused⟩, fun _ _ hc => by cases hc⟩
  | refusedOther hmem harg hremove hrefused =>
    obtain ⟨x, rfl⟩ := h.stem _ hmem
    exact ⟨⟨l, h.refusedOther hmem harg hremove hrefused⟩, fun _ _ hc => by cases hc⟩
  | edit hsame =>
    refine ⟨⟨l, h.edit fun q hq => hsame q ?_⟩, fun _ _ hc => by cases hc⟩
    intro path hpath d hd
    obtain ⟨x, rfl⟩ := h.stem path hpath
    rw [h.locate hpath (Or.inl rfl)] at hd
    cases hd
    exact hq _ (mem_places hpath)
  | chdir hhead =>
    refine ⟨⟨l, h.stem, h.nodup, h.leads, h.scratch, ?_⟩, fun _ _ hc => by cases hc⟩
    simp only [Stem.start, habs hhead, if_true]

/-- Where the directories are. -/
theorem locate_dir (h : Inv p t₀ cwd₀ l s) (hx : p.path x ∈ s.dirs) (hdir : p.dir ≠ []) :
    t₀.locate cwd₀ p.dir = .ok l := by
  obtain ⟨n, hn⟩ := h.leads (List.ne_nil_of_mem hx)
  rw [locate_stem hdir, hn]
  rfl

/-- What is left of a name that fits makes a new directory. -/
theorem can_make (h : Inv p t₀ cwd₀ l s) (hlen : Fits getenv)
    (hdir : p.dir = joinPath (tmpFromEnv getenv) []) (hname : p.name = "CTP.".toList)
    (hlocate : t₀.locate cwd₀ (joinPath (tmpFromEnv getenv) []) = .ok m)
    (hm : t₀.entry m = some .dir) {tries : List Letters}
    (hfree : ∃ x ∈ tries, s.tree.entry (m ++ ["CTP.".toList ++ x.chars]) = none)
    (buffer : Buffer) :
    ∃ t path, s.tree.newTmpDir s.cwd getenv buffer tries = some (.ok (t, path)) := by
  have hne : p.dir ≠ [] := by
    intro hnil
    rw [← hdir, hnil, locate_of_none Path.parse_nil] at hlocate
    cases hlocate
  rw [← hdir, locate_stem hne] at hlocate
  rcases hn : t₀.follow maxLinks (p.start cwd₀) p.names with e | ⟨n, m'⟩
  · rw [hn] at hlocate
    cases hlocate
  rw [hn] at hlocate
  cases hlocate
  have hlive : s.tree.entry m' = some .dir := by
    rcases h.scratch.le m' with heq | hnone
    · rw [← heq, hm]
    · rw [hm] at hnone
      cases hnone
  obtain ⟨x, hx, hnone⟩ := hfree
  have hfree' : s.tree.entry (m' ++ [p.base x]) = none := by
    rw [Stem.base, hname]
    exact hnone
  have htmp : tmpFromEnv getenv ≠ [] := fun htmp => hne (hdir.trans (joinPath_nil_eq_nil.mpr htmp))
  exact newTmpDir_of_free htmp hlen hdir hname (h.follow_eq h.scratch.le hn) hlive
    ⟨x, hx, hfree'⟩ buffer

theorem names_iff (h : Inv p t₀ cwd₀ l s) (hx : p.path x ∈ s.dirs) {q : Place} :
    s.tree.Names s.cwd (p.path x) q ↔ l ++ [p.base x] <+: q := by
  have hlocate := h.locate hx (Or.inl rfl)
  constructor
  · rintro ⟨d, hd, hpre⟩
    rw [hlocate] at hd
    cases hd
    exact hpre
  · exact fun hpre => ⟨_, hlocate, hpre⟩

/-- The directories are disjoint. -/
theorem disjoint (h : Inv p t₀ cwd₀ l s) : s.dirs.Pairwise fun path path' => ∀ q,
    ¬ (s.tree.Names s.cwd path q ∧ s.tree.Names s.cwd path' q) := by
  refine List.Pairwise.imp_of_mem ?_ h.nodup
  rintro path path' hpath hpath' hne q ⟨hq, hq'⟩
  obtain ⟨x, rfl⟩ := h.stem path hpath
  obtain ⟨y, rfl⟩ := h.stem path' hpath'
  rw [h.names_iff hpath] at hq
  rw [h.names_iff hpath'] at hq'
  have heq := (List.prefix_of_prefix_length_le hq hq' (by simp)).eq_of_length (by simp)
  exact hne (Stem.path_inj.mpr (List.singleton_inj.mp (List.append_cancel_left heq)))

/-- Nothing else has changed. -/
theorem rest (h : Inv p t₀ cwd₀ l s) {q : Place}
    (hq : ∀ path ∈ s.dirs, ¬ s.tree.Names s.cwd path q) : s.tree.entry q = t₀.entry q := by
  refine h.scratch.rest q ?_
  rintro - ⟨x, hx, rfl⟩ hpre
  exact hq _ hx ((h.names_iff hx).mpr hpre)

end Inv

/-- Without a path in the environment no directory is made. -/
theorem Next.dirs_nil {getenv : String → Option Str} (htmp : tmpFromEnv getenv = []) {s s' : Work}
    {c : Call} (h : Next getenv s c s') (hs : s.dirs = []) : s'.dirs = [] := by
  cases h with
  | made hnew =>
    rw [newTmpDir, tempDirectoryPath, htmp] at hnew
    cases hnew
  | threw _ => exact hs
  | deleted _ _ _ =>
    rw [hs]
    rfl
  | undeleted _ _ _ => exact hs
  | refusedMake => exact hs
  | refusedDelete _ _ _ => exact hs
  | refusedOther _ _ _ _ =>
    rw [hs]
    rfl
  | edit _ => exact hs
  | chdir _ => exact hs

/-- What a whole run preserves. -/
theorem Inv.run {getenv : String → Option Str} {p : Stem} (hstem : stemOf getenv = p.dir ++ p.name)
    (habs : (tmpFromEnv getenv).head? = some '/' → p.dir.head? = some '/') {t₀ : FileTree}
    {cwd₀ : Place} {π : List (Call × Work)} {s : Work} (h : (system getenv t₀ cwd₀).Run π s) :
    (∃ l, Inv p t₀ cwd₀ l s) ∧ (tmpFromEnv getenv = [] → s.dirs = []) ∧
      ∀ path e, .delete path (.error e) ∉ System.events π := by
  refine System.Run.induction (P := fun π s => (∃ l, Inv p t₀ cwd₀ l s) ∧
    (tmpFromEnv getenv = [] → s.dirs = []) ∧
    ∀ path e, .delete path (.error e) ∉ System.events π) ?_ ?_ h
  · rintro s rfl
    exact ⟨⟨[], .init p t₀ cwd₀ []⟩, fun _ => rfl, fun _ _ => List.not_mem_nil⟩
  · rintro π s c s' - ⟨⟨l, hinv⟩, hnil, hnone⟩ hnext
    obtain ⟨hinv', hne⟩ := hinv.step hstem habs hnext
    refine ⟨hinv', fun htmp => hnext.dirs_nil htmp (hnil htmp), fun path e hmem => ?_⟩
    rw [System.events_append, System.events_singleton, List.mem_append,
      List.mem_singleton] at hmem
    exact hmem.elim (hnone path e) fun heq => hne path e heq.symm

/-- **Temporary directories leave nothing behind.** In every run of every program, whatever the
system refuses, the directories that are there now are disjoint, at places where there was nothing;
each is found by its path and by the path with a slash. If the path of a new directory fits, then
they are in the directory for temporary files, with names of the form `CTP.XXXXXX`. Nothing else in
the tree has changed, no deletion has failed that was not refused something, and when all of them
are deleted the tree is the one from before. `new_tmp_dir` never writes behind its buffer, and if
the path fits, then it makes a directory as long as a name is left and nothing is refused. -/
theorem leaves_nothing (getenv : String → Option Str) (t₀ : FileTree) (cwd₀ : Place)
    {π : List (Call × Work)} {s : Work} (h : (system getenv t₀ cwd₀).Run π s) :
    (∀ path ∈ s.dirs, ∃ l c, s.tree.locate s.cwd path = .ok (l ++ [c]) ∧
      s.tree.locate s.cwd (path ++ ['/']) = .ok (l ++ [c]) ∧ t₀.entry (l ++ [c]) = none ∧
      s.tree.entry (l ++ [c]) = some .dir ∧
      (Fits getenv → t₀.locate cwd₀ (joinPath (tmpFromEnv getenv) []) = .ok l ∧
        ∃ x : Letters, c = "CTP.".toList ++ x.chars ∧ path = joinPath (tmpFromEnv getenv) c)) ∧
    s.dirs.Pairwise (fun path path' => ∀ q,
      ¬ (s.tree.Names s.cwd path q ∧ s.tree.Names s.cwd path' q)) ∧
    (∀ q, (∀ path ∈ s.dirs, ¬ s.tree.Names s.cwd path q) → s.tree.entry q = t₀.entry q) ∧
    (∀ path e, .delete path (.error e) ∉ System.events π) ∧
    (s.dirs = [] → s.tree = t₀) ∧
    (∀ buffer tries, (s.tree.newTmpDir s.cwd getenv buffer tries).isSome) ∧
    (Fits getenv → ∀ l, t₀.locate cwd₀ (joinPath (tmpFromEnv getenv) []) = .ok l →
      t₀.entry l = some .dir → ∀ buffer tries,
        (∃ x ∈ tries, s.tree.entry (l ++ ["CTP.".toList ++ x.chars]) = none) →
        ∃ t path, s.tree.newTmpDir s.cwd getenv buffer tries = some (.ok (t, path))) := by
  obtain ⟨p, hstem, habs, hfits⟩ := exists_stem getenv
  obtain ⟨⟨l, hinv⟩, hnil, hnone⟩ := Inv.run hstem habs h
  refine ⟨fun path hpath => ?_, hinv.disjoint, fun q => hinv.rest, hnone, fun hdirs => ?_,
    fun buffer tries => ?_, fun hlen l' hlocate hl' buffer tries hfree => ?_⟩
  · obtain ⟨x, rfl⟩ := hinv.stem path hpath
    refine ⟨l, p.base x, hinv.locate hpath (Or.inl rfl), hinv.locate hpath (Or.inr rfl),
      hinv.scratch.fresh _ (Inv.mem_places hpath), hinv.live hpath, fun hlen => ?_⟩
    obtain ⟨hdir, hname⟩ := hfits hlen
    have hne : p.dir ≠ [] := by
      rw [hdir]
      exact mt joinPath_nil_eq_nil.mp fun htmp => List.ne_nil_of_mem hpath (hnil htmp)
    refine ⟨hdir ▸ hinv.locate_dir hpath hne, x, by rw [Stem.base, hname], ?_⟩
    rw [joinPath_eq, ← hdir]
    rfl
  · refine FileTree.ext fun q => hinv.rest fun path hpath => ?_
    rw [hdirs] at hpath
    cases hpath
  · rcases newTmpDir_cases s.tree s.cwd getenv buffer tries with ⟨e, h⟩ | ⟨t', x, -, h, -⟩
    · rw [h]
      rfl
    · rw [h]
      rfl
  · obtain ⟨hdir, hname⟩ := hfits hlen
    exact hinv.can_make hlen hdir hname hlocate hl' hfree buffer

/-- A tree with a directory for temporary files. -/
def tmpOnly : FileTree where
  entry l := if l = [] ∨ l = [['t', 'm', 'p']] then some .dir else none
  root := rfl
  parent := by
    intro l c h
    rcases l with _ | ⟨b, l⟩
    · rfl
    · simp at h

/-- The tree with one of them. -/
def tmpOnce : FileTree := tmpOnly.plant [['t', 'm', 'p']] "CTP.aaaaaa".toList rfl

theorem follow_tmp {t : FileTree} (h : t.entry [['t', 'm', 'p']] = some .dir) :
    t.follow maxLinks [] [['t', 'm', 'p']] = .ok (maxLinks, [['t', 'm', 'p']]) := by
  rw [follow_dir (by rw [FileTree.Normal]; decide) h, follow_nil]
  rfl

theorem parse_tmpOnce : Path.parse "/tmp/CTP.aaaaaa".toList =
    some ⟨true, [['t', 'm', 'p'], "CTP.aaaaaa".toList], false⟩ := by
  decide

/-- The letters that it is made with. -/
def sixAs : Letters where
  chars := List.replicate 6 'a'
  length := rfl
  alnum := by
    intro c hc
    rw [List.eq_of_mem_replicate hc]
    rfl

theorem newTmpDir_tmpOnly (buffer : Buffer) : tmpOnly.newTmpDir [] (fun _ => none) buffer
    [sixAs] = some (.ok (tmpOnce, "/tmp/CTP.aaaaaa".toList)) := by
  have htmp : tmpOnly.tempDirectoryPath [] (fun _ => none) = .ok ['/', 't', 'm', 'p'] := by
    have hparse : Path.parse (tmpFromEnv fun _ => none) =
        some ⟨true, [['t', 'm', 'p']], false⟩ := by
      decide
    simp only [tempDirectoryPath, hparse, Path.start, if_true, follow_tmp (t := tmpOnly) rfl]
    rfl
  have hjoin : joinPath ['/', 't', 'm', 'p'] "CTP.XXXXXX".toList = "/tmp/CTP.XXXXXX".toList := by
    decide
  obtain ⟨copied, hcopied, hcstr⟩ := Option.map_eq_some_iff.mp
    (@cString_copyStr_buffer "/tmp/CTP.XXXXXX".toList (by decide) buffer)
  have htake : "/tmp/CTP.XXXXXX".toList.take 255 = "/tmp/CTP.XXXXXX".toList :=
    List.take_of_length_le (by decide)
  have hmkdir : tmpOnly.mkdir [] "/tmp/CTP.aaaaaa".toList = .ok tmpOnce := by
    simp only [mkdir, parse_tmpOnce, List.getLast?_cons_cons, List.getLast?_singleton, Path.start,
      if_true, List.dropLast, follow_tmp (t := tmpOnly) rfl]
    rfl
  have hmkdtemp : tmpOnly.mkdtemp [] "/tmp/CTP.XXXXXX".toList
      [sixAs] = ("/tmp/CTP.aaaaaa".toList, .ok tmpOnce) := by
    have hlast : "/tmp/CTP.XXXXXX".toList.drop ("/tmp/CTP.XXXXXX".toList.length - 6) =
        List.replicate 6 'X' := by
      decide
    have hname : "/tmp/CTP.XXXXXX".toList.take ("/tmp/CTP.XXXXXX".toList.length - 6) ++
        List.replicate 6 'a' = "/tmp/CTP.aaaaaa".toList := by
      decide
    simp only [mkdtemp, hlast, ne_eq, not_true_eq_false, if_false, tryNames, sixAs, hname, hmkdir]
  simp only [newTmpDir, htmp, hjoin, hcopied, hcstr, htake, hmkdtemp]

/-- One directory, made and deleted by its path with a slash. -/
theorem leaves_nothing_once :
    tmpOnce.delTmpDir [] ("/tmp/CTP.aaaaaa".toList ++ ['/']) = (tmpOnly, .ok ()) := by
  have hparse : Path.parse ("/tmp/CTP.aaaaaa".toList ++ ['/']) =
      some ⟨true, [['t', 'm', 'p'], "CTP.aaaaaa".toList], true⟩ := by
    decide
  have hfollow : ∀ t : FileTree, t.entry [['t', 'm', 'p']] = some .dir →
      t.follow maxLinks (Path.start ⟨true, [['t', 'm', 'p'], "CTP.aaaaaa".toList], true⟩ [])
        [['t', 'm', 'p']] = .ok (maxLinks, [['t', 'm', 'p']]) :=
    fun t => follow_tmp
  have hnames : [['t', 'm', 'p'], "CTP.aaaaaa".toList] =
      [['t', 'm', 'p']] ++ ["CTP.aaaaaa".toList] := rfl
  have hdel := delTmpDir_dir hparse hnames (by rw [FileTree.Normal]; decide) rfl
    (hfollow tmpOnce rfl) (hfollow _ rfl)
  have hmade : (system (fun _ => none) tmpOnly []).next ⟨tmpOnly, [], []⟩
      (.make (.ok "/tmp/CTP.aaaaaa".toList)) ⟨tmpOnce, [], ["/tmp/CTP.aaaaaa".toList]⟩ :=
    .made (newTmpDir_tmpOnly ⟨List.replicate 256 '?', List.length_replicate⟩)
  have hdeleted : (system (fun _ => none) tmpOnly []).next
      ⟨tmpOnce, [], ["/tmp/CTP.aaaaaa".toList]⟩ (.delete "/tmp/CTP.aaaaaa".toList (.ok ()))
      ⟨tmpOnce.uproot [['t', 'm', 'p']] "CTP.aaaaaa".toList, [], []⟩ :=
    .deleted List.mem_cons_self (Or.inr rfl) hdel
  obtain ⟨-, -, -, -, hsame, -⟩ := leaves_nothing (fun _ => none) tmpOnly []
    (((System.Run.nil rfl).snoc hmade).snoc hdeleted)
  exact hdel.trans (Prod.ext (hsame rfl) rfl)

end TempDir

end LeonUtils
