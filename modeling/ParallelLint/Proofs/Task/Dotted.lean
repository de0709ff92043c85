import ParallelLint.Proofs.Glob.Dotted
import ParallelLint.Proofs.Task.Naming

set_option autoImplicit false

namespace ParallelLint

namespace Path

theorem dotted_segments (p : String) :
    (⟨"./" ++ p⟩ : Path).segments = "." :: (⟨p⟩ : Path).segments :=
  segments_append "." p

theorem dotted_relative (p : String) : (⟨"./" ++ p⟩ : Path).isAbsolute = false := by
  simp [isAbsolute]

theorem join_dotted {d : Path} (named : d.text ≠ "") {p : String}
    (relative : (⟨p⟩ : Path).isAbsolute = false) :
    (d.join ⟨"./" ++ p⟩).normalize = (d.join ⟨p⟩).normalize := by
  have parts : (d.join ⟨"./" ++ p⟩).parts = (d.join ⟨p⟩).parts :=
    calc (d.join ⟨"./" ++ p⟩).parts = d.parts ++ innerParts ("." :: (⟨p⟩ : Path).segments) := by
          rw [join_relative_parts named (dotted_relative p), dotted_segments]
      _ = d.parts ++ innerParts (⟨p⟩ : Path).segments := rfl
      _ = (d.join ⟨p⟩).parts := (join_relative_parts named relative).symm
  rw [normalize, normalize, parts]

theorem dotted_parts {p : Path} {rest : String} (spelled : p.text = "./" ++ rest) :
    p.parts.head? = some .here := by
  obtain ⟨text⟩ := p
  obtain rfl : text = "./" ++ rest := spelled
  rw [(Opens.here (dotted_segments rest)).parts_eq]
  rfl

theorem Normal.behind_dot {p : Path} (normal : p.Normal) {rest : String}
    (spelled : p.text = "./" ++ rest) : rest ≠ "" ∧ rest.toList.getLast? ≠ some '/' := by
  obtain ⟨text⟩ := p
  obtain rfl : text = "./" ++ rest := spelled
  have full : ∀ s ∈ (⟨rest⟩ : Path).segments, isVoid s = false := by
    rcases normal.full (.here (dotted_segments rest)) with full | ⟨lead, -⟩
    · exact full
    · cases lead
  constructor
  · rintro rfl
    exact absurd (full "" (by decide)) (by decide)
  · intro slash
    obtain ⟨before, -, segments⟩ := segments_endSlash slash
    have last : "" ∈ (⟨rest⟩ : Path).segments := by simp [segments]
    exact absurd (full "" last) (by decide)

theorem dropParts_suffix (n : Nat) (segments : List String) :
    dropParts n segments <:+ segments := by
  induction segments generalizing n with
  | nil => cases n <;> exact List.suffix_rfl
  | cons s rest ih =>
    cases n with
    | zero => exact List.suffix_rfl
    | succ n =>
      rw [dropParts]
      split
      · exact (ih (n + 1)).trans (List.suffix_cons s rest)
      · exact (ih n).trans (List.suffix_cons s rest)

theorem relativeTo_dotted {p base q : Path} (named : base.text ≠ "")
    (below : p.relativeTo? base = some q) {rest : String} : q.text ≠ "./" ++ rest := by
  obtain ⟨lead, text, inner, opens⟩ := p.opens
  have parts : base.parts.isEmpty = false := List.isEmpty_eq_false_iff.2 (parts_named named)
  simp only [relativeTo?, opens.opening, parts, Bool.false_eq_true, if_false] at below
  split at below
  · cases below
  have less := dropParts_suffix (base.parts.length - lead.toList.length) inner
  generalize dropParts (base.parts.length - lead.toList.length) inner = left at below less
  cases below
  intro spelled
  have front := dropVoidEnd_prefix (left.dropWhile isVoid)
  cases kept : dropVoidEnd (left.dropWhile isVoid) with
  | nil =>
    rw [kept, ← String.toList_inj, String.toList_append] at spelled
    cases spelled
  | cons s more =>
    rw [kept] at front spelled
    have each : ∀ t ∈ s :: more, Slashless t := fun t ht =>
      opens.slashless t (less.subset ((List.dropWhile_suffix _).subset (front.subset ht)))
    have segments := segments_joinSegments (List.cons_ne_nil s more) each
    have spelled : joinSegments (s :: more) = "./" ++ rest := spelled
    rw [spelled, dotted_segments, List.cons.injEq] at segments
    have own := List.head?_dropWhile_not isVoid left
    obtain ⟨behind, whole⟩ := front
    rw [← whole, ← segments.1] at own
    cases own

end Path

namespace Selection
variable {s : Selection} {fs : FileSystem} {p q : String} {g : Glob} {f : Path}

/-- Answers that are the same, but for the pattern that a failure quotes. -/
inductive Quoting (p q : String) :
    Except LintError (List Task) → Except LintError (List Task) → Prop
  | tasks (tasks : List Task) : Quoting p q (.ok tasks) (.ok tasks)
  | unmatched : Quoting p q (.error (.noFilesFound p)) (.error (.noFilesFound q))
  | unreadable (fault : Glob.Fault) :
      Quoting p q (.error (notGlob p fault)) (.error (notGlob q fault))

/-- The patterns stand for the same tasks, or fail in the same way. -/
def Interchangeable (s : Selection) (fs : FileSystem) (p q : String) : Prop :=
  Quoting p q (s.expand fs [p]) (s.expand fs [q])

theorem expand_error {e : LintError} (failed : s.expand fs [p] = .error e) : s.Fails fs p e := by
  unfold expand at failed
  cases expanded : s.expandFrom fs .empty [p] with
  | ok found =>
    rw [expanded] at failed
    cases failed
  | error e' =>
    rw [expanded] at failed
    cases failed
    obtain ⟨before, pattern, after, whole, -, fails⟩ := expandFrom_error expanded
    have single : pattern = p :=
      List.mem_singleton.1 (whole ▸ List.mem_append_right _ (List.mem_cons_self ..))
    exact single ▸ fails

theorem expand_single {tasks : List Task} (ok : s.expand fs [p] = .ok tasks) (f : Path) :
    f ∈ tasks.map Task.path ↔ s.Selects fs p f := by
  obtain ⟨found, expanded, rfl⟩ := expand_ok ok
  rw [Task.number_paths, List.mem_map]
  constructor
  · rintro ⟨⟨f, mark⟩, there, rfl⟩
    obtain ⟨⟨r, hr, selects⟩, -⟩ := (mem_expanded expanded f mark).1 there
    exact List.mem_singleton.1 hr ▸ selects
  · intro selects
    have there := (mem_expanded expanded f _).2 ⟨⟨p, List.mem_singleton_self p, selects⟩, rfl⟩
    exact ⟨_, there, rfl⟩

theorem Fails.unique {e e' : LintError} (fails : s.Fails fs p e) (fails' : s.Fails fs p e') :
    e = e' := by
  cases fails with
  | unreadable unreadable =>
    cases fails' with
    | unreadable unreadable' =>
      have same := unreadable.2.2.symm.trans unreadable'.2.2
      rw [Except.error.inj same]
    | unmatched _ readable => exact absurd unreadable (readable _)
  | unmatched strict readable none =>
    cases fails' with
    | unreadable unreadable => exact absurd unreadable (readable _)
    | unmatched => rfl

theorem Fails.expand {e : LintError} (fails : s.Fails fs p e) : s.expand fs [p] = .error e := by
  cases answer : s.expand fs [p] with
  | ok tasks =>
    exact absurd fails (expand_succeeds.1 ⟨tasks, answer⟩ p (List.mem_singleton_self p) e)
  | error e' => rw [(expand_error answer).unique fails]

theorem interchangeable_of_selects (selects : ∀ f, s.Selects fs p f ↔ s.Selects fs q f)
    (unreadable : ∀ fault, s.Unreadable fs p fault ↔ s.Unreadable fs q fault) :
    s.Interchangeable fs p q := by
  unfold Interchangeable
  cases first : s.expand fs [p] with
  | error e =>
    cases expand_error first with
    | unreadable given =>
      rw [(Fails.unreadable ((unreadable _).1 given)).expand]
      exact .unreadable _
    | unmatched strict readable none =>
      rw [(Fails.unmatched strict (fun fault => (unreadable fault).not.1 (readable fault))
        fun f => (selects f).not.1 (none f)).expand]
      exact .unmatched
  | ok tasks =>
    cases second : s.expand fs [q] with
    | error e =>
      have sound := expand_succeeds.1 ⟨tasks, first⟩ p (List.mem_singleton_self p)
      cases expand_error second with
      | unreadable given => exact absurd (.unreadable ((unreadable _).2 given)) (sound _)
      | unmatched strict readable none =>
        exact absurd (.unmatched strict (fun fault => (unreadable fault).not.2 (readable fault))
          fun f => (selects f).not.2 (none f)) (sound _)
    | ok tasks' =>
      obtain ⟨found, expanded, rfl⟩ := expand_ok first
      obtain ⟨found', expanded', rfl⟩ := expand_ok second
      have equal : found = found' := Sorted.eq_of_mem fun ⟨f, mark⟩ => by
        rw [mem_expanded expanded, mem_expanded expanded']
        simp only [List.mem_singleton, exists_eq_left, selects]
      rw [equal]
      exact .tasks _

theorem Interchangeable.selects (same : s.Interchangeable fs p q)
    (readable : ∀ fault, ¬s.Unreadable fs p fault) (f : Path) :
    s.Selects fs p f ↔ s.Selects fs q f := by
  unfold Interchangeable at same
  generalize first : s.expand fs [p] = answer at same
  generalize second : s.expand fs [q] = answer' at same
  cases same with
  | tasks tasks => rw [← expand_single first, expand_single second]
  | unmatched =>
    have none : ∀ {r}, s.expand fs [r] = .error (.noFilesFound r) → ¬s.Selects fs r f := by
      intro r failed
      cases expand_error failed with
      | unmatched _ _ none => exact none f
    exact ⟨fun selects => absurd selects (none first), fun selects => absurd selects (none second)⟩
  | unreadable fault =>
    have fails := expand_error first
    generalize error : notGlob p fault = e at fails
    cases fails with
    | unreadable given => exact absurd given (readable _)
    | unmatched => cases error

theorem target_dotted (directory : s.directory.text ≠ "")
    (relative : (⟨p⟩ : Path).isAbsolute = false) : s.target ("./" ++ p) = s.target p :=
  Path.join_dotted directory relative

theorem Selects.retarget (same : s.target p = s.target q)
    (noGlob : fs.isFile (s.target p) = false → fs.isDirectory (s.target p) = false →
      ∀ g, Glob.read p ≠ .ok g) (selects : s.Selects fs p f) : s.Selects fs q f := by
  cases selects with
  | named file own => exact .named (same ▸ file) (same ▸ own)
  | below noFile directory walked extension kept =>
    exact .below (same ▸ noFile) (same ▸ directory) (same ▸ walked) extension kept
  | fitting noFile noDirectory read => exact absurd read (noGlob noFile noDirectory _)

theorem interchangeable_existing (same : s.target q = s.target p)
    (existing : fs.isFile (s.target p) = true ∨ fs.isDirectory (s.target p) = true) :
    s.Interchangeable fs p q := by
  have never {r : String} (there : s.target r = s.target p)
      (noFile : fs.isFile (s.target r) = false)
      (noDirectory : fs.isDirectory (s.target r) = false) : False := by
    rw [there] at noFile noDirectory
    rw [noFile, noDirectory] at existing
    rcases existing with ⟨⟨⟩⟩ | ⟨⟨⟩⟩
  refine interchangeable_of_selects (fun f => ⟨?_, ?_⟩) fun fault => ⟨?_, ?_⟩
  · exact .retarget same.symm fun noFile noDirectory => (never rfl noFile noDirectory).elim
  · exact .retarget same fun noFile noDirectory => (never same noFile noDirectory).elim
  · exact fun ⟨noFile, noDirectory, _⟩ => (never rfl noFile noDirectory).elim
  · exact fun ⟨noFile, noDirectory, _⟩ => (never same noFile noDirectory).elim

theorem interchangeable_unreadable (same : s.target q = s.target p) {fault : Glob.Fault}
    (failed : Glob.read p = .error fault) (failed' : Glob.read q = .error fault) :
    s.Interchangeable fs p q := by
  refine interchangeable_of_selects (fun f => ⟨?_, ?_⟩) fun other => ?_
  · exact .retarget same.symm fun _ _ g read => by
      rw [failed] at read
      cases read
  · exact .retarget same fun _ _ g read => by
      rw [failed'] at read
      cases read
  · rw [Unreadable, Unreadable, same, failed, failed']

theorem readable_of_read (read : Glob.read p = .ok g) (fault : Glob.Fault) :
    ¬s.Unreadable fs p fault := by
  rintro ⟨-, -, failed⟩
  rw [read] at failed
  cases failed

theorem selects_glob (noFile : fs.isFile (s.target p) = false)
    (noDirectory : fs.isDirectory (s.target p) = false) (read : Glob.read p = .ok g) :
    s.Selects fs p f ↔
      f ∈ walk fs s.directory ∧ s.isIgnored f = false ∧ s.fitsEither g f = true := by
  constructor
  · rintro (⟨file, -⟩ | ⟨-, directory, -⟩ | ⟨-, -, read', walked, fits, kept⟩)
    · rw [noFile] at file
      cases file
    · rw [noDirectory] at directory
      cases directory
    · rw [read, Except.ok.injEq] at read'
      exact ⟨walked, kept, read' ▸ fits⟩
  · exact fun ⟨walked, kept, fits⟩ => .fitting noFile noDirectory read walked fits kept

theorem relative_dotted (directory : s.directory.text ≠ "") {rest : String}
    (spelled : (s.relative f).text = "./" ++ rest) : s.relative f = f := by
  unfold relative at spelled ⊢
  cases below : f.relativeTo? s.directory with
  | none => rfl
  | some q =>
    rw [below] at spelled
    exact absurd spelled (Path.relativeTo_dotted directory below)

/-- Behind `./` a glob fits a file only by a spelling that begins with `./` itself. -/
theorem fitsEither_dotted {g' : Glob} (directory : s.directory.text ≠ "")
    (read : Glob.read p = .ok g) (read' : Glob.read ("./" ++ p) = .ok g') (normal : f.Normal) :
    s.fitsEither g' f = true ↔
      ¬g.OnlyDirectories ∧ ∃ rest, f.text = "./" ++ rest ∧ g.fits ⟨rest⟩ = true := by
  have spelled : s.fitsEither g' f = true ↔ g'.fits f = true := by
    rw [fitsEither, Bool.or_eq_true]
    refine ⟨fun fits => fits.elim (fun fits => ?_) id, .inr⟩
    obtain ⟨rest, spelled⟩ := Glob.fits_dotted_spelled read read' fits
    rwa [relative_dotted directory spelled] at fits
  rw [spelled]
  by_cases only : g.OnlyDirectories
  · refine iff_of_false (fun fits => ?_) fun h => h.1 only
    obtain ⟨rest, spelled, none | slash⟩ := only.fits_dotted read read' fits
    · exact (normal.behind_dot spelled).1 none
    · exact (normal.behind_dot spelled).2 slash
  · rw [Glob.fits_dotted read read' only]
    exact ⟨fun fits => ⟨only, fits⟩, And.right⟩

theorem interchangeable_globs {g' : Glob} (same : s.target q = s.target p)
    (noFile : fs.isFile (s.target p) = false) (noDirectory : fs.isDirectory (s.target p) = false)
    (read : Glob.read p = .ok g) (read' : Glob.read q = .ok g') :
    s.Interchangeable fs p q ↔ ∀ f ∈ walk fs s.directory, s.isIgnored f = false →
      (s.fitsEither g f = true ↔ s.fitsEither g' f = true) := by
  have first (f : Path) := selects_glob (f := f) noFile noDirectory read
  have second (f : Path) :=
    selects_glob (f := f) (same.symm ▸ noFile) (same.symm ▸ noDirectory) read'
  constructor
  · intro alike f walked kept
    have selects := alike.selects (readable_of_read read) f
    rw [first, second] at selects
    simpa [walked, kept] using selects
  · intro agree
    refine interchangeable_of_selects (fun f => ?_) fun fault =>
      iff_of_false (readable_of_read read fault) (readable_of_read read' fault)
    rw [first, second]
    exact and_congr_right fun walked => and_congr_right fun kept => agree f walked kept

theorem interchangeable_glob (directory : s.directory.text ≠ "")
    (relative : (⟨p⟩ : Path).isAbsolute = false) (noFile : fs.isFile (s.target p) = false)
    (noDirectory : fs.isDirectory (s.target p) = false) (read : Glob.read p = .ok g) :
    s.Interchangeable fs p ("./" ++ p) ↔
      ∀ f ∈ walk fs s.directory, s.isIgnored f = false → (s.fitsEither g f = true ↔
        ¬g.OnlyDirectories ∧ ∃ rest, f.text = "./" ++ rest ∧ g.fits ⟨rest⟩ = true) := by
  obtain ⟨-, g', read', -⟩ := Glob.read_dotted_ok read
  rw [interchangeable_globs (target_dotted directory relative) noFile noDirectory read read']
  refine forall₂_congr fun f walked => ?_
  rw [fitsEither_dotted directory read read' (walk_normal walked)]

/-- Only from a directory that is itself spelled with a `.` a walk finds such spellings. -/
theorem walk_dotted (named : fs.Named) (directory : s.directory.text ≠ "")
    (plain : s.directory.parts.head? ≠ some .here) (walked : f ∈ walk fs s.directory)
    {rest : String} : f.text ≠ "./" ++ rest := by
  intro spelled
  obtain ⟨names, parts⟩ := named.walk directory walked
  have first := Path.dotted_parts spelled
  rw [parts, List.head?_append_of_ne_nil _ (Path.parts_named directory)] at first
  exact plain first

theorem interchangeable_glob_plain (named : fs.Named) (directory : s.directory.text ≠ "")
    (plain : s.directory.parts.head? ≠ some .here) (relative : (⟨p⟩ : Path).isAbsolute = false)
    (noFile : fs.isFile (s.target p) = false) (noDirectory : fs.isDirectory (s.target p) = false)
    (read : Glob.read p = .ok g) :
    s.Interchangeable fs p ("./" ++ p) ↔ ∀ f, ¬s.Selects fs p f := by
  rw [interchangeable_glob directory relative noFile noDirectory read]
  have never {f : Path} (walked : f ∈ walk fs s.directory) : ¬(¬g.OnlyDirectories ∧
      ∃ rest, f.text = "./" ++ rest ∧ g.fits ⟨rest⟩ = true) :=
    fun ⟨_, _, spelled, _⟩ => walk_dotted named directory plain walked spelled
  constructor
  · intro agree f selects
    obtain ⟨walked, kept, fits⟩ := (selects_glob noFile noDirectory read).1 selects
    exact never walked ((agree f walked kept).1 fits)
  · intro none f walked kept
    refine iff_of_false (fun fits => none f ?_) (never walked)
    exact (selects_glob noFile noDirectory read).2 ⟨walked, kept, fits⟩

/-- A leading `./` makes no difference to a pattern that names a file or a directory, or cannot be
read. To a glob it makes none only if it fits just those files whose own spelling begins with `./`, by
the rest of that spelling. From a directory that is not spelled so these are none. Options never have
the empty path for a directory, once they are checked. -/
theorem expand_dotted (directory : s.directory.text ≠ "")
    (relative : (⟨p⟩ : Path).isAbsolute = false) :
    s.target ("./" ++ p) = s.target p ∧
    (fs.isFile (s.target p) = true ∨ fs.isDirectory (s.target p) = true →
      s.Interchangeable fs p ("./" ++ p)) ∧
    (∀ fault, Glob.read p = .error fault → s.Interchangeable fs p ("./" ++ p)) ∧
    ∀ g, Glob.read p = .ok g → fs.isFile (s.target p) = false →
      fs.isDirectory (s.target p) = false →
      (s.Interchangeable fs p ("./" ++ p) ↔
        ∀ f ∈ walk fs s.directory, s.isIgnored f = false → (s.fitsEither g f = true ↔
          ¬g.OnlyDirectories ∧ ∃ rest, f.text = "./" ++ rest ∧ g.fits ⟨rest⟩ = true)) ∧
      (fs.Named → s.directory.parts.head? ≠ some .here →
        (s.Interchangeable fs p ("./" ++ p) ↔ ∀ f, ¬s.Selects fs p f)) := by
  have same := target_dotted (s := s) directory relative
  refine ⟨same, interchangeable_existing same, fun fault failed => ?_,
    fun g read noFile noDirectory => ⟨?_, fun named plain => ?_⟩⟩
  · exact interchangeable_unreadable same failed (Glob.read_dotted_error failed)
  · exact interchangeable_glob directory relative noFile noDirectory read
  · exact interchangeable_glob_plain named directory plain relative noFile noDirectory read

def oneFile : FileSystem := ⟨[(["f"], .file [] 0)], [], 0⟩

theorem oneFile_named : oneFile.Named := by
  intro f hf name hn
  obtain rfl := List.mem_singleton.1 hf
  rw [List.mem_singleton.1 hn]
  decide

theorem root_place (fs : FileSystem) (purpose : Purpose) :
    fs.place ⟨"/"⟩ purpose = .ok (.found []) := by
  have accepted : FileSystem.refused? ⟨"/"⟩ = none := by decide
  have origin : fs.origin ⟨"/"⟩ = [] := rfl
  have leads : FileSystem.Leads fs purpose FileSystem.linkLimit [] (FileSystem.steps ⟨"/"⟩) [] :=
    .stay rfl (.inr rfl) (.arrive ..)
  rw [FileSystem.place, FileSystem.follow, accepted, origin]
  exact leads.walk_eq

theorem oneFile_walk : walk oneFile ⟨"/"⟩ = [FileSystem.top "f"] := by
  have root : oneFile.entry? [] = some .directory := rfl
  have unnamed : (⟨"/"⟩ : Path).fileName? = none := by decide
  have found : oneFile.filesBelow skippedDirectories [] = [["f"]] := by decide
  have path : ((⟨"/"⟩ : Path).join ⟨Path.joinSegments ["f"]⟩).normalize = FileSystem.top "f" := by
    rw [Path.joinSegments, String.intercalate_singleton, FileSystem.root_join (by decide)]
    exact FileSystem.top_normal (by decide)
  unfold walk FileSystem.walkFiles
  simp [FileSystem.locate, root_place, root, unnamed, found, path, FileSystem.isFileEntry]

theorem oneFile_glob :
    oneFile.isFile (belowRoot.target "*") = false ∧
      oneFile.isDirectory (belowRoot.target "*") = false ∧
      Glob.read "*" = .ok ⟨"*", [.zeroOrMore]⟩ := by
  have target : belowRoot.target "*" = FileSystem.top "*" := by decide
  have free : oneFile.status (FileSystem.top "*") = .error .notFound :=
    FileSystem.status_top_free (by decide) (by decide)
  rw [target, FileSystem.isFile, FileSystem.isDirectory, free]
  exact ⟨rfl, rfl, rfl⟩

theorem oneFile_selects : belowRoot.Selects oneFile "*" (FileSystem.top "f") := by
  obtain ⟨noFile, noDirectory, read⟩ := oneFile_glob
  refine .fitting noFile noDirectory read ?_ (by decide) (by decide)
  exact oneFile_walk ▸ List.mem_singleton_self _

theorem expand_dotted_star :
    belowRoot.target "./*" = belowRoot.target "*" ∧ belowRoot.Interchangeable oneFile "f" "./f" ∧
      ¬belowRoot.Interchangeable oneFile "*" "./*" := by
  obtain ⟨noFile, noDirectory, read⟩ := oneFile_glob
  have file : oneFile.isFile (belowRoot.target "f") = true := by
    rw [straight_targets.1]
    exact (FileSystem.top_file (by decide) rfl).1.isFile
  have directory : belowRoot.directory.text ≠ "" := by decide
  have named : belowRoot.Interchangeable oneFile "f" "./f" :=
    (expand_dotted directory (by decide)).2.1 (.inl file)
  obtain ⟨target, -, -, glob⟩ := @expand_dotted belowRoot oneFile "*" directory (by decide)
  refine ⟨target, named, fun same => ?_⟩
  exact ((glob _ read noFile noDirectory).2 oneFile_named (by decide)).1 same _ oneFile_selects

/-- A leading `./` can take all files away from a glob. -/
theorem not_expand_dotted :
    ¬∀ (s : Selection) (fs : FileSystem) (p : String), s.directory.text ≠ "" →
      (⟨p⟩ : Path).isAbsolute = false → s.Interchangeable fs p ("./" ++ p) := by
  intro same
  obtain ⟨noFile, noDirectory, read⟩ := oneFile_glob
  have alike := same belowRoot oneFile "*" (by decide) (by decide)
  rw [interchangeable_glob_plain oneFile_named (by decide) (by decide) (by decide) noFile
    noDirectory read] at alike
  exact alike _ oneFile_selects

end Selection
end ParallelLint
