import ParallelLint.Proofs.Cache.RoundTrip
import ParallelLint.Proofs.Cache.Staying
import ParallelLint.Proofs.Dispatch.Fixing
import ParallelLint.Proofs.Dispatch.Renewal

set_option autoImplicit false

namespace ParallelLint
open FileSystem

namespace Dispatcher
variable {σ τ : Type} {d : Dispatcher σ} {later : Dispatcher τ} {tasks : List Task}
  {world after : World σ} {r : RunReport} {files : FileSystem} {l : Location} {saved : Cache}

/-- Another working directory has its cache in the same directory, under a name of its own. -/
structure SharesCache (d : Dispatcher σ) (files : FileSystem) (other : Path) : Prop where
  here : Cache.namesDirectory files d.options.cacheLocation d.options.directory = true
  there : Cache.namesDirectory files d.options.cacheLocation other = true
  apart : Cache.sharedName other ≠ Cache.sharedName d.options.directory

/-- Whatever a run comes to, it takes away the cache file at a location and nothing else, and all
caches are still where they were. -/
def ClearsCache (d : Dispatcher σ) (files : FileSystem) (l : Location) : Prop :=
  ∀ tasks state, Task.misnumbered? tasks = none →
    let left := (d.lintTasks tasks ⟨files, state⟩).2.files
    files.LosesOnly left l ∧ d.cacheFile left = d.cacheFile files ∧
      ∀ other m bytes, d.SharesCache files other →
        let path := Cache.locate files d.options.cacheLocation other
        files.NamesFile path m bytes →
          left.NamesFile path m bytes ∧ Cache.locate left d.options.cacheLocation other = path

theorem runWorkers_uncached (quiet : d.analyzer.Quiet) :
    (d.runWorkers tasks none world).2.files = world.files := by
  have still : (d.pool tasks none world).shared.world.files = world.files :=
    (@Pool.run_keeps _ _ (fun w => w.files = world.files) (fun _ => True)
      (fun t _ w same => ⟨(Context.process_files quiet t w).trans same, fun _ _ _ => trivial⟩)
      d.schedule _ _ rfl).world
  rw [runWorkers_pool]
  split
  · exact still
  · exact still

theorem clears_cache {bytes : Text.Bytes} (quiet : d.analyzer.Quiet)
    (unwanted : d.options.cache = false) (tree : files.IsTree)
    (named : endsInName (d.cacheFile files) = true)
    (noSlash : endsInSlash (d.cacheFile files) = false)
    (names : files.NamesFile (d.cacheFile files) l bytes) : d.ClearsCache files l := by
  intro tasks state numbered left
  have opened : d.openCache files = (.ok none, files.erase l) := by
    rw [openCache_unwanted unwanted, Cache.delete_names named noSlash names]
    rfl
  have ran := @lintTasks_opened _ d tasks none files ⟨files.erase l, state⟩ numbered opened
  have left_eq : left = files.erase l :=
    calc left = (d.runWorkers tasks none ⟨files.erase l, state⟩).2.files :=
          congrArg (fun a => a.2.files) ran
      _ = files.erase l := runWorkers_uncached quiet
  have lost := names.loses tree
  rw [left_eq]
  refine ⟨lost, Cache.locate_lost lost names.2 _ _, ?_⟩
  intro other m bytes' shares path names'
  exact (Cache.others_kept tree shares.here shares.there shares.apart names names').symm

theorem lintTasks_located (quiet : d.analyzer.Quiet) (wanted : d.options.cache = true)
    (ok : d.lintTasks tasks world = (.ok r, after)) :
    ∃ saved loaded : Cache, saved.path = d.cacheFile world.files ∧
      saved.strategy = d.options.cacheStrategy ∧
      Cache.load world.files saved.path d.options.cacheStrategy = .ok loaded ∧
      saved.save world.files = (.ok (), after.files) := by
  obtain ⟨-, loaded, load, -, ran⟩ := lintTasks_ran wanted ok
  obtain ⟨workers, outcomes, stats, state, -, closed⟩ := runWorkers_gave quiet ran
  obtain ⟨-, -, -, saves⟩ := conclude_ok closed
  obtain ⟨saved, path, strategy, save⟩ := saves loaded rfl
  obtain ⟨path', strategy'⟩ := Cache.load_place load
  rw [path'] at path
  rw [strategy'] at strategy
  exact ⟨saved, loaded, path, strategy, path ▸ load, save⟩

/-- A cache stays where it was saved: what later runs in the same directory, with the same location,
find of it. -/
structure Stays (later : Dispatcher τ) (saved : Cache) (before after : FileSystem) : Prop where
  located : later.cacheFile after = saved.path
  deleted : ∀ answer left, Cache.delete after saved.path = (answer, left) →
    later.cacheFile left = saved.path ∧
      (left = after ∨ ∃ l, after.NamesFile saved.path l saved.bytes ∧ after.LosesOnly left l)
  read : saved.StraightIn before ↔ after.read saved.path = .ok saved.bytes
  named : after.IsTree ∧
    (saved.StraightIn before → ∃ l, after.NamesFile saved.path l saved.bytes)
  loaded : saved.StraightIn before → later.options.cache = true →
    later.options.cacheStrategy = saved.strategy → saved.Small →
      ∃ loaded, later.openCache after = (.ok (some loaded), after) ∧
        loaded.path = saved.path ∧ loaded.entries = saved.entries
  cleared : later.options.cache = false → later.analyzer.Quiet →
    ∀ files l bytes, files.IsTree → later.cacheFile files = saved.path →
      files.NamesFile saved.path l bytes → later.ClearsCache files l

/-- After a run with a cache its location names the same file as before, also when the file has been
deleted again. On a straight way later runs load what was saved, and as long as the file has its name
a run that wants no cache deletes this file and no other one. -/
theorem cache_stays (quiet : d.analyzer.Quiet) (wanted : d.options.cache = true)
    (tree : world.files.IsTree) (ok : d.lintTasks tasks world = (.ok r, after))
    (location : later.options.cacheLocation = d.options.cacheLocation)
    (directory : later.options.directory = d.options.directory) :
    ∃ saved : Cache, saved.path = d.cacheFile world.files ∧
      saved.strategy = d.options.cacheStrategy ∧ saved.save world.files = (.ok (), after.files) ∧
      later.Stays saved world.files after.files := by
  obtain ⟨saved, loaded, path, strategy, load, save⟩ := lintTasks_located quiet wanted ok
  have same : ∀ files, later.cacheFile files = d.cacheFile files := by
    intro files
    rw [cacheFile, cacheFile, location, directory]
  have located : later.cacheFile after.files = saved.path :=
    calc later.cacheFile after.files = d.cacheFile after.files := same _
      _ = saved.path := Cache.locate_saved path load save
  have straight := Cache.save_straight tree save
  refine ⟨saved, path, strategy, save, located, fun answer left deleted => ?_, straight,
    ⟨Cache.save_tree tree save, fun way => Cache.save_names save (straight.1 way)⟩, ?_, ?_⟩
  · obtain ⟨still, kept⟩ := Cache.locate_deleted tree save deleted later.options.cacheLocation
      later.options.directory
    exact ⟨still.trans located, kept⟩
  · intro way wanted' strategy' small
    have loads := (Cache.load_saved small after.files saved.path saved.strategy).1 (straight.1 way)
    rw [if_pos rfl] at loads
    obtain ⟨again, opened, path', -, entries, -⟩ := loads
    refine ⟨again, ?_, path', entries⟩
    rw [openCache, if_pos wanted', located, strategy', opened]
    rfl
  · intro unwanted quiet' files l bytes tree' place names
    obtain ⟨_, _, can, -⟩ := Cache.save_place save
    rw [← place] at can names
    exact clears_cache quiet' unwanted tree' can.named can.noSlash names

theorem lintTasks_none {d : Dispatcher σ} (quiet : d.analyzer.Quiet)
    (stable : d.resolver.Stable world.files) (wanted : d.options.cache = true) {loaded : Cache}
    (load : Cache.load world.files (d.cacheFile world.files) d.options.cacheStrategy = .ok loaded)
    (saves : ∀ c : Cache, c.path = d.cacheFile world.files →
      ∃ files, c.save world.files = (.ok (), files)) :
    ∃ r after, d.lintTasks [] world = (.ok r, after) := by
  have answered := @Context.steady_done _ (d.context [] (some loaded)) world quiet
    (fun _ _ _ listed => by cases listed) fun _ listed => by cases listed
  exact lintTasks_saves wanted rfl (by decide) quiet stable load
    (pool_noError (by decide) answered) saves

/-- A run in the root, which has the caches of several working directories. -/
def sharing (cache : Bool) : Dispatcher Unit :=
  { plainRules with options := { Options.standard ⟨"/"⟩ with cache, cacheLocation := ⟨"/"⟩ } }

def ownName (directory : String) : String := (Cache.sharedName ⟨directory⟩).text

theorem locate_sharing (fs : FileSystem) (directory : String) :
    Cache.locate fs ⟨"/"⟩ ⟨directory⟩ = top (ownName directory) := by
  have absolute : (⟨directory⟩ : Path).join ⟨"/"⟩ = ⟨"/"⟩ := if_pos (by decide)
  have shared : Cache.namesDirectory fs ⟨"/"⟩ ⟨directory⟩ = true := by
    simp [Cache.namesDirectory]
  rw [Cache.locate, if_pos shared, absolute]
  exact root_join (Cache.sharedName_own _)

def besideOther (other : String) : FileSystem :=
  ⟨[(["b"], .file [] 0), ([other], .file [7] 0)], [], 0⟩

theorem besideOther_free {name other : String} (plain : name ≠ "b") (apart : name ≠ other) :
    FileSystem.entry? (besideOther other) [name] = none := by
  simp [besideOther, entry?, List.lookup_cons, beq_false_of_ne plain, beq_false_of_ne apart]

theorem besideOther_found {other : String} (plain : other ≠ "b") :
    FileSystem.entry? (besideOther other) [other] = some (.file [7] 0) := by
  simp [besideOther, entry?, List.lookup_cons, beq_false_of_ne plain]

def sharedFiles : FileSystem := besideOther (ownName "/o")

theorem ownName_apart : ownName "/" ≠ ownName "/o" := by decide +kernel

theorem ownName_plain (directory : String) : ownName directory ≠ "b" := by
  intro same
  have first := congrArg (fun s => s.toList.head?) same
  simp only [ownName, Cache.sharedName, String.toList_append] at first
  cases first

theorem sharedFiles_free : sharedFiles.entry? [ownName "/"] = none :=
  besideOther_free (ownName_plain _) ownName_apart

theorem sharedFiles_tree : sharedFiles.IsTree := tree_of_listed fun f hf => by
  rcases List.mem_pair.1 hf with rfl | rfl <;> rfl

theorem sharing_saves (c : Cache) (path : c.path = (sharing true).cacheFile sharedFiles) :
    c.save sharedFiles =
      (.ok (), sharedFiles.set [ownName "/"] (.file c.bytes sharedFiles.clock)) := by
  refine Cache.save_top (Cache.sharedName_own _) (path.trans (locate_sharing _ "/")) ?_
  rw [sharedFiles_free]
  rintro ⟨⟩

theorem sharing_run : ∃ r after,
    (sharing true).lintTasks [⟨0, top "b", false⟩] ⟨sharedFiles, ()⟩ = (.ok r, after) := by
  have missing : sharedFiles.status (top (ownName "/")) = .error .notFound :=
    status_top_free (Cache.sharedName_own _) sharedFiles_free
  have load : Cache.load sharedFiles ((sharing true).cacheFile sharedFiles) .metadata =
      .ok (.empty (top (ownName "/")) .metadata) := by
    rw [show (sharing true).cacheFile sharedFiles = _ from locate_sharing _ "/", Cache.load,
      FileSystem.read, missing]
    rfl
  have answered := fun loaded => @Context.steady_done _
    ((sharing true).context [⟨0, top "b", false⟩] (some loaded)) ⟨sharedFiles, ()⟩ (fun _ _ => rfl)
    (fun _ _ _ _ => rfl) fun t _ =>
      Context.process_answered (fun _ _ => ⟨_, rfl⟩) fun _ => ⟨_, rfl⟩
  exact lintTasks_saves rfl rfl (by decide) (fun _ _ => rfl) (plainRules_stable _) load
    (pool_noError (by decide) (answered _)) fun c path => ⟨_, sharing_saves c path⟩

theorem cache_stays_shared :
    (sharing true).analyzer.Quiet ∧ sharedFiles.IsTree ∧ ∃ (r : RunReport) (after : World Unit),
      (sharing true).lintTasks [⟨0, top "b", false⟩] ⟨sharedFiles, ()⟩ = (.ok r, after) ∧
      ∃ saved : Cache, saved.StraightIn sharedFiles ∧
        after.files.NamesFile saved.path [ownName "/"] saved.bytes ∧
        let left := ((sharing false).lintTasks [⟨0, top "b", false⟩] ⟨after.files, ()⟩).2.files
        after.files.LosesOnly left [ownName "/"] ∧
          left.NamesFile (Cache.locate left ⟨"/"⟩ ⟨"/o"⟩) [ownName "/o"] [7] := by
  have quiet : (sharing true).analyzer.Quiet := fun _ _ => rfl
  have tree := sharedFiles_tree
  obtain ⟨r, after, ok⟩ := sharing_run
  obtain ⟨saved, path, -, save, stays⟩ :=
    @cache_stays _ _ (sharing true) (sharing false) _ _ _ _ quiet rfl tree ok rfl rfl
  have files : after.files =
      sharedFiles.set [ownName "/"] (.file saved.bytes sharedFiles.clock) :=
    congrArg Prod.snd (save.symm.trans (sharing_saves saved path))
  have place : saved.path = top (ownName "/") := path.trans (locate_sharing _ "/")
  have straight : saved.StraightIn sharedFiles := by
    refine stays.read.2 (read_iff.2 ⟨0, ?_⟩)
    rw [place, files]
    exact status_top (Cache.sharedName_own _) (statusAt_set (by simp) _ _)
  obtain ⟨tree', named⟩ := stays.named
  obtain ⟨l, names⟩ := named straight
  obtain rfl : l = [ownName "/"] := top_place (Cache.sharedName_own _) (place ▸ names.1)
  have found : after.files.entry? [ownName "/o"] = some (.file [7] 0) := by
    rw [files, get_set_other fun same => ownName_apart (List.cons.inj same).1.symm]
    exact besideOther_found (ownName_plain _)
  have there : after.files.NamesFile (Cache.locate after.files ⟨"/"⟩ ⟨"/o"⟩) [ownName "/o"] [7] := by
    rw [locate_sharing]
    exact ⟨(top_file (Cache.sharedName_own _) found).2, bytesAt_iff.2 ⟨0, found⟩⟩
  obtain ⟨lost, -, others⟩ := stays.cleared rfl quiet after.files _ saved.bytes tree' stays.located
    names [⟨0, top "b", false⟩] () rfl
  have shares : (sharing false).SharesCache after.files ⟨"/o"⟩ :=
    ⟨rfl, rfl, fun same => ownName_apart (congrArg Path.text same).symm⟩
  obtain ⟨kept, still⟩ := others ⟨"/o"⟩ [ownName "/o"] [7] shares there
  refine ⟨quiet, tree, r, after, ok, saved, straight, names, lost, ?_⟩
  change FileSystem.NamesFile _ (Cache.locate _ ⟨"/"⟩ ⟨"/o"⟩) _ _ at kept
  rw [locate_sharing] at kept ⊢
  exact kept

/-- In a directory there is a link to this directory. -/
def looped : FileSystem := ⟨[(["w"], .directory), (["w", "E"], .link ".")], [], 0⟩

/-- The cache file has the name of the link, and the way to it goes over the link. -/
def throughLoop (cache : Bool) : Dispatcher Unit :=
  { plainRules with
    options := { Options.standard ⟨"w"⟩ with cache, cacheLocation := ⟨"t/../E/E"⟩ } }

namespace Looped
variable {purpose : Purpose} {links : Nat} {rest : List Step} {p : Path}

/-- The files when the directory has been made beside the link. -/
def made : FileSystem := (looped.set ["w", "t"] .directory).relist ["w", "t"]

/-- The files when a cache has taken the place of the link. -/
def lost (bytes : Text.Bytes) : FileSystem := made.set ["w", "E"] (.file bytes 0)

theorem short : ¬255 < "w".utf8ByteSize ∧ ¬255 < "t".utf8ByteSize ∧ ¬255 < "E".utf8ByteSize := by
  decide

theorem made_outer : made.entry? ["w"] = some .directory := rfl

theorem made_link : made.entry? ["w", "E"] = some (.link ".") := rfl

theorem walk_looped (some : rest ≠ []) (read : purpose ≠ .output) :
    looped.walk purpose links [] (.name "w" :: .name "t" :: rest) = .error .notFound := by
  obtain ⟨w, t, -⟩ := short
  have outer : looped.entry? ["w"] = Option.some .directory := rfl
  have free : looped.entry? ["w", "t"] = none := rfl
  simp [walk, w, t, outer, free, some, read]

theorem walk_made {fs : FileSystem} (outer : fs.entry? ["w"] = some .directory)
    (inner : fs.entry? ["w", "t"] = some .directory) (read : purpose ≠ .output) :
    fs.walk purpose links [] (.name "w" :: .name "t" :: .up :: rest) =
      fs.walk purpose links ["w"] rest := by
  obtain ⟨w, t, -⟩ := short
  simp [walk, w, t, outer, inner, read]

theorem walk_link (onward : rest ≠ [] ∨ purpose = .content) (read : purpose ≠ .output) :
    made.walk purpose (links + 1) ["w"] (.name "E" :: rest) =
      made.walk purpose links ["w"] rest := by
  obtain ⟨-, -, e⟩ := short
  have target : linkOrigin "." ["w"] = ["w"] ∧ steps ⟨"."⟩ = [.here] := by decide
  rcases onward with some | rfl
  · simp [walk, e, made_outer, made_link, target, some, read]
  · simp [walk, e, made_outer, made_link, target]

theorem ensure_missing (accepted : refused? p = none) (origin : looped.origin p = [])
    (cut : steps p = .name "w" :: .name "t" :: rest) (some : rest ≠ [])
    (noSlash : endsInSlash p = false) : looped.ensureDirectory p = (.error .notFound, looped) := by
  have failed : looped.createDirectory p = .error .notFound := by
    rw [createDirectory, placeOfEntry, follow, accepted, stepsToEntry_eq noSlash, cut, origin]
    simp [walk_looped some]
  have none : looped.isDirectory p = false := by
    rw [isDirectory, status, locate, FileSystem.place, follow, accepted, cut, origin]
    simp [walk_looped some]
  simp [ensureDirectory, failed, none]

theorem ensure_made (accepted : refused? p = none) (origin : made.origin p = [])
    (cut : steps p = .name "w" :: .name "t" :: .up :: rest)
    (leads : made.walk .content linkLimit ["w"] rest = .ok (.found ["w"])) :
    made.ensureDirectory p = (.ok (), made) := by
  refine ensureDirectory_there (isDirectory_iff.2 ⟨accepted, ["w"], walk_found.1 ?_, made_outer⟩)
  rw [origin, cut, walk_made made_outer rfl (by decide), leads]

theorem made_eq : looped.createDirectories ⟨"w/t/../E"⟩ = (.ok (), made) := by
  have first : looped.createDirectoriesWithin ⟨"w/t"⟩ 3 = (.ok (), made) := by
    obtain ⟨w, t, -⟩ := short
    have accepted : refused? ⟨"w/t"⟩ = none := by decide
    have entry : stepsToEntry ⟨"w/t"⟩ = [.name "w", .name "t"] := by decide
    have origin : looped.origin ⟨"w/t"⟩ = [] := if_neg (by decide)
    have outer : looped.entry? ["w"] = some .directory := rfl
    have free : looped.entry? ["w", "t"] = none := rfl
    simp [createDirectoriesWithin, ensureDirectory, createDirectory, placeOfEntry, follow, accepted,
      entry, origin, walk, w, t, outer, free, made]
  have second : looped.createDirectoriesWithin ⟨"w/t/.."⟩ 4 = (.ok (), made) := by
    have missing := @ensure_missing [.up] ⟨"w/t/.."⟩ (by decide) (if_neg (by decide)) (by decide)
      (by decide) (by decide)
    rw [createDirectoriesWithin_missing (by decide) missing (by decide) first]
    exact @ensure_made [] ⟨"w/t/.."⟩ (by decide) (if_neg (by decide)) (by decide) (by rw [walk])
  have missing := @ensure_missing [.up, .name "E"] ⟨"w/t/../E"⟩ (by decide) (if_neg (by decide))
    (by decide) (by decide) (by decide)
  have depth : (⟨"w/t/../E"⟩ : Path).parts.length = 4 := by decide
  rw [createDirectories, depth,
    createDirectoriesWithin_missing (by decide) missing (by decide) second]
  refine @ensure_made [.name "E"] ⟨"w/t/../E"⟩ (by decide) (if_neg (by decide)) (by decide) ?_
  rw [linkLimit, walk_link (.inr rfl) (by decide), walk]

theorem accepted : refused? ⟨"w/t/../E/E"⟩ = none := by decide

theorem cut : steps ⟨"w/t/../E/E"⟩ = [.name "w", .name "t", .up, .name "E", .name "E"] := by decide

theorem origin {fs : FileSystem} (here : fs.workingDirectory = []) :
    fs.origin ⟨"w/t/../E/E"⟩ = [] := (if_neg (by decide)).trans here

theorem missing : looped.status ⟨"w/t/../E/E"⟩ = .error .notFound := by
  rw [status, locate, FileSystem.place, follow, accepted, cut, origin rfl]
  simp [walk_looped]

theorem replaceable : Replaceable made ⟨"w/t/../E/E"⟩ (.found ["w", "E"]) ["w", "E"] := by
  refine ⟨by decide, by decide, ?_, .inl rfl, by simp [made_link]⟩
  obtain ⟨-, -, e⟩ := short
  rw [placeOfEntry, follow, accepted, stepsToEntry_eq (by decide), cut, origin rfl,
    walk_made made_outer rfl (by decide), linkLimit, walk_link (.inl (by decide)) (by decide)]
  simp [walk, e, made_outer, made_link]

theorem lost_walk (bytes : Text.Bytes) (read : purpose ≠ .output) :
    (lost bytes).walk purpose links [] (steps ⟨"w/t/../E/E"⟩) = .error .notADirectory := by
  obtain ⟨-, -, e⟩ := short
  have outer : FileSystem.entry? (lost bytes) ["w"] = some .directory := rfl
  have file : FileSystem.entry? (lost bytes) ["w", "E"] = some (.file bytes 0) := rfl
  rw [cut, walk_made outer rfl read]
  simp [walk, e, outer, file, read]

theorem lost_status (bytes : Text.Bytes) :
    (lost bytes).status ⟨"w/t/../E/E"⟩ = .error .notADirectory := by
  rw [status, locate, FileSystem.place, follow, accepted, origin rfl]
  simp [lost_walk]

theorem cacheFile_eq (cache : Bool) {fs : FileSystem}
    (plain : fs.isDirectory ⟨"w/t/../E/E"⟩ = false) :
    (throughLoop cache).cacheFile fs = ⟨"w/t/../E/E"⟩ := by
  have joined : (⟨"w"⟩ : Path).join ⟨"t/../E/E"⟩ = ⟨"w/t/../E/E"⟩ := by decide
  have location : (throughLoop cache).cacheFile fs = Cache.locate fs ⟨"t/../E/E"⟩ ⟨"w"⟩ := rfl
  have names : Cache.namesDirectory fs ⟨"t/../E/E"⟩ ⟨"w"⟩ = false := by
    rw [Cache.namesDirectory, joined, plain]
    decide
  rw [location, Cache.locate, names, if_neg (by decide), joined]

theorem saves (c : Cache) (path : c.path = ⟨"w/t/../E/E"⟩) :
    c.save looped = (.ok (), lost c.bytes) := by
  have around : (⟨"w/t/../E/E"⟩ : Path).parent? = some ⟨"w/t/../E"⟩ := by decide
  have directory : c.directory = ⟨"w/t/../E"⟩ := by
    rw [Cache.directory, path, around]
    exact if_neg (by decide)
  rw [Cache.save, directory, made_eq, path]
  simp only [replaceable.replace_eq]
  rfl

theorem lost_opens (cache : Bool) (bytes : Text.Bytes) :
    (throughLoop cache).cacheFile (lost bytes) = ⟨"w/t/../E/E"⟩ ∧
      (throughLoop cache).openCache (lost bytes) =
        (.error (.ofFile ⟨"w/t/../E/E"⟩ .notADirectory), lost bytes) := by
  have place : (throughLoop cache).cacheFile (lost bytes) = ⟨"w/t/../E/E"⟩ :=
    cacheFile_eq cache (by rw [isDirectory, lost_status])
  refine ⟨place, ?_⟩
  rw [openCache, place]
  cases cache with
  | true =>
    have wanted : (throughLoop true).options.cache = true := rfl
    rw [if_pos wanted, Cache.load, FileSystem.read, lost_status]
    rfl
  | false =>
    have unwanted : (throughLoop false).options.cache = false := rfl
    have removed : (lost bytes).remove ⟨"w/t/../E/E"⟩ = .error .notADirectory := by
      rw [remove, placeOfEntry, follow, accepted, stepsToEntry_eq (by decide), origin rfl]
      simp [lost_walk]
    rw [unwanted, if_neg Bool.false_ne_true, Cache.delete, removed]
    rfl

end Looped

/-- Saving can take away the way to the cache. The location still names the same file, but no later
run can load it or delete it. -/
theorem cache_not_stays :
    (throughLoop true).analyzer.Quiet ∧ looped.IsTree ∧
      ∃ (r : RunReport) (after : World Unit) (saved : Cache),
        (throughLoop true).lintTasks [] ⟨looped, ()⟩ = (.ok r, after) ∧
        saved.path = (throughLoop true).cacheFile looped ∧
        saved.save looped = (.ok (), after.files) ∧
        after.files.bytesAt? ["w", "E"] = some saved.bytes ∧
        ∀ cache, (throughLoop cache).cacheFile after.files = saved.path ∧
          (throughLoop cache).openCache after.files =
            (.error (.ofFile saved.path .notADirectory), after.files) := by
  have quiet : (throughLoop true).analyzer.Quiet := fun _ _ => rfl
  have place : (throughLoop true).cacheFile looped = ⟨"w/t/../E/E"⟩ :=
    Looped.cacheFile_eq true (by rw [isDirectory, Looped.missing])
  have load : Cache.load looped ((throughLoop true).cacheFile looped)
      (throughLoop true).options.cacheStrategy = .ok (.empty ⟨"w/t/../E/E"⟩ .metadata) := by
    rw [place, Cache.load, FileSystem.read, Looped.missing]
    rfl
  obtain ⟨r, after, ok⟩ := @lintTasks_none _ ⟨looped, ()⟩ _ quiet (plainRules_stable _) rfl _ load
    fun c path => ⟨_, Looped.saves c (path.trans place)⟩
  obtain ⟨saved, -, path, -, -, save⟩ := lintTasks_located quiet rfl ok
  rw [place] at path
  have files : after.files = Looped.lost saved.bytes :=
    congrArg Prod.snd (save.symm.trans (Looped.saves saved path))
  refine ⟨quiet, tree_of_listed (by simp [looped, entry?]), r, after, saved, ok,
    path.trans place.symm, save, ?_, fun cache => ?_⟩
  · rw [files]
    exact Looped.replaceable.holds saved.bytes 0
  · rw [files, path]
    exact Looped.lost_opens cache saved.bytes

end Dispatcher
end ParallelLint
