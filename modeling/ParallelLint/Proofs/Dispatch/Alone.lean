import ParallelLint.Proofs.Config.Searching
import ParallelLint.Proofs.Config.Spelling
import ParallelLint.Proofs.Dispatch.Renewal

set_option autoImplicit false

namespace ParallelLint
variable {σ : Type}

namespace Resolver

/-- What has been found for a path is found again, whatever happens to the files and whatever else is
asked for in between. -/
def Firm (r : Resolver σ) : Prop :=
  ∀ fs state path found, (r.resolve fs state path).1 = .ok found →
    ∀ calls fs', (r.resolve fs' (r.through state ((fs, path) :: calls)) path).1 = .ok found

theorem nearest_firm : Resolver.nearest.Firm := fun _ _ _ _ answer calls fs' =>
  Nearest.nearest_settled answer rfl calls fs'

/-- Sees other files at every call, whatever files the caller sees. -/
def across (r : Resolver σ) (files : Nat → FileSystem) : Resolver (σ × Nat) where
  resolve _ state path :=
    let (answer, after) := r.resolve (files state.2) state.1 path
    (answer, (after, state.2 + 1))

variable {r : Resolver σ}

theorem across_through (r : Resolver σ) (files : Nat → FileSystem) (state : σ × Nat)
    (calls : List (FileSystem × Path)) :
    ∃ calls', ((r.across files).through state calls).1 = r.through state.1 calls' := by
  induction calls generalizing state with
  | nil => exact ⟨[], rfl⟩
  | cons call rest ih =>
    obtain ⟨calls', same⟩ := ih ((r.across files).resolve call.1 state call.2).2
    exact ⟨(files state.2, call.2) :: calls', same⟩

theorem Firm.across (firm : r.Firm) (files : Nat → FileSystem) : (r.across files).Firm := by
  intro fs state path found answer calls fs'
  obtain ⟨calls', same⟩ := r.across_through files ((r.across files).resolve fs state path).2 calls
  have again := firm (files state.2) state.1 path found answer calls'
    (files ((r.across files).through state ((fs, path) :: calls)).2)
  have last : ((r.across files).through state ((fs, path) :: calls)).1 =
      r.through state.1 ((files state.2, path) :: calls') := same
  rw [← last] at again
  exact again

theorem after_through (r : Resolver σ) (fs : FileSystem) (state : σ) (asked : List Path) :
    r.after fs state asked = r.through state (asked.map fun p => (fs, p)) := by
  rw [after, through, List.foldl_map]

theorem through_append (r : Resolver σ) (state : σ) (calls more : List (FileSystem × Path)) :
    r.through state (calls ++ more) = r.through (r.through state calls) more :=
  List.foldl_append

end Resolver

namespace Context
variable {ctx : Context σ} {world : World σ}

/-- The world that a task finds when the tasks before it have been processed. -/
def atTurn (ctx : Context σ) (world : World σ) (task : Task) : World σ :=
  ctx.after world (ctx.tasks.take task.index)

theorem after_resolver (ctx : Context σ) (world : World σ) (log : List Task) :
    ∃ calls, (ctx.after world log).resolver = ctx.resolver.through world.resolver calls := by
  induction log generalizing world with
  | nil => exact ⟨[], rfl⟩
  | cons task rest ih =>
    obtain ⟨calls, same⟩ := ih (ctx.process task world).2
    rw [process_resolver, Resolver.after_through, ← Resolver.through_append] at same
    exact ⟨_, same⟩

theorem answered_firm (firm : ctx.resolver.Firm) {earlier : List Task} (later : List Task)
    {task : Task} (plain : task.ignored = false) {done : Outcome × Stats}
    (answer : (ctx.process task (ctx.after world earlier)).1 = .ok done) :
    ∃ found, (ctx.resolver.resolve (ctx.after world earlier).files
        (ctx.after world earlier).resolver task.path).1 = .ok found ∧
      ∀ fs calls, (ctx.resolver.resolve fs (ctx.resolver.through
        (ctx.after world (earlier ++ task :: later)).resolver calls) task.path).1 = .ok found := by
  obtain ⟨found, resolved⟩ := process_resolves plain answer
  refine ⟨found, resolved, fun fs calls => ?_⟩
  obtain ⟨calls', rest⟩ := ctx.after_resolver (ctx.process task (ctx.after world earlier)).2 later
  have own : asked [task] = [task.path] := by simp [asked, plain]
  rw [process_resolver, own] at rest
  have last : (ctx.after world (earlier ++ task :: later)).resolver =
      ctx.resolver.through (ctx.after world earlier).resolver
        (((ctx.after world earlier).files, task.path) :: calls') := by
    rw [after_append]
    exact rest
  rw [last, ← Resolver.through_append]
  exact firm _ _ _ _ resolved _ fs

theorem turn_split (numbered : Task.misnumbered? ctx.tasks = none) {task : Task}
    (ht : task ∈ ctx.tasks) :
    ctx.tasks[task.index]? = some task ∧
      ctx.tasks = ctx.tasks.take task.index ++ task :: ctx.tasks.drop (task.index + 1) := by
  obtain ⟨i, found⟩ := List.mem_iff_getElem?.1 ht
  rw [← Task.index_eq numbered found] at found
  exact ⟨found, (Pool.split_at found task).1⟩

end Context

namespace Pool
variable {ctx : Context σ} {world : World σ}

/-- The only worker has processed the first tasks, each in its turn. -/
structure Alone (ctx : Context σ) (world : World σ) (s : Shared σ) (w : Worker) (n : Nat) : Prop where
  present : s.world = ctx.after world (ctx.tasks.take n)
  answered : ∀ t ∈ ctx.tasks.take n,
    (ctx.process t (ctx.atTurn world t)).1 = .ok (ctx.done (ctx.atTurn world t) t)
  batch : w.batch.reverse = (ctx.tasks.take n).map fun t => (ctx.done (ctx.atTurn world t) t).1
  ready : w.phase = .ready → s.cursor.next.toNat = n
  holding : ∀ t, w.phase = .holding t →
    s.cursor.next.toNat = n + 1 ∧ ctx.tasks[n]? = some t
  done : w.phase = .done → ctx.tasks.length ≤ n

/-- As long as the worker does not break down. -/
def InTurn (ctx : Context σ) (world : World σ) (s : Shared σ) (w : Worker) : Prop :=
  w.isActive = true ∨ w.phase = .done → ∃ n, Alone ctx world s w n

theorem Move.inTurn {p p' : Pool σ} {w w' : Worker}
    (room : ctx.tasks.length + 1 < UInt64.size) (numbered : Task.misnumbered? ctx.tasks = none)
    (h : InTurn ctx world p.shared w) (move : Move ctx p w p' w') :
    InTurn ctx world p'.shared w' := by
  have countable : ctx.Countable := by unfold Context.Countable; omega
  cases move with
  | @claim task ready below found =>
    intro _
    obtain ⟨n, alone⟩ := h (.inl (by simp [Worker.isActive, ready]))
    have here := alone.ready ready
    refine ⟨n, alone.present, alone.answered, alone.batch, by rintro ⟨⟩, ?_, by rintro ⟨⟩⟩
    rintro t ⟨⟩
    exact ⟨by rw [← here]; exact Worker.claim_toNat below, here ▸ found⟩
  | leave ready beyond =>
    intro _
    obtain ⟨n, alone⟩ := h (.inl (by simp [Worker.isActive, ready]))
    have here := alone.ready ready
    have past := UInt64.le_iff_toNat_le.1 beyond
    rw [Context.count_toNat countable, here] at past
    exact ⟨n, alone.present, alone.answered, alone.batch, by rintro ⟨⟩, by rintro t ⟨⟩, fun _ => past⟩
  | @finish task outcome stats holding answer =>
    intro _
    obtain ⟨n, alone⟩ := h (.inl (by simp [Worker.isActive, holding]))
    obtain ⟨next, found⟩ := alone.holding task holding
    have turn : ctx.atTurn world task = p.shared.world := by
      rw [Context.atTurn, Task.index_eq numbered found, alone.present]
    have more : ctx.tasks.take (n + 1) = ctx.tasks.take n ++ [task] := by
      rw [List.take_add_one, found]
      rfl
    rw [← turn] at answer
    have result : ctx.done (ctx.atTurn world task) task = (outcome, stats) := by
      rw [Context.done, answer]
    refine ⟨n + 1, ?_, ?_, ?_, fun _ => next, by rintro t ⟨⟩, by rintro ⟨⟩⟩
    · rw [more, Context.after_append, ← alone.present]
      rfl
    · intro t ht
      rw [more] at ht
      rcases List.mem_append.1 ht with ht | ht
      · exact alone.answered t ht
      · rw [List.mem_singleton.1 ht, result]
        exact answer
    · rw [more, List.map_append, ← alone.batch, List.map_singleton, result, List.reverse_cons]
  | breakDown | mark | exhaust | report => exact fun h => by simp [Worker.isActive] at h

theorem Reaches.inTurn {p p' : Pool σ} {w : Worker} (room : ctx.tasks.length + 1 < UInt64.size)
    (numbered : Task.misnumbered? ctx.tasks = none) (single : p.workers = [w])
    (h : InTurn ctx world p.shared w) (reaches : Reaches ctx p p') :
    ∃ w', p'.workers = [w'] ∧ InTurn ctx world p'.shared w' := by
  induction reaches with
  | refl => exact ⟨w, single, h⟩
  | tail before step ih =>
    obtain ⟨v, single, h⟩ := ih
    obtain ⟨workers, move⟩ := step
    obtain ⟨rfl, same⟩ | ⟨b, -, more⟩ := List.cons_eq_append_iff.1 (single.symm.trans workers)
    · cases same
      have moved := move.inTurn room numbered h
      exact ⟨_, rfl, moved⟩
    · cases b <;> cases more

end Pool

namespace Supervisor
variable {ctx : Context σ} {world : World σ} {schedule : List Nat} {output : Output}
  {sup : Supervisor} {shared : Shared σ}

theorem run_succeeds {workers : Nat} {shared : Shared σ}
    (none : ((Pool.start (max workers 1) shared).run ctx schedule).firstError = none) :
    (Supervisor.ofCount workers).run ctx schedule shared =
      let p := (Pool.start (max workers 1) shared).run ctx schedule
      (.ok p.output, { Supervisor.ofCount workers with state := p.finish }, p.shared) := by
  simp only [run, ofCount, none, ne_eq, not_true_eq_false, ite_false]

theorem run_succeeded {workers : Nat} {before : Shared σ}
    (ran : (Supervisor.ofCount workers).run ctx schedule before = (.ok output, sup, shared)) :
    let p := (Pool.start (max workers 1) before).run ctx schedule
    p.firstError = none ∧ p.output = output ∧ p.shared = shared := by
  simp only [run, ofCount, ne_eq, not_true_eq_false, ite_false] at ran
  have answer := congrArg Prod.fst ran
  simp only at answer
  split at answer
  · cases answer
  · rename_i none
    exact ⟨none, Except.ok.inj answer, congrArg (fun a => a.2.2) ran⟩

theorem run_alone (numbered : Task.misnumbered? ctx.tasks = none)
    (room : ctx.tasks.length + 1 < UInt64.size)
    (ran : (Supervisor.ofCount 1).run ctx schedule ⟨.fresh, world⟩ = (.ok output, sup, shared)) :
    shared.world = ctx.after world ctx.tasks ∧
      (∀ t ∈ ctx.tasks,
        (ctx.process t (ctx.atTurn world t)).1 = .ok (ctx.done (ctx.atTurn world t) t)) ∧
      output.outcomes = ctx.tasks.map fun t => (ctx.done (ctx.atTurn world t) t).1 := by
  have countable : ctx.Countable := by unfold Context.Countable; omega
  let start := Pool.start 1 ⟨.fresh, world⟩
  let p := start.run ctx schedule
  obtain ⟨reached, stopped⟩ := Pool.run_reaches countable schedule start
  have begun : Pool.InTurn ctx world start.shared (.fresh 0) := fun _ =>
    ⟨0, rfl, by simp, rfl, fun _ => rfl, by rintro t ⟨⟩, by rintro ⟨⟩⟩
  obtain ⟨w, single, turn⟩ := Pool.Reaches.inTurn room numbered rfl begun reached
  have reported := (Pool.start_reported ctx 1 ⟨.fresh, world⟩).reaches reached
  obtain ⟨none, reports, same⟩ : p.firstError = none ∧ p.output = output ∧ p.shared = shared :=
    run_succeeded ran
  have ended : w.phase = .done := reported.done stopped none w (single ▸ List.mem_singleton_self w)
  obtain ⟨n, alone⟩ := turn (.inr ended)
  have all : ctx.tasks.take n = ctx.tasks := List.take_of_length_le (alone.done ended)
  have outcomes : p.output.outcomes = w.batch.reverse := by
    rw [Pool.output, Pool.reports, single]
    simp [ended, Output.ofReports]
  refine ⟨?_, ?_, ?_⟩
  · rw [← same, alone.present, all]
  · simpa only [all] using alone.answered
  · rw [← reports, outcomes, alone.batch, all]

theorem run_alone_stores {cache : Cache} (firm : ctx.resolver.Firm) (present : ctx.cache = some cache)
    (numbered : Task.misnumbered? ctx.tasks = none) (room : ctx.tasks.length + 1 < UInt64.size)
    (ran : (Supervisor.ofCount 1).run ctx schedule ⟨.fresh, world⟩ = (.ok output, sup, shared))
    (fs : FileSystem) :
    ∃ (entry : Task → Option CacheEntry) (state : σ),
      (∀ t ∈ ctx.tasks, ∀ e, entry t = some e ↔ ctx.Renews cache (ctx.atTurn world t) t e) ∧
      let news := ctx.tasks.filterMap fun t => (entry t).map fun e => (t.path, e)
      let updated := cache.insertAll news
      cache.reconcile ctx.resolver fs ctx.tasks
          (mergeOutcomes output.outcomes ctx.tasks.length) shared.world.resolver =
        (.ok ⟨news.length, updated.entries.entries.countP fun e => !fs.contains e.1⟩,
          updated.prune fs, state) := by
  obtain ⟨ended, answered, outcomes⟩ := run_alone numbered room ran
  let last := shared.world.resolver
  let found := ctx.resolver.config? fs last
  let done := fun t => ctx.done (ctx.atTurn world t) t
  -- the configuration of a task is the same in its turn and at the end
  have resolved : ∀ t ∈ ctx.tasks, t.ignored = false →
      (ctx.resolver.resolve (ctx.atTurn world t).files (ctx.atTurn world t).resolver t.path).1 =
        .ok (found t.path) ∧
      ∀ calls, (ctx.resolver.resolve fs (ctx.resolver.through last calls) t.path).1 =
        .ok (found t.path) := by
    intro t ht plain
    obtain ⟨config, first, later⟩ := Context.answered_firm firm
      (ctx.tasks.drop (t.index + 1)) plain (answered t ht)
    rw [← (Context.turn_split numbered ht).2, ← ended] at later
    have same : found t.path = config := Resolver.config_found (later fs [])
    rw [same]
    exact ⟨first, later fs⟩
  have answers : ctx.resolver.Answers fs last ctx.tasks found := by
    intro t ht plain asked _
    rw [Resolver.after_through]
    exact (resolved t ht plain).2 _
  have indexed : ∀ t ∈ ctx.tasks, (done t).1.index = t.index := fun t ht =>
    Context.process_index (answered t ht)
  let entry := fun t => ((done t).1.merged?.bind (Cache.new? ctx.tasks found)).map Prod.snd
  have renews : ∀ t ∈ ctx.tasks, ∀ p e, (done t).1.merged?.bind (Cache.new? ctx.tasks found) =
      some (p, e) ↔ p = t.path ∧ ctx.Renews cache (ctx.atTurn world t) t e := fun t ht p e =>
    Context.new_renews present (Context.turn_split numbered ht).1 (answered t ht)
      fun plain => (resolved t ht plain).1
  have news : (mergeOutcomes output.outcomes ctx.tasks.length).filterMap
      (Cache.new? ctx.tasks found) =
        ctx.tasks.filterMap fun t => (entry t).map fun e => (t.path, e) := by
    rw [outcomes, mergeOutcomes_map numbered indexed, List.filterMap_filterMap]
    refine List.filterMap_congr fun t ht => ?_
    cases made : (done t).1.merged?.bind (Cache.new? ctx.tasks found) with
    | none => simp only [entry, made, Option.map_none]
    | some new =>
      obtain ⟨path, -⟩ := (renews t ht new.1 new.2).1 made
      simp only [entry, made, Option.map_some, ← path]
  have nothing : ∀ p ∈ ([] : List Path), p ∈ Context.asked ctx.tasks := by rintro p ⟨⟩
  obtain ⟨asked, -, stored⟩ := Cache.storeAll_answers answers
    (mergeOutcomes output.outcomes ctx.tasks.length) nothing cache 0
  rw [news, Nat.zero_add] at stored
  refine ⟨entry, ctx.resolver.after fs last asked, fun t ht e => ?_, ?_⟩
  · rw [Option.map_eq_some_iff]
    constructor
    · rintro ⟨⟨p, e⟩, made, rfl⟩
      exact ((renews t ht p e).1 made).2
    · exact fun h => ⟨(t.path, e), (renews t ht t.path e).2 ⟨rfl, h⟩, rfl⟩
  · simp only [Cache.reconcile, ← Cache.prune_size]
    change Cache.storeAll _ _ _ ⟨_, _, last⟩ _ = _ at stored
    rw [stored]

end Supervisor

namespace Nearest

/-- What a resolver has found stays found, whatever happens to the files. It parses no configuration
file twice, and counts those that it has parsed. So a run of one worker stores every result under the
configuration that it was found with. -/
theorem lasting :
    (∀ (r : Nearest) (fs fs' : FileSystem) (path other : Path) (found : Option ResolvedConfig)
      (calls : List (FileSystem × Path)),
      (Resolver.nearest.resolve fs r path).1 = .ok found → Beside path other →
        (Resolver.nearest.resolve fs' (Resolver.nearest.through r ((fs, path) :: calls)) other).1 =
          .ok found) ∧
    (∀ (r : Nearest) (calls : List (FileSystem × Path)),
      ((parsed r calls).map Path.parts).Nodup ∧
      (∀ p ∈ parsed r calls, r.byFile.find? p = none) ∧
      (Resolver.nearest.through r calls).loadedFiles =
        r.loadedFiles + (parsed r calls).length) ∧
    ∀ (files : Nat → FileSystem) (ctx : Context (Nearest × Nat)) (cache : Cache)
      (world : World (Nearest × Nat)) (schedule : List Nat) (output : Output) (sup : Supervisor)
      (shared : Shared (Nearest × Nat)) (fs : FileSystem),
      ctx.resolver = Resolver.nearest.across files → ctx.cache = some cache →
      Task.misnumbered? ctx.tasks = none → ctx.tasks.length + 1 < UInt64.size →
      (Supervisor.ofCount 1).run ctx schedule ⟨.fresh, world⟩ = (.ok output, sup, shared) →
        ∃ (entry : Task → Option CacheEntry) (state : Nearest × Nat),
          (∀ t ∈ ctx.tasks, ∀ e, entry t = some e ↔ ctx.Renews cache (ctx.atTurn world t) t e) ∧
          let news := ctx.tasks.filterMap fun t => (entry t).map fun e => (t.path, e)
          let updated := cache.insertAll news
          cache.reconcile ctx.resolver fs ctx.tasks
              (mergeOutcomes output.outcomes ctx.tasks.length) shared.world.resolver =
            (.ok ⟨news.length, updated.entries.entries.countP fun e => !fs.contains e.1⟩,
              updated.prune fs, state) := by
  refine ⟨fun r fs fs' path other found calls answer beside =>
    nearest_settled answer beside calls fs', fun r calls => ?_, ?_⟩
  · obtain ⟨once, unknown⟩ := parsed_once r calls
    exact ⟨once, unknown, loadedFiles_through r calls⟩
  · intro files ctx cache world schedule output sup shared fs memoised present numbered room ran
    have firm : ctx.resolver.Firm := memoised ▸ Resolver.nearest_firm.across files
    exact Supervisor.run_alone_stores firm present numbered room ran fs

section
variable (files : Nat → FileSystem) (fs : FileSystem)

/-- One file below the root, under the configurations that are there from call to call. -/
def changing : Context (Nearest × Nat) where
  tasks := [⟨0, FileSystem.top "b", false⟩]
  resolver := Resolver.nearest.across files
  analyzer := textRules
  cache := some (.empty (FileSystem.top "c") .metadata)
  fix := .off
  warnIgnored := false

def unchanged : World (Nearest × Nat) := ⟨fs, .fresh .empty none, 0⟩

theorem top_directories : directories (FileSystem.top "b") = [⟨"/"⟩] := by decide

theorem top_config : (⟨"/"⟩ : Path).join fileName = FileSystem.top ".lintpool.toml" := by decide

theorem changing_found (free : FileSystem.entry? (files 0) [".lintpool.toml"] = none) :
    ((changing files).resolver.resolve fs (unchanged fs).resolver (FileSystem.top "b")).1 =
      .ok (some (.ofConfig .empty none)) := by
  have missing : (files 0).isFile (FileSystem.top ".lintpool.toml") = false := by
    rw [FileSystem.isFile, FileSystem.status_top_free (by decide) free]
  change (Resolver.nearest.resolve (files 0) (.fresh .empty none) (FileSystem.top "b")).1 = _
  rw [nearest_answer, resolve, top_directories, resolveIn_cons]
  simp only [lookIn, top_config, missing]
  rfl

theorem changing_runs (free : FileSystem.entry? (files 0) [".lintpool.toml"] = none) :
    ∃ output sup shared, (Supervisor.ofCount 1).run (changing files) [] ⟨.fresh, unchanged fs⟩ =
      (.ok output, sup, shared) := by
  have found := changing_found files fs free
  have firm : (changing files).resolver.Firm := Resolver.nearest_firm.across files
  have steady : (changing files).resolver.Steady fs (unchanged fs).resolver
      (Context.asked (changing files).tasks) := by
    intro asked listed p hp
    rw [List.mem_singleton.1 hp]
    cases asked with
    | nil => rfl
    | cons q rest =>
      have first : q = FileSystem.top "b" := List.mem_singleton.1 (listed q (List.mem_cons_self ..))
      rw [first, Resolver.after_through, List.map_cons]
      exact (firm _ _ _ _ found _ fs).trans found.symm
  have answered : ∀ t ∈ (changing files).tasks,
      ∃ done, ((changing files).process t (unchanged fs)).1 = .ok done := fun t ht =>
    Context.process_answered (fun _ _ => ⟨_, rfl⟩) fun _ => by
      rw [List.mem_singleton.1 ht]
      exact ⟨_, found⟩
  have room : (changing files).tasks.length + 1 < UInt64.size := by
    change 1 + 1 < UInt64.size
    decide
  have none := (Pool.run_output 1 Nat.one_pos room
    (Context.steady_done (fun _ _ => rfl) steady answered) []).1
  exact ⟨_, _, _, Supervisor.run_succeeds none⟩

end

theorem lasting_appeared :
    let bare : FileSystem := ⟨[(["b"], .file [] 0)], [], 0⟩
    let spoiled : FileSystem := ⟨[(["b"], .file [] 0), ([".lintpool.toml"], .file [255] 0)], [], 0⟩
    let ctx := changing fun n => if n = 0 then bare else spoiled
    (∃ e, (Resolver.nearest.resolve spoiled (.fresh .empty none) (FileSystem.top "b")).1 =
      .error e) ∧
    ∃ output sup shared pruned kept state,
      (Supervisor.ofCount 1).run ctx [] ⟨.fresh, unchanged bare⟩ = (.ok output, sup, shared) ∧
      (Cache.empty (FileSystem.top "c") .metadata).reconcile ctx.resolver spoiled ctx.tasks
        (mergeOutcomes output.outcomes ctx.tasks.length) shared.world.resolver =
          (.ok ⟨1, pruned⟩, kept, state) := by
  intro bare spoiled ctx
  have failing : ∃ e, (Resolver.nearest.resolve spoiled (.fresh .empty none)
      (FileSystem.top "b")).1 = .error e := by
    have there : spoiled.status (FileSystem.top ".lintpool.toml") = .ok (.file [255] 0) :=
      FileSystem.status_top (by decide) rfl
    have file : spoiled.isFile ((⟨"/"⟩ : Path).join fileName) = true :=
      top_config ▸ FileSystem.isFile_status.2 ⟨_, there, rfl⟩
    have unreadable : spoiled.readText ((⟨"/"⟩ : Path).join fileName) =
        .error FileSystem.notUtf8 := by
      rw [top_config, FileSystem.readText, FileSystem.read, there]
      rfl
    have failed := resolve_unreadable .empty none top_directories file unreadable
    exact ⟨_, by rw [nearest_answer, failed]; rfl⟩
  let task : Task := ⟨0, FileSystem.top "b", false⟩
  obtain ⟨output, sup, shared, ran⟩ := changing_runs
    (fun n => if n = 0 then bare else spoiled) bare rfl
  obtain ⟨entry, state, renews, stored⟩ := lasting.2.2 (fun n => if n = 0 then bare else spoiled)
    ctx (.empty (FileSystem.top "c") .metadata) (unchanged bare) [] output sup shared spoiled rfl rfl
    rfl (by decide) ran
  have status : bare.status task.path = .ok (.file [] 0) :=
    FileSystem.status_top (by decide) rfl
  have read : Signature.readAt bare task.path .metadata = .ok ([], ⟨0, some 0, none⟩) := by
    rw [Signature.readAt, Signature.readAcross, status, FileSystem.read, status]
    rfl
  have found := changing_found (fun n => if n = 0 then bare else spoiled) bare rfl
  have made := (renews task (List.mem_singleton_self _) _).2
    ⟨rfl, _, _, _, found, .fresh (by rintro _ ⟨⟩) read rfl rfl, rfl, rfl⟩
  have one : (ctx.tasks.filterMap fun t => (entry t).map fun e => (t.path, e)).length = 1 := by
    change ([task].filterMap fun t => (entry t).map fun e => (t.path, e)).length = 1
    rw [List.filterMap_cons, made]
    rfl
  simp only [one] at stored
  exact ⟨failing, output, sup, shared, _, _, state, ran, stored⟩

end Nearest
end ParallelLint
