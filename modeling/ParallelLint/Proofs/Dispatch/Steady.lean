import ParallelLint.Dispatch.Processing

set_option autoImplicit false

namespace ParallelLint
variable {σ : Type}

/-- An analyzer that leaves the file system alone. -/
def Analyzer.Quiet (a : Analyzer) : Prop := ∀ request fs, (a.analyze request fs).2 = fs

/-- An analyzer that never breaks down. -/
def Analyzer.Total (a : Analyzer) : Prop :=
  ∀ request fs, ∃ result, (a.analyze request fs).1 = .ok result

namespace Resolver

/-- The state after paths have been asked for one by one. -/
def after (r : Resolver σ) (fs : FileSystem) (state : σ) (asked : List Path) : σ :=
  asked.foldl (fun state path => (r.resolve fs state path).2) state

/-- Whatever has been asked for before, these paths are answered as at the beginning. -/
def Steady (r : Resolver σ) (fs : FileSystem) (state : σ) (paths : List Path) : Prop :=
  ∀ asked : List Path, (∀ p ∈ asked, p ∈ paths) →
    ∀ p ∈ paths, (r.resolve fs (r.after fs state asked) p).1 = (r.resolve fs state p).1

theorem after_append (r : Resolver σ) (fs : FileSystem) (state : σ) (asked more : List Path) :
    r.after fs state (asked ++ more) = r.after fs (r.after fs state asked) more :=
  List.foldl_append

theorem after_single (r : Resolver σ) (fs : FileSystem) (state : σ) (path : Path) :
    (r.resolve fs state path).2 = r.after fs state [path] := rfl

end Resolver

namespace Context

def after (ctx : Context σ) (world : World σ) (log : List Task) : World σ :=
  log.foldl (fun world task => (ctx.process task world).2) world

theorem after_append (ctx : Context σ) (world : World σ) (log more : List Task) :
    ctx.after world (log ++ more) = ctx.after (ctx.after world log) more :=
  List.foldl_append

/-- The paths for which processing tasks asks the resolver. -/
def asked (tasks : List Task) : List Path := (tasks.filter fun t => !t.ignored).map Task.path

theorem analyzed_files {ctx : Context σ} (quiet : ctx.analyzer.Quiet) (task : Task)
    (config : ResolvedConfig) (see : Moments) :
    (ctx.analyzed task config see).2 = see.analysis := by
  unfold analyzed
  split
  · rfl
  · rename_i source signature _
    have same := quiet ⟨task.path, source, config, ctx.fix⟩ see.analysis
    split <;> rename_i found <;> rw [found] at same <;> exact same

theorem process_files {ctx : Context σ} (quiet : ctx.analyzer.Quiet) (task : Task)
    (world : World σ) : (ctx.process task world).2.files = world.files := by
  unfold process processAcross
  split
  · split <;> rfl
  split
  · rfl
  · rfl
  · split
    · rfl
    · exact analyzed_files quiet task _ _

theorem process_resolver (ctx : Context σ) (task : Task) (world : World σ) :
    (ctx.process task world).2.resolver =
      ctx.resolver.after world.files world.resolver (asked [task]) := by
  unfold process processAcross
  cases ignored : task.ignored with
  | true =>
    simp only [ite_true, asked, ignored, List.filter, Bool.not_true, List.map_nil]
    split <;> rfl
  | false =>
    simp only [Bool.false_eq_true, ite_false, asked, ignored, List.filter, Bool.not_false,
      List.map_cons, List.map_nil, ← Resolver.after_single]
    simp only [Moments.still]
    cases ctx.resolver.resolve world.files world.resolver task.path with
    | mk answer after =>
      match answer with
      | .error e => rfl
      | .ok none => rfl
      | .ok (some config) =>
        simp only
        split <;> rfl

theorem process_answer (ctx : Context σ) (task : Task) {fs : FileSystem} {state state' : σ}
    (same : task.ignored = false →
      (ctx.resolver.resolve fs state task.path).1 = (ctx.resolver.resolve fs state' task.path).1) :
    (ctx.process task ⟨fs, state⟩).1 = (ctx.process task ⟨fs, state'⟩).1 := by
  unfold process processAcross
  cases ignored : task.ignored with
  | true =>
    simp only [ite_true]
    split <;> rfl
  | false =>
    have same := same ignored
    simp only [Bool.false_eq_true, ite_false, Moments.still]
    cases first : ctx.resolver.resolve fs state task.path with
    | mk answer after =>
      cases second : ctx.resolver.resolve fs state' task.path with
      | mk answer' after' =>
        rw [first, second] at same
        subst same
        match answer with
        | .error e => rfl
        | .ok none => rfl
        | .ok (some config) =>
          simp only
          split <;> rfl

theorem analyzed_answered {ctx : Context σ} (total : ctx.analyzer.Total) (task : Task)
    (config : ResolvedConfig) (see : Moments) :
    ∃ done, (ctx.analyzed task config see).1 = .ok done := by
  unfold analyzed
  split
  · exact ⟨_, rfl⟩
  · rename_i source signature _
    obtain ⟨result, answer⟩ := total ⟨task.path, source, config, ctx.fix⟩ see.analysis
    split <;> rename_i found <;> rw [found] at answer
    · cases answer
    · exact ⟨_, rfl⟩

theorem process_answered {ctx : Context σ} (total : ctx.analyzer.Total) {task : Task}
    {world : World σ} (resolved : task.ignored = false →
      ∃ found, (ctx.resolver.resolve world.files world.resolver task.path).1 = .ok found) :
    ∃ done, (ctx.process task world).1 = .ok done := by
  unfold process processAcross
  cases ignored : task.ignored with
  | true =>
    simp only [ite_true]
    split <;> exact ⟨_, rfl⟩
  | false =>
    obtain ⟨found, same⟩ := resolved ignored
    simp only [Bool.false_eq_true, ite_false, Moments.still]
    cases answer : ctx.resolver.resolve world.files world.resolver task.path with
    | mk found' after =>
      rw [answer] at same
      subst same
      match found with
      | none => exact ⟨_, rfl⟩
      | some config =>
        simp only
        split
        · exact ⟨_, rfl⟩
        · exact analyzed_answered total task config _

theorem asked_append (tasks more : List Task) :
    asked (tasks ++ more) = asked tasks ++ asked more := by
  simp only [asked, List.filter_append, List.map_append]

theorem after_eq {ctx : Context σ} (quiet : ctx.analyzer.Quiet) (world : World σ)
    (log : List Task) :
    ctx.after world log =
      ⟨world.files, ctx.resolver.after world.files world.resolver (asked log)⟩ := by
  induction log generalizing world with
  | nil => rfl
  | cons task rest ih =>
    have files := process_files quiet task world
    have resolver := process_resolver ctx task world
    calc ctx.after world (task :: rest) = ctx.after (ctx.process task world).2 rest := rfl
      _ = ⟨world.files, ctx.resolver.after world.files (ctx.resolver.after world.files
            world.resolver (asked [task])) (asked rest)⟩ := by rw [ih, files, resolver]
      _ = ⟨world.files, ctx.resolver.after world.files world.resolver (asked (task :: rest))⟩ := by
          rw [← Resolver.after_append, ← asked_append]
          rfl

/-- What tasks are answered does not depend on the tasks that were processed before. -/
def Steady (ctx : Context σ) (world : World σ)
    (answer : Task → Except Breakdown (Outcome × Stats)) : Prop :=
  ∀ log : List Task, (∀ t ∈ log, t ∈ ctx.tasks) →
    ∀ t ∈ ctx.tasks, (ctx.process t (ctx.after world log)).1 = answer t

theorem asked_subset {log tasks : List Task} (listed : ∀ t ∈ log, t ∈ tasks) :
    ∀ p ∈ asked log, p ∈ asked tasks := by
  intro p hp
  obtain ⟨t, ht, rfl⟩ := List.mem_map.1 hp
  obtain ⟨ht, plain⟩ := List.mem_filter.1 ht
  exact List.mem_map_of_mem (List.mem_filter.2 ⟨listed t ht, plain⟩)

theorem mem_asked {tasks : List Task} {task : Task} (ht : task ∈ tasks)
    (plain : task.ignored = false) : task.path ∈ asked tasks :=
  List.mem_map_of_mem (List.mem_filter.2 ⟨ht, by rw [plain]; rfl⟩)

theorem steady_of_quiet {ctx : Context σ} {world : World σ} (quiet : ctx.analyzer.Quiet)
    (steady : ctx.resolver.Steady world.files world.resolver (asked ctx.tasks)) :
    ctx.Steady world fun t => (ctx.process t world).1 := by
  intro log listed t ht
  rw [after_eq quiet]
  exact process_answer ctx t fun plain =>
    steady (asked log) (asked_subset listed) t.path (mem_asked ht plain)

end Context
end ParallelLint
