import Mathlib.Data.List.Forall2
import ParallelLint.Proofs.Pool.Claims

set_option autoImplicit false

namespace ParallelLint
variable {σ : Type}

theorem Context.Steady.gave {ctx : Context σ} {world : World σ} {answer : Task → Answer}
    (steady : ctx.Steady world answer) {log : List Task} (listed : ∀ t ∈ log, t ∈ ctx.tasks)
    {task : Task} {given : Answer} (gave : ctx.Gave world log task given) :
    answer task = given := by
  obtain ⟨earlier, later, rfl, same⟩ := gave
  rw [← same, steady earlier (fun t ht => listed t (List.mem_append_left _ ht)) task
    (listed task (by simp))]

/-- What a worker has broken down with and not reported. -/
def Worker.cause? (w : Worker) : Option Breakdown :=
  match w.phase with
  | .broken cause | .failing cause | .stopping cause => some cause
  | _ => none

namespace Pool

def hasMarked (w : Worker) : Bool :=
  match w.phase with
  | .failing _ | .stopping _ | .failed => true
  | _ => false

/-- At some moment on the way, a worker held a task that broke down with this cause. -/
def Raised (ctx : Context σ) (start p : Pool σ) (id : Nat) (cause : Breakdown) : Prop :=
  ∃ q w task, Reaches ctx start q ∧ Reaches ctx q p ∧ w ∈ q.workers ∧ w.id = id ∧
    w.phase = .holding task ∧ (ctx.process task q.shared.world).1 = .error cause

theorem Raised.later {ctx : Context σ} {start p p' : Pool σ} {id : Nat} {cause : Breakdown}
    (raised : Raised ctx start p id cause) (reaches : Reaches ctx p p') :
    Raised ctx start p' id cause := by
  obtain ⟨q, w, task, before, after, rest⟩ := raised
  exact ⟨q, w, task, before, after.trans reaches, rest⟩

/-- What is known of the failure of a run. -/
structure Reported (ctx : Context σ) (start p : Pool σ) : Prop where
  reached : Reaches ctx start p
  state : p.state = if p.workers.any hasMarked then .failed else .running
  reported : p.firstError.isSome = p.workers.any fun w => w.phase = .failed
  causes : ∀ w ∈ p.workers, ∀ cause, w.cause? = some cause → Raised ctx start p w.id cause
  error : ∀ e, p.firstError = some e →
    ∃ id cause, Raised ctx start p id cause ∧ e = cause.toError id

theorem start_reported (ctx : Context σ) (workers : Nat) (shared : Shared σ) :
    Reported ctx (Pool.start workers shared) (Pool.start workers shared) where
  reached := .refl
  state := by simp [Pool.start, hasMarked, Worker.fresh]
  reported := by simp [Pool.start, Worker.fresh]
  causes := by
    intro w hw cause some
    simp only [Pool.start, List.mem_map] at hw
    obtain ⟨i, -, rfl⟩ := hw
    simp [Worker.cause?, Worker.fresh] at some
  error := by simp [Pool.start]

theorem Move.cause {ctx : Context σ} {p p' : Pool σ} {w w' : Worker} (move : Move ctx p w p' w')
    {cause : Breakdown} (found : w'.cause? = some cause) :
    w.cause? = some cause ∨
      ∃ task, w.phase = .holding task ∧ (ctx.process task p.shared.world).1 = .error cause := by
  cases move with
  | claim ready | leave ready | finish holding => simp [Worker.cause?] at found
  | @breakDown task cause holding answer =>
    simp only [Worker.cause?, Option.some.injEq] at found
    exact .inr ⟨task, holding, found ▸ answer⟩
  | mark before | exhaust before =>
    simp only [Worker.cause?] at found
    exact .inl (by simpa only [Worker.cause?, before] using found)
  | report stopping => simp [Worker.cause?] at found

theorem Move.id {ctx : Context σ} {p p' : Pool σ} {w w' : Worker} (move : Move ctx p w p' w') :
    w'.id = w.id := by
  cases move <;> rfl

theorem Move.state {ctx : Context σ} {p p' : Pool σ} {w w' : Worker} (move : Move ctx p w p' w')
    {others : Bool} (state : p.state = if hasMarked w || others then .failed else .running) :
    p'.state = if hasMarked w' || others then .failed else .running := by
  cases move with
  | claim before | leave before | finish before | breakDown before | exhaust before
  | report before =>
    simp only [hasMarked, before] at state
    simp only [hasMarked]
    exact state
  | mark broken => simp [hasMarked]

theorem Move.reported {ctx : Context σ} {p p' : Pool σ} {w w' : Worker}
    (move : Move ctx p w p' w') {others : Bool}
    (reported : p.firstError.isSome = (decide (w.phase = .failed) || others)) :
    p'.firstError.isSome = (decide (w'.phase = .failed) || others) := by
  cases move with
  | claim before | leave before | finish before | breakDown before | mark before
  | exhaust before =>
    simp only [before, reduceCtorEq, decide_false] at reported
    simp only [reduceCtorEq, decide_false]
    exact reported
  | report stopping => simp [keepError]

theorem Move.error {ctx : Context σ} {p p' : Pool σ} {w w' : Worker} (move : Move ctx p w p' w')
    {e : LintError} (some : p'.firstError = some e) :
    p.firstError = .some e ∨ ∃ cause, w.cause? = .some cause ∧ e = cause.toError w.id := by
  cases move with
  | claim before | leave before | finish before | breakDown before | mark before
  | exhaust before => exact .inl some
  | @report cause stopping =>
    simp only [keepError] at some
    cases known : p.firstError with
    | some first => simp only [known, Option.some_or] at some; exact .inl some
    | none =>
      simp only [known, Option.none_or, Option.some.injEq] at some
      exact .inr ⟨cause, by simp [Worker.cause?, stopping], some.symm⟩

theorem Reported.step {ctx : Context σ} {start p p' : Pool σ} (h : Reported ctx start p)
    (step : Step ctx p p') : Reported ctx start p' := by
  have next : Reaches ctx p p' := .single step
  obtain ⟨workers, move⟩ := step
  rename_i before rest w w' p'
  have split := any_split (p := { p' with workers := before ++ w' :: rest }) rfl
  have state := h.state
  have reported := h.reported
  rw [any_split workers] at state reported
  have caused : ∀ cause, w.cause? = some cause → Raised ctx start p w.id cause :=
    h.causes w (by simp [workers])
  refine ⟨h.reached.trans next, ?_, ?_, ?_, ?_⟩
  · rw [split]
    exact move.state state
  · rw [split]
    exact move.reported reported
  · intro v hv cause found
    rcases List.mem_append.1 hv with hv | hv
    · exact (h.causes v (by simp [workers, hv]) cause found).later next
    rcases List.mem_cons.1 hv with rfl | hv
    · rw [move.id]
      rcases move.cause found with old | ⟨task, holding, answer⟩
      · exact (caused cause old).later next
      · exact ⟨p, w, task, h.reached, next, by simp [workers], rfl, holding, answer⟩
    · exact (h.causes v (by simp [workers, hv]) cause found).later next
  · intro e some
    rcases move.error some with old | ⟨cause, found, same⟩
    · obtain ⟨id, cause, raised, same⟩ := h.error e old
      exact ⟨id, cause, raised.later next, same⟩
    · exact ⟨w.id, cause, (caused cause found).later next, same⟩

theorem Reported.reaches {ctx : Context σ} {start p p' : Pool σ} (h : Reported ctx start p)
    (reaches : Reaches ctx p p') : Reported ctx start p' := by
  induction reaches with
  | refl => exact h
  | tail _ step ih => exact ih.step step

/-- What a worker can still come to when there is nothing to be claimed: it finishes at most the
task that it holds. -/
def Settles (ctx : Context σ) (w w' : Worker) : Prop :=
  (w'.batch = w.batch ∧ ∀ task, w'.phase = .holding task → w.phase = .holding task) ∨
    ∃ task outcome stats world, w.phase = .holding task ∧
      (ctx.process task world).1 = .ok (outcome, stats) ∧ w'.batch = outcome :: w.batch ∧
      w'.inHand = []

theorem inHand_eq_nil {w : Worker} : w.inHand = [] ↔ ∀ task, w.phase ≠ .holding task := by
  unfold Worker.inHand
  cases w.phase <;> simp

theorem Settles.refl (ctx : Context σ) (w : Worker) : Settles ctx w w := .inl ⟨rfl, fun _ h => h⟩

theorem Move.settles {ctx : Context σ} {p p' : Pool σ} {w w' : Worker} (move : Move ctx p w p' w')
    (exhausted : ctx.count ≤ p.shared.cursor.next) : Settles ctx w w' := by
  cases move with
  | claim ready below => exact absurd below (UInt64.not_lt.2 exhausted)
  | leave ready => exact .inl ⟨rfl, by simp⟩
  | @finish task outcome stats holding answer =>
    exact .inr ⟨task, outcome, stats, p.shared.world, holding, answer, rfl, rfl⟩
  | breakDown holding => exact .inl ⟨rfl, by simp⟩
  | mark | exhaust | report => exact .inl ⟨rfl, by simp⟩

theorem Settles.trans {ctx : Context σ} {u v w : Worker} (first : Settles ctx u v)
    (second : Settles ctx v w) : Settles ctx u w := by
  rcases first with ⟨same, held⟩ | ⟨task, outcome, stats, world, holding, answer, batch, free⟩
  · rcases second with ⟨same', held'⟩ | ⟨task, outcome, stats, world, holding, answer, batch, free⟩
    · exact .inl ⟨same'.trans same, fun task h => held task (held' task h)⟩
    · exact .inr ⟨task, outcome, stats, world, held task holding, answer, by rw [batch, same], free⟩
  · have none := inHand_eq_nil.1 free
    rcases second with ⟨same', held'⟩ | ⟨other, _, _, _, holding', _⟩
    · refine .inr ⟨task, outcome, stats, world, holding, answer, by rw [same', batch], ?_⟩
      exact inHand_eq_nil.2 fun task h => none task (held' task h)
    · exact absurd holding' (none other)

theorem settles_trans {ctx : Context σ} {us vs ws : List Worker}
    (first : List.Forall₂ (Settles ctx) us vs) (second : List.Forall₂ (Settles ctx) vs ws) :
    List.Forall₂ (Settles ctx) us ws := by
  induction first generalizing ws with
  | nil => exact second
  | cons head _ ih =>
    cases second with
    | cons head' tail' => exact .cons (head.trans head') (ih tail')

theorem settles_refl (ctx : Context σ) (ws : List Worker) :
    List.Forall₂ (Settles ctx) ws ws := List.forall₂_same.2 fun w _ => .refl ctx w

theorem Step.settles {ctx : Context σ} {p p' : Pool σ} (step : Step ctx p p')
    (exhausted : ctx.count ≤ p.shared.cursor.next) :
    List.Forall₂ (Settles ctx) p.workers p'.workers := by
  obtain ⟨workers, move⟩ := step
  rw [workers]
  exact List.rel_append (settles_refl ctx _) (.cons (move.settles exhausted) (settles_refl ctx _))

theorem Step.hasExhausted {ctx : Context σ} {p p' : Pool σ} (step : Step ctx p p')
    (h : p.workers.any hasExhausted = true) : p'.workers.any hasExhausted = true := by
  obtain ⟨workers, move⟩ := step
  rw [any_split workers] at h
  rw [any_split rfl]
  cases move with
  | claim before | leave before | finish before | breakDown before | mark before =>
    simpa only [Pool.hasExhausted, before] using h
  | exhaust | report => simp [Pool.hasExhausted]

/-- Once a worker has exhausted the cursor no number below the number of the tasks is taken. -/
theorem Sound.beyond {ctx : Context σ} {world : World σ} {p : Pool σ} {log : List Task}
    {claims : List (Worker × List Task)} {taken : Nat} (h : Sound ctx world p log claims taken)
    (countable : ctx.Countable) (exhausted : p.workers.any Pool.hasExhausted = true) :
    ctx.count ≤ p.shared.cursor.next := by
  rw [UInt64.le_iff_toNat_le, Context.count_toNat countable]
  exact h.counted.stopped exhausted

theorem reaches_settles {ctx : Context σ} {world : World σ} {start p q : Pool σ}
    (sound : ∀ r, Reaches ctx start r → ∃ log claims taken, Sound ctx world r log claims taken)
    (countable : ctx.Countable) (before : Reaches ctx start p)
    (exhausted : p.workers.any Pool.hasExhausted = true) (reaches : Reaches ctx p q) :
    q.workers.any Pool.hasExhausted = true ∧ ctx.count ≤ q.shared.cursor.next ∧
      List.Forall₂ (Settles ctx) p.workers q.workers := by
  induction reaches with
  | refl =>
    obtain ⟨log, claims, taken, sound⟩ := sound p before
    exact ⟨exhausted, sound.beyond countable exhausted, settles_refl ctx _⟩
  | tail way step ih =>
    obtain ⟨stopped, beyond, settled⟩ := ih
    obtain ⟨log, claims, taken, sound⟩ := sound _ ((before.trans way).tail step)
    have stopped' := step.hasExhausted stopped
    exact ⟨stopped', sound.beyond countable stopped', settles_trans settled (step.settles beyond)⟩

theorem start_length (workers : Nat) (shared : Shared σ) :
    (Pool.start workers shared).workers.length = workers := by simp [Pool.start]

theorem Reported.done {ctx : Context σ} {start p : Pool σ} (h : Reported ctx start p)
    (stopped : ∀ w ∈ p.workers, w.IsOver) (none : p.firstError = none) :
    ∀ w ∈ p.workers, w.phase = .done := by
  have quiet := h.reported
  rw [none, Option.isSome_none, eq_comm, List.any_eq_false] at quiet
  intro w hw
  rcases stopped w hw with done | failed
  · exact done
  · exact absurd (decide_eq_true failed) (quiet w hw)

theorem Reported.finish {ctx : Context σ} {start p : Pool σ} (h : Reported ctx start p)
    {e : LintError} (some : p.firstError = some e) : p.finish = .failed := by
  have failed := h.reported
  rw [some, Option.isSome_some, eq_comm, List.any_eq_true] at failed
  obtain ⟨w, hw, failed⟩ := failed
  have marked : p.workers.any hasMarked = true :=
    List.any_eq_true.2 ⟨w, hw, by simp [hasMarked, of_decide_eq_true failed]⟩
  rw [Pool.finish, h.state, if_pos marked, if_pos rfl]

theorem Finished.answered {gave : Task → Answer → Prop} {tasks : List Task}
    {outcomes : List Outcome} {stats : Stats} (f : Finished gave tasks outcomes stats) {task : Task}
    (h : task ∈ tasks) : ∃ done, gave task (.ok done) := by
  induction f with
  | nil => simp at h
  | cons answer _ ih =>
    rcases List.mem_cons.1 h with rfl | h
    · exact ⟨_, answer⟩
    · exact ih h

theorem Sound.answered {ctx : Context σ} {world : World σ} {answer : Task → Answer} {p : Pool σ}
    {log : List Task} {claims : List (Worker × List Task)} {taken : Nat}
    (h : Sound ctx world p log claims taken) (steady : ctx.Steady world answer)
    (some : p.workers ≠ []) (done : ∀ w ∈ p.workers, w.phase = .done) :
    ∀ task ∈ ctx.tasks, ∃ done, answer task = .ok done := by
  intro task ht
  obtain ⟨all, finished⟩ := h.complete some done
  obtain ⟨c, hc, ht⟩ := List.mem_flatMap.1 (all.mem_iff.2 ht)
  obtain ⟨done, gave⟩ := Finished.answered (finished c hc) ht
  exact ⟨done, steady.gave h.shares.listed gave⟩

theorem Raised.answer {ctx : Context σ} {world : World σ} {answer : Task → Answer}
    (steady : ctx.Steady world answer) {workers : Nat}
    (room : ctx.tasks.length + workers < UInt64.size) {p : Pool σ} {id : Nat} {cause : Breakdown}
    (raised : Raised ctx (Pool.start workers ⟨.fresh, world⟩) p id cause) :
    id < workers ∧ ∃ q w task, Reaches ctx (Pool.start workers ⟨.fresh, world⟩) q ∧
      Reaches ctx q p ∧ w ∈ q.workers ∧ w.id = id ∧ w.phase = .holding task ∧ task ∈ ctx.tasks ∧
      answer task = .error cause := by
  obtain ⟨q, w, task, before, after, hw, same, holding, failed⟩ := raised
  obtain ⟨log, claims, taken, sound⟩ := (start_sound ctx world workers).reaches
    (by rwa [start_length]) before
  have mapped := hw
  rw [sound.shares.workers] at mapped
  obtain ⟨c, hc, rfl⟩ := List.mem_map.1 mapped
  have listed := sound.shares.claimed_mem hc ((sound.shares.owned c hc).holding_mem holding)
  rw [sound.shares.present, steady log sound.shares.listed task listed] at failed
  refine ⟨?_, q, c.1, task, before, after, hw, same, holding, listed, failed⟩
  have mem := List.mem_map_of_mem (f := Worker.id) hw
  rw [reaches_workers before, same] at mem
  simpa [Pool.start, Worker.fresh] using mem

end Pool

theorem Supervisor.run_error (workers : Nat) (ctx : Context σ) (schedule : List Nat)
    (shared : Shared σ) (e : LintError) :
    ((Supervisor.ofCount workers).run ctx schedule shared).1 = .error e ↔
      ((Pool.start (max workers 1) shared).run ctx schedule).firstError = some e := by
  simp only [Supervisor.run, Supervisor.ofCount, ne_eq, not_true_eq_false, ite_false]
  cases ((Pool.start (max workers 1) shared).run ctx schedule).firstError <;> simp

theorem Supervisor.run_answered {ctx : Context σ} {world : World σ} {answer : Task → Answer}
    (steady : ctx.Steady world answer) (workers : Nat)
    (room : ctx.tasks.length + max workers 1 < UInt64.size) (schedule : List Nat)
    (none : ((Pool.start (max workers 1) ⟨.fresh, world⟩).run ctx schedule).firstError = none) :
    ∀ task ∈ ctx.tasks, ∃ done, answer task = .ok done := by
  have countable : ctx.Countable := by unfold Context.Countable; omega
  obtain ⟨reached, stopped⟩ := Pool.run_reaches countable schedule
    (Pool.start (max workers 1) ⟨.fresh, world⟩)
  have reported := (Pool.start_reported ctx (max workers 1) ⟨.fresh, world⟩).reaches reached
  obtain ⟨log, claims, taken, sound⟩ := (Pool.start_sound ctx world (max workers 1)).reaches
    (by rwa [Pool.start_length]) reached
  refine sound.answered steady ?_ (reported.done stopped none)
  rw [← List.length_pos_iff, Pool.reaches_length reached, Pool.start_length]
  omega

/-- Runs fail when a task of the list breaks down and only then, with what a worker raised by
processing a task that it had claimed. After a worker has exhausted the cursor nothing is claimed. -/
theorem Supervisor.run_fails_fast {ctx : Context σ} {world : World σ} {answer : Task → Answer}
    (steady : ctx.Steady world answer) (workers : Nat)
    (room : ctx.tasks.length + max workers 1 < UInt64.size) (schedule : List Nat) :
    let start := Pool.start (max workers 1) ⟨.fresh, world⟩
    let result := (Supervisor.ofCount workers).run ctx schedule ⟨.fresh, world⟩
    ((∃ e, result.1 = .error e) ↔ ∃ task ∈ ctx.tasks, ∃ cause, answer task = .error cause) ∧
    (∀ e, result.1 = .error e → result.2.1.state = .failed ∧
      ∃ p w task cause, Pool.Reaches ctx start p ∧ Pool.Reaches ctx p (start.run ctx schedule) ∧
        w ∈ p.workers ∧ w.phase = .holding task ∧ task ∈ ctx.tasks ∧
        answer task = .error cause ∧ e = cause.toError w.id) ∧
    (∀ task ∈ ctx.tasks, ∀ cause, answer task = .error cause →
      (∀ t ∈ ctx.tasks, t ≠ task → ∃ done, answer t = .ok done) →
      ∃ worker < max workers 1, result.1 = .error (cause.toError worker)) ∧
    ∀ p q, Pool.Reaches ctx start p → p.workers.any Pool.hasExhausted = true →
      Pool.Reaches ctx p q →
        ctx.count ≤ q.shared.cursor.claim.1 ∧
          List.Forall₂ (Pool.Settles ctx) p.workers q.workers := by
  intro start result
  have countable : ctx.Countable := by unfold Context.Countable; omega
  have size : ctx.tasks.length + start.workers.length < UInt64.size := by
    rwa [Pool.start_length]
  obtain ⟨reached, -⟩ := Pool.run_reaches countable schedule start
  have reported := (Pool.start_reported ctx (max workers 1) ⟨.fresh, world⟩).reaches reached
  have sound : ∀ p, Pool.Reaches ctx start p → ∃ log claims taken,
      Pool.Sound ctx world p log claims taken :=
    fun p reaches => (Pool.start_sound ctx world (max workers 1)).reaches size reaches
  have fails : ∀ e, result.1 = .error e ↔ (start.run ctx schedule).firstError = some e :=
    fun e => run_error workers ctx schedule ⟨.fresh, world⟩ e
  -- every error goes back to a task that a worker held
  have raised : ∀ e, result.1 = .error e → ∃ id cause,
      Pool.Raised ctx start (start.run ctx schedule) id cause ∧ e = cause.toError id :=
    fun e failed => reported.error e ((fails e).1 failed)
  -- without an error all tasks were answered
  have some : ∀ task ∈ ctx.tasks, ∀ cause, answer task = .error cause →
      ∃ e, result.1 = .error e := by
    intro task ht cause broken
    cases known : (start.run ctx schedule).firstError with
    | some e => exact ⟨e, (fails e).2 known⟩
    | none =>
      obtain ⟨done, answered⟩ := run_answered steady workers room schedule known task ht
      simp [broken] at answered
  refine ⟨⟨?_, ?_⟩, ?_, ?_, ?_⟩
  · rintro ⟨e, failed⟩
    obtain ⟨id, cause, raised, -⟩ := raised e failed
    obtain ⟨-, q, w, task, -, -, -, -, -, ht, broken⟩ := raised.answer steady room
    exact ⟨task, ht, cause, broken⟩
  · rintro ⟨task, ht, cause, broken⟩
    exact some task ht cause broken
  · intro e failed
    obtain ⟨id, cause, raised, same⟩ := raised e failed
    obtain ⟨-, q, w, task, before, after, hw, rfl, holding, ht, broken⟩ :=
      raised.answer steady room
    refine ⟨?_, q, w, task, cause, before, after, hw, holding, ht, broken, same⟩
    exact reported.finish ((fails e).1 failed)
  · intro task ht cause broken others
    obtain ⟨e, failed⟩ := some task ht cause broken
    obtain ⟨id, cause', raised, rfl⟩ := raised e failed
    obtain ⟨less, q, w, task', -, -, -, -, -, ht', broken'⟩ := raised.answer steady room
    -- nothing else could have been raised
    have same : task' = task := by
      by_cases same : task' = task
      · exact same
      · obtain ⟨done, answered⟩ := others task' ht' same
        simp [broken'] at answered
    rw [same, broken, Except.error.injEq] at broken'
    exact ⟨id, less, by rw [failed, broken']⟩
  · intro p q before exhausted reaches
    obtain ⟨-, beyond, settled⟩ :=
      Pool.reaches_settles sound countable before exhausted reaches
    exact ⟨beyond, settled⟩

def Context.unresolved : Context Unit where
  tasks := [⟨0, ⟨"a.txt"⟩, true⟩, ⟨1, ⟨"b.txt"⟩, false⟩]
  resolver := ⟨fun _ state path => (.error (.notFound path), state)⟩
  analyzer := ⟨fun _ => none, fun _ fs => (.error (.crashed none), fs)⟩
  cache := none
  fix := .off
  warnIgnored := true

theorem Supervisor.run_fails_fast_unresolved :
    let world : World Unit := ⟨⟨[], [], 0⟩, ()⟩
    let answer := fun task : Task => (Context.unresolved.process task world).1
    Context.unresolved.Steady world answer ∧ 2 + max 3 1 < UInt64.size ∧
      ((Supervisor.ofCount 3).run Context.unresolved [1, 0, 1] ⟨.fresh, world⟩).1 =
        .error (.notFound ⟨"b.txt"⟩) := by
  intro world answer
  have steady : Context.unresolved.Steady world answer := by
    intro log _ task _
    simp only [answer, Context.process, Context.processAcross, Context.unresolved]
    split <;> rfl
  refine ⟨steady, by decide, ?_⟩
  obtain ⟨worker, -, failed⟩ := (Supervisor.run_fails_fast steady 3 (by decide) [1, 0, 1]).2.2.1
    ⟨1, ⟨"b.txt"⟩, false⟩ (by simp [Context.unresolved]) (.failed (.notFound ⟨"b.txt"⟩)) rfl (by
      intro task ht other
      simp only [Context.unresolved, List.mem_cons, List.not_mem_nil, or_false] at ht
      rcases ht with rfl | rfl
      · exact ⟨_, rfl⟩
      · exact absurd rfl other)
  exact failed

end ParallelLint
