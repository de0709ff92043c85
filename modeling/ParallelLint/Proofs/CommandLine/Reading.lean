import ParallelLint.CommandLine.Arguments

set_option autoImplicit false

namespace ParallelLint.CommandLine

def Switch.onTrial : Switch → Switch
  | .fix => .fixDryRun
  | s => s

namespace Arguments

/-- The same arguments, but for fixing on trial. -/
def onTrial (a : Arguments) : Arguments := { a with switches := a.switches.map Switch.onTrial }

theorem has_onTrial {s : Switch} (fix : s ≠ .fix) (dryRun : s ≠ .fixDryRun) (a : Arguments) :
    a.onTrial.has s = a.has s := by
  rw [has, has, Bool.eq_iff_iff, List.contains_iff_mem, List.contains_iff_mem]
  constructor
  · intro given
    obtain ⟨t, ht, rfl⟩ := List.mem_map.1 given
    cases t <;> first | exact ht | exact absurd rfl dryRun
  · intro given
    refine List.mem_map.2 ⟨s, given, ?_⟩
    cases s <;> first | rfl | exact absurd rfl fix

theorem onTrial_fix (a : Arguments) : a.onTrial.has .fix = false := by
  rw [has, Bool.eq_false_iff, Ne, List.contains_iff_mem]
  intro given
  obtain ⟨t, -, same⟩ := List.mem_map.1 given
  cases t <;> cases same

theorem onTrial_dryRun {a : Arguments} (fix : a.has .fix = true) :
    a.onTrial.has .fixDryRun = true := by
  rw [has, List.contains_iff_mem] at fix ⊢
  exact List.mem_map.2 ⟨.fix, fix, rfl⟩

theorem onTrial_options {a : Arguments} (fix : a.has .fix = true) (directory : Path) :
    a.onTrial.options directory = a.options directory := by
  have others := fun s fix dryRun => @has_onTrial s fix dryRun a
  simp only [options, fix, onTrial_dryRun fix, Bool.or_true, Bool.true_or,
    others .cache (by decide) (by decide), others .noWarnIgnored (by decide) (by decide),
    others .noIgnore (by decide) (by decide),
    others .noErrorOnUnmatchedPattern (by decide) (by decide)]
  rfl

theorem turnOn_onTrial {a : Arguments} {s : Switch} (fix : s ≠ .fix) (dryRun : s ≠ .fixDryRun) :
    a.onTrial.turnOn s = (a.turnOn s).map onTrial := by
  have same : a.onTrial.switches.contains s = a.switches.contains s := has_onTrial fix dryRun a
  have kept : s.onTrial = s := by cases s <;> first | rfl | exact absurd rfl fix
  rw [turnOn, turnOn, same]
  split
  · rfl
  · simp [onTrial, kept]

theorem put_with (a : Arguments) (switches : List Switch) (s : Setting) (value : String) :
    { a with switches }.put s value = (a.put s value).map fun b => { b with switches } := by
  cases s <;> simp only [put, apply_ite (Option.map fun b : Arguments => { b with switches }),
    Option.map_map, Option.map_none, Option.map_some] <;> rfl

theorem put_switches {a b : Arguments} {s : Setting} {value : String}
    (h : a.put s value = some b) : b.switches = a.switches := by
  have same := a.put_with a.switches s value
  rw [h] at same
  have kept := congrArg Arguments.switches (Option.some.inj same)
  exact kept

theorem put_onTrial {a b : Arguments} {s : Setting} {value : String}
    (h : a.put s value = some b) : a.onTrial.put s value = some b.onTrial := by
  calc a.onTrial.put s value
      = (a.put s value).map fun c => { c with switches := a.switches.map Switch.onTrial } :=
        put_with ..
    _ = some { b with switches := b.switches.map Switch.onTrial } := by
        rw [h, put_switches h, Option.map_some]
    _ = some b.onTrial := rfl

theorem turnOn_some {a b : Arguments} {s : Switch} (h : a.turnOn s = some b) :
    a.has s = false ∧ b = { a with switches := s :: a.switches } := by
  unfold turnOn at h
  split at h
  · cases h
  · rename_i fresh
    cases h
    exact ⟨by simpa [has] using fresh, rfl⟩

theorem turnOn_dryRun {a : Arguments} (fix : a.has .fix = false)
    (dryRun : a.has .fixDryRun = false) :
    a.turnOn .fixDryRun = some { a with switches := .fix :: a.switches }.onTrial := by
  have kept : a.switches.map Switch.onTrial = a.switches := by
    refine (List.map_congr_left fun s hs => ?_).trans (List.map_id _)
    cases s with
    | fix =>
      rw [has, List.contains_iff_mem.2 hs] at fix
      cases fix
    | _ => rfl
  rw [has] at dryRun
  simp only [turnOn, dryRun, Bool.false_eq_true, ite_false, onTrial, List.map_cons, kept]
  rfl

end Arguments

/-- Arguments that are read to the end. -/
inductive Reads : Arguments → List String → Arguments → Prop where
  | done (a : Arguments) : Reads a [] a
  | patterns (a : Arguments) (rest : List String) :
      Reads a ("--" :: rest) { a with patterns := a.patterns ++ rest }
  | pattern {a b : Arguments} {argument text : String} {rest : List String}
      (other : argument ≠ "--") (meant : word argument = .pattern text)
      (more : Reads { a with patterns := a.patterns ++ [text] } rest b) :
      Reads a (argument :: rest) b
  | switch {a a' b : Arguments} {argument : String} {s : Switch} {rest : List String}
      (other : argument ≠ "--") (meant : word argument = .switch s)
      (on : readSwitch a argument s = .ok a') (more : Reads a' rest b) :
      Reads a (argument :: rest) b
  | given {a a' b : Arguments} {argument value : String} {s : Setting} {rest : List String}
      (other : argument ≠ "--") (meant : word argument = .given s value)
      (put : a.put s value = some a') (more : Reads a' rest b) : Reads a (argument :: rest) b
  | setting {a a' b : Arguments} {argument value : String} {s : Setting} {rest : List String}
      (other : argument ≠ "--") (meant : word argument = .setting s)
      (isValue : isValue value = true) (put : a.put s value = some a') (more : Reads a' rest b) :
      Reads a (argument :: value :: rest) b

namespace Reads
variable {a a' b : Arguments} {line first rest : List String}

theorem of_readFrom (h : readFrom a line = .ok b) : Reads a line b := by
  fun_induction readFrom a line with
  | case1 a => cases h; exact .done _
  | case2 a =>
    cases h
    simpa using Reads.patterns b []
  | case3 a argument other text meant => cases h; exact .pattern other meant (.done _)
  | case4 a argument other s meant => exact .switch other meant h (.done _)
  | case5 a argument other s value meant =>
    cases put : a.put s value with
    | none => rw [put] at h; cases h
    | some a' => rw [put] at h; cases h; exact .given other meant put (.done _)
  | case8 a next rest => cases h; exact .patterns a (next :: rest)
  | case9 a argument next rest other text meant ih => exact .pattern other meant (ih h)
  | case10 a argument next rest other s meant a' on ih => exact .switch other meant on (ih h)
  | case12 a argument next rest other s value meant a' put ih =>
    exact .given other meant put (ih h)
  | case14 a argument next rest other s meant isValue a' put ih =>
    exact .setting other meant isValue put (ih h)
  | _ => cases h

theorem readFrom_eq (h : Reads a line b) : readFrom a line = .ok b := by
  induction h with
  | done a => rfl
  | patterns a rest => cases rest <;> simp [readFrom]
  | @pattern _ _ _ _ rest other meant more ih => cases rest <;> simp_all [readFrom]
  | @switch _ _ _ _ _ rest other meant on more ih => cases rest <;> simp_all [readFrom]
  | @given _ _ _ _ _ _ rest other meant put more ih =>
    cases rest <;> simp_all [readFrom, orRefuse]
  | setting other meant isValue put more ih => simp_all [readFrom]

theorem on_switch {argument : String} {s : Switch} (on : readSwitch a argument s = .ok a') :
    a.turnOn s = some a' ∧ ∀ {other : Arguments} {argument : String} {a' : Arguments},
      other.turnOn s = some a' → readSwitch other argument s = .ok a' := by
  have turned : ∀ {other : Option Arguments} {argument : String} {a' : Arguments},
      orRefuse argument other = .ok a' ↔ other = some a' := by
    intro other argument a'
    cases other <;> simp [orRefuse]
  cases s with
  | help | longHelp | version => cases on
  | cache | fix | fixDryRun | noWarnIgnored | noIgnore | noErrorOnUnmatchedPattern =>
    exact ⟨turned.1 on, turned.2⟩

theorem keeps (h : Reads a line b) {s : Switch} (given : a.has s = true) : b.has s = true := by
  induction h with
  | done | patterns => exact given
  | pattern _ _ _ ih => exact ih given
  | switch _ _ on _ ih =>
    obtain ⟨-, rfl⟩ := Arguments.turnOn_some (on_switch on).1
    exact ih (by simp [Arguments.has, List.contains_iff_mem.1 given])
  | given _ _ put _ ih | setting _ _ _ put _ ih =>
    exact ih (by rw [Arguments.has, Arguments.put_switches put]; exact given)

/-- Once fixing is asked for it makes no difference to what follows whether it is on trial. -/
theorem onTrial (h : Reads a line b) (fix : a.has .fix = true) (dryRun : b.has .fixDryRun = false) :
    Reads a.onTrial line b.onTrial := by
  induction h with
  | done => exact .done _
  | patterns => exact .patterns ..
  | pattern other meant _ ih => exact .pattern other meant (ih fix dryRun)
  | @switch a a' b argument s rest other meant on more ih =>
    obtain ⟨turned, turns⟩ := on_switch on
    obtain ⟨fresh, rfl⟩ := Arguments.turnOn_some turned
    have noFix : s ≠ .fix := by
      rintro rfl
      rw [fix] at fresh
      cases fresh
    have noTrial : s ≠ .fixDryRun := by
      rintro rfl
      rw [more.keeps (by simp [Arguments.has])] at dryRun
      cases dryRun
    have kept := Arguments.turnOn_onTrial (a := a) noFix noTrial
    rw [turned] at kept
    refine .switch other meant (turns kept) (ih ?_ dryRun)
    simp [Arguments.has, List.contains_iff_mem.1 fix]
  | given other meant put _ ih =>
    refine .given other meant (Arguments.put_onTrial put) (ih ?_ dryRun)
    rw [Arguments.has, Arguments.put_switches put]
    exact fix
  | setting other meant isValue put _ ih =>
    refine .setting other meant isValue (Arguments.put_onTrial put) (ih ?_ dryRun)
    rw [Arguments.has, Arguments.put_switches put]
    exact fix

theorem word_fix : word "--fix" = .switch .fix := rfl

theorem cut_before {argument : String} {more : List String} (other : word argument ≠ .switch .fix)
    (cut : argument :: more = first ++ "--fix" :: rest) :
    ∃ first', first = argument :: first' ∧ more = first' ++ "--fix" :: rest := by
  cases first with
  | nil =>
    obtain ⟨rfl, -⟩ := List.cons.inj cut
    exact absurd word_fix other
  | cons head first =>
    obtain ⟨rfl, rfl⟩ := List.cons.inj cut
    exact ⟨first, rfl, rfl⟩

theorem instead (h : Reads a line b) (plain : "--" ∉ first) (cut : line = first ++ "--fix" :: rest)
    (once : (b.has .fix && b.has .fixDryRun) = false) :
    Reads a (first ++ "--fix-dry-run" :: rest) b.onTrial ∧ b.has .fix = true := by
  induction h generalizing first with
  | done => simp at cut
  | patterns =>
    have stop : word "--" = .unknown := rfl
    obtain ⟨first, rfl, -⟩ := cut_before (by rw [stop]; rintro ⟨⟩) cut
    exact absurd (List.mem_cons_self ..) plain
  | pattern other meant _ ih =>
    obtain ⟨first, rfl, behind⟩ := cut_before (by rw [meant]; rintro ⟨⟩) cut
    obtain ⟨more, given⟩ := ih (List.not_mem_of_not_mem_cons plain) behind once
    exact ⟨.pattern other meant more, given⟩
  | @switch a a' b argument s line other meant on more ih =>
    cases first with
    | nil =>
      obtain ⟨rfl, rfl⟩ := List.cons.inj cut
      cases word_fix.symm.trans meant
      obtain ⟨turned, -⟩ := on_switch on
      obtain ⟨fresh, rfl⟩ := Arguments.turnOn_some turned
      have fixes : ({ a with switches := .fix :: a.switches } : Arguments).has .fix = true := by
        simp [Arguments.has]
      have given := more.keeps fixes
      rw [given, Bool.true_and] at once
      have free : a.has .fixDryRun = false := by
        rw [Bool.eq_false_iff]
        intro has
        rw [more.keeps (by simp [Arguments.has, List.contains_iff_mem.1 has])] at once
        cases once
      refine ⟨.switch (by decide) rfl ?_ (more.onTrial fixes once), given⟩
      change orRefuse _ (a.turnOn .fixDryRun) = _
      rw [Arguments.turnOn_dryRun fresh free]
      rfl
    | cons head first =>
      obtain ⟨rfl, rfl⟩ := List.cons.inj cut
      obtain ⟨more, given⟩ := ih (List.not_mem_of_not_mem_cons plain) rfl once
      exact ⟨.switch other meant on more, given⟩
  | given other meant put _ ih =>
    obtain ⟨first, rfl, behind⟩ := cut_before (by rw [meant]; rintro ⟨⟩) cut
    obtain ⟨more, given⟩ := ih (List.not_mem_of_not_mem_cons plain) behind once
    exact ⟨.given other meant put more, given⟩
  | setting other meant isValue put _ ih =>
    obtain ⟨first, rfl, behind⟩ := cut_before (by rw [meant]; rintro ⟨⟩) cut
    have plain := List.not_mem_of_not_mem_cons plain
    cases first with
    | nil =>
      obtain ⟨rfl, -⟩ := List.cons.inj behind
      cases isValue
    | cons value first =>
      obtain ⟨rfl, rfl⟩ := List.cons.inj behind
      obtain ⟨more, given⟩ := ih (List.not_mem_of_not_mem_cons plain) rfl once
      exact ⟨.setting other meant isValue put more, given⟩

end Reads

theorem read_onTrial {first rest : List String} {a : Arguments} (plain : "--" ∉ first)
    (accepted : Arguments.read (first ++ "--fix" :: rest) = .ok a) :
    Arguments.read (first ++ "--fix-dry-run" :: rest) = .ok a.onTrial ∧ a.has .fix = true := by
  unfold Arguments.read at accepted ⊢
  split at accepted
  · rename_i b read
    split at accepted
    · cases accepted
    rename_i once
    cases accepted
    obtain ⟨reads, fix⟩ := (Reads.of_readFrom read).instead plain rfl (by simpa using once)
    rw [reads.readFrom_eq]
    simp [Arguments.onTrial_fix, fix]
  · cases accepted

end ParallelLint.CommandLine
