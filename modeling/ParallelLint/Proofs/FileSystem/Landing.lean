import ParallelLint.Proofs.FileSystem.Top

set_option autoImplicit false

namespace ParallelLint
open ParallelLint.Path (Part)

namespace Path
variable {p q base : Path}

/-- The path goes on from `base` with names alone. -/
def Below (base p : Path) : Prop := ∃ names : List String, p.parts = base.parts ++ names.map .name

theorem Below.refl (p : Path) : p.Below p := ⟨[], (List.append_nil _).symm⟩

theorem Below.trans (h : base.Below p) (h' : p.Below q) : base.Below q := by
  obtain ⟨names, parts⟩ := h
  obtain ⟨more, parts'⟩ := h'
  exact ⟨names ++ more, by rw [parts', parts, List.map_append, List.append_assoc]⟩

theorem Below.named (h : base.Below p) (named : base.text ≠ "") : p.text ≠ "" := by
  intro empty
  obtain ⟨names, parts⟩ := h
  have none : p.parts = [] := by
    rw [show p = ⟨""⟩ from congrArg Path.mk empty]
    rfl
  rw [none, List.nil_eq, List.append_eq_nil_iff] at parts
  exact parts_named named parts.1

theorem Below.normalize (h : base.Below p) : base.Below p.normalize := by
  rwa [Below, normalize_parts]

theorem innerParts_names {segs : List String} (straight : .up ∉ innerParts segs) :
    ∃ names : List String, innerParts segs = names.map .name := by
  refine ⟨segs.filter fun s => !isVoid s, List.map_congr_left fun s hs => ?_⟩
  have part : partOf s ≠ .up := fun up => straight (up ▸ List.mem_map_of_mem hs)
  unfold partOf at part ⊢
  split
  · rename_i up
    rw [if_pos up] at part
    exact absurd rfl part
  · rfl

theorem up_segments (up : .up ∈ innerParts p.segments) : .up ∈ p.parts := by
  obtain ⟨lead, text, inner, opens⟩ := p.opens
  rw [opens.parts_eq]
  cases opens with
  | empty text =>
    have segments : p.segments = [""] := by simp [Path.segments, text, splitSlash]
    rw [segments] at up
    exact up
  | root segments | here segments =>
    rw [segments] at up
    exact List.mem_append_right _ up
  | inner segments => rwa [segments] at up

theorem join_below (named : p.text ≠ "") (relative : q.isAbsolute = false)
    (straight : .up ∉ q.parts) : p.Below (p.join q) := by
  obtain ⟨names, same⟩ := innerParts_names fun up => straight (up_segments up)
  exact ⟨names, by rw [join_relative_parts named relative, same]⟩

theorem names_below (named : p.text ≠ "") {names : List String} (some : names ≠ [])
    (own : ∀ name ∈ names, OwnName name) : p.Below (p.join ⟨joinSegments names⟩) := by
  obtain ⟨name, rest, rfl⟩ := List.exists_cons_of_ne_nil some
  have segments := segments_joinSegments some fun name h => (own name h).clean
  have parts := (Opens.inner segments (own name (List.mem_cons_self ..)).own).parts_eq
  refine join_below named ?_ fun up => ?_
  · rw [FileSystem.isAbsolute_parts, decide_eq_false_iff_not, parts]
    intro first
    rcases mem_innerParts (List.mem_of_head? first) with ⟨⟨⟩, -⟩ | ⟨name, ⟨⟩⟩
  · rw [parts] at up
    rcases mem_innerParts up with ⟨-, mem⟩ | ⟨name, ⟨⟩⟩
    exact (own _ mem).down rfl

theorem absolute_below (absolute : p.isAbsolute = true) (straight : .up ∉ p.parts) :
    (⟨"/"⟩ : Path).Below p := by
  obtain ⟨lead, text, inner, opens⟩ := p.opens
  have parts := opens.parts_eq
  have first : p.parts.head? = some .root :=
    of_decide_eq_true ((FileSystem.isAbsolute_parts p).symm.trans absolute)
  rw [parts] at first straight
  cases opens with
  | root =>
    obtain ⟨names, same⟩ := innerParts_names fun up => straight (List.mem_append_right _ up)
    exact ⟨names, by rw [parts, same]; rfl⟩
  | empty | here => cases first
  | inner =>
    rcases mem_innerParts (List.mem_of_head? first) with ⟨⟨⟩, -⟩ | ⟨name, ⟨⟩⟩

end Path

def Step.move (here : Location) : Step → Location
  | .here | .slash => here
  | .up => here.dropLast
  | .name text => here ++ [text]

namespace FileSystem
variable {fs : FileSystem} {p q base : Path} {l : Location}

theorem FileAt.isFile (h : fs.FileAt p l) : fs.isFile p = true := by
  obtain ⟨bytes, modified, accepted, leads, found⟩ := fileAt_iff.1 h
  exact isFile_iff.2 ⟨accepted, l, leads, bytes, modified, found⟩

/-- The place that a path leads to, if all on the way is there and no link. -/
def landing (fs : FileSystem) (p : Path) : Location := (steps p).foldl Step.move (fs.origin p)

theorem Leads.landing (linkFree : fs.LinkFree) {purpose : Purpose} {links : Nat} {here : Location}
    {todo : List Step} (leads : Leads fs purpose links here todo l) :
    l = todo.foldl Step.move here := by
  induction leads with
  | arrive => rfl
  | stay _ plain _ ih => rcases plain with rfl | rfl <;> exact ih
  | up _ _ ih => exact ih
  | down _ _ _ _ _ _ ih => exact ih
  | link _ _ _ found => exact absurd found (linkFree _ _)
  | follow _ _ _ found => exact absurd found (linkFree _ _)

theorem LinkFree.landing (linkFree : fs.LinkFree) (located : fs.locate p = .ok l) :
    l = fs.landing p :=
  (locate_iff.1 located).2.landing linkFree

theorem foldl_essential (todo : List Step) (here : Location) :
    (essential todo).foldl Step.move here = todo.foldl Step.move here := by
  induction todo generalizing here with
  | nil => rfl
  | cons s rest ih =>
    cases idle : s.isIdle with
    | true =>
      have kept : s.move here = here := by
        cases s with
        | here | slash => rfl
        | up | name => cases idle
      rw [essential, List.filter_cons_of_neg (by simp [idle]), List.foldl_cons, kept]
      exact ih here
    | false =>
      rw [essential, List.filter_cons_of_pos (by simp [idle]), List.foldl_cons, List.foldl_cons]
      exact ih _

theorem landing_parts (fs : FileSystem) (p : Path) :
    fs.landing p = (p.parts.map stepOfPart).foldl Step.move
      (if p.parts.head? = some .root then [] else fs.workingDirectory) := by
  have origin : fs.origin p = if p.parts.head? = some .root then [] else fs.workingDirectory := by
    rw [FileSystem.origin, isAbsolute_parts]
    simp
  calc fs.landing p = (essential (steps p)).foldl Step.move (fs.origin p) :=
        (foldl_essential ..).symm
    _ = (p.parts.map stepOfPart).foldl Step.move (fs.origin p) := by
        rw [essential_steps, foldl_essential]
    _ = _ := by rw [origin]

theorem foldl_names (names : List String) (here : Location) :
    ((names.map Part.name).map stepOfPart).foldl Step.move here = here ++ names := by
  induction names generalizing here with
  | nil => exact (List.append_nil here).symm
  | cons name rest ih =>
    calc ((rest.map Part.name).map stepOfPart).foldl Step.move (here ++ [name])
        = here ++ [name] ++ rest := ih (here ++ [name])
      _ = here ++ name :: rest := List.append_assoc ..

theorem landing_below {names : List String} (parts : p.parts = base.parts ++ names.map .name) :
    fs.landing p = fs.landing base ++ names := by
  have first : (p.parts.head? = some .root) = (base.parts.head? = some .root) := by
    rw [parts]
    cases base.parts with
    | nil => cases names <;> simp
    | cons part rest => rfl
  rw [landing_parts, landing_parts]
  simp only [first]
  rw [parts, List.map_append, List.foldl_append, foldl_names]

theorem below_unique (hp : p.Normal) (hq : q.Normal) (below : base.Below p) (below' : base.Below q)
    (same : fs.landing p = fs.landing q) : p = q := by
  obtain ⟨names, parts⟩ := below
  obtain ⟨names', parts'⟩ := below'
  rw [landing_below parts, landing_below parts'] at same
  refine hp.eq hq ?_
  calc p.parts = base.parts ++ names.map .name := parts
    _ = base.parts ++ names'.map .name := by rw [List.append_cancel_left same]
    _ = q.parts := parts'.symm

end FileSystem
end ParallelLint
