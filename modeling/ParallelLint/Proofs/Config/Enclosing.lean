import Mathlib.Data.List.Infix
import ParallelLint.Proofs.Config.Memory

set_option autoImplicit false

/-!
The directories around a file that is named from the working directory. All of them are looked
through, except for the working directory if there are others.
-/
namespace ParallelLint

namespace Path
variable {p q : Path}

theorem upward_parts (named : p.text ≠ "") : p.upward.map parts = p.parts.inits.tail.reverse := by
  induction size : p.parts.length using Nat.strong_induction_on generalizing p with
  | _ n ih =>
    by_cases long : 2 ≤ p.parts.length
    · obtain ⟨q, last, -, named', parts, upward⟩ := upward_long long
      have less : q.parts.length < n := by
        rw [← size, parts, List.length_append, List.length_singleton]
        omega
      have front : q.parts.inits ≠ [] := by cases q.parts <;> simp
      rw [upward, List.map_cons, ih _ less named' rfl, parts, List.inits_append]
      simp [List.tail_append_of_ne_nil front]
    · obtain ⟨part, rest, parts⟩ := List.exists_cons_of_ne_nil (parts_named named)
      have alone : rest = [] := by
        rw [parts, List.length_cons] at long
        exact List.length_eq_zero_iff.1 (by omega)
      rw [upward_short (by omega), List.map_singleton, parts, alone]
      rfl

/-- The directories around a path that have a name. -/
def around (p : Path) : List Path :=
  match p.parent? with
  | some directory => if directory.text = "" then [] else directory.upward
  | none => []

theorem around_short (short : p.parts.length < 2) : p.around = [] := by
  unfold around
  split
  · rename_i directory parent
    split
    · rfl
    · rename_i named
      exact absurd (parent_long parent named) (Nat.not_le.2 short)
  · rfl

theorem around_long (long : 2 ≤ p.parts.length) :
    ∃ q, p.parent? = some q ∧ q.text ≠ "" ∧ p.around = q.upward := by
  obtain ⟨q, parent, named⟩ := named_parent long
  refine ⟨q, parent, named, ?_⟩
  rw [around, parent]
  simp only [named, if_false]

theorem around_parts (p : Path) : p.around.map parts = p.parts.dropLast.inits.tail.reverse := by
  by_cases long : 2 ≤ p.parts.length
  · obtain ⟨q, parent, named, around⟩ := around_long long
    obtain ⟨last, parts⟩ := parent_parts parent named
    rw [around, upward_parts named, parts, List.dropLast_concat]
  · have none : p.parts.dropLast = [] := by
      rw [← List.length_eq_zero_iff, List.length_dropLast]
      omega
    rw [around_short (by omega), none]
    rfl

theorem parent_here (parent : p.parent? = some q) (named : q.text ≠ "")
    (parts : q.parts = [.here]) : q = ⟨"."⟩ := by
  obtain ⟨lead, text, inner, front, back, last, opens, split, -, rfl, some, -, own, -⟩ :=
    parent_spelled parent named
  have less : front <+: inner := ⟨back, split.symm⟩
  obtain ⟨spelled, opens', same⟩ := opens.reopen
    (fun s hs => opens.slashless s (less.subset hs)) (opens.named_prefix less some)
  rw [opens'.parts_eq] at parts
  cases opens with
  | empty =>
    rw [List.nil_eq, List.append_eq_nil_iff] at split
    exact absurd split.1 (some rfl)
  | root => cases parts
  | here =>
    rcases same with rfl | ⟨rfl, -⟩
    · rcases List.eq_nil_or_concat spelled with rfl | ⟨before, s, rfl⟩
      · rfl
      · have void := own s (by simp)
        simp [innerParts, void] at parts
    · rfl
  | inner =>
    have only : innerParts spelled = [.here] := parts
    have mem : Part.here ∈ innerParts spelled := only ▸ List.mem_singleton_self _
    rcases mem_innerParts mem with ⟨⟨⟩, -⟩ | ⟨name, ⟨⟩⟩

theorem here_around (long : 2 ≤ p.parts.length) (here : p.parts.head? = some .here) :
    ⟨"."⟩ ∈ p.around := by
  have first : [Part.here] ∈ p.around.map parts := by
    obtain ⟨part, rest, parts⟩ := List.exists_cons_of_ne_nil (List.ne_nil_of_length_pos
      (Nat.lt_of_lt_of_le Nat.two_pos long))
    rw [parts, List.head?_cons, Option.some.injEq] at here
    have more : rest ≠ [] := by
      rintro rfl
      simp [parts] at long
    rw [around_parts, List.mem_reverse, parts, here, List.dropLast_cons_of_ne_nil more]
    simp
  obtain ⟨d, hd, parts⟩ := List.mem_map.1 first
  obtain ⟨q, parent, named, around⟩ := around_long long
  have below : ∀ d ∈ q.upward, d.text ≠ "" ∧ ∃ p : Path, p.parent? = some d :=
    upward_all ⟨named, p, parent⟩ fun d q _ parent named => ⟨named, d, parent⟩
  rw [around] at hd ⊢
  obtain ⟨named, p, parent⟩ := below d hd
  exact parent_here parent named parts ▸ hd

end Path

namespace Nearest
variable {fs : FileSystem} {base : Config} {file : Path}

/-- The directories in which a configuration applies to a file, the innermost first. A path that is
not absolute begins in the working directory. -/
def enclosing (file : Path) : List Path :=
  if file.isAbsolute then file.around else file.around ++ [⟨"."⟩]

theorem enclosing_relative (relative : file.isAbsolute = false) :
    enclosing file = file.around ++ [⟨"."⟩] := by
  rw [enclosing, relative, if_neg (by decide)]

theorem enclosing_parts (relative : file.isAbsolute = false) :
    (enclosing file).map Path.parts = file.parts.dropLast.inits.tail.reverse ++ [[.here]] := by
  rw [enclosing_relative relative, List.map_append, Path.around_parts]
  rfl

/-- The base under the configuration file of the first directory that has one. -/
def overlay (fs : FileSystem) (base : Config) (directories : List Path) :
    Except LintError ResolvedConfig :=
  match directories.find? fun d => fs.isFile (d.join fileName) with
  | some d => readConfig fs base (d.join fileName)
  | none => .ok (.ofConfig base none)

/-- Only the working directory has a configuration file, and there are others around the file. -/
structure PassedOver (fs : FileSystem) (file : Path) : Prop where
  inner : file.around ≠ []
  free : ∀ d ∈ file.around, fs.isFile (d.join fileName) = false
  present : fs.isFile ((⟨"."⟩ : Path).join fileName) = true

theorem plain_overlay (fs : FileSystem) (base : Config) (directories : List Path) :
    plain fs base none directories = overlay fs base directories := by
  induction directories with
  | nil => rfl
  | cons d outer ih =>
    rw [plain, overlay, List.find?_cons]
    cases there : fs.isFile (d.join fileName) with
    | true => rfl
    | false =>
      simp only [Bool.false_eq_true, if_false]
      exact ih

theorem overlay_free {directories : List Path}
    (free : ∀ d ∈ directories, fs.isFile (d.join fileName) = false) :
    overlay fs base directories = .ok (.ofConfig base none) := by
  rw [overlay, List.find?_eq_none.2 fun d hd => by simp [free d hd]]

theorem overlay_append {inner outer : List Path}
    (found : ∃ d ∈ inner, fs.isFile (d.join fileName) = true) :
    overlay fs base (inner ++ outer) = overlay fs base inner := by
  obtain ⟨d, first⟩ := Option.isSome_iff_exists.1 (List.find?_isSome.2 found)
  rw [overlay, overlay, List.find?_append, first]
  rfl

theorem directories_around (file : Path) :
    directories file = if file.around = [] then [⟨"."⟩] else file.around := by
  have some : ∀ d : Path, d.upward ≠ [] := fun d => List.ne_nil_of_mem d.mem_upward_self
  unfold directories Path.around
  cases file.parent? with
  | none => rfl
  | some d => by_cases named : d.text = "" <;> simp [named, some]

theorem readConfig_ne (file : Path) : readConfig fs base file ≠ .ok (.ofConfig base none) := by
  intro alone
  cases readConfig_source alone

theorem resolve_overlay (fs : FileSystem) (base : Config) (file : Path) :
    (resolve fs (.fresh base none) file).map Prod.fst = overlay fs base (directories file) := by
  rw [← plain_overlay]
  exact resolveIn_blank (r := .fresh base none) _ (fun _ => rfl) fun _ => rfl

theorem PassedOver.resolve_base (passed : PassedOver fs file) :
    (resolve fs (.fresh base none) file).map Prod.fst = .ok (.ofConfig base none) := by
  calc (resolve fs (.fresh base none) file).map Prod.fst
      = overlay fs base (directories file) := resolve_overlay fs base file
    _ = overlay fs base file.around := by rw [directories_around, if_neg passed.inner]
    _ = .ok (.ofConfig base none) := overlay_free passed.free

theorem PassedOver.overlay_ne (passed : PassedOver fs file) (relative : file.isAbsolute = false) :
    overlay fs base (enclosing file) ≠ .ok (.ofConfig base none) := by
  have first : (enclosing file).find? (fun d => fs.isFile (d.join fileName)) = some ⟨"."⟩ := by
    have inner : file.around.find? (fun d => fs.isFile (d.join fileName)) = none :=
      List.find?_eq_none.2 fun d hd => by simp [passed.free d hd]
    rw [enclosing_relative relative, List.find?_append, inner, List.find?_singleton,
      if_pos passed.present]
    rfl
  rw [overlay, first]
  exact readConfig_ne _

theorem overlay_directories (kept : ¬PassedOver fs file) (relative : file.isAbsolute = false) :
    overlay fs base (directories file) = overlay fs base (enclosing file) := by
  rw [directories_around, enclosing_relative relative]
  by_cases none : file.around = []
  · rw [if_pos none, none, List.nil_append]
  rw [if_neg none]
  by_cases found : ∃ d ∈ file.around, fs.isFile (d.join fileName) = true
  · exact (overlay_append found).symm
  have free : ∀ d ∈ file.around, fs.isFile (d.join fileName) = false :=
    fun d hd => Bool.eq_false_iff.2 fun there => found ⟨d, hd, there⟩
  have missing : fs.isFile ((⟨"."⟩ : Path).join fileName) = false :=
    Bool.eq_false_iff.2 fun there => kept ⟨none, free, there⟩
  rw [overlay_free free, overlay_free]
  intro d hd
  rcases List.mem_append.1 hd with hd | hd
  · exact free d hd
  · rw [List.mem_singleton.1 hd, missing]

theorem not_passedOver (near : file.parts.length < 2 ∨ file.parts.head? = some .here) :
    ¬PassedOver fs file := by
  rintro ⟨inner, free, present⟩
  by_cases long : 2 ≤ file.parts.length
  · have here := Path.here_around long (near.resolve_left (by omega))
    rw [free _ here] at present
    cases present
  · exact inner (Path.around_short (by omega))

/-- The nearest configuration file applies, unless it is that of the working directory and the path
has other directories. -/
theorem resolve_enclosing (relative : file.isAbsolute = false) :
    let answer := (resolve fs (.fresh base none) file).map Prod.fst
    (answer = overlay fs base (enclosing file) ↔ ¬PassedOver fs file) ∧
      (PassedOver fs file → answer = .ok (.ofConfig base none)) ∧
      (file.parts.length < 2 ∨ file.parts.head? = some .here → ¬PassedOver fs file) ∧
      ∀ asked, SpelledAlike fs (file :: asked) →
        Agrees ((resolve fs (Resolver.nearest.after fs (.fresh base none) asked) file).map Prod.fst)
          answer := by
  intro answer
  refine ⟨⟨fun same passed => ?_, fun kept => ?_⟩, fun passed => passed.resolve_base,
    not_passedOver, fun asked spelled => ?_⟩
  · exact passed.overlay_ne relative (same.symm.trans passed.resolve_base)
  · exact (resolve_overlay fs base file).trans (overlay_directories kept relative)
  · have agrees := @search_agrees fs base none asked file spelled
    rwa [search_answer, search_answer] at agrees

def onlyHere : FileSystem := ⟨[([".lintpool.toml"], .file [] 0)], [], 0⟩

theorem onlyHere_present : onlyHere.isFile ((⟨"."⟩ : Path).join fileName) = true := by
  have accepted : FileSystem.refused? ((⟨"."⟩ : Path).join fileName) = none := by decide
  have walked : FileSystem.steps ((⟨"."⟩ : Path).join fileName) =
      [.here, .name ".lintpool.toml"] := by
    decide
  refine FileSystem.isFile_iff.2 ⟨accepted, [".lintpool.toml"], ?_, [], 0, rfl⟩
  rw [walked]
  exact .stay rfl (.inl rfl) (.down rfl rfl (by decide) rfl (by rintro _ ⟨⟩) (.arrive ..))

theorem onlyHere_free : onlyHere.isFile ((⟨"d"⟩ : Path).join fileName) = false := by
  have accepted : FileSystem.refused? ((⟨"d"⟩ : Path).join fileName) = none := by decide
  have walked : FileSystem.steps ((⟨"d"⟩ : Path).join fileName) =
      [.name "d", .name ".lintpool.toml"] := by
    decide
  have origin : onlyHere.origin ((⟨"d"⟩ : Path).join fileName) = [] := by decide
  have missing : onlyHere.entry? ["d"] = none := rfl
  have short : "d".utf8ByteSize ≤ 255 := by decide
  have lost : onlyHere.walk .content FileSystem.linkLimit [] [.name "d", .name ".lintpool.toml"] =
      .error .notFound := by
    rw [FileSystem.walk, show onlyHere.entry? [] = some .directory from rfl]
    simp [missing, Nat.not_lt.2 short]
  rw [FileSystem.isFile, FileSystem.status, FileSystem.locate, FileSystem.place, FileSystem.follow,
    accepted, walked, origin, lost]

theorem onlyHere_passedOver : PassedOver onlyHere ⟨"d/f"⟩ := by
  have around : (⟨"d/f"⟩ : Path).around = [⟨"d"⟩] := by decide
  refine ⟨by rw [around]; decide, fun d hd => ?_, onlyHere_present⟩
  rw [around, List.mem_singleton] at hd
  rw [hd, onlyHere_free]

theorem resolve_onlyHere :
    let bare := (resolve onlyHere (.fresh .empty none) ⟨"f"⟩).map Prod.fst
    let below := (resolve onlyHere (.fresh .empty none) ⟨"d/f"⟩).map Prod.fst
    bare = overlay onlyHere .empty [⟨"."⟩] ∧ below = .ok (.ofConfig .empty none) ∧ bare ≠ below := by
  intro bare below
  have relative : (⟨"f"⟩ : Path).isAbsolute = false ∧ (⟨"d/f"⟩ : Path).isAbsolute = false := by
    decide
  obtain ⟨found, -, near, -⟩ := @resolve_enclosing onlyHere .empty ⟨"f"⟩ relative.1
  obtain ⟨-, alone, -, -⟩ := @resolve_enclosing onlyHere .empty ⟨"d/f"⟩ relative.2
  have applied : bare = overlay onlyHere .empty [⟨"."⟩] := found.2 (near (.inl (by decide)))
  have passed : below = .ok (.ofConfig .empty none) := alone onlyHere_passedOver
  refine ⟨applied, passed, ?_⟩
  rw [applied, passed, overlay, List.find?_singleton, if_pos onlyHere_present]
  exact readConfig_ne _

/-- The nearest configuration file does not always apply. -/
theorem not_resolve_enclosing :
    ¬∀ (fs : FileSystem) (base : Config) (file : Path), file.isAbsolute = false →
      .up ∉ file.parts →
        (resolve fs (.fresh base none) file).map Prod.fst = overlay fs base (enclosing file) := by
  intro nearest
  have same := nearest onlyHere .empty ⟨"d/f"⟩ (by decide) (by decide)
  exact onlyHere_passedOver.overlay_ne (by decide) (same.symm.trans onlyHere_passedOver.resolve_base)

end Nearest
end ParallelLint
