import Mathlib.Data.List.Zip
import ParallelLint.Glob.Match
import ParallelLint.Proofs.Glob.Reading
import ParallelLint.Proofs.Text.Utf8

set_option autoImplicit false

/-!
Which paths a glob fits behind a leading `./`: those that are spelled with `./` as well, and that the
glob fits from there on. The marks of a match tell this: those before the place that has been reached
are all down, and make no difference to the others.
-/
namespace ParallelLint.Glob
open ParallelLint.Text

section
variable {p : UInt8 → Bool} {path : Bytes} {marks others : Marks}

theorem throughText_shift (text : Bytes) (b : UInt8) (path : Bytes) (marks : Marks) :
    throughText text (b :: path) (false :: marks) = false :: throughText text path marks := by
  induction text generalizing marks with
  | nil => rfl
  | cons c rest ih => exact ih (through (· = c) path marks)

theorem move_shift (b : UInt8) (path : Bytes) :
    (∀ marks (t : Token), t.move (b :: path) (false :: marks) = false :: t.move path marks) ∧
    (∀ marks branches,
      moveAny (b :: path) (false :: marks) branches = false :: moveAny path marks branches) ∧
    ∀ marks tokens,
      moveAll (b :: path) (false :: marks) tokens = false :: moveAll path marks tokens := by
  refine Token.move.mutual_induct path
    (fun marks t => t.move (b :: path) (false :: marks) = false :: t.move path marks)
    (fun marks branches =>
      moveAny (b :: path) (false :: marks) branches = false :: moveAny path marks branches)
    (fun marks tokens =>
      moveAll (b :: path) (false :: marks) tokens = false :: moveAll path marks tokens)
    ?literal ?any ?zeroOrMore ?recursivePrefix ?recursiveSuffix ?recursiveMiddle ?charClass ?silent
    ?alternates ?none ?skip ?branch ?done ?next
  case literal =>
    intro marks c
    exact throughText_shift _ b path marks
  case any | zeroOrMore | recursivePrefix | recursiveSuffix | recursiveMiddle | charClass =>
    intros
    rfl
  case silent =>
    intro marks branches silent
    rw [Token.move, Token.move, if_pos silent, if_pos silent]
  case alternates =>
    intro marks branches speaking ih
    rw [Token.move, Token.move, if_neg speaking, if_neg speaking, ih]
  case none | done =>
    intro marks
    rfl
  case skip =>
    intro marks branch rest silent ih
    rw [moveAny, moveAny, if_pos silent, if_pos silent, ih]
  case branch =>
    intro marks branch rest speaking ih ihRest
    rw [moveAny, moveAny, if_neg speaking, if_neg speaking, ih, ihRest]
    rfl
  case next =>
    intro marks t rest ih ihRest
    rw [moveAll, moveAll, ih, ihRest]

theorem mem_zipWith {α β γ : Type} {f : α → β → γ} {c : γ} {xs : List α} {ys : List β}
    (h : c ∈ List.zipWith f xs ys) : ∃ x ∈ xs, ∃ y ∈ ys, f x y = c := by
  rw [← List.map_uncurry_zip_eq_zipWith] at h
  obtain ⟨⟨x, y⟩, both, same⟩ := List.mem_map.1 h
  obtain ⟨hx, hy⟩ := List.of_mem_zip both
  exact ⟨x, hx, y, hy, same⟩

theorem through_dead (p : UInt8 → Bool) (path : Bytes) (dead : true ∉ marks) :
    true ∉ through p path marks := by
  rintro (_ | ⟨_, h⟩)
  obtain ⟨b, -, mark, there, both⟩ := mem_zipWith h
  exact dead ((Bool.and_eq_true_iff.1 both).1 ▸ there)

theorem throughText_dead (text path : Bytes) (dead : true ∉ marks) :
    true ∉ throughText text path marks := by
  induction text generalizing marks with
  | nil => exact dead
  | cons c rest ih => exact ih (through_dead (· = c) path dead)

theorem onward_dead (dead : true ∉ marks) : true ∉ onward marks := by
  induction marks with
  | nil => exact dead
  | cons mark rest ih =>
    rw [List.mem_cons, not_or] at dead
    cases mark with
    | true => exact absurd rfl dead.1
    | false => simpa [onward] using ih dead.2

theorem either_dead (dead : true ∉ marks) (dead' : true ∉ others) :
    true ∉ either marks others := by
  intro h
  obtain ⟨mark, there, other, there', any⟩ := mem_zipWith h
  rcases Bool.or_eq_true_iff.1 any with rfl | rfl
  · exact dead there
  · exact dead' there'

theorem move_dead (path : Bytes) :
    (∀ marks (t : Token), true ∉ marks → true ∉ t.move path marks) ∧
    (∀ marks branches, true ∉ marks → true ∉ moveAny path marks branches) ∧
    ∀ marks tokens, true ∉ marks → true ∉ moveAll path marks tokens := by
  refine Token.move.mutual_induct path
    (fun marks t => true ∉ marks → true ∉ t.move path marks)
    (fun marks branches => true ∉ marks → true ∉ moveAny path marks branches)
    (fun marks tokens => true ∉ marks → true ∉ moveAll path marks tokens)
    ?literal ?any ?zeroOrMore ?recursivePrefix ?recursiveSuffix ?recursiveMiddle ?charClass ?silent
    ?alternates ?none ?skip ?branch ?done ?next
  case literal => exact fun marks c => throughText_dead _ path
  case any => exact fun marks => through_dead _ path
  case zeroOrMore => exact fun marks => onward_dead
  case recursivePrefix =>
    exact fun marks dead => either_dead dead (through_dead _ path (onward_dead dead))
  case recursiveSuffix => exact fun marks dead => onward_dead (through_dead _ path dead)
  case recursiveMiddle =>
    intro marks dead
    have after := through_dead (· = 0x2F) path dead
    exact either_dead after (through_dead _ path (onward_dead after))
  case charClass => exact fun marks negated ranges => through_dead _ path
  case silent =>
    intro marks branches silent dead
    rwa [Token.move, if_pos silent]
  case alternates =>
    intro marks branches speaking ih dead
    rw [Token.move, if_neg speaking]
    exact ih dead
  case none =>
    intro marks dead
    simp [moveAny, nowhere]
  case skip =>
    intro marks branch rest silent ih dead
    rw [moveAny, if_pos silent]
    exact ih dead
  case branch =>
    intro marks branch rest speaking ih ihRest dead
    rw [moveAny, if_neg speaking]
    exact either_dead (ih dead) (ihRest dead)
  case done => exact fun marks dead => dead
  case next => exact fun marks t rest ih ihRest dead => ihRest (ih dead)

theorem zipWith_nowhere (p : UInt8 → Bool) (path : Bytes) :
    List.zipWith (fun b mark => mark && p b) path (nowhere path) = path.map fun _ => false := by
  unfold nowhere
  induction path with
  | nil => rfl
  | cons b rest ih => rw [List.map_cons, List.zipWith_cons_cons, ih, Bool.false_and]

theorem through_start (p : UInt8 → Bool) (b : UInt8) (path : Bytes) :
    through p (b :: path) (start (b :: path)) = false :: p b :: path.map fun _ => false := by
  change false :: (true && p b) :: List.zipWith _ path (nowhere path) = _
  rw [zipWith_nowhere, Bool.true_and]

theorem through_start_dead (other : ∀ b ∈ path.head?, p b = false) :
    true ∉ through p path (start path) := by
  cases path with
  | nil => simp [through]
  | cons b rest =>
    rw [through_start, other b rfl]
    simp

theorem moveAll_behindSlash (tokens : List Token) (rest : Bytes) :
    moveAll (0x2F :: rest) (start (0x2F :: rest)) (behindSlash tokens) =
      false :: moveAll rest (start rest) tokens := by
  have slash : throughSlash (0x2F :: rest) (start (0x2F :: rest)) = false :: start rest :=
    through_start _ _ rest
  unfold behindSlash
  split
  · rw [moveAll, moveAll, Token.move, Token.move]
    simp only [slash]
    exact (move_shift 0x2F rest).2.2 (Token.move rest (start rest) .recursivePrefix) _
  · change moveAll _ (throughSlash _ _) tokens = _
    rw [slash]
    exact (move_shift 0x2F rest).2.2 (start rest) tokens

theorem moveAll_behindSlash_dead (tokens : List Token) {path : Bytes}
    (other : ∀ b ∈ path.head?, b ≠ 0x2F) :
    true ∉ moveAll path (start path) (behindSlash tokens) := by
  have dead : true ∉ throughSlash path (start path) :=
    through_start_dead fun b hb => decide_eq_false (other b hb)
  unfold behindSlash
  split
  · exact (move_dead path).2.2 (Token.move path (start path) .recursiveMiddle) _
      (either_dead dead (through_dead _ path (onward_dead dead)))
  · exact (move_dead path).2.2 _ tokens dead

theorem moveAll_behindDot (tokens : List Token) (rest : Bytes) :
    moveAll (0x2E :: rest) (start (0x2E :: rest)) (behindDot tokens) =
      false :: moveAll rest (start rest) (behindSlash tokens) := by
  have dot : through (· = 0x2E) (0x2E :: rest) (start (0x2E :: rest)) = false :: start rest :=
    through_start _ _ rest
  change moveAll _ (through (· = 0x2E) _ _) (behindSlash tokens) = _
  rw [dot]
  exact (move_shift 0x2E rest).2.2 (start rest) (behindSlash tokens)

theorem alive_behindDot {tokens : List Token} {path : Bytes}
    (alive : true ∈ moveAll path (start path) (behindDot tokens)) :
    ∃ rest, path = 0x2E :: 0x2F :: rest := by
  by_contra other
  refine absurd alive ?_
  by_cases dot : path.head? = some 0x2E
  · obtain ⟨more, rfl⟩ := List.head?_eq_some_iff.1 dot
    rw [moveAll_behindDot, List.mem_cons, not_or]
    refine ⟨by simp, moveAll_behindSlash_dead tokens fun b hb slash => other ?_⟩
    obtain ⟨rest, rfl⟩ := List.head?_eq_some_iff.1 hb
    exact ⟨rest, by rw [slash]⟩
  · have dead : true ∉ through (· = 0x2E) path (start path) :=
      through_start_dead fun b hb => decide_eq_false fun same => dot (same ▸ hb)
    exact (move_dead path).2.2 _ (behindSlash tokens) dead

/-- Behind `./` a glob fits what begins with the same two bytes, and goes on as it asks. -/
theorem fits_behindDot (tokens : List Token) (path : Bytes) :
    (moveAll path (start path) (behindDot tokens)).getLastD false = true ↔
      ∃ rest, path = 0x2E :: 0x2F :: rest ∧
        (moveAll rest (start rest) tokens).getLastD false = true := by
  have onward (rest : Bytes) :
      (moveAll (0x2E :: 0x2F :: rest) (start (0x2E :: 0x2F :: rest)) (behindDot tokens)).getLastD
        false = (moveAll rest (start rest) tokens).getLastD false := by
    rw [moveAll_behindDot, moveAll_behindSlash, List.getLastD_cons, List.getLastD_cons]
  constructor
  · intro fits
    have alive : true ∈ moveAll path (start path) (behindDot tokens) := by
      rw [List.getLastD_eq_getLast?] at fits
      cases last : (moveAll path (start path) (behindDot tokens)).getLast? with
      | none =>
        rw [last] at fits
        cases fits
      | some mark =>
        rw [last, Option.getD_some] at fits
        exact fits ▸ List.mem_of_getLast? last
    obtain ⟨rest, rfl⟩ := alive_behindDot alive
    exact ⟨rest, rfl, onward rest ▸ fits⟩
  · rintro ⟨rest, rfl, fits⟩
    exact (onward rest).trans fits

end

variable {g g' : Glob} {path : Path}

theorem fits_eq (more : g.tokens ≠ [.recursivePrefix]) (path : Path) :
    g.fits path =
      (moveAll (bytesOf path.text) (start (bytesOf path.text)) g.tokens).getLastD false := by
  unfold fits
  split
  · rename_i only
    exact absurd only more
  · rfl

theorem bytesOf_dot {text : String} {rest : Bytes} :
    bytesOf text = 0x2E :: 0x2F :: rest ↔ ∃ more, text = "./" ++ more ∧ bytesOf more = rest := by
  constructor
  · intro h
    obtain ⟨behind, dot, h⟩ := encode_head (c := '.') (by decide) h
    obtain ⟨more, slash, h⟩ := encode_head (c := '/') (by decide) h
    refine ⟨String.ofList more, ?_, by rw [bytesOf, String.toList_ofList, h]⟩
    rw [← String.toList_inj, dot, slash]
    simp
  · rintro ⟨more, rfl, rfl⟩
    rw [bytesOf, String.toList_append, encode_append]
    rfl

/-- A `**/` and nothing else. By itself it fits everything. -/
def OnlyDirectories (g : Glob) : Prop :=
  g.tokens = [.recursivePrefix] ∧ g.pattern.toList.getLast? = some '/'

/-- Tokens behind `./` fit the paths that are spelled with it, and go on as they ask. -/
theorem fits_tokens_dotted {tokens : List Token} (shape : g'.tokens = behindDot tokens)
    (path : Path) : g'.fits path = true ↔ ∃ rest, path.text = "./" ++ rest ∧
      (moveAll (bytesOf rest) (start (bytesOf rest)) tokens).getLastD false = true := by
  have more : g'.tokens ≠ [.recursivePrefix] := by
    rw [shape]
    rintro ⟨⟩
  rw [fits_eq more, shape, fits_behindDot]
  constructor
  · rintro ⟨bytes, text, fits⟩
    obtain ⟨rest, spelled, rfl⟩ := bytesOf_dot.1 text
    exact ⟨rest, spelled, fits⟩
  · rintro ⟨rest, spelled, fits⟩
    exact ⟨bytesOf rest, bytesOf_dot.2 ⟨rest, spelled, rfl⟩, fits⟩

theorem zeroOrMore_fits (path : Bytes) :
    (moveAll path (start path) [.zeroOrMore]).getLastD false = true := by
  change (true :: (path.map fun _ => false).map fun _ => true).getLastD false = true
  rw [List.getLastD_cons, List.map_map]
  induction path with
  | nil => rfl
  | cons b rest ih => rwa [List.map_cons, List.getLastD_cons]

theorem fits_dotted {p : String} (read : Glob.read p = .ok g)
    (read' : Glob.read ("./" ++ p) = .ok g') (other : ¬g.OnlyDirectories) (path : Path) :
    g'.fits path = true ↔ ∃ rest, path.text = "./" ++ rest ∧ g.fits ⟨rest⟩ = true := by
  obtain ⟨pattern, _, read'', shape⟩ := read_dotted_ok read
  rw [read', Except.ok.injEq] at read''
  subst read''
  rcases shape with ⟨shape, slash⟩ | ⟨shape, only, -⟩
  · have more : g.tokens ≠ [.recursivePrefix] := fun only => other ⟨only, pattern ▸ slash only⟩
    simp only [fits_tokens_dotted shape, fits_eq more]
  · have all (rest : String) : g.fits ⟨rest⟩ = true := by rw [fits, only]
    simp only [all]
    have same : g'.fits path = (⟨g'.pattern, behindDot [.zeroOrMore]⟩ : Glob).fits path := by
      rw [fits_eq (by rw [shape]; rintro ⟨⟩), shape]
      rfl
    rw [same, fits_tokens_dotted rfl]
    simp only [zeroOrMore_fits]

theorem zipWith_anywhere (p : UInt8 → Bool) (path : Bytes) :
    List.zipWith (fun b mark => mark && p b) path (true :: path.map fun _ => true) =
      path.map p := by
  induction path with
  | nil => rfl
  | cons b rest ih => rw [List.map_cons, List.zipWith_cons_cons, ih, Bool.true_and, List.map_cons]

theorem recursivePrefix_marks (path : Bytes) :
    moveAll path (start path) [.recursivePrefix] = true :: path.map fun b => decide (b = 0x2F) := by
  have anywhere : onward (start path) = true :: path.map fun _ => true := by
    rw [start, onward, List.map_map]
    rfl
  have slashes : throughSlash path (onward (start path)) =
      false :: path.map fun b => decide (b = 0x2F) := by
    rw [anywhere, throughSlash, through, zipWith_anywhere]
  calc moveAll path (start path) [.recursivePrefix]
      = either (start path) (false :: path.map fun b => decide (b = 0x2F)) := by
        rw [← slashes]
        rfl
    _ = true :: path.map fun b => decide (b = 0x2F) := by
        rw [either, start, List.zipWith_cons_cons, List.zipWith_map, List.zipWith_self]
        rfl

/-- Behind `./` a lone `**/` fits directories only, by their spelling. -/
theorem OnlyDirectories.fits_dotted {p : String} (only : g.OnlyDirectories)
    (read : Glob.read p = .ok g) (read' : Glob.read ("./" ++ p) = .ok g')
    (fits : g'.fits path = true) :
    ∃ rest, path.text = "./" ++ rest ∧ (rest = "" ∨ rest.toList.getLast? = some '/') := by
  obtain ⟨pattern, _, read'', shape⟩ := read_dotted_ok read
  rw [read', Except.ok.injEq] at read''
  subst read''
  rcases shape with ⟨shape, -⟩ | ⟨-, -, star⟩
  · obtain ⟨rest, spelled, last⟩ := (fits_tokens_dotted shape path).1 fits
    rw [only.1, recursivePrefix_marks, List.getLastD_cons, List.getLastD_eq_getLast?,
      List.getLast?_map] at last
    refine ⟨rest, spelled, ?_⟩
    cases final : (bytesOf rest).getLast? with
    | none => exact .inl (bytesOf_injective (List.getLast?_eq_none_iff.1 final))
    | some b =>
      rw [final, Option.map_some, Option.getD_some, decide_eq_true_eq] at last
      exact .inr (encode_last (by decide) (final.trans (congrArg some last)))
  · rw [← pattern, only.2] at star
    cases star

theorem fits_dotted_spelled {p : String} (read : Glob.read p = .ok g)
    (read' : Glob.read ("./" ++ p) = .ok g') (fits : g'.fits path = true) :
    ∃ rest, path.text = "./" ++ rest := by
  by_cases only : g.OnlyDirectories
  · obtain ⟨rest, spelled, -⟩ := only.fits_dotted read read' fits
    exact ⟨rest, spelled⟩
  · obtain ⟨rest, spelled, -⟩ := (fits_dotted read read' only path).1 fits
    exact ⟨rest, spelled⟩

end ParallelLint.Glob
