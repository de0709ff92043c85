import ParallelLint.Glob.Reader

set_option autoImplicit false

namespace ParallelLint.Glob

def behindSlash : List Token → List Token
  | .recursivePrefix :: rest => .recursiveMiddle :: rest
  | tokens => .literal '/' :: tokens

/-- The tokens behind a leading `./`. -/
def behindDot (tokens : List Token) : List Token := .literal '.' :: behindSlash tokens

def beforeDot : List Token → List Token
  | [] => [.literal '/', .literal '.']
  | [.recursivePrefix] => [.recursiveMiddle, .literal '.']
  | t :: rest => t :: beforeDot rest

theorem beforeDot_cons {t : Token} {rest : List Token} (h : rest ≠ [] ∨ t ≠ .recursivePrefix) :
    beforeDot (t :: rest) = t :: beforeDot rest := by
  rw [beforeDot]
  rintro rfl rfl
  simp at h

theorem beforeDot_append (front : List Token) {last : List Token} (some : last ≠ []) :
    beforeDot (front ++ last) = front ++ beforeDot last := by
  induction front with
  | nil => rfl
  | cons t rest ih =>
    rw [List.cons_append, beforeDot_cons (.inl (by simp [some])), ih]
    rfl

theorem beforeDot_reverse (tokens : List Token) :
    (beforeDot tokens.reverse).reverse = behindDot tokens := by
  cases tokens with
  | nil => rfl
  | cons t rest =>
    rw [List.reverse_cons, beforeDot_append _ (by simp), List.reverse_append, List.reverse_reverse]
    cases t <;> rfl

theorem beforeDot_ne_nil (tokens : List Token) : beforeDot tokens ≠ [] := by
  unfold beforeDot
  split <;> simp

namespace Draft

def dottedGroups : List Group → List Group
  | [] => []
  | [g] => [{ g with before := beforeDot g.before }]
  | g :: outer => g :: dottedGroups outer

/-- A draft as it would be behind a leading `./`. Only the outermost branch differs. -/
def dotted (d : Draft) : Draft :=
  match d.groups with
  | [] => ⟨beforeDot d.current, []⟩
  | groups => ⟨d.current, dottedGroups groups⟩

/-- Nothing but a `**` at the beginning. -/
def lone : Draft := ⟨[.recursivePrefix], []⟩

/-- Some token of the outermost branch has been read. -/
def Started (d : Draft) : Prop := d.groups = [] → d.current ≠ []

variable {d : Draft} {t : Token} {previous previous' : Option Char}

theorem started_push (d : Draft) (t : Token) : (d.push t).Started := fun _ => by simp [push]

theorem started_recursive (d : Draft) (t : Token) : (d.recursive t).Started := by
  intro _
  unfold recursive
  split
  · rename_i h
    simp [h]
  · rename_i h
    simp [h]
  · simp

theorem started_closeGroup {d' : Draft} (closed : d.closeGroup = .ok d') : d'.Started := by
  unfold closeGroup at closed
  split at closed
  · cases closed
  · cases closed
    simp [Started]

theorem started_comma (d : Draft) : d.comma.Started := by
  unfold comma
  split
  · exact started_push _ _
  · simp [Started]

theorem started_starsSlash (d : Draft) (previous : Option Char) :
    (d.starsSlash previous).Started := by
  unfold starsSlash
  split
  · exact started_push _ _
  split
  · exact started_recursive _ _
  · exact started_push _ _

theorem started_stars (d : Draft) (previous next : Option Char) :
    (d.stars previous next).Started := by
  unfold stars
  split
  · split
    · exact started_push _ _
    · exact started_push _ _
  split
  · exact started_recursive _ _
  · exact started_push _ _

theorem push_ne_lone (d : Draft) (plain : t ≠ .recursivePrefix) : d.push t ≠ lone := by
  intro same
  injection same with current
  exact plain (List.cons.inj current).1

theorem recursive_ne_lone (plain : t ≠ .recursivePrefix) (more : d ≠ lone) :
    d.recursive t ≠ lone := by
  unfold recursive
  split
  · exact more
  · exact more
  · intro same
    injection same with current
    exact plain (List.cons.inj current).1

theorem comma_ne_lone (d : Draft) : d.comma ≠ lone := by
  unfold comma
  split
  · exact push_ne_lone d (by simp)
  · intro same
    injection same with current
    cases current

theorem closeGroup_ne_lone {d' : Draft} (closed : d.closeGroup = .ok d') : d' ≠ lone := by
  unfold closeGroup at closed
  split at closed
  · cases closed
  · cases closed
    intro same
    injection same with current
    cases current

@[simp] theorem inGroup_dotted (d : Draft) : d.dotted.inGroup = d.inGroup := by
  obtain ⟨current, groups⟩ := d
  cases groups with
  | nil => rfl
  | cons g outer => cases outer <;> rfl

theorem dotted_push (d : Draft) (plain : t ≠ .recursivePrefix) :
    (d.push t).dotted = d.dotted.push t := by
  obtain ⟨current, groups⟩ := d
  cases groups with
  | nil => simp [push, dotted, beforeDot_cons (.inr plain)]
  | cons g outer => rfl

theorem dotted_openGroup (d : Draft) : d.openGroup.dotted = d.dotted.openGroup := by
  obtain ⟨current, groups⟩ := d
  cases groups <;> rfl

theorem dotted_comma (d : Draft) : d.comma.dotted = d.dotted.comma := by
  obtain ⟨current, groups⟩ := d
  cases groups with
  | nil => exact dotted_push _ (by simp)
  | cons g outer => cases outer <;> rfl

theorem dotted_closeGroup (d : Draft) : d.dotted.closeGroup = d.closeGroup.map dotted := by
  obtain ⟨current, groups⟩ := d
  cases groups with
  | nil => rfl
  | cons g outer =>
    cases outer with
    | nil => simp [closeGroup, dotted, dottedGroups, Except.map, beforeDot_cons]
    | cons h outer => rfl

theorem dotted_recursive_inside (inside : d.groups ≠ []) (t : Token) :
    (d.recursive t).dotted = d.dotted.recursive t := by
  obtain ⟨current, groups⟩ := d
  cases groups with
  | nil => exact absurd rfl inside
  | cons g outer =>
    cases current with
    | nil => rfl
    | cons first rest => cases first <;> rfl

theorem dotted_recursive (started : d.Started) (plain : t ≠ .recursivePrefix) (more : d ≠ lone) :
    (d.recursive t).dotted = d.dotted.recursive t := by
  by_cases inside : d.groups ≠ []
  · exact dotted_recursive_inside inside t
  obtain ⟨current, groups⟩ := d
  obtain rfl : groups = [] := by simpa using inside
  cases current with
  | nil => exact absurd rfl (started rfl)
  | cons first rest =>
    have kept : rest ≠ [] ∨ first ≠ .recursivePrefix := by
      by_cases last : rest = []
      · exact .inr fun first => more (by rw [last, first]; rfl)
      · exact .inl last
    have new : beforeDot (t :: rest) = t :: beforeDot rest := beforeDot_cons (.inr plain)
    cases first <;> simp [recursive, dotted, beforeDot_cons kept, new]

theorem dotted_twoStars (d : Draft) : d.twoStars.dotted = d.dotted.twoStars := by
  rw [twoStars, dotted_push _ (by simp), dotted_push _ (by simp)]
  rfl

/-- Where one reads on after `previous` in a draft, and after `previous'` behind `./`. -/
inductive Paired : Draft → Option Char → Option Char → Prop
  | start : Paired ⟨[], []⟩ none (some '/')
  | onward {d : Draft} (started : d.Started) (previous : Option Char) : Paired d previous previous

theorem isEmpty_dotted (started : d.Started) :
    d.dotted.current.isEmpty = d.current.isEmpty := by
  obtain ⟨current, groups⟩ := d
  cases groups with
  | cons g outer => rfl
  | nil =>
    rw [List.isEmpty_eq_false_iff.2 (started rfl)]
    exact List.isEmpty_eq_false_iff.2 (beforeDot_ne_nil current)

theorem atComponent_dotted (d : Draft) (previous : Option Char) :
    d.dotted.atComponent previous = d.atComponent previous := by
  simp only [atComponent, inGroup_dotted]

theorem dotted_prefix (started : d.Started) (none : d.current.isEmpty = true) :
    (d.push .recursivePrefix).dotted = d.dotted.push .recursivePrefix := by
  obtain ⟨current, groups⟩ := d
  cases groups with
  | nil => exact absurd (List.isEmpty_iff.1 none) (started rfl)
  | cons g outer => rfl

theorem dotted_starsSlash (paired : d.Paired previous previous') :
    (d.starsSlash previous).dotted = d.dotted.starsSlash previous' := by
  cases paired with
  | start => rfl
  | onward started previous =>
    simp only [starsSlash, isEmpty_dotted started, atComponent_dotted]
    split
    · rename_i none
      exact dotted_prefix started none
    split
    · by_cases alone : d = lone
      · rw [alone]
        rfl
      · exact dotted_recursive started (by simp) alone
    · rw [dotted_push _ (by simp), dotted_twoStars]

def ended : Draft := ⟨[.recursiveSuffix, .literal '.'], []⟩

theorem dotted_stars (paired : d.Paired previous previous') (next : Option Char) :
    d.stars previous next ≠ lone ∧
      (d.stars previous next).dotted = d.dotted.stars previous' next ∨
    d.stars previous next = lone ∧ next = none ∧ d.dotted.stars previous' next = ended := by
  cases paired with
  | start =>
    cases next with
    | none => exact .inr ⟨rfl, rfl, rfl⟩
    | some c => exact .inl ⟨push_ne_lone _ (by simp), rfl⟩
  | onward started previous =>
    have twoStars : d.twoStars ≠ lone ∧ d.twoStars.dotted = d.dotted.twoStars :=
      ⟨push_ne_lone _ (by simp), dotted_twoStars d⟩
    have ends : d.dotted.endsBefore next = d.endsBefore next := by
      simp only [endsBefore, inGroup_dotted]
    simp only [stars, isEmpty_dotted started, atComponent_dotted, ends]
    split
    · rename_i none
      split
      · refine .inl ⟨?_, dotted_prefix started none⟩
        intro same
        injection same with _ groups
        exact started groups (List.isEmpty_iff.1 none)
      · exact .inl twoStars
    split
    · rename_i closed
      by_cases alone : d = lone
      · subst alone
        have last : next = none := by
          simpa [endsBefore, inGroup, lone] using (Bool.and_eq_true_iff.1 closed).2
        exact .inr ⟨rfl, last, rfl⟩
      · exact .inl ⟨recursive_ne_lone (by simp) alone, dotted_recursive started (by simp) alone⟩
    · exact .inl twoStars

end Draft

/-- What comes of reading some text up to the character `last`, and of reading it behind a leading
`./`. -/
inductive Alike (last : Option Char) : Except Fault Draft → Except Fault Draft → Prop
  | failed (fault : Fault) : Alike last (.error fault) (.error fault)
  | dotted (d : Draft) (slash : d = .lone → last = some '/') : Alike last (.ok d) (.ok d.dotted)
  | ended (stars : last = some '*') : Alike last (.ok .lone) (.ok .ended)

def lastOf (previous : Option Char) (text : List Char) : Option Char :=
  text.foldl (fun _ c => some c) previous

/-- From a draft one reads on as from the dotted draft. When nothing but a `**` has been read, it was
one with a slash: the other kind has no text after it. -/
def ReadAlike (d : Draft) (previous : Option Char) (text : List Char) : Prop :=
  ∀ previous', d.Paired previous previous' → (d = .lone → previous = some '/') →
    Alike (lastOf previous text) (readTokens d previous text) (readTokens d.dotted previous' text)

/-- The same inside of a character class, where the character before does not matter. -/
def ClassAlike (d : Draft) (k : ClassDraft) (text : List Char) : Prop :=
  ∀ previous, Alike (lastOf previous text) (readClass d k text) (readClass d.dotted k text)

theorem ReadAlike.onward {d d' : Draft} {c : Char} {rest : List Char}
    (alike : ReadAlike d (some c) rest) (started : d.Started) (same : d.dotted = d')
    (slash : d = .lone → c = '/') :
    Alike (lastOf (some c) rest) (readTokens d (some c) rest) (readTokens d' (some c) rest) := by
  rw [← same]
  exact alike _ (.onward started _) fun alone => by rw [slash alone]

theorem ReadAlike.push {d : Draft} {t : Token} {c : Char} {rest : List Char}
    (alike : ReadAlike (d.push t) (some c) rest) (plain : t ≠ .recursivePrefix) :
    Alike (lastOf (some c) rest) (readTokens (d.push t) (some c) rest)
      (readTokens (d.dotted.push t) (some c) rest) :=
  alike.onward (Draft.started_push d t) (Draft.dotted_push d plain)
    fun alone => absurd alone (Draft.push_ne_lone d plain)

theorem readTokens_dotted (d : Draft) (previous : Option Char) (text : List Char) :
    ReadAlike d previous text := by
  refine readTokens.induct ReadAlike ClassAlike ?done ?any ?starsSlash ?stars ?star ?notBang
    ?notCaret ?opens ?openGroup ?closeGroup ?unopened ?comma ?dangling ?escaped ?plain ?unclosed
    ?closes ?waits ?adds ?descending d previous text
  case done => exact fun d previous _ _ slash => .dotted d slash
  case any =>
    intro d previous rest alike previous' paired slash
    rw [readTokens, readTokens]
    exact alike.push (by simp)
  case starsSlash =>
    intro d previous rest alike previous' paired slash
    rw [readTokens, readTokens]
    exact alike.onward (Draft.started_starsSlash _ _) (Draft.dotted_starsSlash paired) fun _ => rfl
  case stars =>
    intro d previous rest noSlash alike previous' paired slash
    rw [readTokens, readTokens]
    · rcases Draft.dotted_stars paired rest.head? with ⟨more, same⟩ | ⟨alone, last, same⟩
      · exact alike.onward (Draft.started_stars _ _ _) same fun alone => absurd alone more
      · rw [List.head?_eq_none_iff.1 last] at alone same ⊢
        rw [readTokens, readTokens, alone, same]
        exact .ended rfl
    · exact noSlash
    · exact noSlash
  case star =>
    intro d previous rest noStars noStar alike previous' paired slash
    rw [readTokens, readTokens]
    · exact alike.push (by simp)
    all_goals assumption
  case notBang | notCaret =>
    intro d previous rest alike previous' paired slash
    rw [readTokens, readTokens]
    exact alike _
  case opens =>
    intro d previous rest noBang noCaret alike previous' paired slash
    rw [readTokens, readTokens]
    · exact alike (some '[')
    all_goals assumption
  case openGroup =>
    intro d previous rest alike previous' paired slash
    rw [readTokens, readTokens]
    exact alike.onward (by rintro ⟨⟩) (Draft.dotted_openGroup d) (by rintro ⟨⟩)
  case closeGroup =>
    intro d previous rest d' closed alike previous' paired slash
    rw [readTokens, readTokens, Draft.dotted_closeGroup, closed]
    refine alike.onward (Draft.started_closeGroup closed) rfl fun alone => ?_
    exact absurd alone (Draft.closeGroup_ne_lone closed)
  case unopened =>
    intro d previous rest e failed previous' paired slash
    rw [readTokens, readTokens, Draft.dotted_closeGroup, failed]
    exact .failed e
  case comma =>
    intro d previous rest alike previous' paired slash
    rw [readTokens, readTokens]
    exact alike.onward (Draft.started_comma d) (Draft.dotted_comma d)
      fun alone => absurd alone (Draft.comma_ne_lone d)
  case dangling =>
    intro d previous previous' paired slash
    rw [readTokens, readTokens]
    exact .failed _
  case escaped =>
    intro d previous c rest alike previous' paired slash
    rw [readTokens, readTokens]
    exact alike.push (by simp)
  case plain =>
    intro d previous c rest _ _ _ _ _ _ _ _ _ _ _ _ alike previous' paired slash
    rw [readTokens, readTokens]
    · exact alike.push (by simp)
    all_goals assumption
  case unclosed =>
    intro d k previous
    rw [readClass, readClass]
    exact .failed _
  case closes =>
    intro d k c rest closes alike previous
    rw [readClass, readClass, if_pos closes, if_pos closes]
    rw [Bool.and_eq_true, decide_eq_true_eq] at closes
    rw [closes.1]
    exact alike.push (by simp [ClassDraft.token])
  case waits =>
    intro d k c rest open' waits alike previous
    rw [readClass, readClass, if_neg open', if_neg open', if_pos waits, if_pos waits]
    exact alike (some c)
  case adds =>
    intro d k c rest open' plain k' added alike previous
    rw [readClass, readClass, if_neg open', if_neg open', if_neg plain, if_neg plain, added]
    exact alike (some c)
  case descending =>
    intro d k c rest open' plain e failed previous
    rw [readClass, readClass, if_neg open', if_neg open', if_neg plain, if_neg plain, failed]
    exact .failed _

theorem readTokens_dot (p : String) :
    readTokens ⟨[], []⟩ none ("./" ++ p).toList =
      readTokens (Draft.dotted ⟨[], []⟩) (some '/') p.toList := by
  have text : ("./" ++ p).toList = '.' :: '/' :: p.toList := by simp
  rw [text]
  rfl

theorem lastOf_none (text : List Char) : lastOf none text = text.getLast? := by
  rw [← List.reverse_reverse text, lastOf, List.foldl_reverse, List.getLast?_reverse]
  cases text.reverse <;> rfl

theorem read_dotted_error {p : String} {fault : Fault} (failed : Glob.read p = .error fault) :
    Glob.read ("./" ++ p) = .error fault := by
  have alike := readTokens_dotted ⟨[], []⟩ none p.toList _ .start (by rintro ⟨⟩)
  rw [← readTokens_dot] at alike
  unfold Glob.read at failed ⊢
  generalize readTokens ⟨[], []⟩ none p.toList = first at alike failed
  generalize readTokens ⟨[], []⟩ none ("./" ++ p).toList = second at alike
  cases alike with
  | failed => exact failed
  | ended => cases failed
  | dotted d =>
    simp only [Draft.inGroup_dotted] at failed ⊢
    split at failed
    · rename_i opened
      rw [if_pos opened]
      exact failed
    · cases failed

theorem read_dotted_ok {p : String} {g : Glob} (ok : Glob.read p = .ok g) :
    g.pattern = p ∧ ∃ g', Glob.read ("./" ++ p) = .ok g' ∧
      (g'.tokens = behindDot g.tokens ∧
          (g.tokens = [.recursivePrefix] → p.toList.getLast? = some '/') ∨
        g'.tokens = [.literal '.', .recursiveSuffix] ∧ g.tokens = [.recursivePrefix] ∧
          p.toList.getLast? = some '*') := by
  have alike := readTokens_dotted ⟨[], []⟩ none p.toList _ .start (by rintro ⟨⟩)
  rw [← readTokens_dot, lastOf_none] at alike
  unfold Glob.read at ok ⊢
  generalize readTokens ⟨[], []⟩ none p.toList = first at alike ok
  generalize readTokens ⟨[], []⟩ none ("./" ++ p).toList = second at alike
  cases alike with
  | failed => cases ok
  | ended stars =>
    cases ok
    exact ⟨rfl, _, rfl, .inr ⟨rfl, rfl, stars⟩⟩
  | dotted d slash =>
    simp only [Draft.inGroup_dotted] at ok ⊢
    split at ok
    · cases ok
    · rename_i whole
      cases ok
      obtain ⟨current, groups⟩ := d
      obtain rfl : groups = [] := by simpa [Draft.inGroup] using whole
      refine ⟨rfl, _, if_neg whole, .inl ⟨?_, fun only => slash ?_⟩⟩
      · have reversed := beforeDot_reverse current.reverse
        rwa [List.reverse_reverse] at reversed
      · have alone : current = [.recursivePrefix] := List.reverse_eq_iff.1 only
        rw [alone]
        rfl

end ParallelLint.Glob
