import Kairos.Go.Strings
import Mathlib.Data.List.Nodup

/-!
# Lists of glob patterns

`pkg/glob`: the files that a list of patterns selects, where a pattern behind a `!` takes back what
those before it have matched. `Glob` decides whether a pattern is negative by matching it with the
empty name. `filepath.Match` and `filepath.Glob` are parameters.
-/

namespace Kairos.Glob

structure Paths where
  /-- `filepath.Match`, with nothing for `ErrBadPattern`. -/
  isMatch : GoString → GoString → Option Bool
  glob : GoString → List GoString

structure Pattern where
  glob : GoString
  negative : Bool
deriving DecidableEq

structure MatchPair where
  glob : GoString
  name : GoString
deriving DecidableEq

/-- What the loop has seen, and the pairs that it has sent. -/
structure Sent where
  seen : List GoString
  pairs : List MatchPair

def negated (glob : GoString) : Bool := glob.head? == some '!'

/-- The pattern without its `!`. -/
def plain (glob : GoString) : GoString := if negated glob then glob.tail else glob

namespace Paths

def matchGlob (F : Paths) (pattern name : GoString) : Option Bool :=
  (F.isMatch (plain pattern) name).map (· != negated pattern)

def classify (F : Paths) (glob : GoString) : Res Pattern :=
  match F.matchGlob glob [] with
  | none => .err "syntax error in pattern"
  | some false => pure ⟨glob, false⟩
  | some true =>
    match glob with
    | [] => .panic
    | _ :: rest => pure ⟨rest, true⟩

def patterns (F : Paths) : List GoString → Res (List Pattern)
  | [] => pure []
  | glob :: globs => do
    let p ← F.classify glob
    let ps ← F.patterns globs
    pure (p :: ps)

def excluded (F : Paths) (patterns : List Pattern) (name : GoString) : Bool :=
  patterns.any fun p => p.negative && F.isMatch p.glob name == some true

/-- The inner loop of the goroutine, at one file. -/
def send (F : Paths) (patterns : List Pattern) (glob : GoString) (s : Sent) (file : GoString) :
    Sent :=
  if s.seen.contains file ∨ F.excluded patterns file then s
  else ⟨s.seen ++ [file], s.pairs ++ [⟨glob, file⟩]⟩

def walk (F : Paths) : List Pattern → Sent → Sent
  | [], s => s
  | p :: ps, s =>
    F.walk ps (if p.negative then s else (F.glob p.glob).foldl (F.send (p :: ps) p.glob) s)

/-- `Glob`, with all that comes over its channel. -/
def globAll (F : Paths) (globs : List GoString) : Res (List MatchPair) := do
  let ps ← F.patterns globs
  pure (F.walk ps ⟨[], []⟩).pairs

/-- A pattern of the list matches the file, and no negative one behind it does. -/
def Selects (F : Paths) (globs : List GoString) (file : GoString) : Prop :=
  ∃ before glob after, globs = before ++ glob :: after ∧ ¬negated glob ∧
    F.isMatch glob file = some true ∧
    ∀ g ∈ after, negated g → F.isMatch (plain g) file ≠ some true

/-- `filepath.Match` and `filepath.Glob` decide the patterns of the list. (For a pattern such as
`./*.go` they do not: `Glob` gives cleaned names.) -/
structure Decides (F : Paths) (tree globs : List GoString) : Prop where
  wellFormed : ∀ g ∈ globs, ∃ m, F.isMatch (plain g) [] = some m
  glob_iff : ∀ g ∈ globs, ¬negated g → ∀ file,
    file ∈ F.glob g ↔ file ∈ tree ∧ F.isMatch g file = some true

structure Right (F : Paths) (tree globs : List GoString) : Prop where
  negative : F.patterns globs = .ok (globs.map fun g => ⟨plain g, negated g⟩)
  selects : ∃ pairs, F.globAll globs = .ok pairs ∧ (pairs.map (·.name)).Nodup ∧
    ∀ file, file ∈ pairs.map (·.name) ↔ file ∈ tree ∧ F.Selects globs file

variable {F : Paths} {tree globs : List GoString} {g file : GoString} {ps : List Pattern}
  {s : Sent}

theorem classify_eq_ok_iff (hg : ∃ m, F.isMatch (plain g) [] = some m) :
    F.classify g = .ok ⟨plain g, negated g⟩ ↔ F.isMatch (plain g) [] ≠ some true := by
  obtain ⟨m, hm⟩ := hg
  unfold classify matchGlob
  rw [hm]
  cases g with
  | nil => cases m <;> simp [negated, plain]
  | cons c g =>
    by_cases hc : c = '!'
    · subst hc
      cases m <;> simp [negated, plain]
    · have hpositive : (c == '!') = false := by simpa using hc
      cases m <;> simp [negated, plain, hpositive]

theorem patterns_eq_ok_iff (f : GoString → Pattern) :
    F.patterns globs = .ok (globs.map f) ↔ ∀ g ∈ globs, F.classify g = .ok (f g) := by
  induction globs with
  | nil => simp [patterns]
  | cons g globs ih => simp [patterns, Res.bind_eq_ok, ih]

/-! ## The loop -/

/-- A name has been seen when a pair with it has been sent, once. -/
structure Tidy (s : Sent) : Prop where
  names : s.pairs.map (·.name) = s.seen
  nodup : s.seen.Nodup

theorem Tidy.send (h : Tidy s) : Tidy (F.send ps g s file) := by
  rw [Paths.send]
  split_ifs with hskip
  · exact h
  · rw [not_or] at hskip
    exact ⟨by simp [h.names],
      List.Nodup.append h.nodup (List.nodup_singleton _) (by simpa using hskip.1)⟩

theorem mem_send_seen {name : GoString} : name ∈ (F.send ps g s file).seen ↔
    name ∈ s.seen ∨ name = file ∧ ¬F.excluded ps name := by
  rw [send]
  split_ifs with hskip
  · grind
  · grind

theorem Tidy.foldl (h : Tidy s) (files : List GoString) : Tidy (files.foldl (F.send ps g) s) := by
  induction files generalizing s with
  | nil => exact h
  | cons file files ih => exact ih h.send

theorem mem_foldl_seen {files : List GoString} : file ∈ (files.foldl (F.send ps g) s).seen ↔
    file ∈ s.seen ∨ file ∈ files ∧ ¬F.excluded ps file := by
  induction files generalizing s with
  | nil => simp
  | cons f files ih =>
    rw [List.foldl_cons, ih, mem_send_seen]
    grind

theorem Tidy.walk (h : Tidy s) : Tidy (F.walk ps s) := by
  induction ps generalizing s with
  | nil => exact h
  | cons p ps ih =>
    apply ih
    split_ifs
    · exact h
    · exact h.foldl _

theorem selects_cons : F.Selects (g :: globs) file ↔ (¬negated g ∧ F.isMatch g file = some true ∧
    ∀ g' ∈ globs, negated g' → F.isMatch (plain g') file ≠ some true) ∨ F.Selects globs file := by
  constructor
  · rintro ⟨before, g', after, heq, hg'⟩
    rcases List.cons_eq_append_iff.1 heq with ⟨rfl, hcons⟩ | ⟨before, rfl, rfl⟩
    · obtain ⟨rfl, rfl⟩ := List.cons_eq_cons.1 hcons
      exact .inl hg'
    · exact .inr ⟨before, g', after, rfl, hg'⟩
  · rintro (hg | ⟨before, g', after, rfl, hg'⟩)
    · exact ⟨[], g, globs, rfl, hg⟩
    · exact ⟨g :: before, g', after, rfl, hg'⟩

theorem mem_walk_seen
    (hglob : ∀ g ∈ globs, ¬negated g → ∀ file,
      file ∈ F.glob g ↔ file ∈ tree ∧ F.isMatch g file = some true) :
    file ∈ (F.walk (globs.map fun g => ⟨plain g, negated g⟩) s).seen ↔
      file ∈ s.seen ∨ file ∈ tree ∧ F.Selects globs file := by
  induction globs generalizing s with
  | nil => simp [walk, Selects]
  | cons g globs ih =>
    obtain ⟨hg, hglobs⟩ := List.forall_mem_cons.1 hglob
    rw [List.map_cons, walk, ih hglobs, selects_cons]
    by_cases hneg : negated g
    · simp [hneg]
    · have hplain : plain g = g := if_neg hneg
      have hexcluded : ¬F.excluded (⟨g, negated g⟩ ::
            globs.map fun g => ⟨plain g, negated g⟩) file ↔
          ∀ g' ∈ globs, negated g' → F.isMatch (plain g') file ≠ some true := by
        simp [excluded, hneg]
      rw [if_neg hneg, hplain, mem_foldl_seen, hg hneg, hexcluded]
      tauto

/-- What `Glob` returns is right exactly when no pattern, without its `!`, matches the empty
name. -/
theorem glob_right_iff (hdec : F.Decides tree globs) :
    F.Right tree globs ↔ ∀ g ∈ globs, F.isMatch (plain g) [] ≠ some true := by
  constructor
  · intro hright g hg
    rw [← classify_eq_ok_iff (hdec.wellFormed g hg)]
    exact (patterns_eq_ok_iff fun g => ⟨plain g, negated g⟩).1 hright.negative g hg
  · intro hname
    have hpatterns : F.patterns globs = .ok (globs.map fun g => ⟨plain g, negated g⟩) :=
      (patterns_eq_ok_iff _).2 fun g hg =>
        (classify_eq_ok_iff (hdec.wellFormed g hg)).2 (hname g hg)
    have htidy : Tidy (F.walk (globs.map fun g => ⟨plain g, negated g⟩) ⟨[], []⟩) :=
      Tidy.walk ⟨rfl, List.nodup_nil⟩
    refine ⟨hpatterns, _, by rw [globAll, hpatterns]; rfl, htidy.names ▸ htidy.nodup,
      fun file => ?_⟩
    rw [htidy.names, mem_walk_seen hdec.glob_iff]
    simp

end Paths

/-- A match where `*` is all that is special. -/
def starMatch : GoString → GoString → Bool
  | [], name => name.isEmpty
  | c :: p, name =>
    if c = '*' then (List.range (name.length + 1)).any fun n =>
      '/' ∉ name.take n && starMatch p (name.drop n)
    else name.head? == some c && starMatch p name.tail

def stars (tree : List GoString) : Paths :=
  ⟨fun p name => some (starMatch p name), fun p => tree.filter (starMatch p)⟩

theorem stars_decides (tree globs : List GoString) : (stars tree).Decides tree globs :=
  ⟨fun _ _ => ⟨_, rfl⟩, fun g _ _ file => by simp [stars]⟩

theorem excluded_file_right : (stars ["a.go", "b.go"]).Right ["a.go", "b.go"] ["*.go", "!a*"] :=
  (Paths.glob_right_iff (stars_decides _ _)).2 (by decide)

/-- `*` is taken for a negative pattern, and an empty pattern panics. -/
theorem star_selects_nothing : (stars ["a"]).Decides ["a"] ["*"] ∧
    (stars ["a"]).globAll ["*"] = .ok [] ∧ (stars ["a"]).Selects ["*"] "a" ∧
    (stars ["a"]).globAll [""] = .panic :=
  ⟨stars_decides _ _, rfl, ⟨[], "*", [], rfl, by decide, by decide, by simp⟩, rfl⟩

end Kairos.Glob
