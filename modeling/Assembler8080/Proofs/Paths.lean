import Mathlib.Tactic.Common
import Assembler8080.Files

/-! Paths and the files that they name. A path from the root is made of names (`Path.IsClean`), and
another extension changes the last name only (`Path.withExtension_isClean`). Such a path names the
file at itself (`Files.resolve_isClean`). What a path names depends on the directories alone, so no
write to a file changes where another one goes (`Files.writable_congr`). -/
namespace Assembler8080

namespace Path

structure IsName (name : Bytes) : Prop where
  here : isSame name = false
  below : name ≠ parentName
  whole : Byte.slash ∉ name

/-- Whatever a name starts with, a long end without a slash keeps it one. -/
theorem isName_append {stem ending : Bytes} (stemWhole : Byte.slash ∉ stem)
    (endWhole : Byte.slash ∉ ending) (long : 3 ≤ ending.length) : IsName (stem ++ ending) := by
  have length : 3 ≤ (stem ++ ending).length := by
    rw [List.length_append]
    omega
  refine ⟨?_, ?_, by simp [stemWhole, endWhole]⟩
  · rcases same : stem ++ ending with _ | ⟨a, _ | ⟨b, rest⟩⟩
    · simp [same] at length
    · simp [same] at length
    · simp [isSame]
  · intro same
    simp [same, parentName] at length

theorem components_whole (path : Bytes) : ∀ name ∈ components path, Byte.slash ∉ name :=
  fun _ => notMem_of_mem_splitOn

theorem enter_isName {path : List Bytes} {component : Bytes} (proper : ∀ name ∈ path, IsName name)
    (whole : Byte.slash ∉ component) : ∀ name ∈ enter true path component, IsName name := by
  unfold enter
  split
  next => exact proper
  next here =>
    split
    next =>
      rcases path with _ | ⟨inner, outer⟩
      · simp
      · have below : (inner == parentName) = false := by
          simpa using (proper inner List.mem_cons_self).below
        simpa [below] using fun name member => proper name (List.mem_cons_of_mem inner member)
    next below =>
      have name : IsName component := ⟨by simpa using here, by simpa using below, whole⟩
      exact List.forall_mem_cons.mpr ⟨name, proper⟩

theorem foldl_enter_isName {names start : List Bytes} (whole : ∀ name ∈ names, Byte.slash ∉ name)
    (proper : ∀ name ∈ start, IsName name) :
    ∀ name ∈ names.foldl (enter true) start, IsName name := by
  induction names generalizing start with
  | nil => exact proper
  | cons component rest ih =>
    obtain ⟨first, others⟩ := List.forall_mem_cons.mp whole
    exact ih others (enter_isName proper first)

theorem enter_of_isName {name : Bytes} (proper : IsName name) (path : List Bytes) :
    enter true path name = name :: path := by
  have below : (name == parentName) = false := by simpa using proper.below
  simp [enter, proper.here, below]

theorem foldl_enter_names {names : List Bytes} (proper : ∀ name ∈ names, IsName name)
    (start : List Bytes) : names.foldl (enter true) start = names.reverse ++ start := by
  induction names generalizing start with
  | nil => rfl
  | cons name rest ih =>
    obtain ⟨first, others⟩ := List.forall_mem_cons.mp proper
    simp [enter_of_isName first, ih others]

/-! ### Paths from the root -/

theorem slash_intercalate (pieces : List Bytes) (last : Bytes) :
    Byte.slash :: [Byte.slash].intercalate (pieces ++ [last]) =
      pieces.flatMap (Byte.slash :: ·) ++ Byte.slash :: last := by
  rw [intercalate_concat]
  induction pieces with
  | nil => rfl
  | cons piece rest ih => simpa using ih

/-- The last name of a path stands after its last slash. -/
theorem render_cons (name : Bytes) (outer : List Bytes) :
    render true (name :: outer) = outer.reverse.flatMap (Byte.slash :: ·) ++ Byte.slash :: name := by
  simp [render, slash_intercalate]

/-- A path from the root without detours. -/
def IsClean (path : Bytes) : Prop :=
  ∃ names, (∀ name ∈ names, IsName name) ∧ path = render true names

theorem clean_isClean {path : Bytes} (rooted : isAbsolute path = true) : IsClean (clean path) := by
  refine ⟨(components path).foldl (enter true) [], ?_, by rw [clean, rooted]⟩
  exact foldl_enter_isName (components_whole path) (by simp)

theorem absolute_isClean {directory : Bytes} (rooted : isAbsolute directory = true) (path : Bytes) :
    IsClean (absolute directory path) := by
  unfold absolute
  split
  next here => exact clean_isClean here
  next =>
    split
    next => exact clean_isClean rooted
    next =>
      have joined : isAbsolute (directory ++ Byte.slash :: path) = true := by
        cases directory with
        | nil => rfl
        | cons b rest => exact rooted
      exact clean_isClean joined

theorem extension_front (front : Bytes) {name : Bytes} (whole : Byte.slash ∉ name) :
    extension (front ++ Byte.slash :: name) = extension name := by
  have last : (front ++ Byte.slash :: name).reverse.takeWhile (· != Byte.slash) =
      name.reverse.takeWhile (· != Byte.slash) := by
    have inside : ∀ b ∈ name.reverse, (b != Byte.slash) = true := by
      intro b member
      have apart : b ≠ Byte.slash := by
        rintro rfl
        exact whole (List.mem_reverse.mp member)
      simpa using apart
    have self : (name.reverse ++ []).takeWhile (· != Byte.slash) = name.reverse ++ [] :=
      List.takeWhile_append_of_pos inside
    rw [List.append_nil] at self
    simp [List.takeWhile_append_of_pos inside, self]
  simp only [extension, last]

theorem extension_length_le (path : Bytes) : (extension path).length ≤ path.length := by
  have last := (List.takeWhile_prefix (l := path.reverse) (· != Byte.slash)).length_le
  simp only [extension]
  split
  next shorter =>
    rw [List.length_reverse] at last
    simp only [List.length_cons, List.length_reverse]
    omega
  next => simp

theorem base_front (front : Bytes) {name : Bytes} (whole : Byte.slash ∉ name) :
    base (front ++ Byte.slash :: name) = front ++ Byte.slash :: base name := by
  have short := extension_length_le name
  have rest : (front ++ Byte.slash :: name).length - (extension name).length =
      front.length + (1 + (name.length - (extension name).length)) := by
    simp only [List.length_append, List.length_cons]
    omega
  rw [base, extension_front front whole, rest, List.take_length_add_append, Nat.add_comm 1]
  rfl

theorem withExtension_isClean {path ending : Bytes} (cleaned : IsClean path)
    (whole : Byte.slash ∉ ending) (long : 3 ≤ ending.length) :
    ∃ name outer, (∀ other ∈ name :: outer, IsName other) ∧
      withExtension path ending = render true (name :: outer) := by
  obtain ⟨names, proper, rfl⟩ := cleaned
  cases names with
  | nil =>
    have name : IsName ([] ++ ending) := isName_append List.not_mem_nil whole long
    exact ⟨ending, [], by simpa using name, by rw [render_cons]; rfl⟩
  | cons name outer =>
    obtain ⟨first, others⟩ := List.forall_mem_cons.mp proper
    have stem : Byte.slash ∉ base name := fun member => first.whole (List.mem_of_mem_take member)
    refine ⟨base name ++ ending, outer,
      List.forall_mem_cons.mpr ⟨isName_append stem whole long, others⟩, ?_⟩
    rw [withExtension, render_cons, base_front _ first.whole, render_cons]
    simp

theorem components_render {names : List Bytes} (nonempty : names ≠ [])
    (proper : ∀ name ∈ names, IsName name) :
    components (render true names) = [] :: names.reverse := by
  have joined : render true names = [Byte.slash].intercalate ([] :: names.reverse) := by
    rw [List.intercalate_cons_of_ne_nil (by simpa using nonempty)]
    rfl
  have whole : ∀ name ∈ [] :: names.reverse, Byte.slash ∉ name := by
    simpa using fun name member => (proper name member).whole
  rw [components, joined, List.splitOn_intercalate Byte.slash whole (by simp)]

end Path

namespace Files

variable {t t' : Files} {directory path place : Bytes}

section Steps

variable {α β : Type} (cause : FileCause) (next : α → Except FileCause β)

@[simp] theorem error_bind : (Except.error cause >>= next) = .error cause := rfl

@[simp] theorem ok_bind (x : α) : (Except.ok x >>= next) = next x := rfl

@[simp] theorem throw_eq : (throw cause : Except FileCause β) = .error cause := rfl

@[simp] theorem pure_eq (x : β) : (pure x : Except FileCause β) = .ok x := rfl

end Steps

/-! ### What a path names -/

theorem enter_eq_ok_iff {inside next : List Bytes} {component : Bytes} :
    t.enter inside component = .ok next ↔ component.length ≤ nameLimit ∧
      t.isDirectory (Path.render true (Path.enter true inside component)) = true ∧
        next = Path.enter true inside component := by
  unfold enter
  dsimp only
  split
  next long => simp [Nat.not_le.mpr long]
  next short =>
    split
    next there => simp [Nat.not_lt.mp short, there, eq_comm]
    next missing => split <;> simp [missing]

theorem foldlM_enter_congr (same : t'.directories = t.directories) {names start inside : List Bytes}
    (entered : names.foldlM t.enter start = .ok inside) :
    names.foldlM t'.enter start = .ok inside := by
  induction names generalizing start with
  | nil => exact entered
  | cons name rest ih =>
    rw [List.foldlM_cons] at entered ⊢
    cases step : t.enter start name with
    | error cause => simp [step] at entered
    | ok next =>
      have here : t'.enter start name = .ok next := by
        rw [enter_eq_ok_iff] at step ⊢
        simpa [isDirectory, same] using step
      rw [step] at entered
      rw [here]
      exact ih entered

theorem foldlM_enter_eq {names start inside : List Bytes}
    (entered : names.foldlM t.enter start = .ok inside) :
    inside = names.foldl (Path.enter true) start := by
  induction names generalizing start with
  | nil => exact (Except.ok.inj entered).symm
  | cons name rest ih =>
    rw [List.foldlM_cons] at entered
    cases step : t.enter start name with
    | error cause => simp [step] at entered
    | ok next =>
      rw [step] at entered
      rw [List.foldl_cons, ← (enter_eq_ok_iff.mp step).2.2]
      exact ih entered

/-- Where the search for a path starts. -/
def startOf (directory path : Bytes) : List Bytes :=
  if Path.isAbsolute path then [] else (Path.components directory).foldl (Path.enter true) []

theorem resolve_eq_ok_iff :
    t.resolve directory path = .ok place ↔ 0 ∉ path ∧ path ≠ [] ∧ path.length ≤ pathLimit ∧
      ((Path.components path).getLast?.getD []).length ≤ nameLimit ∧
        ∃ inside, (Path.components path).dropLast.foldlM t.enter (startOf directory path) =
            .ok inside ∧
          place = Path.render true
            (Path.enter true inside ((Path.components path).getLast?.getD [])) := by
  unfold resolve
  by_cases zero : 0 ∈ path
  · simp [zero]
  by_cases empty : path = []
  · simp [empty]
  by_cases long : pathLimit < path.length
  · simp [zero, empty, long, Nat.not_le.mpr long]
  have short : path.length ≤ pathLimit := Nat.not_lt.mp long
  cases entered : (Path.components path).dropLast.foldlM t.enter (startOf directory path) with
  | error cause =>
    rw [startOf] at entered
    simp [zero, empty, long, entered]
  | ok inside =>
    rw [startOf] at entered
    by_cases wide : nameLimit < ((Path.components path).getLast?.getD []).length
    · simp [zero, empty, long, entered, wide, Nat.not_le.mpr wide]
    · have narrow : ((Path.components path).getLast?.getD []).length ≤ nameLimit :=
        Nat.not_lt.mp wide
      simp [zero, empty, long, short, entered, wide, narrow]
      exact eq_comm

/-- Files in the same directories are found at the same places. -/
theorem resolve_congr (same : t'.directories = t.directories)
    (resolved : t.resolve directory path = .ok place) : t'.resolve directory path = .ok place := by
  rw [resolve_eq_ok_iff] at resolved ⊢
  obtain ⟨zero, empty, short, narrow, inside, entered, rfl⟩ := resolved
  exact ⟨zero, empty, short, narrow, inside, foldlM_enter_congr same entered, rfl⟩

/-- A clean path names the file at itself. -/
theorem resolve_isClean {name : Bytes} {outer : List Bytes}
    (proper : ∀ other ∈ name :: outer, Path.IsName other)
    (resolved : t.resolve directory (Path.render true (name :: outer)) = .ok place) :
    place = Path.render true (name :: outer) := by
  obtain ⟨first, others⟩ := List.forall_mem_cons.mp proper
  obtain ⟨-, -, -, -, inside, entered, rfl⟩ := resolve_eq_ok_iff.mp resolved
  have names : Path.components (Path.render true (name :: outer)) =
      ([] :: outer.reverse) ++ [name] := by
    rw [Path.components_render (by simp) proper]
    simp
  have start : startOf directory (Path.render true (name :: outer)) = [] := rfl
  rw [names, List.dropLast_concat, start] at entered
  have outside : ∀ other ∈ outer.reverse, Path.IsName other := by simpa using others
  have stayed : Path.enter true [] [] = [] := rfl
  rw [foldlM_enter_eq entered, names, List.foldl_cons, stayed, Path.foldl_enter_names outside,
    List.getLast?_concat, Option.getD_some, Path.enter_of_isName first]
  simp

/-! ### Writing -/

theorem trimSlashes_eq (unslashed : path.getLast? ≠ some Byte.slash) : trimSlashes path = path := by
  rw [← List.head?_reverse] at unslashed
  unfold trimSlashes
  cases reversed : path.reverse with
  | nil => simpa using reversed.symm
  | cons b rest =>
    have last : (b == Byte.slash) = false := by
      rw [reversed] at unslashed
      simpa using unslashed
    rw [List.dropWhile_cons, last, ← reversed]
    simp

theorem writable_eq_ok_iff :
    t.writable directory path = .ok place ↔ t.resolve directory path = .ok place ∧
      t.isDirectory place = false ∧ path.getLast? ≠ some Byte.slash := by
  by_cases slashed : path.getLast? = some Byte.slash
  · unfold writable
    cases t.resolve directory (if (trimSlashes path).isEmpty then path else trimSlashes path) <;>
      simp [slashed]
  · have ends : (path.getLast? == some Byte.slash) = false := by simpa using slashed
    unfold writable
    rw [trimSlashes_eq slashed, ite_self]
    cases resolved : t.resolve directory path with
    | error cause => simp
    | ok there =>
      by_cases isDir : t.isDirectory there = true
      · simp [isDir]
        rintro rfl
        simp [isDir]
      · simp [isDir, ends, slashed]
        rintro rfl
        simpa using isDir

theorem writable_congr (same : t'.directories = t.directories) :
    t'.writable directory path = .ok place ↔ t.writable directory path = .ok place := by
  have directories : t'.isDirectory place = t.isDirectory place := by simp [isDirectory, same]
  rw [writable_eq_ok_iff, writable_eq_ok_iff, directories]
  exact and_congr_left' ⟨resolve_congr same.symm, resolve_congr same⟩

def CanWrite (t : Files) (directory path : Bytes) : Prop :=
  ∃ place, t.writable directory path = .ok place

theorem canWrite_congr (same : t'.directories = t.directories) :
    t'.CanWrite directory path ↔ t.CanWrite directory path :=
  exists_congr fun _ => writable_congr same

theorem write_eq_ok_iff {content : Bytes} :
    t.write directory path content = .ok t' ↔ ∃ place, t.writable directory path = .ok place ∧
      t' = { t with contents := t.contents.insert place content } := by
  unfold write
  cases t.writable directory path <;> simp [eq_comm]

theorem write_of_canWrite (can : t.CanWrite directory path) (content : Bytes) :
    ∃ t', t.write directory path content = .ok t' := by
  obtain ⟨place, there⟩ := can
  exact ⟨_, write_eq_ok_iff.mpr ⟨place, there, rfl⟩⟩

theorem canWrite_of_write {content : Bytes} (written : t.write directory path content = .ok t') :
    t.CanWrite directory path := by
  obtain ⟨place, there, -⟩ := write_eq_ok_iff.mp written
  exact ⟨place, there⟩

theorem read_of_write {content : Bytes} (written : t.write directory path content = .ok t') :
    t'.read directory path = .ok content := by
  obtain ⟨place, there, rfl⟩ := write_eq_ok_iff.mp written
  obtain ⟨resolved, file, -⟩ := writable_eq_ok_iff.mp there
  have found : ({ t with contents := t.contents.insert place content } : Files).resolve directory
      path = .ok place := resolve_congr (t := t) rfl resolved
  have here : ({ t with contents := t.contents.insert place content } : Files).isDirectory place =
      false := file
  simp [read, found, here]

/-! ### What changes -/

/-- Two trees of files that differ at some places at most. -/
structure ChangedAt (places : Bytes → Prop) (t t' : Files) : Prop where
  directories : t'.directories = t.directories
  contents : ∀ place, ¬ places place → t'.contents[place]? = t.contents[place]?

namespace ChangedAt

variable {places : Bytes → Prop} {t'' : Files}

theorem refl (t : Files) : ChangedAt places t t := ⟨rfl, fun _ _ => rfl⟩

theorem trans (first : ChangedAt places t t') (second : ChangedAt places t' t'') :
    ChangedAt places t t'' where
  directories := second.directories.trans first.directories
  contents place apart := (second.contents place apart).trans (first.contents place apart)

theorem mono {more : Bytes → Prop} (changed : ChangedAt places t t')
    (weaker : ∀ place, places place → more place) : ChangedAt more t t' where
  directories := changed.directories
  contents place apart := changed.contents place fun inside => apart (weaker place inside)

theorem of_write {content : Bytes} (written : t.write directory path content = .ok t') :
    ChangedAt (t.writable directory path = .ok ·) t t' := by
  obtain ⟨place, there, rfl⟩ := write_eq_ok_iff.mp written
  refine ⟨rfl, fun other apart => ?_⟩
  have distinct : place ≠ other := by
    rintro rfl
    exact apart there
  simp [Std.TreeMap.getElem?_insert, distinct]

end ChangedAt

end Files

end Assembler8080
