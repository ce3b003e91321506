import Assembler8080.Proofs.Evaluation
import Assembler8080.Proofs.Meeting

/-! Look-ups on the way through a line. Whatever reads a line from one place to another goes on in the
text, or looks up the label that is written where it stands (`Way`). So its look-ups go from left to
right and no place has two of them (`Way.marks`), and what it does to a table is told by the labels
alone (`Way.symbols`). -/
namespace Assembler8080

/-- What a line sees of a pass besides the symbols. -/
structure Setting where
  final : Bool
  location : Location
  address : Value

/-- A label that is looked up, and the place in its line where it is written. -/
structure Site where
  offset : Nat
  reference : Reference
  deriving Repr, DecidableEq

structure Memory where
  symbols : SymbolTable
  log : List Site

namespace Memory

def environment (s : Setting) (m : Memory) : Environment := ⟨s.address, m.symbols.denoted⟩

def look (s : Setting) (m : Memory) (x : Site) : Memory :=
  ⟨m.symbols.use s.final s.location x.reference, m.log ++ [x]⟩

def lookAll (s : Setting) (m : Memory) (sites : List Site) : Memory := sites.foldl (look s) m

theorem lookAll_append (s : Setting) (m : Memory) (first second : List Site) :
    m.lookAll s (first ++ second) = (m.lookAll s first).lookAll s second := List.foldl_append

theorem lookAll_eq (s : Setting) (m : Memory) (sites : List Site) :
    m.lookAll s sites =
      ⟨(sites.map (·.reference)).foldl (SymbolTable.use s.final s.location) m.symbols,
        m.log ++ sites⟩ := by
  induction sites generalizing m with
  | nil => simp [lookAll]
  | cons x rest ih =>
    have later : m.lookAll s (x :: rest) = (m.look s x).lookAll s rest := rfl
    rw [later, ih]
    simp [look]

end Memory

/-! ### Places of look-ups -/

/-- Look-ups between two places of a line: they are those of the given labels, they go from left to
right, and each label is written at its place. -/
structure Marks (scope : Scope) (line : Int) (c d : Cursor) (sites : List Site)
    (references : List Reference) : Prop where
  labels : sites.map (·.reference) = references
  ordered : sites.Pairwise (·.offset < ·.offset)
  inside : ∀ x ∈ sites, c.offset ≤ x.offset ∧ x.offset < d.offset
  written : ∀ x ∈ sites, ∃ start after, c.Reaches start ∧ start.offset = x.offset ∧
    scope.reference? line start = some (x.reference, after)

namespace Marks

variable {scope : Scope} {line : Int} {c d e : Cursor} {sites sites' : List Site}
  {references references' : List Reference}

theorem nil : Marks scope line c d [] [] := ⟨rfl, .nil, by simp, by simp⟩

theorem single {r : Reference} (read : scope.reference? line c = some (r, d)) :
    Marks scope line c d [⟨c.offset, r⟩] [r] where
  labels := rfl
  ordered := List.pairwise_singleton ..
  inside := by simpa using Scope.reference?_offset read
  written := by
    rw [List.forall_mem_singleton]
    exact ⟨c, d, .refl c, rfl, read⟩

theorem append (left : Marks scope line c d sites references)
    (right : Marks scope line d e sites' references') (path : c.Reaches d) (path' : d.Reaches e) :
    Marks scope line c e (sites ++ sites') (references ++ references') where
  labels := by rw [List.map_append, left.labels, right.labels]
  ordered := by
    rw [List.pairwise_append]
    refine ⟨left.ordered, right.ordered, fun x first y second => ?_⟩
    have before := (left.inside x first).2
    have after := (right.inside y second).1
    omega
  inside x member := by
    have start := path.offset_le
    have stop := path'.offset_le
    rcases List.mem_append.mp member with first | second
    · have bounds := left.inside x first
      omega
    · have bounds := right.inside x second
      omega
  written x member := by
    rcases List.mem_append.mp member with first | second
    · exact left.written x first
    · obtain ⟨start, after, reached, place, read⟩ := right.written x second
      exact ⟨start, after, path.trans reached, place, read⟩

end Marks

/-! ### Ways -/

/-- A way through a line, from one place and memory to another, and the labels that it looks up. -/
inductive Way (s : Setting) (scope : Scope) (line : Int) :
    Memory → Cursor → List Reference → Memory → Cursor → Prop where
  | move {m : Memory} {c d : Cursor} (path : c.Reaches d) : Way s scope line m c [] m d
  | look {m : Memory} {c d : Cursor} {r : Reference}
      (read : scope.reference? line c = some (r, d)) :
      Way s scope line m c [r] (m.look s ⟨c.offset, r⟩) d
  | trans {m m' m'' : Memory} {c d e : Cursor} {references references' : List Reference}
      (first : Way s scope line m c references m' d)
      (second : Way s scope line m' d references' m'' e) :
      Way s scope line m c (references ++ references') m'' e

namespace Way

variable {s : Setting} {scope : Scope} {line : Int} {m m' : Memory} {c d : Cursor}
  {references : List Reference}

theorem widen (way : Way s scope line m c references m' d) {c' d' : Cursor} (before : c'.Reaches c)
    (after : d.Reaches d') : Way s scope line m c' references m' d' := by
  have wide := (move before).trans (way.trans (move after))
  rwa [List.nil_append, List.append_nil] at wide

theorem path (way : Way s scope line m c references m' d) : c.Reaches d := by
  induction way with
  | move path => exact path
  | look read => exact Scope.reference?_reaches read
  | trans _ _ first second => exact first.trans second

theorem marks (way : Way s scope line m c references m' d) :
    ∃ sites, m' = m.lookAll s sites ∧ Marks scope line c d sites references := by
  induction way with
  | move path => exact ⟨[], rfl, .nil⟩
  | look read => exact ⟨_, rfl, .single read⟩
  | trans first second ih ih' =>
    obtain ⟨sites, rfl, marks⟩ := ih
    obtain ⟨sites', rfl, marks'⟩ := ih'
    exact ⟨sites ++ sites', (Memory.lookAll_append ..).symm,
      marks.append marks' first.path second.path⟩

/-- Where no label is read, nothing has happened to the memory. -/
theorem unmoved (way : Way s scope line m c [] m' d) : m' = m := by
  obtain ⟨sites, rfl, marks⟩ := way.marks
  rw [List.map_eq_nil_iff.mp marks.labels]
  rfl

theorem symbols (way : Way s scope line m c references m' d) :
    m'.symbols = references.foldl (SymbolTable.use s.final s.location) m.symbols := by
  obtain ⟨sites, rfl, marks⟩ := way.marks
  rw [Memory.lookAll_eq, marks.labels]

theorem log_marks (way : Way s scope line m c references m' d) (fresh : m.log = []) :
    Marks scope line c d m'.log references := by
  obtain ⟨sites, rfl, marks⟩ := way.marks
  rw [Memory.lookAll_eq, fresh]
  exact marks

end Way

/-- Environments with the same address and, for the given labels, the same values and names. -/
structure Environment.Agree (env env' : Environment) (references : List Reference) : Prop where
  address : env.address = env'.address
  value : ∀ r ∈ references, (env.symbol r).value = (env'.symbol r).value
  name : ∀ r ∈ references, (env.symbol r).name = (env'.symbol r).name

theorem Environment.Agree.mono {env env' : Environment} {part all : List Reference}
    (agree : env.Agree env' all) (inside : part ⊆ all) : env.Agree env' part :=
  ⟨agree.address, fun r member => agree.value r (inside member),
    fun r member => agree.name r (inside member)⟩

namespace Way

variable {s : Setting} {scope : Scope} {line : Int} {m m' : Memory} {c d : Cursor}
  {references : List Reference} (way : Way s scope line m c references m' d)
  (valid : m.symbols.Consistent) (proper : ∀ r ∈ references, r.toLabel.Proper)

include way valid proper

theorem consistent : m'.symbols.Consistent := by
  rw [way.symbols]
  exact (valid.uses s.final s.location proper).1

/-- Look-ups do not change what is seen after them. -/
theorem agree {later : List Reference} (own : ∀ r ∈ later, r.toLabel.Proper) :
    (m'.environment s).Agree (m.environment s) later := by
  have same (r : Reference) (member : r ∈ later) :=
    valid.denoted_uses s.final s.location proper (own r member)
  rw [Memory.environment, way.symbols]
  exact ⟨rfl, fun r member => (same r member).1, fun r member => (same r member).2⟩

end Way

end Assembler8080
