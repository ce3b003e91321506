import Assembler8080.Proofs.Sites

/-! Expressions read and evaluated in one walk over the text. A walk looks a label up as soon as it
has read it, keeps the values and no tree, and takes the table along. A reader may go back in its line:
it takes no operator without an operand. It does so only where it has found no label, so a walk makes
its way through the line. It stops where the reader of the tree stops, and makes the look-ups of the
tree in their order, whatever the table answers (`Walk.full_follows`); in a consistent table it gets
the value of the tree. -/
namespace Assembler8080

/-- A reader that takes the memory along. -/
def Walk (α : Type) : Type := Memory → Reader (α × Memory)

structure Found where
  column : Nat
  text : Bytes
  missing : Bool
  outcome : Evaluation
  undefined : List Bytes

namespace Found

def ofExpr (env : Environment) (column : Nat) (e : Expr) : Found :=
  ⟨column, e.text, e.isMissing, e.eval env, e.undefined env⟩

def group (column : Nat) (inner : Found) (closed : Bool) : Found where
  column := column
  text := Byte.leftParen :: (inner.text ++ [Byte.rightParen])
  missing := false
  outcome := inner.outcome.failWith (if closed then none else some .unclosedGroup)
  undefined := inner.undefined

def unary (column : Nat) (op : UnaryOp) (operand : Found) : Found where
  column := column
  text := op.symbol ++ operand.text
  missing := false
  outcome := { operand.outcome with value := operand.outcome.value.map op.apply }
  undefined := operand.undefined

def binary (op : BinaryOp) (left right : Found) : Found where
  column := left.column
  text := left.text ++ (Byte.blank :: (op.symbol ++ (Byte.blank :: right.text)))
  missing := false
  outcome :=
    if right.missing then left.outcome.failWith right.outcome.fault
    else .combine op left.outcome right.outcome
  undefined := left.undefined ++ right.undefined

end Found

/-! ### Walks over expressions -/

namespace Walk

variable (s : Setting)

/-- A value without others inside, that starts at a place; its label, if it is one, is looked up
there. -/
def single (m : Memory) (start : Nat) (e : Expr) : Found × Memory :=
  (.ofExpr (m.environment s) (start + 1) e, m.lookAll s (e.references.map (Site.mk start)))

def hole (m : Memory) (gap : Gap) (c : Cursor) : (Found × Memory) × Cursor :=
  (single s m c.offset (.missing gap), c)

def chainFrom (operand : Walk Found) (level : Nat) (left : Found) (m : Memory) (c : Cursor) :
    (Found × Memory) × Cursor :=
  match h : BinaryOp.first? c.skipBlanks.rest with
  | none => ((left, m), c)
  | some op =>
    if op.level = level then
      let right := (operand m).run (c.skipBlanks.advance op.symbol.length)
      have := Term.rest_length_lt h ((operand m).reaches _)
      chainFrom operand level (left.binary op right.1.1) right.1.2 right.2
    else ((left, m), c)
termination_by c.rest.length

theorem chainFrom_reaches (operand : Walk Found) (level : Nat) (left : Found) (m : Memory)
    (c : Cursor) : c.Reaches (chainFrom operand level left m c).2 := by
  fun_induction chainFrom operand level left m c with
  | case1 => exact .refl _
  | case2 left m c op h hlevel right hlt ih =>
    exact ((Cursor.Reaches.skipBlanks c).trans (.advance _ _)).trans
      (((operand m).reaches _).trans ih)
  | case3 => exact .refl _

def chain (operand : Walk Found) (level : Nat) : Walk Found := fun m =>
  { run c :=
      let first := (operand m).run c
      if first.1.1.missing then first else chainFrom operand level first.1.1 first.1.2 first.2
    reaches c := by
      dsimp only
      split
      · exact (operand m).reaches c
      · exact ((operand m).reaches c).trans (chainFrom_reaches ..) }

def climb (value : Walk Found) : Nat → Walk Found
  | 0 => value
  | n + 1 => chain (climb value n) (BinaryOp.levels - (n + 1))

def group (value : Walk Found) (m : Memory) (c : Cursor) : (Found × Memory) × Cursor :=
  let inner := (climb value BinaryOp.levels m).run (c.advance 1)
  let close := inner.2.skipBlanks
  if close.next? == some Byte.rightParen then
    ((inner.1.1.group c.column true, inner.1.2), close.advance 1)
  else ((inner.1.1.group c.column false, inner.1.2), close)

/-- A unary operator and its operand. When no operand follows, the operator is not taken either. -/
def unary (value : Walk Found) (op : UnaryOp) (m : Memory) (c : Cursor) :
    (Found × Memory) × Cursor :=
  let inner := (value m).run (c.advance op.symbol.length)
  if inner.1.1.missing then (inner.1, c)
  else ((inner.1.1.unary c.column op, inner.1.2), inner.2)

def nestedValue (inner : Option (Walk Found)) (m : Memory) (c : Cursor) :
    (Found × Memory) × Cursor :=
  if c.next? == some Byte.leftParen then
    match inner with
    | some value => group value m c
    | none => hole s m .tooDeep c
  else
    match UnaryOp.first? c.rest with
    | some op =>
      match inner with
      | some value => unary value op m c
      | none => hole s m .tooDeep c
    | none => hole s m .noValue c

theorem nestedValue_reaches (inner : Option (Walk Found)) (m : Memory) (c : Cursor) :
    c.Reaches (nestedValue s inner m c).2 := by
  have inside (value : Walk Found) : c.Reaches (group value m c).2 := by
    have read := (((Cursor.Reaches.advance c 1).trans
      ((climb value BinaryOp.levels m).reaches _)).trans (.skipBlanks _))
    dsimp only [group]
    split
    · exact read.trans (.advance _ _)
    · exact read
  have behind (value : Walk Found) (op : UnaryOp) : c.Reaches (unary value op m c).2 := by
    dsimp only [unary]
    split
    · exact .refl _
    · exact (Cursor.Reaches.advance _ _).trans ((value m).reaches _)
  unfold nestedValue
  repeat' split
  · exact inside _
  · exact .refl _
  · exact behind _ _
  · exact .refl _
  · exact .refl _

def valueAround (scope : Scope) (line : Int) (inner : Option (Walk Found)) : Walk Found := fun m =>
  { run c :=
      let start := c.skipBlanks
      match Term.leaf? scope line start with
      | some (e, d) => (single s m start.offset e, d)
      | none => nestedValue s inner m start
    reaches c := by
      refine (Cursor.Reaches.skipBlanks c).trans ?_
      dsimp only
      split
      · exact Term.leaf?_reaches ‹_›
      · exact nestedValue_reaches .. }

def value (scope : Scope) (line : Int) : Nat → Walk Found
  | 0 => valueAround s scope line none
  | room + 1 => valueAround s scope line (some (value scope line room))

def full (scope : Scope) (line : Int) : Walk Found :=
  climb (value s scope line (Term.room 0)) BinaryOp.levels

end Walk

/-! ### Walks and readers -/

/-- What there is to compare of the outcome of a walk with that of a reader: the labels in what is
read, and how it is related to what the walk has of it. -/
structure Sense (α β : Type) where
  references : β → List Reference
  related : Setting → Memory → α → β → Prop

/-- A walk from a memory and a place meets a reader: it stops at the same place, has looked up what
is read on its way, and has what is related to it. -/
structure Sense.Meets {α β : Type} (sense : Sense α β) (s : Setting) (scope : Scope) (line : Int)
    (m : Memory) (c : Cursor) (walked : (α × Memory) × Cursor) (read : β × Cursor) : Prop where
  place : walked.2 = read.2
  way : Way s scope line m c (sense.references read.1) walked.1.2 read.2
  result : sense.related s m walked.1.1 read.1

/-- A walk follows a reader if it meets the reader from every memory and place. -/
def Walk.Follows {α β : Type} (sense : Sense α β) (s : Setting) (scope : Scope) (line : Int)
    (walk : Walk α) (reader : Reader β) : Prop :=
  ∀ m c, sense.Meets s scope line m c ((walk m).run c) (reader.run c)

/-- What a walk has of an expression. The values are those of the tree if the table is
consistent. -/
structure Found.Of (s : Setting) (m : Memory) (f : Found) (t : Term) : Prop where
  column : f.column = t.column
  text : f.text = t.expr.text
  missing : f.missing = t.expr.isMissing
  values : m.symbols.Consistent → (∀ r ∈ t.expr.references, r.toLabel.Proper) →
    f.outcome = t.expr.eval (m.environment s) ∧ f.undefined = t.expr.undefined (m.environment s)

def Sense.term : Sense Found Term := ⟨(·.expr.references), Found.Of⟩

theorem Expr.undefined_binary (env : Environment) (op : BinaryOp) (left right : Expr) :
    (Expr.binary op left right).undefined env = left.undefined env ++ right.undefined env := by
  simp only [Expr.undefined, Expr.references_binary, List.filterMap_append]

theorem Expr.undefined_congr {env env' : Environment} {e : Expr}
    (agree : env.Agree env' e.references) : e.undefined env = e.undefined env' := by
  refine List.filterMap_congr fun r member => ?_
  dsimp only
  rw [agree.value r member, agree.name r member]

theorem Expr.references_of_isMissing {e : Expr} (missing : e.isMissing = true) :
    e.references = [] := by
  cases e with
  | missing gap => rfl
  | _ => contradiction

namespace Sense.Meets

variable {s : Setting} {scope : Scope} {line : Int} {m : Memory} {c : Cursor}

/-- What is met after the blanks is met before them. -/
theorem skipBlanks {α β : Type} {sense : Sense α β} {walked : (α × Memory) × Cursor}
    {read : β × Cursor} (meets : sense.Meets s scope line m c.skipBlanks walked read) :
    sense.Meets s scope line m c walked read :=
  ⟨meets.place, meets.way.widen (.skipBlanks c) (.refl _), meets.result⟩

/-- Where there is no expression, no label has been looked up. -/
theorem unmoved {walked : (Found × Memory) × Cursor} {read : Term × Cursor}
    (meets : term.Meets s scope line m c walked read) (gap : read.1.expr.isMissing = true) :
    term.references read.1 = [] ∧ walked.1.2 = m := by
  have labels : term.references read.1 = [] := Expr.references_of_isMissing gap
  have way := meets.way
  rw [labels] at way
  exact ⟨labels, way.unmoved⟩

end Sense.Meets

namespace Found.Of

variable {s : Setting} {m : Memory} {f g : Found} {t u : Term}

theorem single (column : Nat) (e : Expr) :
    (Found.ofExpr (m.environment s) column e).Of s m ⟨column, e⟩ :=
  ⟨rfl, rfl, rfl, fun _ _ => ⟨rfl, rfl⟩⟩

theorem group (inner : f.Of s m t) (column : Nat) (closed : Bool) :
    (f.group column closed).Of s m ⟨column, .group t.expr closed⟩ where
  column := rfl
  text := by rw [Expr.text_group, ← inner.text]; rfl
  missing := rfl
  values valid proper := by
    obtain ⟨outcome, undefined⟩ := inner.values valid proper
    exact ⟨by rw [Found.group, outcome]; rfl, undefined⟩

theorem unary (operand : f.Of s m t) (column : Nat) (op : UnaryOp) :
    (f.unary column op).Of s m ⟨column, .unary op t.expr⟩ where
  column := rfl
  text := by rw [Expr.text_unary, ← operand.text]; rfl
  missing := rfl
  values valid proper := by
    obtain ⟨outcome, undefined⟩ := operand.values valid proper
    exact ⟨by rw [Found.unary, outcome]; rfl, undefined⟩

/-- The right operand is met after the look-ups of the left one. -/
theorem binary {scope : Scope} {line : Int} {m' : Memory} {c d : Cursor} (left : f.Of s m t)
    (way : Way s scope line m c t.expr.references m' d) (right : g.Of s m' u) (op : BinaryOp) :
    (f.binary op g).Of s m ⟨t.column, .binary op t.expr u.expr⟩ where
  column := left.column
  text := by rw [Expr.text_binary, ← left.text, ← right.text]; rfl
  missing := rfl
  values valid proper := by
    simp only [Expr.references_binary, List.forall_mem_append] at proper
    obtain ⟨before, after⟩ := proper
    obtain ⟨outcome, undefined⟩ := left.values valid before
    obtain ⟨outcome', undefined'⟩ := right.values (way.consistent valid before) after
    have agree := way.agree valid before after
    have value := Expr.eval_congr u.expr agree.address agree.value
    constructor
    · simp only [Found.binary, Expr.eval, right.missing, outcome, outcome', value]
    · rw [Expr.undefined_binary, ← undefined, ← Expr.undefined_congr agree, ← undefined']
      rfl

end Found.Of

namespace Walk

variable {s : Setting} {scope : Scope} {line : Int}

/-- The labels of what is read so far carry the induction; each operand is met after them. -/
theorem chainFrom_meets {operand : Walk Found} {reader : Reader Term}
    (operands : operand.Follows .term s scope line reader) (level : Nat) (t : Term) (d : Cursor)
    (f : Found) {m m' : Memory} {c : Cursor} (left : f.Of s m t)
    (way : Way s scope line m c t.expr.references m' d) :
    Sense.term.Meets s scope line m c (chainFrom operand level f m' d)
      (Term.chainFrom reader level t d) := by
  fun_induction Term.chainFrom reader level t d generalizing f m' with
  | case1 t d stops =>
    rw [chainFrom]
    split
    next => exact ⟨rfl, way, left⟩
    next op found => rw [stops] at found; contradiction
  | case2 t d op found same right shorter ih =>
    obtain ⟨place, operandWay, result⟩ := operands m' (d.skipBlanks.advance op.symbol.length)
    have further := way.trans (operandWay.widen
      ((Cursor.Reaches.skipBlanks d).trans (.advance _ _)) (.refl _))
    have next := ih _ (left.binary way result op) (by rw [Expr.references_binary]; exact further)
    rw [chainFrom]
    split
    next stops => rw [found] at stops; contradiction
    next op' found' =>
      obtain rfl := Option.some.inj (found.symm.trans found')
      rw [if_pos same]
      dsimp only
      rw [place]
      exact next
  | case3 t d op found other =>
    rw [chainFrom]
    split
    next => exact ⟨rfl, way, left⟩
    next op' found' =>
      obtain rfl := Option.some.inj (found.symm.trans found')
      rw [if_neg other]
      exact ⟨rfl, way, left⟩

theorem climb_follows {value : Walk Found} {reader : Reader Term}
    (values : value.Follows .term s scope line reader) (n : Nat) :
    (climb value n).Follows .term s scope line (Term.climb reader n) := by
  induction n with
  | zero => exact values
  | succ n ih =>
    intro m c
    obtain ⟨place, way, first⟩ := ih m c
    dsimp only [climb, Term.climb, chain, Term.chain]
    rw [first.missing]
    split
    · exact ih m c
    · rw [place]
      exact chainFrom_meets ih _ _ _ _ first way

variable {value : Walk Found} {reader : Reader Term}
  (values : value.Follows .term s scope line reader) (m : Memory) (c : Cursor)

include values

theorem group_meets :
    Sense.term.Meets s scope line m c (group value m c) (Term.group reader c) := by
  obtain ⟨place, way, inner⟩ := climb_follows values BinaryOp.levels m (c.advance 1)
  dsimp only [group, Term.group]
  rw [place]
  split
  · exact ⟨rfl, way.widen (.advance c 1) ((Cursor.Reaches.skipBlanks _).trans (.advance _ 1)),
      inner.group _ _⟩
  · exact ⟨rfl, way.widen (.advance c 1) (.skipBlanks _), inner.group _ _⟩

/-- Without an operand there is no label to look up, so nothing has happened to the memory when the
walk goes back. -/
theorem unary_meets (op : UnaryOp) :
    Sense.term.Meets s scope line m c (unary value op m c) (Term.unary reader op c) := by
  have meets := values m (c.advance op.symbol.length)
  dsimp only [unary, Term.unary]
  rw [meets.result.missing]
  split
  next gap =>
    obtain ⟨labels, unmoved⟩ := meets.unmoved gap
    refine ⟨rfl, ?_, meets.result⟩
    rw [labels, unmoved]
    exact .move (.refl c)
  next => exact ⟨meets.place, meets.way.widen (.advance c _) (.refl _), meets.result.unary _ _⟩

omit values

theorem nestedValue_meets {inner : Option (Walk Found)} {readers : Option (Reader Term)}
    (inside : Option.Rel (fun value reader => value.Follows .term s scope line reader)
      inner readers) :
    Sense.term.Meets s scope line m c (nestedValue s inner m c) (Term.nestedValue readers c) := by
  have gap (gap : Gap) : Sense.term.Meets s scope line m c (hole s m gap c) (Term.hole gap c) :=
    ⟨rfl, .move (.refl c), .single _ _⟩
  unfold nestedValue Term.nestedValue
  cases inside with
  | none =>
    split
    · exact gap _
    · cases UnaryOp.first? c.rest <;> exact gap _
  | some values =>
    split
    · exact group_meets values m c
    · cases UnaryOp.first? c.rest with
      | some op => exact unary_meets values m c op
      | none => exact gap _

/-- A value without others inside is looked up where it is written, if it is a label. -/
theorem single_way {e : Expr} {d : Cursor} (leaf : Term.leaf? scope line c = some (e, d)) :
    Way s scope line m c e.references (single s m c.offset e).2 d := by
  cases Term.leafAt_of_leaf? leaf with
  | label read => exact .look read
  | number | character | here => exact .move (.advance ..)

theorem valueAround_follows {inner : Option (Walk Found)} {readers : Option (Reader Term)}
    (inside : Option.Rel (fun value reader => value.Follows .term s scope line reader)
      inner readers) :
    (valueAround s scope line inner).Follows .term s scope line
      (Term.valueAround scope line readers) := by
  intro m c
  refine Sense.Meets.skipBlanks ?_
  dsimp only [valueAround, Term.valueAround]
  cases leaf : Term.leaf? scope line c.skipBlanks with
  | some found => exact ⟨rfl, single_way m _ leaf, .single _ _⟩
  | none => exact nestedValue_meets m c.skipBlanks inside

theorem value_follows (scope : Scope) (line : Int) (room : Nat) :
    (Walk.value s scope line room).Follows .term s scope line (Term.value scope line room) := by
  induction room with
  | zero => exact valueAround_follows .none
  | succ room ih => exact valueAround_follows (.some ih)

theorem full_follows (scope : Scope) (line : Int) :
    (full s scope line).Follows .term s scope line (Term.full scope line) :=
  climb_follows (value_follows scope line _) _

end Walk

end Assembler8080
