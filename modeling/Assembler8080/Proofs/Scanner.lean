import Assembler8080.Proofs.Columns

/-! Expressions scanned by index, with the place in the line, the depth of nesting and the symbols as
a state. A scan goes back by setting the place again, counts the depth up before what is nested and
down after it, and takes an empty text for nothing read. Nothing in it says that it ends: a scan that
calls itself is given a number of calls, and runs out of them or has a result that no further call
changes (`Scanner.Ends`). It could also ask for a byte that is not there. It always ends, and is the
walk over the same line (`Scanner.traces`). -/
namespace Assembler8080

structure Scan where
  position : Nat
  /-- The parentheses and unary operators around the place. -/
  depth : Int
  memory : Memory

/-- A scan over a line. It runs out of calls (`none`), stops at an index without a byte, or has a
result. -/
abbrev Scanner := StateT Scan (ExceptT OutOfRange Option)

namespace Scanner

variable {α β : Type}

def outOfCalls : Scanner α := fun _ => none

/-- A scan ends with a result, and leaves a state: it does so with enough calls, however many more it
is given. -/
def Ends (x : Nat → Scanner α) (before : Scan) (a : α) (after : Scan) : Prop :=
  ∃ enough, ∀ calls ≥ enough, x calls before = some (.ok (a, after))

/-- A step makes no calls. -/
theorem Ends.step {x : Scanner α} {before after : Scan} {a : α}
    (gives : x before = some (.ok (a, after))) : Ends (fun _ => x) before a after :=
  ⟨0, fun _ _ => gives⟩

/-- A call is one of those that are allowed. -/
theorem Ends.call {x : Nat → Scanner α} {before after : Scan} {a : α}
    (ends : Ends (fun calls => x (calls + 1)) before a after) : Ends x before a after := by
  obtain ⟨enough, ends⟩ := ends
  refine ⟨enough + 1, fun calls many => ?_⟩
  obtain ⟨more, rfl⟩ : ∃ more, calls = more + 1 := ⟨calls - 1, by omega⟩
  exact ends more (by omega)

theorem Ends.bind {x : Nat → Scanner α} {next : α → Nat → Scanner β} {before between after : Scan}
    {a : α} {b : β} (first : Ends x before a between) (second : Ends (next a) between b after) :
    Ends (fun calls => x calls >>= fun a => next a calls) before b after := by
  obtain ⟨enough, first⟩ := first
  obtain ⟨enough', second⟩ := second
  refine ⟨max enough enough', fun calls many => ?_⟩
  have run : (x calls >>= fun a => next a calls) before =
      (x calls before >>= fun r => next r.1 calls r.2) := rfl
  rw [first calls (by omega)] at run
  exact run.trans (second calls (by omega))

theorem Ends.pure (a : α) (σ : Scan) : Ends (fun _ => Pure.pure a) σ a σ := .step rfl

theorem Ends.get (σ : Scan) : Ends (fun _ => MonadState.get) σ σ σ := .step rfl

/-! ### Steps -/

def look (x : Checked α) : Scanner α := fun σ => some (x.map (·, σ))

def seek (position : Nat) : Scanner Unit := modify fun σ => { σ with position }

def deepen (more : Int) : Scanner Unit := modify fun σ => { σ with depth := σ.depth + more }

/-- Looks up the labels of a value without others inside, where it starts, and evaluates it. -/
def single (s : Setting) (start : Nat) (e : Expr) : Scanner Found := do
  let found := Walk.single s (← get).memory start e
  modify fun σ => { σ with memory := found.2 }
  return found.1

section Steps

variable (text : Bytes)

def skipBlanks : Scanner Unit := do
  seek (← look (Indexed.runEnd Byte.isBlank text (← get).position))

def next? : Scanner (Option UInt8) := do look (Indexed.next? text (← get).position)

def take (n : Nat) : Scanner Bytes := do
  let start := (← get).position
  let stop := min (start + n) text.length
  let taken ← look (Indexed.slice text start stop)
  seek stop
  return taken

def binaryOp? : Scanner (Option BinaryOp) := do
  look (Indexed.firstOf BinaryOp.symbol text (← get).position BinaryOp.all)

def unaryOp? : Scanner (Option UnaryOp) := do
  look (Indexed.firstOf UnaryOp.symbol text (← get).position UnaryOp.all)

end Steps

end Scanner

/-- Puts an operator and its right operand after an expression. An operand without a text is none,
and leaves its fault. -/
def Found.join (op : BinaryOp) (left right : Found) : Found :=
  if right.text.isEmpty then
    { left with
      text := left.text ++ (Byte.blank :: (op.symbol ++ [Byte.blank]))
      outcome := left.outcome.failWith right.outcome.fault }
  else
    { left with
      text := left.text ++ (Byte.blank :: (op.symbol ++ (Byte.blank :: right.text)))
      outcome := .combine op left.outcome right.outcome
      undefined := left.undefined ++ right.undefined }

namespace Scanner

/-! ### Expressions -/

section Expressions

variable (s : Setting) (scope : Scope) (line : Int) (text : Bytes)

mutual

/-- An expression with operators of a level and of those that bind tighter. -/
def expression (level : Int) : Nat → Scanner Found
  | 0 => outOfCalls
  | calls + 1 => do
    if level ≥ BinaryOp.levels then value calls
    else
      let left ← expression (level + 1) calls
      if left.text.isEmpty then return left else chainFrom level left calls

def chainFrom (level : Int) (left : Found) : Nat → Scanner Found
  | 0 => outOfCalls
  | calls + 1 => do
    let saved := (← get).position
    skipBlanks text
    match ← binaryOp? text with
    | some op =>
      if op.level = level then
        let _ ← take text op.symbol.length
        let right ← expression (level + 1) calls
        chainFrom level (left.join op right) calls
      else
        seek saved
        return left
    | none =>
      seek saved
      return left

def group : Nat → Scanner Found
  | 0 => outOfCalls
  | calls + 1 => do
    let start := (← get).position
    let _ ← take text 1
    deepen 1
    let inner ← expression 0 calls
    deepen (-1)
    skipBlanks text
    if (← next? text) == some Byte.rightParen then
      let _ ← take text 1
      return inner.group (start + 1) true
    else return inner.group (start + 1) false

/-- A unary operator and its operand; without one, back to where the operator stands. -/
def unary (op : UnaryOp) : Nat → Scanner Found
  | 0 => outOfCalls
  | calls + 1 => do
    let start := (← get).position
    let _ ← take text op.symbol.length
    deepen 1
    let inner ← value calls
    deepen (-1)
    if inner.text.isEmpty then
      seek start
      return inner
    else return inner.unary (start + 1) op

/-- A value: one without others inside, an expression in parentheses, or a unary operator and its
operand. -/
def value : Nat → Scanner Found
  | 0 => outOfCalls
  | calls + 1 => do
    skipBlanks text
    let start := (← get).position
    match ← look (Indexed.leaf? scope line text start) with
    | some (e, stop) =>
      seek stop
      single s start e
    | none =>
      if (← next? text) == some Byte.leftParen then
        if (← get).depth ≥ Term.nesting then single s start (.missing .tooDeep)
        else group calls
      else
        match ← unaryOp? text with
        | some op =>
          if (← get).depth ≥ Term.nesting then single s start (.missing .tooDeep)
          else unary op calls
        | none => single s start (.missing .noValue)

end

end Expressions

end Scanner

/-! ### How the steps end -/

namespace Scanner

variable {text : Bytes} {c : Cursor} {depth : Int} {m : Memory} {α : Type}

theorem look_ends {x : Checked α} {a : α} (found : x = .ok a) (σ : Scan) :
    Ends (fun _ => look x) σ a σ := by
  subst found
  exact .step rfl

theorem seek_ends (position : Nat) (σ : Scan) :
    Ends (fun _ => seek position) σ () { σ with position } := .step rfl

theorem deepen_ends (more : Int) (σ : Scan) :
    Ends (fun _ => deepen more) σ () { σ with depth := σ.depth + more } := .step rfl

theorem single_ends (s : Setting) (start : Nat) (e : Expr) (σ : Scan) :
    Ends (fun _ => single s start e) σ (Walk.single s σ.memory start e).1
      { σ with memory := (Walk.single s σ.memory start e).2 } := .step rfl

theorem skipBlanks_ends (on : c.On text) :
    Ends (fun _ => skipBlanks text) ⟨c.offset, depth, m⟩ () ⟨c.skipBlanks.offset, depth, m⟩ := by
  have found : Indexed.runEnd Byte.isBlank text c.offset = .ok c.skipBlanks.offset := by
    have run := Cursor.blankRun_le c.rest
    rw [Indexed.blanks_ok, ← on.rest, Cursor.skipBlanks, Cursor.offset_advance,
      Nat.min_eq_left run]
  exact (Ends.get _).bind ((look_ends found _).bind (seek_ends _ _))

theorem next?_ends (on : c.On text) :
    Ends (fun _ => next? text) ⟨c.offset, depth, m⟩ c.next? ⟨c.offset, depth, m⟩ := by
  have found : Indexed.next? text c.offset = .ok c.next? := by
    rw [Indexed.next?_ok, ← on.rest, Cursor.next?]
  exact (Ends.get _).bind (look_ends found _)

theorem take_ends (on : c.On text) (n : Nat) :
    Ends (fun _ => take text n) ⟨c.offset, depth, m⟩ (c.rest.take n)
      ⟨(c.advance n).offset, depth, m⟩ := by
  have length := on.length
  have place := Cursor.offset_advance c n
  have stop : min (c.offset + n) text.length = (c.advance n).offset := by omega
  have found : Indexed.slice text c.offset (min (c.offset + n) text.length) =
      .ok (c.rest.take n) := by
    rw [stop, place, Indexed.slice_ok (by omega), ← on.rest, ← List.take_eq_take_min]
  rw [← stop]
  exact (Ends.get _).bind ((look_ends found _).bind ((seek_ends _ _).bind (.pure _ _)))

theorem binaryOp?_ends (on : c.On text) :
    Ends (fun _ => binaryOp? text) ⟨c.offset, depth, m⟩ (BinaryOp.first? c.rest)
      ⟨c.offset, depth, m⟩ := by
  have found := Indexed.firstOf_ok BinaryOp.symbol text c.offset BinaryOp.all
  rw [← on.rest] at found
  exact (Ends.get _).bind (look_ends found _)

theorem unaryOp?_ends (on : c.On text) :
    Ends (fun _ => unaryOp? text) ⟨c.offset, depth, m⟩ (UnaryOp.first? c.rest)
      ⟨c.offset, depth, m⟩ := by
  have found := Indexed.firstOf_ok UnaryOp.symbol text c.offset UnaryOp.all
  rw [← on.rest] at found
  exact (Ends.get _).bind (look_ends found _)

theorem leaf?_ends (scope : Scope) (line : Int) (on : c.On text) (σ : Scan) :
    Ends (fun _ => look (Indexed.leaf? scope line text c.offset)) σ
      ((Term.leaf? scope line c).map Indexed.ended) σ := by
  apply look_ends
  have found := Indexed.leaf?_ok scope line on.within
  rwa [← on.eq_inside] at found

/-! ### Scans and walks -/

/-- A scan traces a walk: it ends with what the walk has and with its memory, where the walk stops
and as deep as it began. -/
def Traces (x : Nat → Scanner α) (depth : Int) (m : Memory) (c : Cursor)
    (out : (α × Memory) × Cursor) : Prop :=
  Ends x ⟨c.offset, depth, m⟩ out.1.1 ⟨out.2.offset, depth, out.1.2⟩

end Scanner

/-- An operand that leaves nothing has no text, and one that leaves something has one. -/
theorem Found.join_eq_binary {left : Found} {m : Memory} {c : Cursor}
    {right : (Found × Memory) × Cursor} (op : BinaryOp) (missing : left.missing = false)
    (leaves : Walk.Leaves m c right) : left.join op right.1.1 = left.binary op right.1.1 := by
  cases leaves with
  | nothing column gap => simp [join, binary, hole, ← missing]
  | something present text shorter => simp [join, binary, present, text, ← missing]

/-- The room for values at a depth is none from the deepest on, and else one more than a step
deeper. -/
theorem Walk.value_room (s : Setting) (scope : Scope) (line depth : Int) :
    value s scope line (Term.room depth) = valueAround s scope line
      (if depth ≥ Term.nesting then none else some (value s scope line (Term.room (depth + 1)))) := by
  by_cases deep : depth ≥ Term.nesting
  · have room : Term.room depth = 0 := by
      unfold Term.room
      omega
    rw [if_pos deep, room, value]
  · have room : Term.room depth = Term.room (depth + 1) + 1 := by
      unfold Term.room
      omega
    rw [if_neg deep, room, value]

def Walk.expression (s : Setting) (scope : Scope) (line : Int) (level : Nat) (depth : Int) :
    Walk Found :=
  climb (value s scope line (Term.room depth)) (BinaryOp.levels - level)

theorem Walk.expression_leaves {s : Setting} (scope : Scope) (line : Int) (level : Nat)
    (depth : Int) (m : Memory) (c : Cursor) :
    Leaves m c ((expression s scope line level depth m).run c) :=
  climb_leaves (value_leaves scope line _) _ m c

theorem Walk.expression_of_lt {s : Setting} (scope : Scope) (line : Int) {level : Nat} {depth : Int}
    (less : level < BinaryOp.levels) :
    expression s scope line level depth = chain (expression s scope line (level + 1) depth) level := by
  have more : BinaryOp.levels - level = BinaryOp.levels - (level + 1) + 1 := by omega
  have own : BinaryOp.levels - (BinaryOp.levels - (level + 1) + 1) = level := by omega
  rw [expression, more, climb, own, expression]

namespace Scanner

variable {s : Setting} {scope : Scope} {line : Int}

section Chains

variable {level : Nat} {operand : Walk Found} {left : Found}

/-- A chain stops before anything but an operator of its level. -/
theorem chainFrom_stops {level : Int} (on : c.On text)
    (other : ∀ op ∈ BinaryOp.first? c.skipBlanks.rest, (op.level : Int) ≠ level) :
    Traces (chainFrom s scope line text level left) depth m c ((left, m), c) := by
  refine Ends.call ?_
  simp only [chainFrom]
  refine (Ends.get _).bind ((skipBlanks_ends on).bind ((binaryOp?_ends on.skipBlanks).bind ?_))
  cases found : BinaryOp.first? c.skipBlanks.rest with
  | none => exact (seek_ends _ _).bind (.pure _ _)
  | some op =>
    simp only [if_neg (other op found)]
    exact (seek_ends _ _).bind (.pure _ _)

/-- A chain traces the walk's if its operands do, from the places further on. -/
theorem chainFrom_traces (on : c.On text) (missing : left.missing = false)
    (leaves : ∀ m c, Walk.Leaves m c ((operand m).run c))
    (operands : ∀ m d, d.On text → d.rest.length < c.rest.length →
      Traces (expression s scope line text (level + 1)) depth m d ((operand m).run d)) :
    Traces (chainFrom s scope line text level left) depth m c
      (Walk.chainFrom operand level left m c) := by
  fun_induction Walk.chainFrom operand level left m c with
  | case1 left m c stops => exact chainFrom_stops on (by simp [stops])
  | case2 left m c op found same right shorter ih =>
    have start := on.skipBlanks.advance op.symbol.length
    have first := operands m _ start (Term.rest_length_lt found (.refl _))
    have behind := ih (start.reaches ((operand m).reaches _)) rfl
      (fun m d inside less => operands m d inside (less.trans shorter))
    refine Ends.call ?_
    simp only [chainFrom]
    refine (Ends.get _).bind ((skipBlanks_ends on).bind ((binaryOp?_ends on.skipBlanks).bind ?_))
    simp only [found, same, if_true]
    refine (take_ends on.skipBlanks _).bind (first.bind ?_)
    rw [Found.join_eq_binary op missing (leaves _ _)]
    exact behind
  | case3 left m c op found other =>
    refine chainFrom_stops on fun op' found' => ?_
    obtain rfl := Option.some.inj (found.symm.trans found')
    omega

/-- Without a text there is nothing to go on from. -/
theorem expression_traces_chain {level : Int} {out result : (Found × Memory) × Cursor}
    (outer : ¬ level ≥ BinaryOp.levels)
    (first : Traces (expression s scope line text (level + 1)) depth m c out)
    (rest : ¬ out.1.1.text.isEmpty = true →
      Traces (chainFrom s scope line text level out.1.1) depth out.1.2 out.2 result) :
    Traces (expression s scope line text level) depth m c
      (if out.1.1.text.isEmpty then out else result) := by
  refine Ends.call ?_
  simp only [expression, if_neg outer]
  refine first.bind ?_
  by_cases empty : out.1.1.text.isEmpty = true
  · simp only [if_pos empty]
    exact .pure _ _
  · simp only [if_neg empty]
    exact rest empty

end Chains

section Levels

variable (on : c.On text)
  (here : ∀ m, Traces (value s scope line text) depth m c
    ((Walk.value s scope line (Term.room depth) m).run c))
  (later : ∀ (level : Int) m d, d.On text → d.rest.length < c.rest.length →
    Traces (expression s scope line text level) depth m d
      ((Walk.expression s scope line level.toNat depth m).run d))

include on here later

/-- An expression traces the walk's if its first value does, and the expressions further on. -/
theorem expression_traces_of (level : Int) (m : Memory) :
    Traces (expression s scope line text level) depth m c
      ((Walk.expression s scope line level.toNat depth m).run c) := by
  -- From the tightest level outwards.
  induction gap : (BinaryOp.levels - level).toNat generalizing level with
  | zero =>
    have single : level ≥ BinaryOp.levels := by omega
    have tightest : BinaryOp.levels - level.toNat = 0 := by omega
    refine Ends.call ?_
    simp only [expression, if_pos single, Walk.expression, tightest]
    exact here m
  | succ k ih =>
    have outer : ¬ level ≥ BinaryOp.levels := by omega
    have first := ih (level + 1) (by omega)
    have stop := on.reaches ((Walk.expression s scope line (level + 1).toNat depth m).reaches c)
    by_cases below : level < 0
    · -- No operator is of a level below the first.
      have same : (level + 1).toNat = level.toNat := by omega
      have traced := expression_traces_chain outer first fun _ =>
        chainFrom_stops stop fun op _ => by omega
      rwa [ite_self, same] at traced
    · obtain ⟨l, rfl⟩ := Int.eq_ofNat_of_zero_le (Int.not_lt.mp below)
      have next : ((l : Int) + 1).toNat = l + 1 := by omega
      have less : l < BinaryOp.levels := by omega
      rw [next] at first stop
      have leaves := Walk.expression_leaves (s := s) scope line (l + 1) depth
      have missing := (leaves m c).missing_eq
      have further := ((Walk.expression s scope line (l + 1) depth m).reaches c).length_le
      have traced := expression_traces_chain outer first fun more =>
        chainFrom_traces stop (missing.trans (Bool.eq_false_iff.mpr more)) leaves
          fun m' d inside shorter => by
            have traces := later (l + 1) m' d inside (by omega)
            rwa [next] at traces
      rw [← missing] at traced
      rw [Int.toNat_natCast, Walk.expression_of_lt scope line less]
      exact traced

end Levels

theorem deepen_back (position : Nat) :
    Ends (fun _ => deepen (-1)) ⟨position, depth + 1, m⟩ () ⟨position, depth, m⟩ := by
  have ends := deepen_ends (-1) ⟨position, depth + 1, m⟩
  rwa [Int.add_neg_cancel_right] at ends

theorem group_traces (on : c.On text)
    (later : Traces (expression s scope line text 0) (depth + 1) m (c.advance 1)
      ((Walk.expression s scope line 0 (depth + 1) m).run (c.advance 1))) :
    Traces (group s scope line text) depth m c
      (Walk.group (Walk.value s scope line (Term.room (depth + 1))) m c) := by
  have inside := (on.advance 1).reaches
    ((Walk.expression s scope line 0 (depth + 1) m).reaches (c.advance 1))
  have whole : Walk.climb (Walk.value s scope line (Term.room (depth + 1))) BinaryOp.levels =
      Walk.expression s scope line 0 (depth + 1) := rfl
  refine Ends.call ?_
  simp only [group]
  refine (Ends.get _).bind ((take_ends on 1).bind ((deepen_ends 1 _).bind (later.bind ?_)))
  refine (deepen_back _).bind ((skipBlanks_ends inside).bind
    ((next?_ends inside.skipBlanks).bind ?_))
  dsimp only [Walk.group]
  rw [whole]
  by_cases closed : (((Walk.expression s scope line 0 (depth + 1) m).run
      (c.advance 1)).2.skipBlanks.next? == some Byte.rightParen) = true
  · simp only [if_pos closed]
    exact (take_ends inside.skipBlanks 1).bind (.pure _ _)
  · simp only [if_neg closed]
    exact .pure _ _

theorem unary_traces (on : c.On text) (op : UnaryOp)
    (leaves : ∀ m c, Walk.Leaves m c
      ((Walk.value s scope line (Term.room (depth + 1)) m).run c))
    (later : Traces (value s scope line text) (depth + 1) m (c.advance op.symbol.length)
      ((Walk.value s scope line (Term.room (depth + 1)) m).run (c.advance op.symbol.length))) :
    Traces (unary s scope line text op) depth m c
      (Walk.unary (Walk.value s scope line (Term.room (depth + 1))) op m c) := by
  refine Ends.call ?_
  simp only [unary]
  refine (Ends.get _).bind ((take_ends on _).bind ((deepen_ends 1 _).bind (later.bind ?_)))
  refine (deepen_back _).bind ?_
  dsimp only [Walk.unary]
  rw [(leaves m _).missing_eq]
  by_cases empty : ((Walk.value s scope line (Term.room (depth + 1)) m).run
      (c.advance op.symbol.length)).1.1.text.isEmpty = true
  · simp only [if_pos empty]
    exact (seek_ends _ _).bind (.pure _ _)
  · simp only [if_neg empty]
    exact .pure _ _

/-- A value traces the walk's if what is nested in it does. -/
theorem value_traces_of (on : c.On text) (m : Memory)
    (values : ∀ m d, d.On text → d.rest.length < c.rest.length →
      Traces (value s scope line text) (depth + 1) m d
        ((Walk.value s scope line (Term.room (depth + 1)) m).run d))
    (groups : ∀ m d, d.On text → d.rest.length < c.rest.length →
      Traces (expression s scope line text 0) (depth + 1) m d
        ((Walk.expression s scope line 0 (depth + 1) m).run d)) :
    Traces (value s scope line text) depth m c
      ((Walk.value s scope line (Term.room depth) m).run c) := by
  have start := on.skipBlanks
  have blanks := (Cursor.Reaches.skipBlanks c).length_le
  rw [Walk.value_room]
  refine Ends.call ?_
  simp only [value]
  refine (skipBlanks_ends on).bind ((Ends.get _).bind ((leaf?_ends scope line start _).bind ?_))
  dsimp only [Walk.valueAround]
  cases Term.leaf? scope line c.skipBlanks with
  | some leaf => exact (seek_ends _ _).bind (single_ends _ _ _ _)
  | none =>
    refine (next?_ends start).bind ?_
    unfold Walk.nestedValue
    by_cases paren : (c.skipBlanks.next? == some Byte.leftParen) = true
    · simp only [if_pos paren]
      refine (Ends.get _).bind ?_
      by_cases deep : depth ≥ Term.nesting
      · simp only [if_pos deep]
        exact single_ends _ _ _ _
      · have taken := Cursor.length_advance_lt Nat.one_pos (Cursor.one_le_of_next? paren)
        simp only [if_neg deep]
        exact group_traces start (groups m _ (start.advance 1) (by omega))
    · simp only [if_neg paren]
      refine (unaryOp?_ends start).bind ?_
      cases found : UnaryOp.first? c.skipBlanks.rest with
      | none => exact single_ends _ _ _ _
      | some op =>
        refine (Ends.get _).bind ?_
        by_cases deep : depth ≥ Term.nesting
        · simp only [if_pos deep]
          exact single_ends _ _ _ _
        · have taken := UnaryOp.length_advance_lt found
          simp only [if_neg deep]
          exact unary_traces start op (Walk.value_leaves scope line _)
            (values m _ (start.advance _) (by omega))

/-- From every place of a line, at every depth and level, a scan ends and traces the walk. -/
theorem traces (s : Setting) (scope : Scope) (line depth : Int) (on : c.On text) :
    (∀ m, Traces (value s scope line text) depth m c
      ((Walk.value s scope line (Term.room depth) m).run c)) ∧
    ∀ level m, Traces (expression s scope line text level) depth m c
      ((Walk.expression s scope line level.toNat depth m).run c) := by
  -- Everything nested, and every right operand, stands further on in the line.
  induction left : c.rest.length using Nat.strong_induction_on generalizing c depth with
  | _ length ih =>
    have here (m : Memory) := value_traces_of on m
      (fun m d inside less => (ih _ (left ▸ less) (depth + 1) inside rfl).1 m)
      (fun m d inside less => (ih _ (left ▸ less) (depth + 1) inside rfl).2 0 m)
    refine ⟨here, expression_traces_of on here fun level m d inside less => ?_⟩
    exact (ih _ (left ▸ less) depth inside rfl).2 level m

end Scanner

end Assembler8080
