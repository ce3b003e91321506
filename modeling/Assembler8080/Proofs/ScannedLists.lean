import Assembler8080.Proofs.Scanner

/-! Lists of data scanned by index, and how a scan over a line ends. The loop over the items has no
bound of its own: it ends because every round but the last takes a comma. What holds of the walks
then holds of the scans (`Scanner.ends_clean`): each ends, inside the line and as deep as it began, and
where nothing is read nothing has happened. -/
namespace Assembler8080

namespace Scanner

/-! ### Items and lists -/

section Lists

variable (text : Bytes)

def quotation? : Scanner (Option Lexeme.Quotation) := do
  let start := (← get).position
  look (Checked.orElse (Indexed.quotation? Byte.singleQuote text start)
    (Indexed.quotation? Byte.doubleQuote text start))

def string : Scanner (Option Operand) := do
  skipBlanks text
  match ← quotation? text with
  | some q =>
    let source ← take text q.length
    let body ← look (Indexed.slice source 1 (source.length - 1))
    let bytes ← look (Indexed.unescapeFrom body 0 [])
    return some ⟨.byteList, source, bytes, some 0, 0, none, 0, []⟩
  | none => return none

section Items

variable (s : Setting) (scope : Scope) (line : Int)

/-- An expression as an item, or else what is tried from the same place. -/
def item (make : Found → Operand) (otherwise : Scanner (Option Operand)) (calls : Nat) :
    Scanner (Option Operand) := do
  let saved := (← get).position
  let found ← expression s scope line text 0 calls
  if found.text.isEmpty then
    seek saved
    otherwise
  else return some (make found)

def byteItem : Nat → Scanner (Option Operand) := item text s scope line (·.byte 0) (string text)

def wordItem : Nat → Scanner (Option Operand) := item text s scope line (·.word 0) (return none)

end Items

def slot (item : Nat → Scanner (Option Operand)) (calls : Nat) : Scanner (Option Operand) := do
  skipBlanks text
  if (← next? text) == some Byte.comma then return none else item calls

def itemsFrom (item : Nat → Scanner (Option Operand)) (seen : List Operand) :
    Nat → Scanner (List Operand)
  | 0 => outOfCalls
  | calls + 1 => do
    let found ← slot text item calls
    let saved := (← get).position
    skipBlanks text
    if (← next? text) == some Byte.comma then
      let _ ← take text 1
      itemsFrom item (found.toList ++ seen) calls
    else
      seek saved
      return (found.toList ++ seen).reverse

/-- A list of items between commas, with its text cut out of the line. -/
def list (kind : OperandKind) (item : Nat → Scanner (Option Operand)) (calls : Nat) :
    Scanner Operand := do
  skipBlanks text
  let start := (← get).position
  let items ← itemsFrom text item [] calls
  let source ← look (Indexed.slice text start (← get).position)
  return listOperand kind items (DataSource.trimEnd source) (start + 1)

end Lists

variable {text : Bytes} {c : Cursor} {depth : Int} {m : Memory} {s : Setting}

theorem quotation?_ends (on : c.On text) :
    Ends (fun _ => quotation? text) ⟨c.offset, depth, m⟩ (DataSource.quotation? c.rest)
      ⟨c.offset, depth, m⟩ := by
  have found : Checked.orElse (Indexed.quotation? Byte.singleQuote text c.offset)
      (Indexed.quotation? Byte.doubleQuote text c.offset) = .ok (DataSource.quotation? c.rest) := by
    rw [Indexed.quotation?_ok, Indexed.quotation?_ok, ← on.rest, DataSource.quotation?]
    cases Lexeme.quotation? Byte.singleQuote c.rest <;> rfl
  exact (Ends.get _).bind (look_ends found _)

/-- A quotation is long enough for its two marks. -/
theorem quotation?_marks {rest : Bytes} {q : Lexeme.Quotation}
    (found : DataSource.quotation? rest = some q) : 2 ≤ (rest.take q.length).length := by
  have fits := DataSource.quotation?_length_le found
  have marks : q.characters + 2 ≤ q.length := by
    rcases Option.or_eq_some_iff.mp found with single | ⟨-, double⟩
    · exact Indexed.quotation?_characters single
    · exact Indexed.quotation?_characters double
  rw [List.length_take]
  omega

theorem string_traces (on : c.On text) :
    Traces (fun _ => string text) depth m c ((Walk.string s m).run c) := by
  have start := on.skipBlanks
  refine (skipBlanks_ends on).bind ((quotation?_ends start).bind ?_)
  dsimp only [Walk.string, DataSource.string]
  cases found : DataSource.quotation? c.skipBlanks.rest with
  | none => exact .pure _ _
  | some q =>
    have body := Indexed.body_ok _ (quotation?_marks found)
    have bytes := Indexed.unescapeFrom_ok ((c.skipBlanks.rest.take q.length).drop 1).dropLast 0 []
    exact (take_ends start _).bind ((look_ends body _).bind ((look_ends bytes _).bind (.pure _ _)))

section Items

variable (s : Setting) (scope : Scope) (line depth : Int)

theorem item_traces (make : Found → Operand) {otherwise : Scanner (Option Operand)}
    {out : (Option Operand × Memory) × Cursor} (on : c.On text)
    (other : Traces (fun _ => otherwise) depth
      ((Walk.expression s scope line 0 depth m).run c).1.2 c out) :
    Traces (item text s scope line make otherwise) depth m c
      (let t := (Walk.expression s scope line 0 depth m).run c
       if t.1.1.missing then out else ((some (make t.1.1), t.1.2), t.2)) := by
  have first := (traces s scope line depth on).2 0 m
  refine (Ends.get _).bind (first.bind ?_)
  dsimp only
  rw [Int.toNat_zero, (Walk.expression_leaves scope line 0 depth m c).missing_eq]
  by_cases empty : ((Walk.expression s scope line 0 depth m).run c).1.1.text.isEmpty = true
  · simp only [if_pos empty]
    exact (seek_ends _ _).bind other
  · simp only [if_neg empty]
    exact .pure _ _

theorem byteItem_traces (on : c.On text) :
    Traces (byteItem text s scope line) depth m c
      ((Walk.byteItem s (Walk.expression s scope line 0 depth) m).run c) :=
  item_traces s scope line depth (·.byte 0) on (string_traces on)

theorem wordItem_traces (on : c.On text) :
    Traces (wordItem text s scope line) depth m c
      ((Walk.wordItem (Walk.expression s scope line 0 depth) m).run c) :=
  item_traces s scope line depth (·.word 0) on (.pure _ _)

end Items

section Loop

variable {item : Nat → Scanner (Option Operand)} {walk : Walk (Option Operand)}
  (items : ∀ m c, c.On text → Traces item depth m c ((walk m).run c))

include items

theorem slot_traces (on : c.On text) (m : Memory) :
    Traces (slot text item) depth m c ((Walk.slot walk m).run c) := by
  refine (skipBlanks_ends on).bind ((next?_ends on.skipBlanks).bind ?_)
  dsimp only [Walk.slot]
  by_cases comma : (c.skipBlanks.next? == some Byte.comma) = true
  · simp only [if_pos comma]
    exact .pure _ _
  · simp only [if_neg comma]
    exact items m _ on.skipBlanks

/-- Every round but the last takes a comma, so the rest of the line gets shorter. -/
theorem itemsFrom_traces (on : c.On text) (seen : List Operand) (m : Memory) :
    Traces (itemsFrom text item seen) depth m c (Walk.itemsFrom walk seen m c) := by
  fun_induction Walk.itemsFrom walk seen m c with
  | case1 seen m c read comma shorter ih =>
    have stop := on.reaches ((Walk.slot walk m).reaches c)
    have goesOn : (((Walk.slot walk m).run c).2.skipBlanks.next? == some Byte.comma) = true := comma
    refine Ends.call ?_
    simp only [itemsFrom]
    refine (slot_traces items on m).bind ((Ends.get _).bind ((skipBlanks_ends stop).bind
      ((next?_ends stop.skipBlanks).bind ?_)))
    simp only [if_pos goesOn]
    exact (take_ends stop.skipBlanks 1).bind (ih (stop.skipBlanks.advance 1))
  | case2 seen m c read last =>
    have stop := on.reaches ((Walk.slot walk m).reaches c)
    have ends : ¬ (((Walk.slot walk m).run c).2.skipBlanks.next? == some Byte.comma) = true := last
    refine Ends.call ?_
    simp only [itemsFrom]
    refine (slot_traces items on m).bind ((Ends.get _).bind ((skipBlanks_ends stop).bind
      ((next?_ends stop.skipBlanks).bind ?_)))
    simp only [if_neg ends]
    exact (seek_ends _ _).bind (.pure _ _)

theorem list_traces (kind : OperandKind) (on : c.On text) (m : Memory) :
    Traces (list text kind item) depth m c ((Walk.list kind walk m).run c) := by
  have start := on.skipBlanks
  have path := Walk.itemsFrom_reaches walk [] m c.skipBlanks
  have forward := path.offset_le
  have within := (start.reaches path).within
  have source : Indexed.slice text c.skipBlanks.offset
      (Walk.itemsFrom walk [] m c.skipBlanks).2.offset = .ok (c.skipBlanks.rest.take
        ((Walk.itemsFrom walk [] m c.skipBlanks).2.offset - c.skipBlanks.offset)) := by
    rw [start.rest, Indexed.slice, if_pos ⟨forward, within⟩]
  exact (skipBlanks_ends on).bind ((Ends.get _).bind ((itemsFrom_traces items start [] m).bind
    ((Ends.get _).bind ((look_ends source _).bind (.pure _ _)))))

end Loop

end Scanner

/-! ### How scans end -/

/-- A scan comes back: it is as deep as before, and at or after the place where it began, in the
line. -/
structure Scan.Returns (text : Bytes) (before after : Scan) : Prop where
  depth : after.depth = before.depth
  forward : before.position ≤ after.position
  within : after.position ≤ text.length

/-- A scan over an expression ends clean. If it has no text it has a fault, has looked no label up
and has passed blanks only; if it has one it has taken some of the line. -/
structure Scan.Clean (text : Bytes) (before : Scan) (found : Found) (after : Scan) : Prop
    extends before.Returns text after where
  nothing : found.text = [] →
    (∃ fault, found.outcome.fault = some fault ∧ fault.message ≠ []) ∧
      after.memory = before.memory ∧
      ∀ b ∈ (text.drop before.position).take (after.position - before.position),
        Byte.isBlank b = true
  something : found.text ≠ [] → before.position < after.position

theorem OperandFault.message_missing (gap : Gap) : (missing gap).message ≠ [] := by
  cases gap <;> simp [message, ascii]

section Ends

variable {α β : Type} {text : Bytes} {c : Cursor} {m : Memory}

theorem Scan.returns_of_reaches {d : Cursor} (on : c.On text) (path : c.Reaches d) (depth : Int)
    (m' : Memory) : Returns text ⟨c.offset, depth, m⟩ ⟨d.offset, depth, m'⟩ :=
  ⟨rfl, path.offset_le, (on.reaches path).within⟩

/-- What a walk leaves is clean. -/
theorem Scan.clean_of_leaves {out : (Found × Memory) × Cursor} (on : c.On text)
    (path : c.Reaches out.2) (leaves : Walk.Leaves m c out) (depth : Int) :
    Clean text ⟨c.offset, depth, m⟩ out.1.1 ⟨out.2.offset, depth, out.1.2⟩ where
  toReturns := returns_of_reaches on path depth _
  nothing empty := by
    cases leaves with
    | nothing column gap =>
      refine ⟨⟨_, rfl, OperandFault.message_missing gap⟩, rfl, fun b member => ?_⟩
      have run := Cursor.offset_advance c (Lexeme.blankRun c.rest)
      have fits := Cursor.blankRun_le c.rest
      have passed : c.skipBlanks.offset - c.offset = Lexeme.blankRun c.rest := by
        rw [Cursor.skipBlanks]
        omega
      rw [passed, ← on.rest, Lexeme.blankRun,
        ← List.prefix_iff_eq_take.mp (List.takeWhile_prefix Byte.isBlank)] at member
      exact List.mem_takeWhile_imp member
    | something missing text shorter => exact absurd empty text
  something nonempty := by
    cases leaves with
    | nothing column gap => exact absurd rfl nonempty
    | something missing text shorter =>
      have total := path.length_eq
      dsimp only at total ⊢
      omega

/-- A walk that has met a reader stands in the line, at an index. -/
theorem Sense.Meets.inside {sense : Sense α β} {s : Setting} {scope : Scope} {line : Int}
    {out : (α × Memory) × Cursor} {read : β × Cursor}
    (meets : sense.Meets s scope line m c out read) (on : out.2.On text) :
    sense.Meets s scope line m c (out.1, .inside text out.2.offset) read := by
  rw [← on.eq_inside]
  exact meets

theorem Walk.expression_follows (s : Setting) (scope : Scope) (line : Int) (level : Nat)
    (depth : Int) : (expression s scope line level depth).Follows .term s scope line
      (Term.expression scope line level depth) :=
  climb_follows (value_follows scope line _) _

end Ends

namespace Scanner

variable {α β : Type}

/-- A scan from a state ends, with what a reader has from the same place of the line. -/
def Reads (sense : Sense α β) (s : Setting) (scope : Scope) (line : Int) (text : Bytes)
    (x : Nat → Scanner α) (reader : Reader β) (before : Scan) (a : α) (after : Scan) : Prop :=
  Ends x before a after ∧
    sense.Meets s scope line before.memory (.inside text before.position)
      ((a, after.memory), .inside text after.position) (reader.run (.inside text before.position))

section Scans

variable {sense : Sense α β} {s : Setting} {scope : Scope} {line : Int} {text : Bytes} {depth : Int}
  {m : Memory} {i : Nat}
  (inside : i ≤ text.length)

include inside

theorem Traces.reads {x : Nat → Scanner α} {walk : Walk α} {reader : Reader β}
    (traced : Traces x depth m (.inside text i) ((walk m).run (.inside text i)))
    (follows : walk.Follows sense s scope line reader) :
    Reads sense s scope line text x reader ⟨i, depth, m⟩ ((walk m).run (.inside text i)).1.1
      ⟨((walk m).run (.inside text i)).2.offset, depth, ((walk m).run (.inside text i)).1.2⟩ :=
  ⟨traced, (follows m _).inside ((Cursor.on_inside inside).reaches ((walk m).reaches _))⟩

theorem Traces.returns {x : Nat → Scanner α} {walk : Walk α} {reader : Reader β}
    (traced : Traces x depth m (.inside text i) ((walk m).run (.inside text i)))
    (follows : walk.Follows sense s scope line reader) :
    ∃ a after, Scan.Returns text ⟨i, depth, m⟩ after ∧
      Reads sense s scope line text x reader ⟨i, depth, m⟩ a after :=
  ⟨_, _, Scan.returns_of_reaches (Cursor.on_inside inside) ((walk m).reaches _) depth _,
    traced.reads inside follows⟩

theorem Traces.clean {x : Nat → Scanner Found} {walk : Walk Found} {reader : Reader Term}
    (traced : Traces x depth m (.inside text i) ((walk m).run (.inside text i)))
    (leaves : ∀ m c, Walk.Leaves m c ((walk m).run c))
    (follows : walk.Follows .term s scope line reader) :
    ∃ found after, Scan.Clean text ⟨i, depth, m⟩ found after ∧
      Reads .term s scope line text x reader ⟨i, depth, m⟩ found after :=
  ⟨_, _, Scan.clean_of_leaves (Cursor.on_inside inside) ((walk m).reaches _) (leaves m _) depth,
    traced.reads inside follows⟩

end Scans

/-- From every place of a line, at every level and depth and with any symbols, the scans over
expressions, values and lists end, and have what the readers of the line have. An expression and a
value end clean. Every fault that a line gets is at one of its columns. -/
theorem ends_clean (s : Setting) (scope : Scope) (line : Int) (text : Bytes) (before : Scan)
    (inside : before.position ≤ text.length) :
    (∀ level : Int, ∃ found after, before.Clean text found after ∧
      Reads .term s scope line text (expression s scope line text level)
        (Term.expression scope line level.toNat before.depth) before found after) ∧
    (∃ found after, before.Clean text found after ∧
      Reads .term s scope line text (value s scope line text)
        (Term.value scope line (Term.room before.depth)) before found after) ∧
    (∃ o after, before.Returns text after ∧
      Reads .operand s scope line text (list text .byteList (byteItem text s scope line))
        (DataSource.list .byteList (DataSource.byteItem (Term.expression scope line 0 before.depth)))
        before o after) ∧
    (∃ o after, before.Returns text after ∧
      Reads .operand s scope line text (list text .wordList (wordItem text s scope line))
        (DataSource.list .wordList (DataSource.wordItem (Term.expression scope line 0 before.depth)))
        before o after) ∧
    ∀ final state, ∀ f ∈ ((Statement.read scope line text).1.assemble final state).1.faults,
      f.column ≤ text.length + 1 := by
  obtain ⟨i, depth, m⟩ := before
  have on := Cursor.on_inside inside
  obtain ⟨values, expressions⟩ := traces s scope line depth on
  have follows := Walk.expression_follows s scope line
  refine ⟨fun level => ?_, ?_, ?_, ?_, Statement.faults_column_le scope line text⟩
  · exact (expressions level m).clean inside (Walk.expression_leaves scope line level.toNat depth)
      (follows level.toNat depth)
  · exact (values m).clean inside (Walk.value_leaves scope line _)
      (Walk.value_follows scope line _)
  · have traced := list_traces (fun m c on => byteItem_traces s scope line depth on) .byteList on m
    exact traced.returns inside (Walk.list_follows (Walk.byteItem_follows (follows 0 depth)) _)
  · have traced := list_traces (fun m c on => wordItem_traces s scope line depth on) .wordList on m
    exact traced.returns inside (Walk.list_follows (Walk.wordItem_follows (follows 0 depth)) _)

/-- One level above the deepest, below the first level: the minus has no operand because the tilde
behind it is too deep. The scan goes back over the minus, and the label is not looked up. -/
theorem ends_clean_tooDeep :
    let text := ascii " -~x"
    let setting : Setting := ⟨true, ⟨[], 1⟩, none⟩
    let before : Scan := ⟨0, 63, ⟨.empty, []⟩⟩
    before.position ≤ text.length ∧
      ∃ found after, before.Clean text found after ∧ found.text = [] ∧ after.position = 1 ∧
        Ends (expression setting (.ofFile []) 1 text (-1)) before found after := by
  intro text setting before
  have inside : before.position ≤ text.length := Nat.zero_le _
  have read : (Term.expression (.ofFile []) 1 (-1 : Int).toNat before.depth).run
      (.inside text before.position) = (⟨3, .missing .tooDeep⟩, .inside text 1) := by decide +kernel
  obtain ⟨found, after, clean, ends, meets⟩ :=
    (ends_clean setting (.ofFile []) 1 text before inside).1 (-1)
  rw [read] at meets
  exact ⟨inside, found, after, clean, meets.result.text, congrArg Cursor.offset meets.place, ends⟩

end Scanner

end Assembler8080
