import Assembler8080.Proofs.Walk

/-! Operands read and evaluated in one walk. The walks follow the readers of the operands
(`Walk.ofShape_follows`): where the text lets a reader try again, a restart number that may be an
expression or an item of a list that may be a string, no value decides. -/
namespace Assembler8080

namespace Found

/-- An expression as an operand without an encoding. -/
def operand (f : Found) (kind : OperandKind) (column : Nat) : Operand :=
  ⟨kind, f.text, [], f.outcome.value, 0, f.outcome.fault, column, f.undefined⟩

def byte (f : Found) (column : Nat) : Operand :=
  { f.operand .byte column with bytes := [lowByte f.outcome.placeholder] }

def word (f : Found) (column : Nat) : Operand :=
  { f.operand .word column with bytes := wordBytes f.outcome.placeholder }

def size (f : Found) (column : Nat) : Operand := f.operand .size column

def restart (f : Found) (column : Nat) : Operand :=
  let plain := f.operand .restart column
  match f.outcome.fault, f.outcome.value with
  | none, some n =>
    if 7 < n then { plain with fault := some .restartRange }
    else { plain with opcodeBits := RegisterBank.restart.opcodeBits n.toNat }
  | _, _ => plain

end Found

/-! ### Walks over operands -/

namespace Walk

variable (s : Setting)

/-- A register needs no look-up. -/
def register (bank : RegisterBank) : Walk Operand := fun m =>
  { run c :=
      let read := (OperandSource.register bank).run c
      ((read.1.operand (m.environment s), m), read.2)
    reaches c := (OperandSource.register bank).reaches c }

def ofFound (make : Found → Nat → Operand) (term : Walk Found) : Walk Operand := fun m =>
  { run c :=
      let t := (term m).run c
      ((make t.1.1 t.1.1.column, t.1.2), t.2)
    reaches c := (term m).reaches c }

def restart (term : Walk Found) : Walk Operand := fun m =>
  { run c :=
      let start := c.skipBlanks
      let length := Lexeme.wordRun start.rest
      let word := start.rest.take length
      let after := (start.advance length).skipBlanks
      if (RegisterBank.restart.number? word).isSome && OperandSource.endsLine after then
        ((registerOperand .restart word start.column, m), after)
      else (ofFound Found.restart term m).run c
    reaches c := by
      dsimp only
      split
      · exact ((Cursor.Reaches.skipBlanks c).trans (.advance _ _)).trans (.skipBlanks _)
      · exact (term m).reaches c }

def string : Walk (Option Operand) := fun m =>
  { run c :=
      let read := DataSource.string.run c
      ((read.1.map (·.form.operand (m.environment s) 0), m), read.2)
    reaches c := DataSource.string.reaches c }

def byteItem (term : Walk Found) : Walk (Option Operand) := fun m =>
  { run c :=
      let t := (term m).run c
      if t.1.1.missing then (string s t.1.2).run c else ((some (t.1.1.byte 0), t.1.2), t.2)
    reaches c := by
      dsimp only
      split
      · exact (string s _).reaches c
      · exact (term m).reaches c }

def wordItem (term : Walk Found) : Walk (Option Operand) := fun m =>
  { run c :=
      let t := (term m).run c
      if t.1.1.missing then ((none, t.1.2), c) else ((some (t.1.1.word 0), t.1.2), t.2)
    reaches c := by
      dsimp only
      split
      · exact .refl _
      · exact (term m).reaches c }

def slot (item : Walk (Option Operand)) : Walk (Option Operand) := fun m =>
  { run c :=
      let start := c.skipBlanks
      if start.next? == some Byte.comma then ((none, m), start) else (item m).run start
    reaches c := by
      refine (Cursor.Reaches.skipBlanks c).trans ?_
      dsimp only
      split
      · exact .refl _
      · exact (item m).reaches _ }

def itemsFrom (item : Walk (Option Operand)) (seen : List Operand) (m : Memory) (c : Cursor) :
    (List Operand × Memory) × Cursor :=
  let read := (slot item m).run c
  if h : (read.2.skipBlanks.next? == some Byte.comma) = true then
    have := DataSource.rest_length_lt ((slot item m).reaches c) h
    itemsFrom item (read.1.1.toList ++ seen) read.1.2 (read.2.skipBlanks.advance 1)
  else (((read.1.1.toList ++ seen).reverse, read.1.2), read.2)
termination_by c.rest.length
decreasing_by assumption

theorem itemsFrom_reaches (item : Walk (Option Operand)) (seen : List Operand) (m : Memory)
    (c : Cursor) : c.Reaches (itemsFrom item seen m c).2 := by
  fun_induction itemsFrom item seen m c with
  | case1 seen m c read h _ ih =>
    exact (((slot item m).reaches c).trans (.skipBlanks _)).trans
      ((Cursor.Reaches.advance _ _).trans ih)
  | case2 seen m c read h => exact (slot item m).reaches c

/-- A list of items between commas. An empty slot adds nothing. -/
def list (kind : OperandKind) (item : Walk (Option Operand)) : Walk Operand := fun m =>
  { run c :=
      let start := c.skipBlanks
      let read := itemsFrom item [] m start
      let text := DataSource.trimEnd (start.rest.take (read.2.offset - start.offset))
      ((listOperand kind read.1.1 text start.column, read.1.2), read.2)
    reaches c := (Cursor.Reaches.skipBlanks c).trans (itemsFrom_reaches ..) }

def one (first : Walk Operand) : Walk (List Operand × Option Nat) := fun m =>
  { run c :=
      let a := (first m).run c
      ((([a.1.1], none), a.1.2), a.2)
    reaches c := (first m).reaches c }

/-- Two operands with a comma between them. Without the comma the second is not read. -/
def two (first second : Walk Operand) : Walk (List Operand × Option Nat) := fun m =>
  { run c :=
      let a := (first m).run c
      let comma := a.2.skipBlanks
      if comma.next? == some Byte.comma then
        let b := (second a.1.2).run (comma.advance 1)
        ((([a.1.1, b.1.1], none), b.1.2), b.2)
      else ((([a.1.1], some comma.column), a.1.2), comma)
    reaches c := by
      have first := ((first m).reaches c).trans (.skipBlanks _)
      dsimp only
      split
      · exact first.trans ((Cursor.Reaches.advance _ _).trans ((second _).reaches _))
      · exact first }

def ofShape (term : Walk Found) : Shape → Walk (List Operand × Option Nat)
  | .bare | .unknown => fun m => { run c := ((([], none), m), c), reaches c := .refl c }
  | .target => one (register s .target)
  | .source => one (register s .source)
  | .targetSource => two (register s .target) (register s .source)
  | .pair => one (register s .pair)
  | .stackPair => one (register s .stackPair)
  | .indexPair => one (register s .indexPair)
  | .byte => one (ofFound Found.byte term)
  | .word => one (ofFound Found.word term)
  | .targetByte => two (register s .target) (ofFound Found.byte term)
  | .pairWord => two (register s .pair) (ofFound Found.word term)
  | .restart => one (restart term)
  | .byteList => one (list .byteList (byteItem s term))
  | .wordList => one (list .wordList (wordItem term))
  | .size => one (ofFound Found.size term)

end Walk

/-! ### Operands that are made -/

/-- An operand of a walk, compared with what an environment makes: its shape is the same in all
environments, and in a consistent table it is what the environment at the start makes. -/
structure Made (s : Setting) (m : Memory) (o : Operand) (references : List Reference)
    (make : Environment → Operand) : Prop where
  alike : ∀ env, o.Alike (make env)
  value : m.symbols.Consistent → (∀ r ∈ references, r.toLabel.Proper) → o = make (m.environment s)

namespace Found.Of

variable {s : Setting} {m : Memory} {f : Found} {t : Term}

theorem eq_ofExpr (of : f.Of s m t) (valid : m.symbols.Consistent)
    (proper : ∀ r ∈ t.expr.references, r.toLabel.Proper) :
    f = Found.ofExpr (m.environment s) t.column t.expr := by
  obtain ⟨outcome, undefined⟩ := of.values valid proper
  rw [Found.ofExpr, ← of.column, ← of.text, ← of.missing, ← outcome, ← undefined]

theorem byte (of : f.Of s m t) (column : Nat) : Made s m (f.byte column) t.expr.references
    fun env => (DataForm.byte t.expr).operand env column where
  alike env := ⟨rfl, of.text, rfl, rfl⟩
  value valid proper := by
    rw [of.eq_ofExpr valid proper]
    rfl

theorem word (of : f.Of s m t) (column : Nat) : Made s m (f.word column) t.expr.references
    fun env => (DataForm.word t.expr).operand env column where
  alike env := ⟨rfl, of.text, rfl, rfl⟩
  value valid proper := by
    rw [of.eq_ofExpr valid proper]
    rfl

theorem size (of : f.Of s m t) (column : Nat) : Made s m (f.size column) t.expr.references
    fun env => OperandSource.operand env ⟨column, .size t.expr⟩ where
  alike env := ⟨rfl, of.text, rfl, rfl⟩
  value valid proper := by
    rw [of.eq_ofExpr valid proper]
    rfl

theorem restart (of : f.Of s m t) (column : Nat) : Made s m (f.restart column) t.expr.references
    fun env => restartOperand env t.expr column where
  alike env := by
    obtain ⟨kind, text, place, bytes⟩ := restartOperand_plain env t.expr column
    have plain : (f.restart column).kind = .restart ∧ (f.restart column).text = f.text ∧
        (f.restart column).column = column ∧ (f.restart column).bytes = [] := by
      unfold Found.restart
      dsimp only
      split
      · split <;> exact ⟨rfl, rfl, rfl, rfl⟩
      · exact ⟨rfl, rfl, rfl, rfl⟩
    exact ⟨plain.1.trans kind.symm, (plain.2.1.trans of.text).trans text.symm,
      plain.2.2.1.trans place.symm, by rw [plain.2.2.2, bytes]⟩
  value valid proper := by
    rw [of.eq_ofExpr valid proper]
    rfl

end Found.Of

/-- Things that operands are made from. Of an environment an operand takes the address and the
labels that are in the thing. -/
structure Maker (γ : Type) where
  references : γ → List Reference
  operand : Environment → γ → Operand
  congr : ∀ {env env' x}, env.Agree env' (references x) → operand env x = operand env' x

theorem DataForm.operand_congr {env env' : Environment} (column : Nat) {form : DataForm}
    (agree : env.Agree env' form.references) :
    form.operand env column = form.operand env' column := by
  cases form with
  | string => rfl
  | byte e | word e =>
    have value := e.eval_congr agree.address agree.value
    have undefined := Expr.undefined_congr agree
    simp only [DataForm.operand, Expr.evaluated, value, undefined]

theorem OperandSource.operand_congr {env env' : Environment} {source : OperandSource}
    (agree : env.Agree env' source.form.references) : source.operand env = source.operand env' := by
  obtain ⟨column, form⟩ := source
  cases form with
  | register => rfl
  | restart e =>
    have value := e.eval_congr agree.address agree.value
    have undefined := Expr.undefined_congr agree
    simp only [OperandSource.operand, restartOperand, Expr.evaluated, value, undefined]
  | data form => exact form.operand_congr column agree
  | size e =>
    have value := e.eval_congr agree.address agree.value
    have undefined := Expr.undefined_congr agree
    simp only [OperandSource.operand, Expr.evaluated, value, undefined]
  | list kind items text =>
    have each : items.map (·.operand env 0) = items.map (·.operand env' 0) :=
      List.map_congr_left fun form inside => form.operand_congr 0 (agree.mono
        fun _ member => List.mem_flatMap.mpr ⟨form, inside, member⟩)
    dsimp only [OperandSource.operand]
    rw [each]

namespace Maker

def item : Maker DataForm where
  references := DataForm.references
  operand env form := form.operand env 0
  congr := DataForm.operand_congr 0

def source : Maker OperandSource where
  references source := source.form.references
  operand env source := source.operand env
  congr := OperandSource.operand_congr

variable {γ : Type} (maker : Maker γ) {s : Setting} {scope : Scope} {line : Int} {m m' : Memory}
  {c d : Cursor}

/-- Several operands, made one after the other. -/
structure MadeAll (s : Setting) (m : Memory) (operands : List Operand) (things : List γ) : Prop where
  alike : ∀ env, List.Forall₂ Operand.Alike operands (things.map (maker.operand env))
  value : m.symbols.Consistent → (∀ r ∈ things.flatMap maker.references, r.toLabel.Proper) →
    operands = things.map (maker.operand (m.environment s))

theorem madeAll_nil : maker.MadeAll s m [] [] := ⟨fun _ => .nil, fun _ _ => rfl⟩

theorem madeAll_singleton {maker : Maker γ} {o : Operand} {x : γ}
    (made : Made s m o (maker.references x) fun env => maker.operand env x) :
    maker.MadeAll s m [o] [x] where
  alike env := .cons (made.alike env) .nil
  value valid proper := by
    rw [List.flatMap_singleton] at proper
    rw [made.value valid proper]
    rfl

/-- One more operand, made after the look-ups of those before it. -/
theorem MadeAll.snoc {maker : Maker γ} {operands : List Operand} {things : List γ}
    (before : maker.MadeAll s m operands things)
    (way : Way s scope line m c (things.flatMap maker.references) m' d) {o : Operand} {x : γ}
    (last : Made s m' o (maker.references x) fun env => maker.operand env x) :
    maker.MadeAll s m (operands ++ [o]) (things ++ [x]) where
  alike env := by
    rw [List.map_append]
    exact List.rel_append (before.alike env) (.cons (last.alike env) .nil)
  value valid proper := by
    simp only [List.flatMap_append, List.flatMap_singleton, List.forall_mem_append] at proper
    obtain ⟨early, late⟩ := proper
    have value := last.value (way.consistent valid early) late
    have agree := way.agree valid early late
    rw [before.value valid early, value, maker.congr agree, List.map_append]
    rfl

end Maker

/-! ### Walks and readers of operands -/

namespace Sense

def operand : Sense Operand OperandSource :=
  ⟨(·.form.references), fun s m o x => Made s m o x.form.references fun env => x.operand env⟩

def item : Sense (Option Operand) (Option DataSource) where
  references x := x.elim [] (·.form.references)
  related s m := Option.Rel fun o x =>
    Made s m o x.form.references fun env => x.form.operand env 0

def items : Sense (List Operand) (List DataForm) :=
  ⟨(·.flatMap DataForm.references), Maker.item.MadeAll⟩

def operands : Sense (List Operand × Option Nat) OperandSources where
  references x := x.operands.flatMap (·.form.references)
  related s m o x := Maker.source.MadeAll s m o.1 x.operands ∧ o.2 = x.missingComma

end Sense

namespace Walk

variable {s : Setting} {scope : Scope} {line : Int} {term : Walk Found} {reader : Reader Term}

theorem register_follows (bank : RegisterBank) :
    (register s bank).Follows .operand s scope line (OperandSource.register bank) := by
  intro m c
  refine ⟨rfl, .move ((OperandSource.register bank).reaches c), fun env => ?_, fun _ _ => rfl⟩
  exact ((OperandSource.register bank).run c).1.operand_alike (m.environment s) env

theorem ofFound_follows (terms : term.Follows .term s scope line reader)
    {make : Found → Nat → Operand} {form : Expr → OperandForm}
    (labels : ∀ e, (form e).references = e.references)
    (made : ∀ {m f t}, Found.Of s m f t → Made s m (make f t.column) t.expr.references
      fun env => OperandSource.operand env ⟨t.column, form t.expr⟩) :
    (ofFound make term).Follows .operand s scope line (OperandSource.ofTerm form reader) := by
  intro m c
  obtain ⟨place, way, result⟩ := terms m c
  refine ⟨place, ?_, ?_⟩
  · dsimp only [ofFound, OperandSource.ofTerm, Sense.operand]
    rw [labels]
    exact way
  · dsimp only [ofFound, OperandSource.ofTerm, Sense.operand]
    rw [labels, result.column]
    exact made result

/-- Whether the restart number is a digit alone is seen in the text. -/
theorem restart_follows (terms : term.Follows .term s scope line reader) :
    (restart term).Follows .operand s scope line (OperandSource.restart reader) := by
  intro m c
  have path (n : Nat) : c.Reaches (c.skipBlanks.advance n).skipBlanks :=
    ((Cursor.Reaches.skipBlanks c).trans (.advance _ n)).trans (.skipBlanks _)
  dsimp only [restart, OperandSource.restart]
  split
  · exact ⟨rfl, .move (path _), fun _ => ⟨rfl, rfl, rfl, rfl⟩, fun _ _ => rfl⟩
  · exact ofFound_follows terms (fun _ => rfl) (fun of => of.restart _) m c

/-- There is no label in a string. -/
theorem string_follows : (string s).Follows .item s scope line DataSource.string := by
  intro m c
  have path := DataSource.string.reaches c
  dsimp only [string, DataSource.string] at path ⊢
  cases found : DataSource.quotation? c.skipBlanks.rest with
  | none =>
    rw [found] at path
    exact ⟨rfl, .move path, .none⟩
  | some q =>
    rw [found] at path
    exact ⟨rfl, .move path, .some ⟨fun _ => ⟨rfl, rfl, rfl, rfl⟩, fun _ _ => rfl⟩⟩

theorem byteItem_follows (terms : term.Follows .term s scope line reader) :
    (byteItem s term).Follows .item s scope line (DataSource.byteItem reader) := by
  intro m c
  have meets := terms m c
  dsimp only [byteItem, DataSource.byteItem]
  rw [meets.result.missing]
  split
  next gap =>
    rw [(meets.unmoved gap).2]
    exact string_follows m c
  next => exact ⟨meets.place, meets.way, .some (meets.result.byte 0)⟩

theorem wordItem_follows (terms : term.Follows .term s scope line reader) :
    (wordItem term).Follows .item s scope line (DataSource.wordItem reader) := by
  intro m c
  have meets := terms m c
  dsimp only [wordItem, DataSource.wordItem]
  rw [meets.result.missing]
  split
  next gap =>
    rw [(meets.unmoved gap).2]
    exact ⟨rfl, .move (.refl c), .none⟩
  next => exact ⟨meets.place, meets.way, .some (meets.result.word 0)⟩

theorem slot_follows {item : Walk (Option Operand)} {items : Reader (Option DataSource)}
    (follows : item.Follows .item s scope line items) :
    (slot item).Follows .item s scope line (DataSource.slot items) := by
  intro m c
  dsimp only [slot, DataSource.slot]
  split
  · exact ⟨rfl, .move (.skipBlanks c), .none⟩
  · exact (follows m _).skipBlanks

theorem references_addItem (x : Option DataSource) (seen : List DataForm) :
    (DataSource.addItem x seen).reverse.flatMap DataForm.references =
      seen.reverse.flatMap DataForm.references ++ Sense.item.references x := by
  cases x with
  | none => simp [DataSource.addItem, Sense.item]
  | some x => simp [DataSource.addItem, Sense.item]

theorem addItem_made {seen : List DataForm} {before : List Operand} {m m' : Memory} {c d : Cursor}
    (made : Maker.item.MadeAll s m before.reverse seen.reverse)
    (way : Way s scope line m c (seen.reverse.flatMap DataForm.references) m' d)
    {o : Option Operand} {x : Option DataSource} (new : Sense.item.related s m' o x) :
    Maker.item.MadeAll s m (o.toList ++ before).reverse (DataSource.addItem x seen).reverse := by
  cases new with
  | none => exact made
  | some new =>
    simp only [Option.toList_some, List.singleton_append, DataSource.addItem, List.reverse_cons]
    exact made.snoc way new

/-- The items seen so far carry the induction; each new one is met after their look-ups. -/
theorem itemsFrom_meets {item : Walk (Option Operand)} {items : Reader (Option DataSource)}
    (follows : item.Follows .item s scope line items) (seen : List DataForm) (d : Cursor)
    (before : List Operand) {m m' : Memory} {c : Cursor}
    (made : Maker.item.MadeAll s m before.reverse seen.reverse)
    (way : Way s scope line m c (seen.reverse.flatMap DataForm.references) m' d) :
    Sense.items.Meets s scope line m c (itemsFrom item before m' d)
      (DataSource.itemsFrom items seen d) := by
  fun_induction DataSource.itemsFrom items seen d generalizing before m' with
  | case1 seen d read comma shorter ih =>
    obtain ⟨place, itemWay, new⟩ := slot_follows follows m' d
    have further := way.trans (itemWay.widen (.refl d)
      ((Cursor.Reaches.skipBlanks _).trans (.advance _ 1)))
    rw [← references_addItem] at further
    have next := ih _ (addItem_made made way new) further
    rw [itemsFrom]
    simp only [place]
    rw [dif_pos comma]
    exact next
  | case2 seen d read comma =>
    obtain ⟨place, itemWay, new⟩ := slot_follows follows m' d
    have further := way.trans itemWay
    rw [← references_addItem] at further
    rw [itemsFrom]
    simp only [place]
    rw [dif_neg comma]
    exact ⟨rfl, further, addItem_made made way new⟩

theorem list_follows {item : Walk (Option Operand)} {items : Reader (Option DataSource)}
    (follows : item.Follows .item s scope line items) (kind : OperandKind) :
    (list kind item).Follows .operand s scope line (DataSource.list kind items) := by
  intro m c
  have meets : Sense.items.Meets s scope line m c.skipBlanks (itemsFrom item [] m c.skipBlanks)
      (DataSource.itemsFrom items [] c.skipBlanks) :=
    itemsFrom_meets follows [] c.skipBlanks [] Maker.item.madeAll_nil (.move (.refl _))
  obtain ⟨place, way, all⟩ := meets.skipBlanks
  refine ⟨place, way, fun env => ⟨rfl, ?_, rfl, flatMap_bytes_length (all.alike env)⟩, ?_⟩
  · dsimp only [list, DataSource.list, listOperand, OperandSource.operand]
    rw [place]
  · intro valid proper
    have value := all.value valid proper
    dsimp only [list, DataSource.list, OperandSource.operand]
    rw [value, place]
    rfl

variable {first second : Walk Operand} {source source' : Reader OperandSource}

theorem one_follows (follows : first.Follows .operand s scope line source) :
    (one first).Follows .operands s scope line (OperandSources.one source) := by
  intro m c
  obtain ⟨place, way, made⟩ := follows m c
  have labels : Sense.operands.references ((OperandSources.one source).run c).1 =
      (source.run c).1.form.references := List.flatMap_singleton ..
  refine ⟨place, ?_, Maker.madeAll_singleton made, rfl⟩
  rw [labels]
  exact way

/-- The comma is looked for in the text, and the second operand is met after the look-ups of the
first. -/
theorem two_follows (follows : first.Follows .operand s scope line source)
    (follows' : second.Follows .operand s scope line source') :
    (two first second).Follows .operands s scope line (OperandSources.two source source') := by
  intro m c
  obtain ⟨place, way, made⟩ := follows m c
  have alone : Maker.source.MadeAll s m [((first m).run c).1.1] [(source.run c).1] :=
    Maker.madeAll_singleton made
  have labels : [(source.run c).1].flatMap Maker.source.references =
      (source.run c).1.form.references := List.flatMap_singleton ..
  have before : Way s scope line m c ([(source.run c).1].flatMap Maker.source.references)
      ((first m).run c).1.2 (source.run c).2 := by
    rw [labels]
    exact way
  dsimp only [two, OperandSources.two]
  rw [place]
  split
  · obtain ⟨place', way', made'⟩ := follows' ((first m).run c).1.2
      ((source.run c).2.skipBlanks.advance 1)
    refine ⟨place', ?_, alone.snoc before made', rfl⟩
    simp only [Sense.operands, List.flatMap_cons, List.flatMap_nil, List.append_nil]
    exact way.trans (way'.widen ((Cursor.Reaches.skipBlanks _).trans (.advance _ 1)) (.refl _))
  · exact ⟨rfl, before.widen (.refl c) (.skipBlanks _), alone, rfl⟩

theorem ofShape_follows (terms : term.Follows .term s scope line reader) (shape : Shape) :
    (ofShape s term shape).Follows .operands s scope line
      (OperandSources.ofShape reader shape) := by
  have byte : (ofFound Found.byte term).Follows .operand s scope line
      (OperandSource.ofTerm (.data ∘ .byte) reader) :=
    ofFound_follows terms (fun _ => rfl) fun of => of.byte _
  have word : (ofFound Found.word term).Follows .operand s scope line
      (OperandSource.ofTerm (.data ∘ .word) reader) :=
    ofFound_follows terms (fun _ => rfl) fun of => of.word _
  cases shape with
  | bare | unknown => exact fun m c => ⟨rfl, .move (.refl c), Maker.source.madeAll_nil, rfl⟩
  | target | source | pair | stackPair | indexPair => exact one_follows (register_follows _)
  | targetSource => exact two_follows (register_follows _) (register_follows _)
  | byte => exact one_follows byte
  | word => exact one_follows word
  | targetByte => exact two_follows (register_follows _) byte
  | pairWord => exact two_follows (register_follows _) word
  | restart => exact one_follows (restart_follows terms)
  | byteList => exact one_follows (list_follows (byteItem_follows terms) _)
  | wordList => exact one_follows (list_follows (wordItem_follows terms) _)
  | size => exact one_follows (ofFound_follows terms (fun _ => rfl) fun of => of.size _)

end Walk

end Assembler8080
