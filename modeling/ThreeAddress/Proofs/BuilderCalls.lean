/-
What single calls do to the labels and to what is open. A call that opens a loop,
an `if` or a static declaration puts the labels of the statement on a stack; the
call that closes it finds them there, provided that everything opened in between
was closed. All other calls leave what is open alone: they define the labels that
they take themselves.
-/
import ThreeAddress.Proofs.Construction

namespace ThreeAddress.Builder

open scoped List

/-! ### Opening and closing -/

namespace Nesting

/-- What is open inside a loop with the given labels. -/
def inLoop (s : Nesting) (labels : List String) : Nesting :=
  { s with
    loopLabels := labels ++ s.loopLabels
    controlDepth := s.controlDepth + 1
    loopDepth := s.loopDepth + 1 }

/-- What is open inside an `if` with the given labels. -/
def inCondition (s : Nesting) (labels : List String) : Nesting :=
  { s with
    conditionLabels := labels ++ s.conditionLabels
    controlDepth := s.controlDepth + 1 }

/-- What is open while code ahead of a label is skipped. -/
def skippingTo (s : Nesting) (label : String) : Nesting :=
  { s with codeLabels := label :: s.codeLabels }

end Nesting

variable {b : Builder} {s : Nesting} {first last start : String}

theorem stretch_whileBefore (b : Builder) : ∃ next start,
    Stretch b [.whileBefore] next [start] [start] [] ∧ next.nesting = b.nesting.inLoop [start] :=
  ⟨b.whileBefore, _, Stretch.writes [op .label [.label _]] (neat_of_all rfl) rfl rfl rfl rfl, rfl⟩

theorem stretch_whileAfter (inside : b.nesting = s.inLoop [start]) : ∃ next last,
    Stretch b [.whileAfter] next [last] [] [last] ∧ next.nesting = s.inLoop [last, start] := by
  -- with the labels and the depths in place of the fields, the call and its effects compute
  cases b
  cases inside
  exact ⟨_, _, Stretch.writes [op .pushs [truth false], op .jumpifeqs [.label _]]
    (neat_of_all rfl) rfl rfl rfl rfl, rfl⟩

theorem stretch_whileEnd (inside : b.nesting = s.inLoop [last, start]) : ∃ next,
    Stretch b [.whileEnd] next [] [last] [start] ∧ next.nesting = s := by
  cases b
  cases inside
  exact ⟨_, Stretch.writes [op .jump [.label start], op .label [.label last]] (neat_of_all rfl)
    rfl rfl rfl rfl, rfl⟩

theorem stretch_ifAfterExpression (b : Builder) : ∃ next last first,
    Stretch b [.ifAfterExpression] next [last, first] [] [first] ∧
      next.nesting = b.nesting.inCondition [first, last] :=
  ⟨b.ifAfterExpression, _, _, Stretch.writes [op .pushs [truth false], op .jumpifeqs [.label _]]
    (neat_of_all rfl) rfl rfl rfl rfl, rfl⟩

theorem stretch_ifEndBlock (inside : b.nesting = s.inCondition [first, last]) : ∃ next,
    Stretch b [.ifEndBlock] next [] [] [last] ∧ next.nesting = s.inCondition [first, last] := by
  cases b
  cases inside
  exact ⟨_, Stretch.writes [op .jump [.label last]] (neat_of_all rfl) rfl rfl rfl rfl, rfl⟩

theorem stretch_elseIfBefore (inside : b.nesting = s.inCondition [first, last]) : ∃ next,
    Stretch b [.elseIfBefore] next [] [first] [] ∧ next.nesting = s.inCondition [last] := by
  cases b
  cases inside
  exact ⟨_, Stretch.writes [op .label [.label first]] (neat_of_all rfl) rfl rfl rfl rfl, rfl⟩

theorem stretch_elseIfAfter (inside : b.nesting = s.inCondition [last]) : ∃ next first,
    Stretch b [.elseIfAfter] next [first] [] [first] ∧
      next.nesting = s.inCondition [first, last] := by
  cases b
  cases inside
  exact ⟨_, _, Stretch.writes [op .pushs [truth false], op .jumpifeqs [.label _]]
    (neat_of_all rfl) rfl rfl rfl rfl, rfl⟩

theorem stretch_elseBlock (inside : b.nesting = s.inCondition [first, last]) : ∃ next other,
    Stretch b [.elseBlock] next [other] [first] [last] ∧
      next.nesting = s.inCondition [other, last] := by
  cases b
  cases inside
  exact ⟨_, _, Stretch.writes [op .jump [.label last], op .label [.label first]]
    (neat_of_all rfl) rfl rfl rfl rfl, rfl⟩

theorem stretch_ifAfterEnd (inside : b.nesting = s.inCondition [first, last]) : ∃ next,
    Stretch b [.ifAfterEnd] next [] [first, last] [] ∧ next.nesting = s := by
  cases b
  cases inside
  exact ⟨_, Stretch.writes [op .label [.label first], op .label [.label last]] (neat_of_all rfl)
    rfl rfl rfl rfl, rfl⟩

/-- An instruction that has nothing to do with labels, given to an anchor, changes the store and
nothing else. -/
theorem exists_insertAtFront (b : Builder) {i : Instruction} (anchor : Option Slot)
    (neat : Neat [i]) (defines : i.definedLabel? = none) (jumps : i.jumpTarget? = none) :
    ∃ store, b.insertAtFront i anchor = { b with store } ∧
      Grows b.store b.pending store b.pending [] [] := by
  cases anchor with
  | none =>
    exact ⟨_, rfl,
      Grows.insert (List.append_nil _).symm (b.store.code_append i) neat defines jumps _⟩
  | some anchor =>
    rw [insertAtFront, insertBefore]
    split
    · next slot store inserted =>
      obtain ⟨before, after, old, new⟩ := Store.code_insertBefore inserted
      exact ⟨store, rfl, Grows.insert old new neat defines jumps _⟩
    · exact ⟨b.store, rfl, Grows.refl _ _⟩

theorem stretch_staticStart (b : Builder) (function name : String) (type : DataType) :
    ∃ next last, Stretch b [.staticStart function name type] next [last] [] [last] ∧
      next.nesting = b.nesting.skippingTo last := by
  let skip := b.labels.next ("DECLARED__" ++ function ++ "_" ++ name) b.controlDepth
  let opened : Builder := { b with labels := skip.2, codeLabels := skip.1 :: b.codeLabels }
  let flag := staticFlag function name
  let anchor := b.entry.or b.store.first?
  obtain ⟨declared, declares, grows⟩ := exists_insertAtFront opened
    (i := op .defvar [.var flag]) anchor (neat_of_all rfl) rfl rfl
  obtain ⟨cleared, clears, grows'⟩ := exists_insertAtFront { opened with store := declared }
    (i := op .move [.var flag, truth false]) anchor (neat_of_all rfl) rfl rfl
  let guarded := [
    op .jumpifeq [.label skip.1, truth true, .var flag],
    op .defvar [.var ⟨.gf, name⟩],
    op .move [.var ⟨.gf, name⟩, .const type.implicitValue]]
  have performed : b.perform (.staticStart function name type) =
      .done ({ opened with store := cleared }.emitAll guarded) := by
    rw [← clears, ← declares]
    rfl
  have grown := grows.trans (grows'.trans
    (grows_write cleared b.pending guarded (neat_of_all rfl)))
  exact ⟨_, skip.1, Stretch.one performed rfl grown, rfl⟩

theorem stretch_staticEnd (function name : String) (inside : b.nesting = s.skippingTo last) :
    ∃ next, Stretch b [.staticEnd function name] next [] [last] [] ∧ next.nesting = s := by
  cases b
  cases inside
  exact ⟨_, Stretch.writes
    [op .move [.var (staticFlag function name), truth true], op .label [.label last]]
    (neat_of_all rfl) rfl rfl rfl rfl, rfl⟩

theorem stretch_startCode (b : Builder) : ∃ next label,
    Stretch b [.startCode] next [label] [] [label] ∧ next.nesting = b.nesting.skippingTo label :=
  ⟨b.startCode.2, _, Stretch.writes [op .jump [.label _]] (neat_of_all rfl) rfl rfl rfl rfl, rfl⟩

theorem stretch_scopeStart (inside : b.nesting = s.skippingTo last) (outside : s.scopeDepth = 0) :
    ∃ next, Stretch b [.scopeStart] next [] [last] [] ∧
      next.nesting = { s with scopeDepth := 1 } := by
  cases b
  cases s
  cases outside
  cases inside
  exact ⟨_, Stretch.writes [op .label [.label last], op .createframe [], op .pushframe []]
    (neat_of_all rfl) rfl rfl rfl rfl, rfl⟩

theorem stretch_scopeEnd (inside : b.nesting = { s with scopeDepth := 1 })
    (outside : s.scopeDepth = 0) :
    ∃ next, Stretch b [.scopeEnd] next [] [] [] ∧ next.nesting = s := by
  cases b
  cases s
  cases outside
  cases inside
  exact ⟨_, Stretch.writes [op .popframe []] (neat_of_all rfl) rfl rfl rfl rfl, rfl⟩

/-- Marking the next instruction and emitting it is emitting it marked. -/
theorem emit_mark (b : Builder) (markers : Markers) (opcode : Opcode) (operands : List Operand) :
    (b.mark markers).emit (op opcode operands) =
      b.emit { op opcode operands with markers } := by
  have same : ({} : Markers).union (b.pending.union markers) = markers.union b.pending := by
    simp [Markers.union, Bool.or_comm]
  simp only [emit, mark, op, same]

theorem stretch_functionHeader (b : Builder) (label : String) : ∃ next,
    Stretch b [.functionHeader label] next [] [label] [] ∧ next.nesting = b.nesting := by
  let header : Instruction := { op .label [.label label] with markers := { functionStart := true } }
  have neat : Neat [header] := List.forall_mem_singleton.mpr ⟨rfl, fun _ => rfl⟩
  have performed : b.perform (.functionHeader label) = .done (b.emit header).2 := by
    rw [perform, functionHeader, emit_mark]
  exact ⟨_, Stretch.writes [header] neat performed rfl rfl rfl, rfl⟩

theorem stretch_functionEnd (b : Builder) (type : DataType) : ∃ next,
    Stretch b [.functionEnd type] next [] [] [] ∧ next.nesting = b.nesting :=
  ⟨(b.functionEnd type).2, Stretch.writes
    [op .pushs [.const type.implicitValue], { op .ret [] with markers.functionEnd := true }]
    (neat_of_all rfl) rfl rfl rfl rfl, rfl⟩

/-! ### Single calls -/

/-- Whether calls define the given labels and all labels they take, jump to no label but these and
those of functions, and leave everything open as it was. -/
def Settles (functions declared : List String) (calls : List Call) : Prop :=
  ∀ b : Builder, ∃ next fresh defines jumps,
    Stretch b calls next fresh defines jumps ∧ next.nesting = b.nesting ∧
      defines ~ declared ++ fresh ∧ jumps ⊆ fresh ++ functions

/-- Whether a call is a statement of its own. -/
def Call.Plain (functions : List String) : Call → Prop
  | .emit opcode operands =>
    ¬ opcode.isJump ∧ opcode ≠ .label ∧ operands.length = opcode.arity
  | .call label => label ∈ functions
  | .declare _ _ | .input _ _ | .print _ | .returnStatement | .convert _ _ | .convertUnary _ _
  | .convertBinary _ _ _ _ | .length _ | .chr _ | .asc _ _ | .substring _ _ _ => True
  | _ => False

/-- Whether code is neat, defines the given labels and jumps to the given ones. -/
structure Spells (code : List Instruction) (defines jumps : List String) : Prop where
  neat : Neat code
  defined : code.filterMap Instruction.definedLabel? = defines
  targets : code.filterMap Instruction.jumpTarget? = jumps

theorem Spells.append {code others : List Instruction} {defines jumps defines' jumps' : List String}
    (front : Spells code defines jumps) (back : Spells others defines' jumps') :
    Spells (code ++ others) (defines ++ defines') (jumps ++ jumps') where
  neat := neat_append.mpr ⟨front.neat, back.neat⟩
  defined := by rw [List.filterMap_append, front.defined, back.defined]
  targets := by rw [List.filterMap_append, front.targets, back.targets]

theorem spells_conversionCode (type target : DataType) :
    Spells (conversionCode type target) [] [] := by
  cases type <;> cases target <;> exact ⟨neat_of_all rfl, rfl, rfl⟩

variable {functions : List String}

/-- A call that takes labels and appends code that defines these labels. -/
theorem settles_of_spells {call : Call} (code : Builder → List Instruction)
    (jumps : Builder → List String) (spells : ∀ b, Spells (code b) (b.issued call) (jumps b))
    (known : ∀ b, jumps b ⊆ b.issued call ++ functions)
    (performed : ∀ b : Builder, b.perform call = .done
      ({ b with labels.counter := b.labels.counter + call.purposes.length }.emitAll (code b))) :
    Settles functions [] [call] := by
  intro b
  have stretch := Stretch.writes (code b) (spells b).neat (performed b) (by rw [emitAll_eq])
    (by rw [emitAll_eq]) (by rw [emitAll_eq])
  rw [(spells b).defined, (spells b).targets] at stretch
  refine ⟨_, _, _, _, stretch, ?_, .refl _, known b⟩
  rw [emitAll_eq]
  rfl

/-- A call that takes no labels and appends code without labels. -/
theorem settles_of_unlabelled {call : Call} (code : List Instruction) (spells : Spells code [] [])
    (unlabelled : call.purposes = [])
    (performed : ∀ b : Builder, b.perform call = .done (b.emitAll code)) :
    Settles functions [] [call] := by
  have nothing : ∀ b : Builder, b.issued call = [] := fun b => by rw [issued, unlabelled]; rfl
  refine settles_of_spells (fun _ => code) (fun _ => []) ?_ ?_ ?_
  · intro b
    rw [nothing]
    exact spells
  · exact fun _ => List.nil_subset _
  · intro b
    rw [unlabelled]
    exact performed b

theorem settles_declare (v : Variable) (type : DataType) :
    Settles functions [] [.declare v type] := by
  intro b
  let value := op .move [.var v, .const type.implicitValue]
  cases loop : b.loopStart with
  | none =>
    have performed : b.perform (.declare v type) =
        .done (b.emitAll [op .defvar [.var v], value]) := by
      rw [perform, declare, loop]
      rfl
    exact ⟨_, _, _, _, Stretch.writes [op .defvar [.var v], value] (neat_of_all rfl) performed
      rfl rfl rfl, rfl, .refl _, List.nil_subset _⟩
  | some start =>
    obtain ⟨declared, declares, grows⟩ := exists_insertAtFront b (i := op .defvar [.var v])
      (some start) (neat_of_all rfl) rfl rfl
    have performed : b.perform (.declare v type) =
        .done ({ b with store := declared }.emitAll [value]) := by
      rw [← declares, perform, declare, loop]
      rfl
    exact ⟨_, _, _, _, Stretch.one performed rfl (grows.trans (grows_write declared b.pending
      [value] (neat_of_all rfl))), rfl, .refl _, List.nil_subset _⟩

theorem settles_asc (stringType indexType : DataType) :
    Settles functions [] [.asc stringType indexType] := by
  let zero (b : Builder) := b.labels.next "asc_zero" b.controlDepth
  let last (b : Builder) := (zero b).2.next "asc_end" b.controlDepth
  refine settles_of_spells (fun b => ascCode stringType indexType (zero b).1 (last b).1)
    (fun b => [(zero b).1, (zero b).1, (last b).1]) ?_ ?_ (fun _ => rfl)
  · intro b
    exact (((spells_conversionCode indexType .int).append ⟨neat_of_all rfl, rfl, rfl⟩).append
      (spells_conversionCode stringType .string)).append ⟨neat_of_all rfl, rfl, rfl⟩
  · intro b
    have issued : b.issued (.asc stringType indexType) = [(zero b).1, (last b).1] := rfl
    simp [issued]

theorem settles_substring (stringType startType lengthType : DataType) :
    Settles functions [] [.substring stringType startType lengthType] := by
  let goOn (b : Builder) := b.labels.next "substr_continue" b.controlDepth
  let loop (b : Builder) := (goOn b).2.next "substr_loop" b.controlDepth
  let leave (b : Builder) := (loop b).2.next "substr_break" b.controlDepth
  let empty (b : Builder) := (leave b).2.next "substr_empty" b.controlDepth
  let last (b : Builder) := (empty b).2.next "substr_end" b.controlDepth
  refine settles_of_spells
    (fun b => substringCode stringType startType lengthType
      ⟨(goOn b).1, (loop b).1, (leave b).1, (empty b).1, (last b).1⟩)
    (fun b => [(empty b).1, (empty b).1, (goOn b).1, (empty b).1, (leave b).1, (loop b).1,
      (last b).1]) ?_ ?_ (fun _ => rfl)
  · intro b
    exact (((((spells_conversionCode lengthType .int).append ⟨neat_of_all rfl, rfl, rfl⟩).append
      (spells_conversionCode startType .int)).append ⟨neat_of_all rfl, rfl, rfl⟩).append
      (spells_conversionCode stringType .string)).append ⟨neat_of_all rfl, rfl, rfl⟩
  · intro b
    have issued : b.issued (.substring stringType startType lengthType) =
        [(goOn b).1, (loop b).1, (leave b).1, (empty b).1, (last b).1] := rfl
    simp [issued]

/-- The start of an expression only marks the next instruction. -/
theorem settles_expressionStart (functions : List String) :
    Settles functions [] [.expressionStart] := by
  intro b
  have grows : Grows b.store b.pending b.store b.expressionStart.pending [] [] := by
    refine ⟨(List.append_nil _).symm, (List.append_nil _).symm, fun start => ⟨start.code, ?_⟩⟩
    simpa [expressionStart, mark, Markers.union] using start.pending
  exact ⟨_, _, _, _, Stretch.one rfl rfl grows, rfl, .refl _, List.nil_subset _⟩

theorem settles_expressionEnd (functions : List String) (v : Variable) :
    Settles functions [] [.expressionEnd v] := by
  let stores : Instruction := { op .pops [.var v] with markers := { expressionEnd := true } }
  refine settles_of_unlabelled [stores] ⟨neat_of_all rfl, rfl, rfl⟩ rfl fun b => ?_
  rw [perform, expressionEnd, emit_mark]
  rfl

theorem Call.Plain.settles {call : Call} (plain : call.Plain functions) :
    Settles functions [] [call] := by
  cases call with
  | emit opcode operands =>
    obtain ⟨goesOn, unlabelled, wellFormed⟩ := plain
    refine settles_of_unlabelled [op opcode operands] ⟨?_, ?_, ?_⟩ rfl (fun _ => rfl)
    · exact List.forall_mem_singleton.mpr
        ⟨wellFormed, fun marked => absurd marked Bool.false_ne_true⟩
    · simp [op, Instruction.definedLabel?, unlabelled]
    · simp [op, Instruction.jumpTarget?, goesOn]
  | call label =>
    exact settles_of_spells (fun _ => [op .call [.label label]]) (fun _ => [label])
       (fun _ => ⟨neat_of_all rfl, rfl, rfl⟩)
      (fun _ => List.cons_subset.mpr ⟨plain, List.nil_subset _⟩) (fun _ => rfl)
  | declare v type => exact settles_declare v type
  | input v type =>
    exact settles_of_unlabelled [op .write [literal "? "], op .read [.var v, .type type]]
      ⟨neat_of_all rfl, rfl, rfl⟩ rfl (fun _ => rfl)
  | print v =>
    exact settles_of_unlabelled [op .pops [.var v], op .write [.var v]]
      ⟨neat_of_all rfl, rfl, rfl⟩ rfl (fun _ => rfl)
  | returnStatement =>
    exact settles_of_unlabelled [op .ret []] ⟨neat_of_all rfl, rfl, rfl⟩ rfl (fun _ => rfl)
  | convert type target =>
    refine settles_of_unlabelled _ (spells_conversionCode type target) rfl (fun b => ?_)
    rw [perform, Builder.convert, conversionCode]
    cases conversion? type target <;> rfl
  | convertUnary operand target =>
    exact settles_of_unlabelled _ (spells_conversionCode operand target) rfl (fun _ => rfl)
  | convertBinary first second target aside =>
    have pops : Spells [op .pops [.var aside]] [] [] := ⟨neat_of_all rfl, rfl, rfl⟩
    have pushes : Spells [op .pushs [.var aside]] [] [] := ⟨neat_of_all rfl, rfl, rfl⟩
    have converts : Spells (if first = target then []
        else op .pops [.var aside] :: conversionCode first target ++ [op .pushs [.var aside]])
        [] [] := by
      split
      · exact ⟨neat_of_all rfl, rfl, rfl⟩
      · exact (pops.append (spells_conversionCode first target)).append pushes
    exact settles_of_unlabelled _ (converts.append (spells_conversionCode second target)) rfl
      (fun _ => rfl)
  | length type =>
    exact settles_of_unlabelled _ ((spells_conversionCode type .string).append
      ⟨neat_of_all rfl, rfl, rfl⟩) rfl (fun _ => rfl)
  | chr type =>
    exact settles_of_unlabelled _ ((spells_conversionCode type .int).append
      ⟨neat_of_all rfl, rfl, rfl⟩) rfl (fun _ => rfl)
  | asc stringType indexType => exact settles_asc stringType indexType
  | substring stringType startType lengthType =>
    exact settles_substring stringType startType lengthType
  | _ => exact absurd plain id

end ThreeAddress.Builder
