/-
Building code as a sequence of calls. A call is one operation of a builder with
its arguments; a sequence of calls runs until one is refused. Markers that are
pending go to the first instruction that a call writes and have no part in labels
and jumps, so both can be told from the code as it is given. Along a sequence
`Stretch` keeps the account: which labels were taken from the source, which were
defined, and which were jumped to.
-/
import ThreeAddress.Builder.Control
import ThreeAddress.Builder.Strings
import ThreeAddress.Proofs.FreshLabels
import ThreeAddress.Proofs.StoreEntries

namespace ThreeAddress

open scoped List

namespace Builder

/-! ### Calls -/

/-- An operation of a builder with its arguments. -/
inductive Call where
  | emit (opcode : Opcode) (operands : List Operand)
  | startCode
  | scopeStart
  | scopeEnd
  | declare (v : Variable) (type : DataType)
  | staticStart (function name : String) (type : DataType)
  | staticEnd (function name : String)
  | input (v : Variable) (type : DataType)
  | print (v : Variable)
  | expressionStart
  | expressionEnd (v : Variable)
  | ifAfterExpression
  | ifEndBlock
  | elseIfBefore
  | elseIfAfter
  | elseBlock
  | ifAfterEnd
  | whileBefore
  | whileAfter
  | whileEnd
  | functionHeader (label : String)
  | functionEnd (type : DataType)
  | returnStatement
  | call (label : String)
  | convert (type target : DataType)
  | convertUnary (operand target : DataType)
  | convertBinary (first second target : DataType) (aside : Variable)
  | length (type : DataType)
  | chr (type : DataType)
  | asc (stringType indexType : DataType)
  | substring (stringType startType lengthType : DataType)
deriving DecidableEq, Repr

/-- What a call does. -/
def perform (b : Builder) : Call → Outcome
  | .emit opcode operands => .done (b.emit (op opcode operands)).2
  | .startCode => .done b.startCode.2
  | .scopeStart => b.scopeStart
  | .scopeEnd => b.scopeEnd
  | .declare v type => .done (b.declare v type)
  | .staticStart function name type => .done (b.staticStart function name type).2
  | .staticEnd function name => b.staticEnd function name
  | .input v type => .done (b.input v type)
  | .print v => .done (b.print v)
  | .expressionStart => .done b.expressionStart
  | .expressionEnd v => .done (b.expressionEnd v).2
  | .ifAfterExpression => .done b.ifAfterExpression
  | .ifEndBlock => b.ifEndBlock
  | .elseIfBefore => b.elseIfBefore
  | .elseIfAfter => .done b.elseIfAfter
  | .elseBlock => b.elseBlock
  | .ifAfterEnd => b.ifAfterEnd
  | .whileBefore => .done b.whileBefore
  | .whileAfter => .done b.whileAfter
  | .whileEnd => b.whileEnd
  | .functionHeader label => .done (b.functionHeader label).2
  | .functionEnd type => .done (b.functionEnd type).2
  | .returnStatement => .done b.returnStatement.2
  | .call label => .done (b.call label).2
  | .convert type target => .done (b.convert type target).2
  | .convertUnary operand target => .done (b.convertUnary operand target)
  | .convertBinary first second target aside => .done (b.convertBinary first second target aside)
  | .length type => .done (b.length type)
  | .chr type => .done (b.chr type)
  | .asc stringType indexType => .done (b.asc stringType indexType)
  | .substring stringType startType lengthType =>
    .done (b.substring stringType startType lengthType)

/-- What calls do one after the other, up to the first that is refused. -/
def performAll (b : Builder) : List Call → Outcome
  | [] => .done b
  | call :: rest =>
    match b.perform call with
    | .done b => b.performAll rest
    | stop => stop

/-- What a call wants labels for. -/
def Call.purposes : Call → List String
  | .startCode => ["main_scope"]
  | .staticStart function name _ => ["DECLARED__" ++ function ++ "_" ++ name]
  | .ifAfterExpression => ["if_end", "if_else"]
  | .elseIfAfter | .elseBlock => ["if_else"]
  | .whileBefore => ["while_start"]
  | .whileAfter => ["while_end"]
  | .asc _ _ => ["asc_zero", "asc_end"]
  | .substring _ _ _ =>
    ["substr_continue", "substr_loop", "substr_break", "substr_empty", "substr_end"]
  | _ => []

/-- Whether a call opens a control statement, which its own labels are inside of. -/
def Call.opens : Call → Bool
  | .ifAfterExpression | .whileBefore => true
  | _ => false

/-- The labels that a call takes from the source. -/
def issued (b : Builder) (call : Call) : List String :=
  b.labels.issue (if call.opens then b.controlDepth + 1 else b.controlDepth) call.purposes

/-- The labels that calls take from the source one after the other. -/
def issuedBy (b : Builder) : List Call → List String
  | [] => []
  | call :: rest =>
    b.issued call ++
      match b.perform call with
      | .done b => b.issuedBy rest
      | _ => []

theorem performAll_append {b next : Builder} {calls : List Call}
    (done : b.performAll calls = .done next) (others : List Call) :
    b.performAll (calls ++ others) = next.performAll others := by
  induction calls generalizing b with
  | nil =>
    obtain rfl : b = next := by simpa [performAll] using done
    rfl
  | cons call rest inductionHypothesis =>
    rw [List.cons_append, performAll]
    rw [performAll] at done
    split at done
    · exact inductionHypothesis done
    · next stop => exact absurd done (stop next)

/-- If all calls are carried out, so are the first ones, and then the others. -/
theorem exists_of_performAll_append {b next : Builder} {calls others : List Call}
    (done : b.performAll (calls ++ others) = .done next) :
    ∃ middle, b.performAll calls = .done middle ∧ middle.performAll others = .done next := by
  induction calls generalizing b with
  | nil => exact ⟨b, rfl, done⟩
  | cons call rest inductionHypothesis =>
    rw [List.cons_append, performAll] at done
    rw [performAll]
    split at done
    · exact inductionHypothesis done
    · next stop => exact absurd done (stop next)

theorem issuedBy_append {b next : Builder} {calls : List Call}
    (done : b.performAll calls = .done next) (others : List Call) :
    b.issuedBy (calls ++ others) = b.issuedBy calls ++ next.issuedBy others := by
  induction calls generalizing b with
  | nil =>
    obtain rfl : b = next := by simpa [performAll] using done
    rfl
  | cons call rest inductionHypothesis =>
    rw [List.cons_append, issuedBy, issuedBy]
    rw [performAll] at done
    split at done
    · rw [inductionHypothesis done, List.append_assoc]
    · next stop => exact absurd done (stop next)

/-! ### Writing -/

end Builder

namespace Store

/-- The labels that the stored program defines, in order. -/
def defined (s : Store) : List String :=
  s.code.filterMap Instruction.definedLabel?

/-- The labels that the stored program jumps to or calls, in order. -/
def targets (s : Store) : List String :=
  s.code.filterMap Instruction.jumpTarget?

theorem code_append (s : Store) (i : Instruction) : (s.append i).2.code = s.code ++ [i] := by
  rw [code, (s.entries_append i).2, List.map_append]
  rfl

/-- An insertion adds the instruction somewhere, if it adds it at all. -/
theorem code_insertBefore {s t : Store} {i : Instruction} {anchor slot : Slot}
    (inserted : s.insertBefore? i anchor = some (slot, t)) :
    ∃ before after, s.code = before ++ after ∧ t.code = before ++ i :: after := by
  by_cases used : anchor ∈ s.order
  · obtain ⟨⟨_, j⟩, member, rfl⟩ := List.mem_map.mp used
    obtain ⟨before, after, split⟩ := List.append_of_mem member
    obtain ⟨new, store, result, -, entries⟩ := used_insertBefore split i
    obtain ⟨rfl, rfl⟩ := Prod.mk.inj (Option.some_inj.mp (inserted.symm.trans result))
    refine ⟨before.map Prod.snd, j :: after.map Prod.snd, ?_, ?_⟩
    · rw [code, split, List.map_append, List.map_cons]
    · rw [code, entries, List.map_append, List.map_cons, List.map_cons]
  · rw [((unused_of_not_mem used).insertBefore i).1] at inserted
    exact absurd inserted (by simp)

end Store

namespace Builder

/-- Whether instructions have the right number of operands and only labels are marked as starts of
functions. -/
def Neat (code : List Instruction) : Prop :=
  ∀ i ∈ code, i.WellFormed ∧ (i.markers.functionStart → i.definedLabel?.isSome)

theorem neat_of_all {code : List Instruction}
    (checked : code.all fun i => i.operands.length == i.opcode.arity && !i.markers.functionStart) :
    Neat code := by
  intro i member
  have both := List.all_eq_true.mp checked i member
  rw [Bool.and_eq_true, beq_iff_eq, Bool.not_eq_true'] at both
  exact ⟨both.1, fun marked => absurd marked (by simp [both.2])⟩

theorem neat_append {code others : List Instruction} :
    Neat (code ++ others) ↔ Neat code ∧ Neat others :=
  List.forall_mem_append

/-- Whether the stored program is neat and stays so whatever instruction comes next. -/
structure Orderly (store : Store) (pending : Markers) : Prop where
  code : Neat store.code
  pending : ¬ pending.functionStart

/-- Whether a store grows by code that defines and jumps to the given labels, and stays orderly. -/
structure Grows (store : Store) (pending : Markers) (next : Store) (left : Markers)
    (defines jumps : List String) : Prop where
  defined : next.defined = store.defined ++ defines
  targets : next.targets = store.targets ++ jumps
  orderly : Orderly store pending → Orderly next left

namespace Grows

variable {store next last : Store} {pending left rest : Markers}
  {defines jumps defines' jumps' : List String}

theorem refl (store : Store) (pending : Markers) : Grows store pending store pending [] [] :=
  ⟨(List.append_nil _).symm, (List.append_nil _).symm, id⟩

theorem trans (first : Grows store pending next left defines jumps)
    (second : Grows next left last rest defines' jumps') :
    Grows store pending last rest (defines ++ defines') (jumps ++ jumps') where
  defined := by rw [second.defined, first.defined, List.append_assoc]
  targets := by rw [second.targets, first.targets, List.append_assoc]
  orderly start := second.orderly (first.orderly start)

/-- Appending an instruction that takes the pending markers. -/
theorem append (store : Store) (pending : Markers) {i : Instruction} (neat : Neat [i]) :
    Grows store pending (store.append { i with markers := i.markers.union pending }).2 {}
      ([i].filterMap Instruction.definedLabel?) ([i].filterMap Instruction.jumpTarget?) where
  defined := by
    rw [Store.defined, Store.code_append, List.filterMap_append]
    rfl
  targets := by
    rw [Store.targets, Store.code_append, List.filterMap_append]
    rfl
  orderly start := by
    obtain ⟨wellFormed, labelled⟩ := neat i (List.mem_singleton_self i)
    refine ⟨?_, by simp⟩
    rw [Store.code_append, neat_append]
    refine ⟨start.code, List.forall_mem_singleton.mpr ⟨wellFormed, fun marked => labelled ?_⟩⟩
    simpa [Markers.union, start.pending] using marked

/-- Adding an instruction that has nothing to do with labels, wherever it goes. -/
theorem insert {before after : List Instruction} {i : Instruction}
    (old : store.code = before ++ after) (new : next.code = before ++ i :: after)
    (neat : Neat [i]) (defines : i.definedLabel? = none) (jumps : i.jumpTarget? = none)
    (pending : Markers) : Grows store pending next pending [] [] where
  defined := by simp [Store.defined, old, new, defines]
  targets := by simp [Store.targets, old, new, jumps]
  orderly start := by
    refine ⟨?_, start.pending⟩
    have code := start.code
    rw [old, neat_append] at code
    rw [new, neat_append]
    exact ⟨code.1, List.forall_mem_cons.mpr ⟨neat i (List.mem_singleton_self i), code.2⟩⟩

end Grows

/-- What becomes of a store and pending markers when instructions are appended. -/
def write (store : Store) (pending : Markers) : List Instruction → Store × Markers
  | [] => (store, pending)
  | i :: rest => write (store.append { i with markers := i.markers.union pending }).2 {} rest

/-- Code as it is appended: its first instruction takes the pending markers. -/
def marked (pending : Markers) : List Instruction → List Instruction
  | [] => []
  | i :: rest => { i with markers := i.markers.union pending } :: rest

theorem marked_none (code : List Instruction) : marked {} code = code := by
  cases code with
  | nil => rfl
  | cons i rest => simp [marked, Markers.union]

theorem code_write (store : Store) (pending : Markers) (code : List Instruction) :
    (write store pending code).1.code = store.code ++ marked pending code := by
  induction code generalizing store pending with
  | nil => exact (List.append_nil _).symm
  | cons i rest inductionHypothesis =>
    rw [write, inductionHypothesis, Store.code_append, List.append_assoc, marked_none]
    rfl

/-- Emitting changes the store and the pending markers and nothing else. -/
theorem emitAll_eq (b : Builder) (code : List Instruction) :
    b.emitAll code =
      { b with
        store := (write b.store b.pending code).1
        pending := (write b.store b.pending code).2 } := by
  induction code generalizing b with
  | nil => rfl
  | cons i rest inductionHypothesis => exact inductionHypothesis (b.emit i).2

theorem grows_write (store : Store) (pending : Markers) (code : List Instruction)
    (neat : Neat code) :
    Grows store pending (write store pending code).1 (write store pending code).2
      (code.filterMap Instruction.definedLabel?) (code.filterMap Instruction.jumpTarget?) := by
  induction code generalizing store pending with
  | nil => exact Grows.refl _ _
  | cons i rest inductionHypothesis =>
    obtain ⟨one, others⟩ := neat_append.mp (show Neat ([i] ++ rest) from neat)
    have both := (Grows.append store pending one).trans (inductionHypothesis _ {} others)
    rw [← List.filterMap_append, ← List.filterMap_append] at both
    exact both

/-! ### Stretches of calls -/

/-- The labels of what is open, and how deeply statements are nested. -/
structure Nesting where
  codeLabels : List String
  conditionLabels : List String
  loopLabels : List String
  scopeDepth : Nat
  controlDepth : Nat
  loopDepth : Nat
deriving DecidableEq, Repr

/-- What is open in a builder. -/
def nesting (b : Builder) : Nesting where
  codeLabels := b.codeLabels
  conditionLabels := b.conditionLabels
  loopLabels := b.loopLabels
  scopeDepth := b.scopeDepth
  controlDepth := b.controlDepth
  loopDepth := b.loopDepth

/-- Whether calls are carried out, with the account of labels: those taken from the source, those
defined, and those jumped to or called. -/
structure Stretch (b : Builder) (calls : List Call) (next : Builder)
    (fresh defines jumps : List String) : Prop where
  runs : b.performAll calls = .done next
  issued : b.issuedBy calls = fresh
  counter : next.labels.counter = b.labels.counter + fresh.length
  numbered : Numbered b.labels.counter fresh
  grows : Grows b.store b.pending next.store next.pending defines jumps

namespace Stretch

variable {b next last : Builder} {calls others : List Call}
  {fresh defines jumps fresh' defines' jumps' : List String}

theorem nil (b : Builder) : Stretch b [] b [] [] [] :=
  ⟨rfl, rfl, rfl, trivial, Grows.refl _ _⟩

theorem append (first : Stretch b calls next fresh defines jumps)
    (second : Stretch next others last fresh' defines' jumps') :
    Stretch b (calls ++ others) last (fresh ++ fresh') (defines ++ defines')
      (jumps ++ jumps') where
  runs := (performAll_append first.runs others).trans second.runs
  issued := by rw [issuedBy_append first.runs, first.issued, second.issued]
  counter := by rw [second.counter, first.counter, List.length_append, Nat.add_assoc]
  numbered := numbered_append.mpr ⟨first.numbered, first.counter ▸ second.numbered⟩
  grows := first.grows.trans second.grows

/-- Calls that take no labels of their own. -/
theorem close (first : Stretch b calls next fresh defines jumps)
    (second : Stretch next others last [] defines' jumps') :
    Stretch b (calls ++ others) last fresh (defines ++ defines') (jumps ++ jumps') := by
  have both := first.append second
  rwa [List.append_nil] at both

theorem one {call : Call} (performed : b.perform call = .done next)
    (counter : next.labels.counter = b.labels.counter + call.purposes.length)
    (grows : Grows b.store b.pending next.store next.pending defines jumps) :
    Stretch b [call] next (b.issued call) defines jumps where
  runs := by rw [performAll, performed]; rfl
  issued := by
    rw [issuedBy, performed]
    exact List.append_nil _
  counter := by rw [counter, Builder.issued, length_issue]
  numbered := numbered_issue _ _ _
  grows := grows

/-- A call that appends code, and may change anything but the store and the pending markers. -/
theorem writes {call : Call} (code : List Instruction) (neat : Neat code)
    (performed : b.perform call = .done next)
    (counter : next.labels.counter = b.labels.counter + call.purposes.length)
    (store : next.store = (write b.store b.pending code).1)
    (pending : next.pending = (write b.store b.pending code).2) :
    Stretch b [call] next (b.issued call) (code.filterMap Instruction.definedLabel?)
      (code.filterMap Instruction.jumpTarget?) := by
  refine one performed counter ?_
  rw [store, pending]
  exact grows_write b.store b.pending code neat

end Stretch

end Builder

end ThreeAddress
