/-
Where declarations go. A declaration outside of loops is appended. One inside a
loop is put directly before the start label of the outermost loop that is open, so
that it is executed once, and only the move that gives the variable its value is
appended. The builder keeps the slot of that label from when the outermost loop is
opened until it is closed. The flags of static variables go to the front of the
program, and all other instructions are appended.

Each call keeps the account of the calls right, and so does every sequence of calls
that is carried out, such as one that is well nested or the beginning of such a one.
-/
import ThreeAddress.Proofs.Journal
import ThreeAddress.Proofs.Nesting

namespace ThreeAddress.Builder

open scoped List

/-- Whether a builder is another one with code behind its program, and the same loops open. -/
structure Continues (b next : Builder) : Prop where
  store : ∃ code, b.store.Appended code next.store
  depth : next.loopDepth = b.loopDepth
  start : next.loopStart = b.loopStart
  entry : next.entry = b.entry

section Continues

variable {b next last : Builder}

theorem Continues.refl (b : Builder) : Continues b b :=
  ⟨⟨[], .nil b.store⟩, rfl, rfl, rfl⟩

theorem Continues.trans (first : Continues b next) (second : Continues next last) :
    Continues b last := by
  obtain ⟨code, appended⟩ := first.store
  obtain ⟨others, appended'⟩ := second.store
  exact ⟨⟨code ++ others, appended.trans appended'⟩, second.depth.trans first.depth,
    second.start.trans first.start, second.entry.trans first.entry⟩

theorem continues_emitAll (b : Builder) (code : List Instruction) :
    Continues b (b.emitAll code) := by
  rw [emitAll_eq]
  exact ⟨⟨_, appended_write b.store b.pending code⟩, rfl, rfl, rfl⟩

/-- The test of a condition, which leads to a fresh label if it is false. -/
theorem continues_test (b : Builder) (purpose : String) :
    let pushed := b.emitAll [op .pushs [truth false]]
    let (label, labeled) := pushed.freshLabel purpose
    Continues b (labeled.emitAll [op .jumpifeqs [.label label]]) := by
  intro pushed
  exact (continues_emitAll b _).trans { continues_emitAll (pushed.freshLabel purpose).2 _ with }

/-- Whether a call does nothing but append code, and leaves loops alone. -/
def Call.steady : Call → Bool
  | .declare _ _ | .staticStart _ _ _ | .startCode | .whileBefore | .whileEnd => false
  | _ => true

theorem continues_perform {call : Call} (steady : call.steady)
    (done : b.perform call = .done next) : Continues b next := by
  -- labels, markers and depths are set around the code that is appended; none of them is compared,
  -- so what holds of that code is taken over field by field
  cases call with
  | declare | staticStart | startCode | whileBefore | whileEnd => cases steady
  | emit opcode operands =>
    cases done
    exact continues_emitAll b [op opcode operands]
  | scopeStart =>
    rw [perform, scopeStart] at done
    split at done
    · split at done
      · cases done
      · next label rest labels =>
        cases done
        exact { continues_emitAll { b with codeLabels := rest } _ with }
    · cases done
      exact { Continues.refl b with }
  | scopeEnd =>
    rw [perform, scopeEnd] at done
    split at done
    · cases done
    · next depth _ =>
      cases done
      split
      · exact { continues_emitAll { b with scopeDepth := depth } _ with }
      · exact { Continues.refl b with }
  | staticEnd function name =>
    rw [perform, staticEnd] at done
    split at done
    · cases done
    · next skip rest labels =>
      cases done
      exact { continues_emitAll { b with codeLabels := rest } _ with }
  | expressionStart =>
    cases done
    exact { Continues.refl b with }
  | expressionEnd v =>
    cases done
    exact { continues_emitAll (b.mark { expressionEnd := true }) [op .pops [.var v]] with }
  | ifAfterExpression =>
    cases done
    let opened := { b with controlDepth := b.controlDepth + 1 }.freshLabel "if_end"
    let inside := { opened.2 with conditionLabels := opened.1 :: b.conditionLabels }
    exact { continues_test inside "if_else" with }
  | ifEndBlock =>
    rw [perform, ifEndBlock] at done
    split at done
    · cases done
      exact continues_emitAll b _
    · cases done
  | elseIfBefore =>
    rw [perform, elseIfBefore] at done
    split at done
    · next following rest labels =>
      cases done
      exact { continues_emitAll { b with conditionLabels := rest } _ with }
    · cases done
  | elseIfAfter =>
    cases done
    exact { continues_test b "if_else" with }
  | elseBlock =>
    rw [perform, elseBlock] at done
    split at done
    · cases done
      exact { continues_emitAll b _ with }
    · cases done
  | ifAfterEnd =>
    rw [perform, ifAfterEnd] at done
    split at done
    · cases done
    · cases done
    · next following last rest labels =>
      dsimp only at done
      split at done
      · cases done
      · cases done
        exact { continues_emitAll { b with conditionLabels := rest } _ with }
  | whileAfter =>
    cases done
    exact { continues_test b "while_end" with }
  | functionHeader label =>
    cases done
    exact { continues_emitAll (b.mark { functionStart := true }) [op .label [.label label]] with }
  | functionEnd type =>
    cases done
    let pushed := b.emitAll [op .pushs [.const type.implicitValue]]
    have returned := continues_emitAll (pushed.mark { functionEnd := true }) [op .ret []]
    exact (continues_emitAll b _).trans { returned with }
  | returnStatement =>
    cases done
    exact continues_emitAll b [op .ret []]
  | call label =>
    cases done
    exact continues_emitAll b [op .call [.label label]]
  | convert type target =>
    cases done
    rw [convert]
    split
    · exact .refl b
    · next opcode _ => exact continues_emitAll b [op opcode []]
  | asc stringType indexType =>
    cases done
    exact { continues_emitAll ((b.freshLabel "asc_zero").2.freshLabel "asc_end").2 _ with }
  | substring stringType startType lengthType =>
    cases done
    exact { continues_emitAll _ _ with }
  | input | print | convertUnary | convertBinary | length | chr =>
    cases done
    exact continues_emitAll b _

end Continues

/-! ### What a call keeps -/

/-- Whether the account of calls is right about a builder. -/
structure Accurate (s : Store) (b : Builder) (j : Journal) : Prop where
  sound : Sound s b.store j
  depth : b.loopDepth = j.opened.length
  outermost : b.loopStart = j.opened.getLast?
  /-- Flags that are put before the entry stay clear of what is put before loops. -/
  entry : ∀ slot, b.entry = some slot →
    slot ∈ b.store.order ∧ slot ∉ j.opened ∧ slot ∉ j.hoisted.map Prod.fst

namespace Accurate

variable {s : Store} {b next : Builder} {j : Journal} {code : List Instruction}

theorem initial (s : Store) : Accurate s { store := s } {} where
  sound := {
    laid := by constructor <;> simp
    accounted := ⟨by simp, by simp⟩
    adjacent := by
      intro outer last
      cases last
    held := by constructor <;> simp }
  depth := rfl
  outermost := rfl
  entry := by
    intro slot entry
    cases entry

theorem record_appended (appended : b.store.Appended code next.store) (call : Call) :
    j.record b next call =
      { j with log := j.log ++ (List.range code.length).map b.store.upcoming }.note
        b.store.upcoming call := by
  rw [Journal.record, appended.size, Nat.add_sub_cancel_left]

theorem mem_of_appended {t u : Store} (appended : t.Appended code u) {slot : Slot}
    (member : slot ∈ t.order) : slot ∈ u.order := by
  rw [appended.order]
  exact List.mem_append_left _ member

theorem steady (accurate : Accurate s b j) {call : Call} (steady : call.steady)
    (done : b.perform call = .done next) : Accurate s next (j.record b next call) := by
  obtain ⟨⟨code, appended⟩, depth, start, entry⟩ := continues_perform steady done
  have record : j.record b next call =
      { j with log := j.log ++ (List.range code.length).map b.store.upcoming } := by
    rw [record_appended appended]
    cases call with
    | declare | staticStart | startCode | whileBefore | whileEnd => cases steady
    | _ => rfl
  rw [record]
  refine ⟨accurate.sound.append appended, depth.trans accurate.depth,
    start.trans accurate.outermost, fun slot placed => ?_⟩
  obtain ⟨member, apart⟩ := accurate.entry slot (entry.symm.trans placed)
  exact ⟨mem_of_appended appended member, apart⟩

/-- A slot that is added now is none of those in the account. -/
theorem not_mem_account {t : Store} (sound : Sound s t j) :
    t.upcoming 0 ∉ j.opened ∧ t.upcoming 0 ∉ j.hoisted.map Prod.fst := by
  refine ⟨fun opened => t.upcoming_not_mem (sound.laid.opened _ opened), fun hoisted => ?_⟩
  obtain ⟨entry, member, same⟩ := List.mem_map.mp hoisted
  exact t.upcoming_not_mem (same ▸ (sound.laid.hoisted entry member).subset List.mem_cons_self)

theorem startCode (accurate : Accurate s b j) :
    Accurate s b.startCode.2 (j.record b b.startCode.2 .startCode) := by
  let jump := { op .jump [.label (b.freshLabel "main_scope").1] with
    markers := Markers.union {} b.pending }
  obtain ⟨taken, gains⟩ := b.store.gains_append jump
  have appended : b.store.Appended [jump] b.startCode.2.store := gains.appended
  rw [record_appended appended]
  refine ⟨accurate.sound.append appended, accurate.depth, accurate.outermost, ?_⟩
  rintro slot ⟨⟩
  have member : b.store.upcoming 0 ∈ b.startCode.2.store.order := by
    rw [appended.order]
    exact List.mem_append_right _ List.mem_cons_self
  have apart := not_mem_account accurate.sound
  rw [← taken] at member apart
  exact ⟨member, apart⟩

theorem whileBefore (accurate : Accurate s b j) :
    Accurate s b.whileBefore (j.record b b.whileBefore .whileBefore) := by
  let label := { op .label [.label (LabelSource.next b.labels "while_start" (b.controlDepth + 1)).1]
    with markers := Markers.union {} b.pending }
  obtain ⟨taken, gains⟩ := b.store.gains_append label
  have appended : b.store.Appended [label] b.whileBefore.store := gains.appended
  rw [record_appended appended]
  refine ⟨accurate.sound.opening appended rfl, congrArg (· + 1) accurate.depth, ?_, ?_⟩
  · show (if b.loopDepth = 0 then some (b.store.append label).1 else b.loopStart) =
      (b.store.upcoming 0 :: j.opened).getLast?
    rw [accurate.depth, accurate.outermost, taken]
    cases j.opened with
    | nil => rfl
    | cons inner rest => rfl
  · intro slot placed
    obtain ⟨member, notOpened, notHoisted⟩ := accurate.entry slot placed
    refine ⟨mem_of_appended appended member, ?_, notHoisted⟩
    rintro (_ | ⟨_, opened⟩)
    · exact b.store.upcoming_not_mem member
    · exact notOpened opened

theorem whileEnd (accurate : Accurate s b j) (done : b.perform .whileEnd = .done next) :
    Accurate s next (j.record b next .whileEnd) := by
  rw [Builder.perform, Builder.whileEnd] at done
  split at done
  · next last start rest labels =>
    have appended := appended_write b.store b.pending
      [op .jump [.label start], op .label [.label last]]
    dsimp only at done
    split at done
    · next controlDepth depth _ deep =>
      cases done
      have length : j.opened.length = depth + 1 := accurate.depth.symm.trans deep
      obtain ⟨start, others, opened⟩ := List.exists_cons_of_length_eq_add_one length
      rw [opened, List.length_cons, Nat.add_right_cancel_iff] at length
      have sound := accurate.sound.closing appended rfl opened
      have outer : ∀ slot ∈ others, slot ∈ j.opened := fun slot member =>
        opened ▸ List.mem_cons_of_mem start member
      rw [record_appended appended, Journal.note]
      simp only [opened, List.tail_cons, List.head?_cons, Option.toList_some, List.map_cons,
        List.map_nil, List.singleton_append]
      refine ⟨sound, length.symm, ?_, fun slot placed => ?_⟩
      -- the slot is kept unless the loop that ends is the outermost one
      · show (if depth = 0 then none else b.loopStart) = others.getLast?
        rw [accurate.outermost, opened, ← length]
        cases others with
        | nil => rfl
        | cons inner rest => rfl
      · obtain ⟨member, notOpened, notHoisted⟩ := accurate.entry slot placed
        exact ⟨mem_of_appended appended member, fun opened => notOpened (outer slot opened),
          notHoisted⟩
    · cases done
  · cases done

/-- A declaration inside a loop. -/
theorem declareInside (accurate : Accurate s b j) {start : Slot}
    (last : j.opened.getLast? = some start) (v : Variable) (type : DataType) :
    ∃ front label back, b.store.entries = front ++ (start, label) :: back ∧
      j.before start <:+ front.map Prod.fst ∧
      (b.declare v type).store.entries =
        front ++ (b.store.upcoming 0, op .defvar [.var v]) :: (start, label) ::
          (back ++ [(b.store.upcoming 1, { op .move [.var v, .const type.implicitValue] with
            markers := Markers.union {} b.pending })]) ∧
      Accurate s (b.declare v type) (j.record b (b.declare v type) (.declare v type)) := by
  obtain ⟨front, label, back, store, split, before, inserted, gains, sound⟩ :=
    accurate.sound.hoisting last (i := op .defvar [.var v]) rfl
  let move := op .move [.var v, .const type.implicitValue]
  have placed : b.insertBefore (op .defvar [.var v]) start = { b with store } := by
    rw [insertBefore, inserted]
  have declared : b.declare v type = { b with store }.emitAll [move] := by
    rw [← placed, Builder.declare, accurate.outermost, last]
  have appended := appended_write store b.pending [move]
  have second : store.upcoming 0 = b.store.upcoming 1 := gains.upcoming 0
  refine ⟨front, label, back, split, before, ?_, ?_⟩
  · rw [declared, emitAll_eq, appended.entries, gains.entries]
    simp [marked, second, move, op]
  have record : j.record b (b.declare v type) (.declare v type) = { j with
      log := j.log ++ [b.store.upcoming 0] ++ (List.range 1).map store.upcoming
      declared := b.store.upcoming 0 :: j.declared
      hoisted := j.hoisted ++ [(b.store.upcoming 0, start)] } := by
    have size : (b.declare v type).store.size - b.store.size = 2 := by
      rw [declared, emitAll_eq, appended.size, gains.size, Nat.add_assoc, Nat.add_sub_cancel_left]
      rfl
    rw [Journal.record, size, Journal.note]
    simp [last, second, List.range_succ]
  rw [record, declared, emitAll_eq]
  refine ⟨sound.append appended, accurate.depth, accurate.outermost, fun slot entry => ?_⟩
  obtain ⟨member, notOpened, notHoisted⟩ := accurate.entry slot entry
  refine ⟨mem_of_appended appended ?_, notOpened, ?_⟩
  · exact (List.map_subset Prod.fst gains.subset) member
  · rw [List.map_append, List.mem_append]
    rintro (hoisted | new)
    · exact notHoisted hoisted
    · obtain rfl : slot = b.store.upcoming 0 := List.mem_singleton.mp new
      exact b.store.upcoming_not_mem member

theorem declare (accurate : Accurate s b j) (v : Variable) (type : DataType) :
    Accurate s (b.declare v type) (j.record b (b.declare v type) (.declare v type)) := by
  cases last : j.opened.getLast? with
  | some start =>
    obtain ⟨-, -, -, -, -, -, declared⟩ := accurate.declareInside last v type
    exact declared
  | none =>
    have outside := List.getLast?_eq_none_iff.mp last
    let code := [op .defvar [.var v], op .move [.var v, .const type.implicitValue]]
    have appended := appended_write b.store b.pending code
    have declared : b.declare v type = b.emitAll code := by
      rw [Builder.declare, accurate.outermost, last]
      rfl
    rw [declared, emitAll_eq, record_appended appended, Journal.note]
    simp only [last, Option.toList_none, List.map_nil, List.append_nil]
    refine ⟨accurate.sound.declaring appended rfl outside, accurate.depth, accurate.outermost,
      fun slot entry => ?_⟩
    obtain ⟨member, apart⟩ := accurate.entry slot entry
    exact ⟨mem_of_appended appended member, apart⟩

/-- Where flags go. -/
theorem clear (accurate : Accurate s b j) {anchor : Slot}
    (place : b.entry.or b.store.first? = some anchor) : Clear b.store.order j anchor := by
  cases entry : b.entry with
  | some slot =>
    obtain rfl : slot = anchor := by simpa [entry] using place
    obtain ⟨member, notOpened, notHoisted⟩ := accurate.entry slot entry
    exact .elsewhere accurate.sound.adjacent member notOpened notHoisted
  | none =>
    have first : b.store.order.head? = some anchor := by
      rw [entry, Option.none_or, b.store.acts_as_list.first, ← List.head?_map] at place
      exact place
    obtain ⟨rest, order⟩ := List.head?_eq_some_iff.mp first
    rw [order]
    exact .first (order ▸ accurate.sound.adjacent)

/-- A flag that is put before an anchor, or appended if there is none. -/
theorem exists_flag {t : Store} {i : Instruction} {anchor : Option Slot}
    (sound : Sound s t j) (clear : ∀ slot, anchor = some slot → Clear t.order j slot)
    (isFlag : ∃ function name, i.operands.head? = some (.var (staticFlag function name))) :
    ∃ u front back,
      (∀ b : Builder, { b with store := t }.insertAtFront i anchor = { b with store := u }) ∧
      t.Gains front i back u ∧
      Sound s u { j with log := j.log ++ [t.upcoming 0], flags := t.upcoming 0 :: j.flags } ∧
      ∀ slot, anchor = some slot → Clear u.order j slot := by
  cases anchor with
  | none =>
    obtain ⟨-, gains⟩ := t.gains_append i
    refine ⟨_, _, _, fun b => rfl, gains, sound.flag gains isFlag ?_, by simp⟩
    rw [gains.order.2]
    exact sound.adjacent.append [t.upcoming 0]
  | some slot =>
    obtain ⟨u, front, back, inserted, gains, flagged, clear⟩ :=
      sound.flagging (clear slot rfl) isFlag
    refine ⟨u, front, back, fun b => ?_, gains, flagged, ?_⟩
    · rw [insertAtFront, insertBefore, inserted]
    · rintro _ ⟨⟩
      exact clear

theorem staticStart (accurate : Accurate s b j) (function name : String) (type : DataType) :
    Accurate s (b.staticStart function name type).2
      (j.record b (b.staticStart function name type).2 (.staticStart function name type)) := by
  let skip := b.labels.next ("DECLARED__" ++ function ++ "_" ++ name) b.controlDepth
  let opened : Builder := { b with labels := skip.2, codeLabels := skip.1 :: b.codeLabels }
  let flag := staticFlag function name
  let guarded := [
    op .jumpifeq [.label skip.1, truth true, .var flag],
    op .defvar [.var ⟨.gf, name⟩],
    op .move [.var ⟨.gf, name⟩, .const type.implicitValue]]
  obtain ⟨t, _, _, declares, gains, sound, clear⟩ := exists_flag
    (i := op .defvar [.var flag]) accurate.sound (fun _ => accurate.clear) ⟨function, name, rfl⟩
  obtain ⟨u, _, _, clears, gains', sound', -⟩ := exists_flag
    (i := op .move [.var flag, truth false]) sound clear ⟨function, name, rfl⟩
  have performed : (b.staticStart function name type).2 =
      { opened with store := u }.emitAll guarded := by
    rw [← clears opened, ← declares opened]
    rfl
  have appended := appended_write u b.pending guarded
  have second : t.upcoming 0 = b.store.upcoming 1 := gains.upcoming 0
  have later : ∀ k, u.upcoming k = b.store.upcoming (k + 2) := fun k =>
    (gains'.upcoming k).trans (gains.upcoming (k + 1))
  have record : j.record b (b.staticStart function name type).2
      (.staticStart function name type) = { j with
        log := j.log ++ [b.store.upcoming 0] ++ [t.upcoming 0] ++
          (List.range 3).map u.upcoming
        flags := t.upcoming 0 :: b.store.upcoming 0 :: j.flags } := by
    have size : (b.staticStart function name type).2.store.size - b.store.size = 5 := by
      rw [performed, emitAll_eq, appended.size, gains'.size, gains.size, Nat.add_assoc,
        Nat.add_assoc, Nat.add_sub_cancel_left]
      rfl
    rw [Journal.record, size, Journal.note]
    simp [second, later, List.range_succ]
  rw [record, performed, emitAll_eq]
  refine ⟨sound'.append appended, accurate.depth, accurate.outermost, fun slot entry => ?_⟩
  obtain ⟨member, apart⟩ := accurate.entry slot entry
  refine ⟨mem_of_appended appended ?_, apart⟩
  exact List.map_subset Prod.fst gains'.subset (List.map_subset Prod.fst gains.subset member)

/-- One call keeps the account right. -/
theorem perform (accurate : Accurate s b j) {call : Call}
    (done : b.perform call = .done next) : Accurate s next (j.record b next call) := by
  cases call with
  | startCode =>
    cases done
    exact accurate.startCode
  | whileBefore =>
    cases done
    exact accurate.whileBefore
  | whileEnd => exact accurate.whileEnd done
  | declare v type =>
    cases done
    exact accurate.declare v type
  | staticStart function name type =>
    cases done
    exact accurate.staticStart function name type
  | _ => exact accurate.steady rfl done

/-- So does a sequence of calls. -/
theorem performAll (accurate : Accurate s b j) {calls : List Call}
    (done : b.performAll calls = .done next) : Accurate s next (b.chronicle j calls) := by
  induction calls generalizing b j with
  | nil =>
    cases done
    exact accurate
  | cons call rest inductionHypothesis =>
    rw [Builder.performAll] at done
    rw [chronicle]
    cases performed : b.perform call with
    | done middle =>
      rw [performed] at done
      exact inductionHypothesis (accurate.perform performed) done
    | refused cause stopped =>
      rw [performed] at done
      cases done
    | underflow =>
      rw [performed] at done
      cases done

end Accurate

/-! ### Sequences of calls -/

/-- What the account of calls that started from a store says about the builder that they led to. -/
structure Hoists (s : Store) (b : Builder) (j : Journal) : Prop where
  depth : b.loopDepth = j.opened.length
  /-- Inside a loop, the declaration of a variable goes directly before the start label of the
  outermost loop, behind those that were put there before, and its move goes to the end. -/
  placed : ∀ start, j.opened.getLast? = some start → ∀ v type,
    ∃ front label back, b.store.entries = front ++ (start, label) :: back ∧
      j.before start <:+ front.map Prod.fst ∧
      (b.declare v type).store.entries =
        front ++ (b.store.upcoming 0, op .defvar [.var v]) :: (start, label) ::
          (back ++ [(b.store.upcoming 1, { op .move [.var v, .const type.implicitValue] with
            markers := Markers.union {} b.pending })])
  held : Held b.store.entries j
  loops : ∀ loop ∈ j.closed, Precedes b.store.order loop.1 loop.2
  /-- No declaration is between the labels of a loop, or behind the start of an open one. -/
  outside : ∀ d ∈ j.declared, ∀ loop ∈ j.closed, ¬[loop.1, d, loop.2] <+ b.store.order
  ahead : ∀ d ∈ j.declared, ∀ start ∈ j.opened, ¬Precedes b.store.order start d
  /-- All but the declarations that were put before loops and the flags is in the order in which it
  was added. -/
  added : b.store.order ~ s.order ++ j.log
  kept : b.store.order.filter (· ∉ j.moved) = (s.order ++ j.log).filter (· ∉ j.moved)

theorem Accurate.hoists {s : Store} {b : Builder} {j : Journal} (accurate : Accurate s b j) :
    Hoists s b j where
  depth := accurate.depth
  placed start last v type := by
    obtain ⟨front, label, back, split, before, entries, -⟩ := accurate.declareInside last v type
    exact ⟨front, label, back, split, before, entries⟩
  held := accurate.sound.held
  loops := accurate.sound.laid.loops
  outside d declared loop closed inside := by
    have distinct := b.store.acts_as_list.distinct
    have behind : Precedes b.store.order loop.1 d := List.Sublist.trans (by simp) inside
    have ahead : Precedes b.store.order d loop.2 := List.Sublist.trans (by simp) inside
    obtain before | after := accurate.sound.laid.apart d declared loop closed
    · exact before.asymm distinct behind
    · exact after.asymm distinct ahead
  ahead d declared start opened :=
    (accurate.sound.laid.ahead d declared start opened).asymm b.store.acts_as_list.distinct
  added := accurate.sound.accounted.added
  kept := accurate.sound.accounted.kept

/-- The beginnings of well-nested sequences of calls, be they whole programs or statements. -/
inductive Begins (calls : List Call) : Prop
  | program {definitions : List Definition} {main : List Call} :
    WellNested definitions main → calls <+: programCalls definitions main → Begins calls
  | statements {functions : List String} {others : List Call} :
    Nested functions .statements others → calls <+: others → Begins calls

theorem Begins.runs {calls : List Call} (begins : Begins calls) (s : Store) :
    ∃ b, performAll { store := s } calls = .done b := by
  cases begins with
  | program nested beginning =>
    obtain ⟨rest, split⟩ := beginning
    obtain ⟨_, _, _, _, stretch, -, -⟩ :=
      exists_stretch_program (b := { store := s }) nested.bodies nested.main rfl
    obtain ⟨b, runs, -⟩ := exists_of_performAll_append (split ▸ stretch.runs)
    exact ⟨b, runs⟩
  | statements nested beginning =>
    obtain ⟨rest, rfl⟩ := beginning
    obtain ⟨_, _, _, _, stretch, -⟩ := nested.settles { store := s }
    obtain ⟨b, runs, -⟩ := exists_of_performAll_append stretch.runs
    exact ⟨b, runs⟩

/-- Declarations are moved out of every loop. Calls that are well nested so far are carried out, and
what is carried out puts declarations before the outermost open loop, so that none is ever inside of
a loop, and leaves the order of all else alone. -/
theorem declarations_leave_loops (s : Store) (calls : List Call) :
    (Begins calls → ∃ b, performAll { store := s } calls = .done b) ∧
      ∀ b, performAll { store := s } calls = .done b →
        Hoists s b (chronicle { store := s } {} calls) :=
  ⟨fun begins => begins.runs s, fun _ done => ((Accurate.initial s).performAll done).hoists⟩

/-- Two loops, one in the other, each with a declaration. -/
def countdowns : List Call := [
  .whileBefore, .emit .pushs [truth true], .whileAfter, .declare ⟨.lf, "n"⟩ .int,
  .whileBefore, .emit .pushs [truth true], .whileAfter, .declare ⟨.lf, "m"⟩ .int,
  .whileEnd]

theorem begins_countdowns : Begins countdowns := by
  have tests : Nested [] .statements [.emit .pushs [truth true]] :=
    .plain ⟨by decide, by decide, rfl⟩
  have declares : ∀ name, Nested [] .statements [.declare ⟨.lf, name⟩ .int] := fun _ =>
    .plain trivial
  exact .statements (.loop tests ((declares "n").append (.loop tests (declares "m"))))
    ⟨[.whileEnd], rfl⟩

theorem declarations_leave_loops_countdowns : Begins countdowns ∧
    ∃ b, performAll {} countdowns = .done b ∧
      (chronicle {} {} countdowns).opened = [0] ∧
      (chronicle {} {} countdowns).closed = [(6, 13)] ∧
      (chronicle {} {} countdowns).hoisted = [(4, 0), (10, 0)] ∧
      Hoists {} b (chronicle {} {} countdowns) := by
  obtain ⟨runs, hoists⟩ := declarations_leave_loops {} countdowns
  obtain ⟨b, done⟩ := runs begins_countdowns
  exact ⟨begins_countdowns, b, done, by decide, by decide, by decide, hoists b done⟩

end ThreeAddress.Builder
