/-
Constants inside a basic block. What is known about a variable after an
instruction is either what the instruction moved into it or what was known
before, and in the second case the instruction leaves the variable alone. So a
statement about the instructions so far that survives every instruction of the
second kind, and starts to hold with one of the first kind, holds of everything
that is known at any point of the block and of every operand that was replaced.
Replacing operands changes neither opcodes nor destinations nor literals.
-/
import ThreeAddress.Constants.Scan
import Mathlib.Data.List.Forall2

namespace ThreeAddress.Constants

/-- Two lists that are related to one in between, element by element, are related. -/
theorem forall₂_trans {α : Type} {Related : α → α → Prop} {list other third : List α}
    (first : List.Forall₂ Related list other) (second : List.Forall₂ Related other third)
    (trans : ∀ a b c, Related a b → Related b c → Related a c) :
    List.Forall₂ Related list third := by
  induction first generalizing third with
  | nil => exact second
  | cons head tail inductionHypothesis =>
    cases second with
    | cons next rest => exact List.Forall₂.cons (trans _ _ _ head next) (inductionHypothesis rest)

/-! ### What is known -/

namespace Known

variable {known : Known} {v w : Variable} {c d : Constant}

theorem value?_eq_some_iff : known.value? v = some c ↔ known.notes.get? v = some (.value c) := by
  unfold value?
  split
  · next found => rw [found, Option.some_inj, Option.some_inj, Note.value.injEq]
  · next other =>
    exact ⟨fun found => absurd found (by simp), fun found => absurd found (other c)⟩

theorem value?_empty : ({} : Known).value? v = none :=
  rfl

theorem value?_of_forget (found : (known.forget v).value? w = some c) :
    w ≠ v ∧ known.value? w = some c := by
  unfold forget at found
  split at found
  · next blocked =>
    refine ⟨fun same => ?_, found⟩
    rw [isBlocked, decide_eq_true_eq] at blocked
    rw [value?_eq_some_iff, same, blocked] at found
    exact absurd found (by simp)
  · rw [value?_eq_some_iff, Table.erase] at found
    by_cases same : w = v
    · rw [same, Table.get?_alter_self] at found
      exact absurd found (by simp)
    · rw [Table.get?_alter_of_ne _ same] at found
      exact ⟨same, value?_eq_some_iff.mpr found⟩

theorem value?_of_bind (found : (known.bind v c).value? w = some d) :
    (w = v ∧ d = c) ∨ known.value? w = some d := by
  unfold bind at found
  split at found
  · exact Or.inr found
  · rw [value?_eq_some_iff, Table.put] at found
    by_cases same : w = v
    · rw [same, Table.get?_alter_self, Option.some_inj, Note.value.injEq] at found
      exact Or.inl ⟨same, found.symm⟩
    · rw [Table.get?_alter_of_ne _ same] at found
      exact Or.inr (value?_eq_some_iff.mpr found)

theorem value?_of_block (found : (known.block v).value? w = some c) :
    known.value? w = some c := by
  rw [value?_eq_some_iff, block, Table.put] at found
  by_cases same : w = v
  · rw [same, Table.get?_alter_self] at found
    exact absurd found (by simp)
  · rw [Table.get?_alter_of_ne _ same] at found
    exact value?_eq_some_iff.mpr found

theorem value?_of_foldl_block {vars : List Variable}
    (found : (vars.foldl block known).value? w = some c) : known.value? w = some c := by
  induction vars generalizing known with
  | nil => exact found
  | cons v rest inductionHypothesis => exact value?_of_block (inductionHypothesis found)

theorem value?_of_foldl_forget {vars : List Variable}
    (found : (vars.foldl forget known).value? w = some c) :
    w ∉ vars ∧ known.value? w = some c := by
  induction vars generalizing known with
  | nil => exact ⟨List.not_mem_nil, found⟩
  | cons v rest inductionHypothesis =>
    obtain ⟨later, kept⟩ := inductionHypothesis found
    obtain ⟨different, before⟩ := value?_of_forget kept
    exact ⟨fun member => (List.mem_cons.mp member).elim different later, before⟩

/-- A frame is forgotten except for what is blocked in it. -/
theorem value?_of_forgetFrame {frame : Frame}
    (found : (known.forgetFrame frame).value? w = some c) :
    w.frame ≠ frame ∧ known.value? w = some c := by
  rw [value?_eq_some_iff] at found ⊢
  obtain ⟨⟨entries⟩⟩ := known
  simp only [forgetFrame, Table.filter, Table.get?] at found ⊢
  induction entries with
  | nil => exact absurd found (by simp [Table.find?])
  | cons entry rest inductionHypothesis =>
    obtain ⟨key, note⟩ := entry
    by_cases kept : note = .blocked ∨ key.frame ≠ frame
    · rw [List.filter_cons_of_pos (by simpa using kept), Table.find?] at found
      rw [Table.find?]
      split at found
      · next same =>
        rw [if_pos same]
        obtain rfl := Option.some_inj.mp found
        rw [← same]
        exact ⟨kept.resolve_left (by simp), rfl⟩
      · next other =>
        rw [if_neg other]
        exact inductionHypothesis found
    · rw [List.filter_cons_of_neg (by simpa using kept)] at found
      obtain ⟨outside, there⟩ := inductionHypothesis found
      have other : key ≠ w := by
        rintro rfl
        exact kept (Or.inr outside)
      rw [Table.find?, if_neg other]
      exact ⟨outside, there⟩

theorem value?_of_forgetFrames {changesFrames calls : Bool}
    (found : (known.forgetFrames changesFrames calls).value? w = some c) :
    (w.frame ≠ .gf → ¬ changesFrames) ∧ (w.frame = .gf → ¬ calls) ∧ known.value? w = some c := by
  unfold forgetFrames at found
  dsimp only at found
  have globals : (w.frame = .gf → ¬ calls) ∧
      (if changesFrames then (known.forgetFrame .lf).forgetFrame .tf else known).value? w =
        some c := by
    split at found
    · obtain ⟨outside, before⟩ := value?_of_forgetFrame found
      exact ⟨fun inside => absurd inside outside, before⟩
    · next quiet => exact ⟨fun _ => quiet, found⟩
  obtain ⟨noCall, before⟩ := globals
  split at before
  · obtain ⟨notTemporary, before⟩ := value?_of_forgetFrame before
    obtain ⟨notLocal, before⟩ := value?_of_forgetFrame before
    refine ⟨fun notGlobal => ?_, noCall, before⟩
    cases frame : w.frame <;> simp_all
  · next steady => exact ⟨fun _ => steady, noCall, before⟩

end Known

/-! ### Single instructions -/

/-- Whether an instruction leaves a variable alone: it does not define it, it does not exchange
its frame, and it does not call if the variable is global. -/
structure Keeps (v : Variable) (i : Instruction) : Prop where
  target : i.target? ≠ some v
  frames : v.frame ≠ .gf → ¬ i.opcode.affectsFrames
  calls : v.frame = .gf → i.opcode ≠ .call

/-- Whether an instruction moves a constant into a variable. -/
structure Moves (v : Variable) (c : Constant) (i : Instruction) : Prop where
  opcode : i.opcode = .move
  target : i.target? = some v
  source : i.operands[1]? = some (.const c)

instance (v : Variable) (c : Constant) (i : Instruction) : Decidable (Moves v c i) :=
  decidable_of_iff
    (i.opcode = .move ∧ i.target? = some v ∧ i.operands[1]? = some (.const c))
    ⟨fun ⟨opcode, target, source⟩ => ⟨opcode, target, source⟩,
      fun moves => ⟨moves.opcode, moves.target, moves.source⟩⟩

/-- Whether one instruction is another with literals in place of some variables that it reads. -/
structure Refined (i j : Instruction) : Prop where
  opcode : j.opcode = i.opcode
  target : j.target? = i.target?
  operand : ∀ (index : Nat) (operand : Operand), i.operands[index]? = some operand →
    j.operands[index]? = some operand ∨
      ∃ v c, operand = .var v ∧ j.operands[index]? = some (.const c)

namespace Refined

variable {i j k : Instruction}

theorem refl (i : Instruction) : Refined i i :=
  ⟨rfl, rfl, fun _ _ found => Or.inl found⟩

theorem const (refined : Refined i j) {index : Nat} {c : Constant}
    (found : i.operands[index]? = some (.const c)) : j.operands[index]? = some (.const c) := by
  rcases refined.operand index _ found with same | ⟨v, d, isVar, -⟩
  · exact same
  · exact absurd isVar (by simp)

theorem trans (first : Refined i j) (second : Refined j k) : Refined i k where
  opcode := second.opcode.trans first.opcode
  target := second.target.trans first.target
  operand := by
    intro index operand found
    rcases first.operand index operand found with same | ⟨v, c, isVar, replaced⟩
    · exact second.operand index operand same
    · exact Or.inr ⟨v, c, isVar, second.const replaced⟩

theorem keeps {v : Variable} (refined : Refined i j) (keeps : Keeps v i) : Keeps v j where
  target := by rw [refined.target]; exact keeps.target
  frames := by rw [refined.opcode]; exact keeps.frames
  calls := by rw [refined.opcode]; exact keeps.calls

theorem moves {v : Variable} {c : Constant} (refined : Refined i j) (moves : Moves v c i) :
    Moves v c j where
  opcode := by rw [refined.opcode]; exact moves.opcode
  target := by rw [refined.target]; exact moves.target
  source := refined.const moves.source

end Refined

section RefinedCode

variable {code other : List Instruction}

theorem refined_refl (code : List Instruction) : List.Forall₂ Refined code code :=
  List.forall₂_same.mpr fun i _ => Refined.refl i

theorem refined_trans {third : List Instruction} (first : List.Forall₂ Refined code other)
    (second : List.Forall₂ Refined other third) : List.Forall₂ Refined code third :=
  forall₂_trans first second fun _ _ _ => Refined.trans

theorem refined_getElem? (refined : List.Forall₂ Refined code other) {position : Nat}
    {i : Instruction} (found : code[position]? = some i) :
    ∃ j, other[position]? = some j ∧ Refined i j := by
  obtain ⟨bound, rfl⟩ := List.getElem?_eq_some_iff.mp found
  have same := refined.length_eq
  exact ⟨other.get ⟨position, by omega⟩, by simp, refined.get bound (by omega)⟩

theorem keeps_of_refined {v : Variable} (refined : List.Forall₂ Refined code other)
    (keeps : ∀ i ∈ code, Keeps v i) : ∀ j ∈ other, Keeps v j := by
  induction refined with
  | nil => exact keeps
  | cons head tail inductionHypothesis =>
    rw [List.forall_mem_cons] at keeps ⊢
    exact ⟨head.keeps keeps.1, inductionHypothesis keeps.2⟩

end RefinedCode

/-- What is known after an instruction was moved by it or known before. -/
theorem value?_of_knownAfter {known : Known} {i : Instruction} {v : Variable} {c : Constant}
    (found : (knownAfter known i).value? v = some c) :
    Moves v c i ∨ (Keeps v i ∧ known.value? v = some c) := by
  unfold knownAfter at found
  dsimp only at found
  obtain ⟨frames, calls, found⟩ := Known.value?_of_forgetFrames found
  rw [decide_eq_true_eq] at calls
  split at found
  · next none => exact Or.inr ⟨⟨by rw [none]; simp, frames, calls⟩, found⟩
  · next w target =>
    split at found
    · obtain ⟨different, before⟩ := Known.value?_of_forget found
      refine Or.inr ⟨⟨?_, frames, calls⟩, before⟩
      rw [target]
      exact fun same => different (Option.some_inj.mp same).symm
    · next d moved =>
      rcases Known.value?_of_bind found with ⟨rfl, rfl⟩ | before
      · unfold movedConstant? at moved
        split at moved
        · next move =>
          obtain ⟨operand, second, isConst⟩ := Option.bind_eq_some_iff.mp moved
          cases operand with
          | const literal =>
            obtain rfl := Option.some_inj.mp isConst
            exact Or.inl ⟨move, target, second⟩
          | var _ | label _ | type _ => exact absurd isConst (by simp [Operand.const?])
        · exact absurd moved (by simp)
      · obtain ⟨different, before⟩ := Known.value?_of_forget before
        refine Or.inr ⟨⟨?_, frames, calls⟩, before⟩
        rw [target]
        exact fun same => different (Option.some_inj.mp same).symm

/-- Replacing sources leaves a destination as it is. -/
theorem operands_mapSources (i : Instruction) (f : Operand → Operand) (index : Nat) :
    (i.mapSources f).operands[index]? =
      i.operands[index]?.map fun operand =>
        if index = 0 ∧ i.opcode.definesTarget then operand else f operand := by
  unfold Instruction.mapSources
  by_cases defines : i.opcode.definesTarget
  · simp only [defines, and_true]
    cases i.operands with
    | nil => rfl
    | cons target rest =>
      cases index with
      | zero => rfl
      | succ index => simp
  · simp [defines]

theorem target?_mapSources (i : Instruction) (f : Operand → Operand) :
    (i.mapSources f).target? = i.target? := by
  unfold Instruction.target? Instruction.mapSources
  by_cases defines : i.opcode.definesTarget
  · simp only [defines, if_true]
    cases i.operands <;> rfl
  · simp [defines]

theorem sources_mapSources (i : Instruction) (f : Operand → Operand) :
    (i.mapSources f).sources = i.sources.map f := by
  unfold Instruction.mapSources Instruction.sources
  cases i.operands with
  | nil => simp
  | cons operand rest => split <;> rfl

theorem substitute_of_var {known : Known} {v : Variable} {c : Constant}
    (replaced : substitute known (.var v) = .const c) : known.value? v = some c := by
  unfold substitute at replaced
  split at replaced
  · next d found =>
    obtain rfl := Operand.const.inj replaced
    exact found
  · exact absurd replaced (by simp)

theorem refined_mapSources (known : Known) (i : Instruction) :
    Refined i (i.mapSources (substitute known)) where
  opcode := rfl
  target := target?_mapSources i _
  operand := by
    intro index operand found
    rw [operands_mapSources, found, Option.map_some]
    split
    · exact Or.inl rfl
    · cases operand with
      | var v =>
        cases known : known.value? v with
        | none => exact Or.inl (by simp [substitute, Operand.var?, known])
        | some c => exact Or.inr ⟨v, c, rfl, by simp [substitute, Operand.var?, known]⟩
      | const _ | label _ | type _ => exact Or.inl rfl

/-- A variable that was replaced was bound to the literal in its place. -/
theorem value?_of_mapSources {known : Known} {i : Instruction} {index : Nat} {v : Variable}
    {c : Constant} (wasVariable : i.operands[index]? = some (.var v))
    (isLiteral : (i.mapSources (substitute known)).operands[index]? = some (.const c)) :
    known.value? v = some c := by
  rw [operands_mapSources, wasVariable, Option.map_some, Option.some_inj] at isLiteral
  split at isLiteral
  · exact absurd isLiteral (by simp)
  · exact substitute_of_var isLiteral

/-! ### Runs of instructions -/

/-- Whether a statement about a variable, a constant and the instructions so far goes with what is
known: it starts to hold with a move and is not lost while the variable is left alone. -/
structure Persistent (Holds : Variable → Constant → List Instruction → Prop) : Prop where
  move : ∀ {v c before i}, Moves v c i → Holds v c (before ++ [i])
  keep : ∀ {v c before i}, Holds v c before → Keeps v i → Holds v c (before ++ [i])

section Persistent

variable {Holds : Variable → Constant → List Instruction → Prop} {p : Progress}
  {before block : List Instruction}

theorem Persistent.known_scanOne (persistent : Persistent Holds) (i : Instruction)
    (start : ∀ v c, p.known.value? v = some c → Holds v c before) (v : Variable) (c : Constant)
    (found : (scanOne p i).2.known.value? v = some c) :
    Holds v c (before ++ [(scanOne p i).1]) := by
  rcases value?_of_knownAfter found with moves | ⟨keeps, known⟩
  · exact persistent.move moves
  · exact persistent.keep (start v c known) keeps

/-- The statement holds of everything that is known behind a run of instructions. -/
theorem Persistent.known_scan (persistent : Persistent Holds)
    (start : ∀ v c, p.known.value? v = some c → Holds v c before) (v : Variable) (c : Constant)
    (found : (scan block p).2.known.value? v = some c) :
    Holds v c (before ++ (scan block p).1) := by
  induction block generalizing p before with
  | nil =>
    rw [scan, List.append_nil]
    exact start v c found
  | cons i rest inductionHypothesis =>
    have later := inductionHypothesis (persistent.known_scanOne i start) found
    rwa [List.append_assoc, List.singleton_append] at later

/-- The statement holds of every operand that is replaced. -/
theorem Persistent.replaced_scan (persistent : Persistent Holds)
    (start : ∀ v c, p.known.value? v = some c → Holds v c before) {position index : Nat}
    {i j : Instruction} {v : Variable} {c : Constant} (old : block[position]? = some i)
    (new : (scan block p).1[position]? = some j) (wasVariable : i.operands[index]? = some (.var v))
    (isLiteral : j.operands[index]? = some (.const c)) :
    Holds v c (before ++ (scan block p).1.take position) := by
  induction block generalizing p before position with
  | nil => exact absurd old (by simp)
  | cons first rest inductionHypothesis =>
    cases position with
    | zero =>
      obtain rfl := Option.some_inj.mp old
      obtain rfl := Option.some_inj.mp new
      rw [List.take_zero, List.append_nil]
      exact start v c (value?_of_mapSources wasVariable isLiteral)
    | succ position =>
      have later := inductionHypothesis (persistent.known_scanOne first start) old new
      rwa [List.append_assoc, List.singleton_append] at later

end Persistent

theorem refined_scan (block : List Instruction) (p : Progress) :
    List.Forall₂ Refined block (scan block p).1 := by
  induction block generalizing p with
  | nil => exact List.Forall₂.nil
  | cons i rest inductionHypothesis =>
    exact List.Forall₂.cons (refined_mapSources p.known i) (inductionHypothesis _)

/-- What is still known after a block that was summed up was known before, and every instruction of
the block leaves the variable alone. -/
theorem value?_of_apply {block : List Instruction} {known : Known} {v : Variable} {c : Constant}
    (found : ((Summary.ofBlock block).apply known).value? v = some c) :
    known.value? v = some c ∧ ∀ i ∈ block, Keeps v i := by
  obtain ⟨frames, calls, found⟩ := Known.value?_of_forgetFrames found
  obtain ⟨unassigned, found⟩ := Known.value?_of_foldl_forget found
  refine ⟨found, fun i member => ⟨fun target => ?_, fun inner affects => ?_, fun global call => ?_⟩⟩
  · exact unassigned (List.mem_filterMap.mpr ⟨i, member, target⟩)
  · exact frames inner (List.any_eq_true.mpr ⟨i, member, affects⟩)
  · exact calls global (List.any_eq_true.mpr ⟨i, member, decide_eq_true call⟩)

end ThreeAddress.Constants
