/-
Reading undoes writing. A written instruction is its mnemonic and its operands
with a space before each, and its markers stand behind a `#`. Where the names of
an instruction hold neither white space nor `#`, and its strings no white space
but what is written by its code, the line falls into exactly these words again,
and each word is read as the operand it was written for. Only numbers may change:
they are read as what their six digits say.
-/
import ThreeAddress.Listing.Reader
import ThreeAddress.Proofs.NumberText
import ThreeAddress.Proofs.TextLayout

namespace ThreeAddress

open Text (Ordinary Solid spaced words forall_mem_of_all)

/-! ### What operands are for -/

/-- What an operand of an instruction is for. -/
inductive Purpose where
  /-- The label that is defined, gone to or called. -/
  | label
  /-- The type of a value that is read. -/
  | type
  /-- The variable that is declared or given a value. -/
  | target
  /-- A value that is used. -/
  | value
deriving DecidableEq, Repr

/-- What the operand at an index is for. -/
def Opcode.purpose (opcode : Opcode) (index : Nat) : Purpose :=
  if index = 0 ∧ (opcode.isJump ∨ opcode = .label) then .label
  else if index = 1 ∧ opcode = .read then .type
  else if index = 0 ∧ opcode.definesTarget then .target
  else .value

/-- Whether an operand is of the kind that serves a purpose. -/
def Purpose.admits : Purpose → Operand → Bool
  | .label, .label _ => true
  | .type, .type _ => true
  | .target, .var _ => true
  | .value, .var _ => true
  | .value, .const _ => true
  | _, _ => false

namespace Operand

/-- Whether the name of an operand stays in one word: it has ordinary characters only, and a label
is not empty. -/
def Named : Operand → Prop
  | .var v => ∀ c ∈ v.name.toList, Ordinary c
  | .label name => name.toList ≠ [] ∧ ∀ c ∈ name.toList, Ordinary c
  | _ => True

instance : DecidablePred Named
  | .var v => List.decidableBAll _ v.name.toList
  | .label name => @instDecidableAnd _ _ inferInstance (List.decidableBAll _ name.toList)
  | .const _ => .isTrue trivial
  | .type _ => .isTrue trivial

/-- Whether a string stays in one word: all its white space is written by its code. -/
def Unbroken : Operand → Prop
  | .const (.string text) => ∀ c ∈ text.toList, Text.isBlank c → c.toNat ≤ 32
  | _ => True

instance : DecidablePred Unbroken
  | .const (.string text) =>
    List.decidableBAll (fun c => Text.isBlank c → c.toNat ≤ 32) text.toList
  | .const (.int _) | .const (.float _) | .const (.bool _) => .isTrue trivial
  | .var _ | .label _ | .type _ => .isTrue trivial

end Operand

/-- What holds of every instruction that is read: the number of operands is right, each is of the
kind that belongs at its place, and each name stays in one word. -/
structure Instruction.Shaped (i : Instruction) : Prop where
  wellFormed : i.WellFormed
  placed : ∀ entry ∈ i.operands.zipIdx, (i.opcode.purpose entry.2).admits entry.1
  named : ∀ operand ∈ i.operands, operand.Named

instance (i : Instruction) : Decidable i.Shaped :=
  decidable_of_iff
    (i.operands.length = i.opcode.arity ∧
      (∀ entry ∈ i.operands.zipIdx, (i.opcode.purpose entry.2).admits entry.1) ∧
      ∀ operand ∈ i.operands, operand.Named)
    ⟨fun h => ⟨h.1, h.2.1, h.2.2⟩, fun h => ⟨h.wellFormed, h.placed, h.named⟩⟩

/-! ### Constants and variables -/

/-- The number that the text of a number is read as. -/
def Number.Binary64.reread (x : Number.Binary64) : Number.Binary64 :=
  (Number.readBinary64? x.text).getD x

theorem Number.readBinary64?_text (x : Number.Binary64) :
    Number.readBinary64? x.text = some x.reread := by
  obtain ⟨y, read⟩ := Option.isSome_iff_exists.mp (Number.written_text x).isSome_readBinary64?
  rw [Binary64.reread, read, Option.getD_some]

namespace Constant

/-- What stands after the at sign of a constant. -/
def body : Constant → List Char
  | .int value => Text.integerText value.toInt
  | .float value => value.text
  | .bool value => (if value then "true" else "false").toList
  | .string value => Text.escape value.toList

theorem toList_render (c : Constant) :
    c.render.toList = c.dataType.keyword.toList ++ '@' :: c.body := by
  cases c <;> simp [render, body, dataType, DataType.keyword]

/-- The constant that the text of a constant is read as. -/
def reread : Constant → Constant
  | .float x => .float x.reread
  | c => c

theorem readValue_body (c : Constant) (word : List Char) :
    Listing.readValue c.dataType.keyword.toList c.body word = .ok (.const c.reread) := by
  rw [Listing.readValue, String.ofList_toList]
  cases c with
  | int value =>
    simp [dataType, DataType.keyword, body, Text.readInt32?_integerText, reread]
  | float value =>
    simp [dataType, DataType.keyword, body, Number.readBinary64?_text, reread]
  | bool value => cases value <;> rfl
  | string value =>
    simp [dataType, DataType.keyword, body, Text.unescape?_escape, reread]

end Constant

namespace Variable

theorem toList_identifier (v : Variable) :
    v.identifier.toList = v.frame.code.toList ++ '@' :: v.name.toList := by
  simp [identifier]

theorem readValue_name (v : Variable) (word : List Char) :
    Listing.readValue v.frame.code.toList v.name.toList word = .ok (.var v) := by
  rw [Listing.readValue, String.ofList_toList, String.ofList_toList]
  obtain ⟨frame, name⟩ := v
  cases frame <;> rfl

end Variable

namespace Operand

/-- The operand that the text of an operand is read as. -/
def reread : Operand → Operand
  | .const c => .const c.reread
  | operand => operand

end Operand

namespace Listing

/-- Reads a variable or a constant. -/
def readSymbol (word : List Char) : Except Fault Operand :=
  match Text.cut? '@' word with
  | none => .error (.invalidOperand (String.ofList word))
  | some (kind, value) => readValue kind value word

/-- Reads an operand for a purpose. -/
def readPurpose (word : List Char) : Purpose → Except Fault Operand
  | .label => .ok (.label (String.ofList word))
  | .type =>
    match DataType.ofKeyword? (String.ofList word) with
    | some type => .ok (.type type)
    | none => .error (.invalidOperand (String.ofList word))
  | .target =>
    match readSymbol word with
    | .error fault => .error fault
    | .ok operand =>
      if operand.var? = none then .error (.invalidOperand (String.ofList word)) else .ok operand
  | .value => readSymbol word

/-- What an operand is read as depends on its purpose only. -/
theorem readOperand_eq (opcode : Opcode) (index : Nat) (word : List Char) :
    readOperand opcode index word = readPurpose word (opcode.purpose index) := by
  rw [readOperand, Opcode.purpose]
  split
  · rfl
  · split
    · rfl
    · by_cases target : index = 0 ∧ opcode.definesTarget
      · rw [if_pos target, readPurpose, readSymbol]
        rcases Text.cut? '@' word with - | ⟨kind, value⟩
        · rfl
        · dsimp only
          cases readValue kind value word with
          | error => rfl
          | ok operand => simp only [target.1, target.2, true_and]
      · rw [if_neg target, readPurpose, readSymbol]
        rcases Text.cut? '@' word with - | ⟨kind, value⟩
        · rfl
        · have free (operand : Operand) :
              ¬ (opcode.definesTarget ∧ index = 0 ∧ operand.var? = none) :=
            fun both => target ⟨both.2.1, both.1⟩
          dsimp only
          cases readValue kind value word with
          | error => rfl
          | ok operand => exact if_neg (free operand)

theorem readSymbol_identifier (v : Variable) : readSymbol v.identifier.toList = .ok (.var v) := by
  have unmarked : '@' ∉ v.frame.code.toList := by cases v.frame <;> decide
  simp only [readSymbol, v.toList_identifier, Text.cut?_append_cons unmarked, v.readValue_name]

theorem readSymbol_constant (c : Constant) :
    readSymbol c.render.toList = .ok (.const c.reread) := by
  have unmarked : '@' ∉ c.dataType.keyword.toList := by cases c.dataType <;> decide
  simp only [readSymbol, c.toList_render, Text.cut?_append_cons unmarked, c.readValue_body]

theorem readPurpose_render {purpose : Purpose} {operand : Operand}
    (admitted : purpose.admits operand) :
    readPurpose operand.render.toList purpose = .ok operand.reread := by
  cases purpose with
  | label =>
    cases operand <;> cases admitted
    rw [readPurpose, Operand.render, String.ofList_toList]
    rfl
  | type =>
    cases operand <;> cases admitted
    next type => cases type <;> rfl
  | target =>
    cases operand <;> cases admitted
    next v =>
      simp [readPurpose, Operand.render, readSymbol_identifier, Operand.reread, Operand.var?]
  | value =>
    cases operand <;> cases admitted
    · exact readSymbol_identifier _
    · exact readSymbol_constant _

theorem readOperands_render {opcode : Opcode} {index : Nat} {operands : List Operand}
    (placed : ∀ entry ∈ operands.zipIdx index, (opcode.purpose entry.2).admits entry.1) :
    readOperands opcode index (operands.map (·.render.toList)) =
      .ok (operands.map Operand.reread) := by
  induction operands generalizing index with
  | nil => rfl
  | cons operand rest inductionHypothesis =>
    rw [List.zipIdx_cons, List.forall_mem_cons] at placed
    rw [List.map_cons, readOperands, readOperand_eq, readPurpose_render placed.1,
      inductionHypothesis placed.2]
    rfl

end Listing

/-! ### Words of an instruction -/

theorem Opcode.mem_all (opcode : Opcode) : opcode ∈ all := by
  cases opcode <;> decide

theorem Opcode.ofMnemonic?_mnemonic (opcode : Opcode) :
    ofMnemonic? opcode.mnemonic.toList = some opcode := by
  have all : ∀ opcode ∈ all, ofMnemonic? opcode.mnemonic.toList = some opcode := by
    decide +kernel
  exact all opcode opcode.mem_all

theorem Opcode.mnemonic_ne_nil (opcode : Opcode) : opcode.mnemonic.toList ≠ [] := by
  have all : ∀ opcode ∈ all, opcode.mnemonic.toList ≠ [] := by decide +kernel
  exact all opcode opcode.mem_all

theorem Opcode.ordinary_mnemonic (opcode : Opcode) : ∀ c ∈ opcode.mnemonic.toList, Ordinary c := by
  have all : ∀ opcode ∈ all, opcode.mnemonic.toList.all fun c => decide (Ordinary c) := by
    decide +kernel
  exact forall_mem_of_all (all opcode opcode.mem_all)

theorem Frame.ordinary_code (frame : Frame) : ∀ c ∈ frame.code.toList, Ordinary c := by
  cases frame <;> exact forall_mem_of_all (by decide)

theorem DataType.ordinary_keyword (type : DataType) : ∀ c ∈ type.keyword.toList, Ordinary c := by
  cases type <;> exact forall_mem_of_all (by decide)

theorem Opcode.solid_mnemonic (opcode : Opcode) : Solid opcode.mnemonic.toList :=
  ⟨opcode.mnemonic_ne_nil, fun c inside => (opcode.ordinary_mnemonic c inside).unbroken⟩

namespace Operand

variable {operand : Operand}

theorem render_ne_nil (named : operand.Named) : operand.render.toList ≠ [] := by
  cases operand with
  | var v => simp [render, v.toList_identifier]
  | const c => simp [render, c.toList_render]
  | label name => exact named.1
  | type t => cases t <;> decide

/-- Only strings may be written with other than ordinary characters. -/
theorem ordinary_or_mem_escape (named : operand.Named) {c : Char}
    (inside : c ∈ operand.render.toList) :
    Ordinary c ∨
      ∃ text : String, operand = .const (.string text) ∧ c ∈ Text.escape text.toList := by
  cases operand with
  | var v =>
    rw [render, v.toList_identifier, List.mem_append, List.mem_cons] at inside
    obtain inside | rfl | inside := inside
    · exact .inl (v.frame.ordinary_code c inside)
    · exact .inl (by decide)
    · exact .inl (named c inside)
  | const constant =>
    rw [render, constant.toList_render, List.mem_append, List.mem_cons] at inside
    obtain inside | rfl | inside := inside
    · exact .inl (constant.dataType.ordinary_keyword c inside)
    · exact .inl (by decide)
    · cases constant with
      | int value => exact .inl (Text.ordinary_of_mem_integerText inside)
      | float value => exact .inl ((Number.written_text value).ordinary c inside)
      | bool value =>
        have word : ∀ c ∈ (Constant.bool value).body, Ordinary c := by
          cases value <;> exact forall_mem_of_all (by decide)
        exact .inl (word c inside)
      | string value => exact .inr ⟨value, rfl, inside⟩
  | label name => exact .inl (named.2 c inside)
  | type t => exact .inl (t.ordinary_keyword c inside)

theorem inline_render (named : operand.Named) {c : Char} (inside : c ∈ operand.render.toList) :
    Text.Inline c := by
  obtain ordinary | ⟨text, -, inside⟩ := ordinary_or_mem_escape named inside
  · exact ordinary.inline
  · exact Text.inline_of_mem_escape inside

theorem solid_render (named : operand.Named) (unbroken : operand.Unbroken) :
    Solid operand.render.toList := by
  refine ⟨render_ne_nil named, fun c inside => ?_⟩
  obtain ordinary | ⟨text, rfl, written⟩ := ordinary_or_mem_escape named inside
  · exact ordinary.unbroken
  · exact (Text.ordinary_of_mem_escape unbroken written).unbroken

end Operand

namespace Instruction

theorem toList_render (i : Instruction) :
    i.render.toList = i.opcode.mnemonic.toList ++ spaced (i.operands.map (·.render.toList)) := by
  have folded (text : String) (operands : List Operand) :
      (operands.foldl (fun text operand => text ++ " " ++ operand.render) text).toList =
        text.toList ++ spaced (operands.map (·.render.toList)) := by
    induction operands generalizing text with
    | nil => simp [spaced]
    | cons operand rest inductionHypothesis =>
      rw [List.foldl_cons, inductionHypothesis]
      simp [spaced]
  exact folded _ _

variable {i : Instruction}

theorem words_render (i : Instruction) :
    words i.render.toList =
      i.opcode.mnemonic.toList :: i.operands.flatMap (words ·.render.toList) := by
  rw [toList_render, Text.words_append_spaced, Text.words_of_solid i.opcode.solid_mnemonic,
    List.singleton_append, List.flatMap_map]

/-- An instruction whose strings are unbroken falls into the words it was written with. -/
theorem words_render_of_unbroken (shaped : i.Shaped)
    (unbroken : ∀ operand ∈ i.operands, operand.Unbroken) :
    words i.render.toList = i.opcode.mnemonic.toList :: i.operands.map (·.render.toList) := by
  have solid : ∀ word ∈ i.operands.map (·.render.toList), Solid word :=
    List.forall_mem_map.mpr fun operand member =>
      Operand.solid_render (shaped.named operand member) (unbroken operand member)
  rw [words_render, ← List.flatMap_map, Text.flatMap_words solid]

theorem mem_render {c : Char} (named : ∀ operand ∈ i.operands, operand.Named)
    (inside : c ∈ i.render.toList) : c = ' ' ∨ Text.Inline c := by
  rw [toList_render, List.mem_append, spaced, List.flatMap_map, List.mem_flatMap] at inside
  obtain inside | ⟨operand, member, inside⟩ := inside
  · exact .inr (i.opcode.ordinary_mnemonic c inside).inline
  · obtain rfl | inside := List.mem_cons.mp inside
    · exact .inl rfl
    · exact .inr (Operand.inline_render (named operand member) inside)

theorem unmarked_render (named : ∀ operand ∈ i.operands, operand.Named) :
    '#' ∉ i.render.toList := by
  intro inside
  obtain space | inline := mem_render named inside
  · cases space
  · exact inline.unmarked rfl

/-- The instruction that the text of an instruction is read as, with the given markers. -/
def reread (i : Instruction) (markers : Markers) : Instruction :=
  { opcode := i.opcode, operands := i.operands.map Operand.reread, markers }

end Instruction

namespace Listing

theorem readCode_of_words {code : List Char} {i : Instruction} (shaped : i.Shaped)
    (same : words code = i.opcode.mnemonic.toList :: i.operands.map (·.render.toList)) :
    readCode code = .ok (i.reread {}) := by
  have arity : ¬ (i.operands.map (·.render.toList)).length ≠ i.opcode.arity := by
    rw [List.length_map, not_not]
    exact shaped.wellFormed
  simp only [readCode, same, List.headD_cons, List.tail_cons, i.opcode.ofMnemonic?_mnemonic]
  rw [if_neg arity, readOperands_render shaped.placed]
  rfl

/-! ### Comments -/

theorem mem_annotations {m : Markers} {word : String} :
    word ∈ annotations m ↔
      (m.functionStart ∧ word = "@function-start") ∨ (m.functionEnd ∧ word = "@function-end") ∨
      (m.expressionStart ∧ word = "@expression-start") ∨
      (m.expressionEnd ∧ word = "@expression-end") := by
  obtain ⟨functionStart, functionEnd, expressionStart, expressionEnd⟩ := m
  cases functionStart <;> cases functionEnd <;> cases expressionStart <;> cases expressionEnd <;>
    simp [annotations]

/-- What stands behind the code of a line to give its markers. -/
def note (m : Markers) : List Char :=
  match annotations m with
  | [] => []
  | words => ' ' :: '#' :: spaced (words.map String.toList)

/-- The line of an instruction with the given markers. -/
def line (i : Instruction) (m : Markers) : List Char :=
  i.render.toList ++ note m

theorem toList_annotatedLine (i : Instruction) :
    (annotatedLine i).toList = line i i.markers := by
  rw [annotatedLine, line, note]
  cases annotations i.markers with
  | nil => rw [List.append_nil]
  | cons word rest =>
    dsimp only
    rw [List.map_cons, ← Text.cons_intercalate]
    simp

theorem readAnnotations_annotations (m : Markers) :
    readAnnotations (annotationWords (spaced ((annotations m).map String.toList))) = .ok m := by
  obtain ⟨functionStart, functionEnd, expressionStart, expressionEnd⟩ := m
  cases functionStart <;> cases functionEnd <;> cases expressionStart <;> cases expressionEnd <;>
    rfl

/-- The words of the code and the markers are found again in a line. -/
theorem splitComment_append_note {code : List Char} (unmarked : '#' ∉ code) (m : Markers) :
    words (splitComment (code ++ note m)).1 = words code ∧
      readAnnotations (annotationWords (splitComment (code ++ note m)).2) = .ok m := by
  have found := readAnnotations_annotations m
  rw [note]
  split
  · next none =>
    rw [none] at found
    rw [List.append_nil, splitComment, Text.cut?_eq_none_iff.mpr unmarked]
    exact ⟨Text.words_trim code, found⟩
  · have spaceless : '#' ∉ code ++ [' '] := by simp [unmarked]
    have divided := Text.cut?_append_cons spaceless (spaced ((annotations m).map String.toList))
    rw [List.append_assoc, List.singleton_append] at divided
    rw [splitComment, divided]
    exact ⟨(Text.words_trim _).trans (Text.words_concat_blank rfl code), found⟩

variable {i : Instruction}

theorem splitComment_line (named : ∀ operand ∈ i.operands, operand.Named) (m : Markers) :
    words (splitComment (line i m)).1 = words i.render.toList ∧
      readAnnotations (annotationWords (splitComment (line i m)).2) = .ok m :=
  splitComment_append_note (Instruction.unmarked_render named) m

theorem filled_splitComment (named : ∀ operand ∈ i.operands, operand.Named) (m : Markers) :
    (splitComment (line i m)).1.isEmpty = false := by
  have code := (splitComment_line named m).1
  rw [List.isEmpty_eq_false_iff]
  intro empty
  rw [empty, i.words_render] at code
  cases code

theorem readLine_line (shaped : i.Shaped) (unbroken : ∀ operand ∈ i.operands, operand.Unbroken)
    (m : Markers) : readLine (line i m) = .ok (some (i.reread m)) := by
  obtain ⟨code, markers⟩ := splitComment_line shaped.named m
  rw [Instruction.words_render_of_unbroken shaped unbroken] at code
  simp only [readLine, filled_splitComment shaped.named, readCode_of_words shaped code, markers]
  rfl

/-! ### Lines -/

theorem toList_joinLines (lines : List String) :
    (joinLines lines).toList = (lines.map String.toList).flatMap (· ++ ['\n']) := by
  have folded (text : String) :
      (lines.foldl (fun text line => text ++ line ++ "\n") text).toList =
        text.toList ++ (lines.map String.toList).flatMap (· ++ ['\n']) := by
    induction lines generalizing text with
    | nil => simp
    | cons line rest inductionHypothesis =>
      rw [List.foldl_cons, inductionHypothesis]
      simp
  exact folded ""

theorem single_note (m : Markers) : ∀ c ∈ note m, c ≠ '\n' ∧ c ≠ '\r' := by
  have single : ∀ word ∈ (annotations m).map String.toList, ∀ c ∈ ' ' :: word,
      c ≠ '\n' ∧ c ≠ '\r' := by
    refine List.forall_mem_map.mpr fun word member => ?_
    obtain ⟨-, rfl⟩ | ⟨-, rfl⟩ | ⟨-, rfl⟩ | ⟨-, rfl⟩ := mem_annotations.mp member <;>
      exact forall_mem_of_all (by decide +kernel)
  rw [note]
  split
  · exact fun c inside => absurd inside List.not_mem_nil
  · refine List.forall_mem_cons.mpr ⟨by decide, List.forall_mem_cons.mpr ⟨by decide, ?_⟩⟩
    intro c inside
    obtain ⟨word, member, inside⟩ := List.mem_flatMap.mp inside
    exact single word member c inside

theorem single_line (named : ∀ operand ∈ i.operands, operand.Named) (m : Markers) :
    ∀ c ∈ line i m, c ≠ '\n' ∧ c ≠ '\r' := by
  refine List.forall_mem_append.mpr ⟨fun c inside => ?_, single_note m⟩
  obtain rfl | inline := Instruction.mem_render named inside
  · decide
  · constructor
    · rintro rfl
      exact absurd (inline.high rfl) (by decide)
    · rintro rfl
      exact absurd (inline.high rfl) (by decide)

variable {code : List Instruction} {write : Instruction → String} {mark : Instruction → Markers}

theorem lines_joinLines (written : ∀ i, (write i).toList = line i (mark i))
    (named : ∀ i ∈ code, ∀ operand ∈ i.operands, operand.Named) :
    Text.lines (joinLines (header :: code.map write)).toList =
      header.toList :: code.map fun i => line i (mark i) := by
  have each : (header :: code.map write).map String.toList =
      header.toList :: code.map fun i => line i (mark i) := by
    simp [written]
  have single : ∀ text ∈ header.toList :: code.map fun i => line i (mark i),
      ∀ c ∈ text, c ≠ '\n' ∧ c ≠ '\r' :=
    List.forall_mem_cons.mpr ⟨forall_mem_of_all (by decide),
      List.forall_mem_map.mpr fun i member => single_line (named i member) (mark i)⟩
  rw [toList_joinLines, each]
  exact Text.lines_of_ended (fun text member feed => (single text member _ feed).1 rfl)
    fun text member ret => (single text member _ ret).2 rfl

theorem read_joinLines (written : ∀ i, (write i).toList = line i (mark i))
    (named : ∀ i ∈ code, ∀ operand ∈ i.operands, operand.Named) :
    read (joinLines (header :: code.map write)) =
      readBody 2 (code.map fun i => line i (mark i)) := by
  rw [read, lines_joinLines written named]
  rfl

theorem readBody_map (shaped : ∀ i ∈ code, i.Shaped)
    (unbroken : ∀ i ∈ code, ∀ operand ∈ i.operands, operand.Unbroken) (number : Nat) :
    readBody number (code.map fun i => line i (mark i)) =
      .ok (code.map fun i => i.reread (mark i)) := by
  induction code generalizing number with
  | nil => rfl
  | cons i rest inductionHypothesis =>
    rw [List.forall_mem_cons] at shaped unbroken
    rw [List.map_cons, readBody, readLine_line shaped.1 unbroken.1,
      inductionHypothesis shaped.2 unbroken.2]
    rfl

/-- A program whose strings are unbroken is read again, except that its numbers are read as what
is written for them. -/
theorem read_joinLines_of_unbroken
    (written : ∀ i, (write i).toList = line i (mark i))
    (shaped : ∀ i ∈ code, i.Shaped)
    (unbroken : ∀ i ∈ code, ∀ operand ∈ i.operands, operand.Unbroken) :
    read (joinLines (header :: code.map write)) = .ok (code.map fun i => i.reread (mark i)) := by
  rw [read_joinLines written fun i member => (shaped i member).named,
    readBody_map shaped unbroken]

theorem read_annotated (shaped : ∀ i ∈ code, i.Shaped)
    (unbroken : ∀ i ∈ code, ∀ operand ∈ i.operands, operand.Unbroken) :
    read (annotated code) = .ok (code.map fun i => i.reread i.markers) :=
  read_joinLines_of_unbroken toList_annotatedLine shaped unbroken

theorem read_plain (shaped : ∀ i ∈ code, i.Shaped)
    (unbroken : ∀ i ∈ code, ∀ operand ∈ i.operands, operand.Unbroken) :
    read (plain code) = .ok (code.map fun i => i.reread {}) :=
  read_joinLines_of_unbroken (fun i => (List.append_nil i.render.toList).symm) shaped unbroken

/-! ### Programs without numbers -/

theorem reread_of_numberless (numberless : ∀ x, .const (.float x) ∉ i.operands)
    (m : Markers) : i.reread m = { i with markers := m, effects := {} } := by
  have kept : ∀ operand ∈ i.operands, operand.reread = operand := by
    intro operand member
    cases operand with
    | const c =>
      cases c with
      | float x => exact absurd member (numberless x)
      | int | bool | string => rfl
    | var | label | type => rfl
  rw [Instruction.reread, List.map_congr_left kept, List.map_id']

/-- Reading undoes writing: a program without numbers whose operands are in their places, whose
names have ordinary characters only and whose strings have no white space above the space is read
again as it was written, with its markers from the annotated listing and without them from the
plain one. The effects of expressions are not written. -/
theorem reading_undoes_writing (shaped : ∀ i ∈ code, i.Shaped)
    (unbroken : ∀ i ∈ code, ∀ operand ∈ i.operands, operand.Unbroken)
    (numberless : ∀ i ∈ code, ∀ x, .const (.float x) ∉ i.operands) :
    read (annotated code) = .ok (code.map fun i => { i with effects := {} }) ∧
      read (plain code) = .ok (code.map fun i => { i with markers := {}, effects := {} }) := by
  rw [read_annotated shaped unbroken, read_plain shaped unbroken]
  have same (mark : Instruction → Markers) : (code.map fun i => i.reread (mark i)) =
      code.map fun i => { i with markers := mark i, effects := {} } :=
    List.map_congr_left fun i member => reread_of_numberless (numberless i member) (mark i)
  exact ⟨congrArg _ (same Instruction.markers), congrArg _ (same fun _ => {})⟩

/-- A program that reads a number and repeats a line of text, with every kind of operand but a
floating-point one. -/
def repeatedLine : List Instruction :=
  [{ opcode := .label, operands := [.label "$main"], markers := { functionStart := true } },
   { opcode := .read, operands := [.var ⟨.gf, "count"⟩, .type .int] },
   { opcode := .move, operands := [.var ⟨.lf, ""⟩, .const (.string "tab\t#\\ é")],
     markers := { expressionStart := true, expressionEnd := true }, effects := .all },
   { opcode := .jumpifeq,
     operands := [.label "$main", .const (.int (-5)), .const (.bool true)] },
   { opcode := .ret, operands := [], markers := { functionEnd := true } }]

theorem reading_undoes_writing_repeatedLine :
    ((∀ i ∈ repeatedLine, i.Shaped) ∧
      (∀ i ∈ repeatedLine, ∀ operand ∈ i.operands, operand.Unbroken) ∧
      ∀ i ∈ repeatedLine, ∀ x, .const (.float x) ∉ i.operands) ∧
    read (annotated repeatedLine) = .ok (repeatedLine.map fun i => { i with effects := {} }) ∧
      read (plain repeatedLine) =
        .ok (repeatedLine.map fun i => { i with markers := {}, effects := {} }) := by
  have shaped : ∀ i ∈ repeatedLine, i.Shaped := by decide +kernel
  have unbroken : ∀ i ∈ repeatedLine, ∀ operand ∈ i.operands, operand.Unbroken := by
    decide +kernel
  have numberless : ∀ i ∈ repeatedLine, ∀ x, .const (.float x) ∉ i.operands := by
    simp [repeatedLine]
  exact ⟨⟨shaped, unbroken, numberless⟩, reading_undoes_writing shaped unbroken numberless⟩

end Listing

end ThreeAddress
