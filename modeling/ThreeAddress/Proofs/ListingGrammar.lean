/-
The grammar of listings, and what is said of a listing that breaks it. The first
line with code is the header, and every later one is a mnemonic, one word for each
operand, and annotations in its comment. Which words stand for an operand depends
on its place alone. The relations here say what a word or a line denotes without
regard to how it is read.

Reading gives a program for exactly the listings of the grammar, with one
instruction for each line behind the header that has code. Of any other listing it
names the first line that breaks the grammar, and it has not looked behind that
line: whatever follows there, the answer is the same. A listing without any code
has no such line and is answered by line one.
-/
import Mathlib.Data.List.Forall2
import Mathlib.Data.List.TakeWhile
import ThreeAddress.Proofs.ListingReread
import ThreeAddress.Proofs.LiteralGrammar

namespace ThreeAddress

open Number (Double)
open Text (Escaped Integer sameLetters words)

/-! ### Names of opcodes and types -/

theorem Opcode.ofMnemonic?_eq_some_iff {word : List Char} {opcode : Opcode} :
    ofMnemonic? word = some opcode ↔ sameLetters word opcode.mnemonic.toList := by
  constructor
  · intro found
    have same := List.find?_some found
    rw [sameLetters, beq_iff_eq] at same ⊢
    exact same.symm
  · intro same
    rw [← opcode.ofMnemonic?_mnemonic, ofMnemonic?, ofMnemonic?]
    simp only [sameLetters, beq_iff_eq.mp same]

theorem DataType.ofKeyword?_eq_some_iff {word : String} {type : DataType} :
    ofKeyword? word = some type ↔ word = type.keyword := by
  constructor
  · intro found
    have same := List.find?_some found
    exact (of_decide_eq_true same).symm
  · rintro rfl
    cases type <;> rfl

namespace Listing

/-! ### Operands -/

/-- The words for variables and constants, and what they stand for. -/
inductive Value : List Char → Operand → Prop
  | var (frame : Frame) (name : List Char) :
      Value (frame.code.toList ++ '@' :: name) (.var ⟨frame, String.ofList name⟩)
  | int {text : List Char} {n : Int32} (integer : Integer text n.toInt) :
      Value ("int".toList ++ '@' :: text) (.const (.int n))
  | float {text : List Char} {x : Number.Binary64} (double : Double text x) :
      Value ("float".toList ++ '@' :: text) (.const (.float x))
  | bool (value : Bool) :
      Value ("bool".toList ++ '@' :: (if value then "true" else "false").toList)
        (.const (.bool value))
  | string {text string : List Char} (escaped : Escaped text string) :
      Value ("string".toList ++ '@' :: text) (.const (.string (String.ofList string)))

/-- The words for operands that serve a purpose. -/
inductive Fits : Purpose → List Char → Operand → Prop
  | label (word : List Char) : Fits .label word (.label (String.ofList word))
  | type (type : DataType) : Fits .type type.keyword.toList (.type type)
  | target {word : List Char} {v : Variable} (value : Value word (.var v)) :
      Fits .target word (.var v)
  | value {word : List Char} {operand : Operand} (value : Value word operand) :
      Fits .value word operand

theorem toList_of_ofList {kind : List Char} {name : String} (same : String.ofList kind = name) :
    kind = name.toList := by
  rw [← same, String.toList_ofList]

theorem value_of_readValue {kind value word : List Char} {operand : Operand}
    (read : readValue kind value word = .ok operand) : Value (kind ++ '@' :: value) operand := by
  unfold readValue at read
  dsimp only at read
  split at read
  · next same =>
    cases read
    exact toList_of_ofList same ▸ .var .gf value
  · next same =>
    cases read
    exact toList_of_ofList same ▸ .var .lf value
  · next same =>
    cases read
    exact toList_of_ofList same ▸ .var .tf value
  · next same =>
    cases number : Text.readInt32? value with
    | none => simp [number] at read
    | some n =>
      rw [number] at read
      cases read
      exact toList_of_ofList same ▸ .int (Text.readInt32?_eq_some_iff.mp number)
  · next same =>
    cases number : Number.readBinary64? value with
    | none => simp [number] at read
    | some x =>
      rw [number] at read
      cases read
      exact toList_of_ofList same ▸ .float (Number.readBinary64?_eq_some_iff.mp number)
  · next same =>
    split at read
    · next isTrue =>
      cases read
      exact toList_of_ofList same ▸ toList_of_ofList isTrue ▸ .bool true
    · next isFalse =>
      cases read
      exact toList_of_ofList same ▸ toList_of_ofList isFalse ▸ .bool false
    · cases read
  · next same =>
    cases unescaped : Text.unescape? value with
    | none => simp [unescaped] at read
    | some text =>
      rw [unescaped] at read
      cases read
      exact toList_of_ofList same ▸ .string (Text.unescape?_eq_some_iff.mp unescaped)
  · cases read

theorem readValue_int (value word : List Char) :
    readValue "int".toList value word =
      match (Text.readInt32? value).map fun n => Operand.const (.int n) with
      | some operand => .ok operand
      | none => .error (.invalidOperand (String.ofList word)) := rfl

theorem readValue_float (value word : List Char) :
    readValue "float".toList value word =
      match (Number.readBinary64? value).map fun x => Operand.const (.float x) with
      | some operand => .ok operand
      | none => .error (.invalidOperand (String.ofList word)) := rfl

theorem readSymbol_append {kind : List Char} (unmarked : '@' ∉ kind) (value : List Char) :
    readSymbol (kind ++ '@' :: value) = readValue kind value (kind ++ '@' :: value) := by
  rw [readSymbol, Text.cut?_append_cons unmarked]

theorem readSymbol_eq_ok_iff {word : List Char} {operand : Operand} :
    readSymbol word = .ok operand ↔ Value word operand := by
  constructor
  · intro read
    rw [readSymbol] at read
    cases divided : Text.cut? '@' word with
    | none => simp [divided] at read
    | some parts =>
      rw [divided] at read
      obtain ⟨-, whole⟩ := Text.cut?_eq_some divided
      exact whole ▸ value_of_readValue read
  · intro value
    cases value with
    | var frame name =>
      rw [readSymbol_append (by cases frame <;> decide)]
      cases frame <;> rfl
    | int integer =>
      rw [readSymbol_append (by decide), readValue_int, Text.readInt32?_eq_some_iff.mpr integer]
      rfl
    | float double =>
      rw [readSymbol_append (by decide), readValue_float,
        Number.readBinary64?_eq_some_iff.mpr double]
      rfl
    | bool value =>
      rw [readSymbol_append (by decide)]
      cases value <;> rfl
    | string escaped =>
      rw [readSymbol_append (by decide), readValue_string,
        Text.unescape?_eq_some_iff.mpr escaped]

theorem readPurpose_eq_ok_iff {purpose : Purpose} {word : List Char} {operand : Operand} :
    readPurpose word purpose = .ok operand ↔ Fits purpose word operand := by
  constructor
  · intro read
    cases purpose with
    | label =>
      cases read
      exact .label word
    | type =>
      rw [readPurpose] at read
      split at read
      · next type found =>
        cases read
        have same := toList_of_ofList (DataType.ofKeyword?_eq_some_iff.mp found)
        exact same ▸ .type type
      · cases read
    | target =>
      rw [readPurpose] at read
      cases symbol : readSymbol word with
      | error => simp [symbol] at read
      | ok found =>
        simp only [symbol] at read
        split at read
        · cases read
        · next isVar =>
          cases read
          cases operand with
          | var v => exact .target (readSymbol_eq_ok_iff.mp symbol)
          | const | label | type => exact absurd rfl isVar
    | value => exact .value (readSymbol_eq_ok_iff.mp read)
  · intro fits
    cases fits with
    | label => rfl
    | type type => cases type <;> rfl
    | target value =>
      rw [readPurpose, readSymbol_eq_ok_iff.mpr value]
      rfl
    | value value => exact readSymbol_eq_ok_iff.mpr value

/-- Operands are read from words that fit their places one by one. -/
theorem readOperands_eq_ok_iff {opcode : Opcode} {index : Nat} {list : List (List Char)}
    {operands : List Operand} :
    readOperands opcode index list = .ok operands ↔
      List.Forall₂ (fun entry operand => Fits (opcode.purpose entry.2) entry.1 operand)
        (list.zipIdx index) operands := by
  induction list generalizing index operands with
  | nil =>
    rw [readOperands, List.zipIdx_nil, List.forall₂_nil_left_iff, Except.ok.injEq]
    exact eq_comm
  | cons word rest inductionHypothesis =>
    rw [List.zipIdx_cons]
    constructor
    · intro read
      obtain ⟨operand, others, first, later, rfl⟩ := readOperands_cons read
      exact .cons (readPurpose_eq_ok_iff.mp first) (inductionHypothesis.mp later)
    · rintro (_ | ⟨first, later⟩)
      rw [readOperands, readOperand_eq, readPurpose_eq_ok_iff.mpr first,
        inductionHypothesis.mpr later]
      rfl

/-! ### Annotations -/

theorem mem_annotations_union {a b : Markers} {word : String} :
    word ∈ annotations (a.union b) ↔ word ∈ annotations a ∨ word ∈ annotations b := by
  simp only [mem_annotations, Markers.union, Bool.or_eq_true, or_and_right]
  exact Iff.of_eq (by ac_rfl)

/-- Markers are told apart by their annotations. -/
theorem eq_of_annotations {a b : Markers}
    (same : ∀ word, word ∈ annotations a ↔ word ∈ annotations b) : a = b := by
  simp only [mem_annotations] at same
  have functionStart := same "@function-start"
  have functionEnd := same "@function-end"
  have expressionStart := same "@expression-start"
  have expressionEnd := same "@expression-end"
  obtain ⟨a₁, a₂, a₃, a₄⟩ := a
  obtain ⟨b₁, b₂, b₃, b₄⟩ := b
  simp_all

theorem annotations_of_noteMarkers? {word : String} {markers : Markers}
    (known : noteMarkers? word = some markers) : annotations markers = [word] := by
  unfold noteMarkers? at known
  split at known <;> cases known <;> rfl

theorem isSome_noteMarkers? {word : String} {markers : Markers}
    (note : word ∈ annotations markers) : (noteMarkers? word).isSome := by
  obtain ⟨-, rfl⟩ | ⟨-, rfl⟩ | ⟨-, rfl⟩ | ⟨-, rfl⟩ := mem_annotations.mp note <;> rfl

theorem mem_of_readAnnotations {list : List (List Char)} {markers : Markers}
    (read : readAnnotations list = .ok markers) (word : List Char) :
    word ∈ list ↔ String.ofList word ∈ annotations markers := by
  induction list generalizing markers with
  | nil =>
    cases read
    simp [annotations]
  | cons first rest inductionHypothesis =>
    rw [readAnnotations] at read
    split at read
    · cases read
    · next single known =>
      cases later : readAnnotations rest with
      | error => rw [later] at read; cases read
      | ok others =>
        rw [later] at read
        cases read
        rw [mem_annotations_union, annotations_of_noteMarkers? known, List.mem_cons,
          List.mem_singleton, inductionHypothesis later, String.ofList_inj]

theorem exists_readAnnotations {list : List (List Char)}
    (known : ∀ word ∈ list, (noteMarkers? (String.ofList word)).isSome) :
    ∃ markers, readAnnotations list = .ok markers := by
  induction list with
  | nil => exact ⟨{}, rfl⟩
  | cons first rest inductionHypothesis =>
    rw [List.forall_mem_cons] at known
    obtain ⟨single, isSingle⟩ := Option.isSome_iff_exists.mp known.1
    obtain ⟨others, later⟩ := inductionHypothesis known.2
    refine ⟨single.union others, ?_⟩
    rw [readAnnotations, isSingle, later]
    rfl

/-- The markers read from a list are those whose annotations are its words. -/
theorem readAnnotations_eq_ok_iff {list : List (List Char)} {markers : Markers} :
    readAnnotations list = .ok markers ↔
      ∀ word, word ∈ list ↔ String.ofList word ∈ annotations markers := by
  refine ⟨mem_of_readAnnotations, fun same => ?_⟩
  obtain ⟨found, read⟩ := exists_readAnnotations fun word inside =>
    isSome_noteMarkers? ((same word).mp inside)
  rw [read, Except.ok.injEq]
  refine eq_of_annotations fun word => ?_
  rw [← String.ofList_toList (s := word), ← same, mem_of_readAnnotations read]

/-! ### Lines -/

/-- What stands in a line before the first number sign, without white space around it. -/
def codeOf (line : List Char) : List Char :=
  Text.trim (line.takeWhile (· ≠ '#'))

/-- What stands in a line behind the first number sign. -/
def commentOf (line : List Char) : List Char :=
  (line.dropWhile (· ≠ '#')).tail

/-- Whether a line has code. -/
def filled (line : List Char) : Bool :=
  !(codeOf line).isEmpty

theorem splitComment_eq (line : List Char) :
    splitComment line = (codeOf line, commentOf line) := by
  rw [splitComment]
  split
  · next code comment divided =>
    obtain ⟨unmarked, rfl⟩ := Text.cut?_eq_some divided
    have apart : ∀ c ∈ code, decide (c ≠ '#') = true := fun c inside =>
      decide_eq_true fun same => unmarked (same ▸ inside)
    rw [codeOf, commentOf, List.takeWhile_append_of_pos apart, List.dropWhile_append_of_pos apart]
    simp
  · next undivided =>
    have apart : ∀ c ∈ line, decide (c ≠ '#') = true := fun c inside =>
      decide_eq_true fun same => Text.cut?_eq_none_iff.mp undivided (same ▸ inside)
    rw [codeOf, commentOf, List.takeWhile_eq_self_iff.mpr apart,
      List.dropWhile_eq_nil_iff.mpr apart]
    rfl

/-- The instruction that a line behind the header stands for. -/
structure Denotes (line : List Char) (i : Instruction) : Prop where
  code : ∃ name arguments, words (codeOf line) = name :: arguments ∧
    sameLetters name i.opcode.mnemonic.toList ∧ arguments.length = i.opcode.arity ∧
    List.Forall₂ (fun entry operand => Fits (i.opcode.purpose entry.2) entry.1 operand)
      arguments.zipIdx i.operands
  notes : ∀ word, word ∈ words (commentOf line) ∧ word.head? = some '@' ↔
    String.ofList word ∈ annotations i.markers
  effects : i.effects = {}

/-- Whether a line may stand behind the header. -/
def Legal (line : List Char) : Prop :=
  ∃ i, Denotes line i

theorem Denotes.filled {line : List Char} {i : Instruction} (denotes : Denotes line i) :
    filled line := by
  obtain ⟨name, arguments, code, -⟩ := denotes.code
  rw [Listing.filled, Bool.not_eq_true', List.isEmpty_eq_false_iff]
  intro empty
  rw [empty] at code
  cases code

theorem Found.denotes {line : List Char} {i : Instruction} (found : Found line i) :
    Denotes line i := by
  obtain ⟨opcode, arity, operands, markers, effects⟩ := found
  rw [splitComment_eq] at opcode arity operands markers
  refine ⟨?_, fun word => ?_, effects⟩
  · cases code : words (codeOf line) with
    | nil =>
      rw [code] at opcode
      cases opcode
    | cons name arguments =>
      rw [code] at opcode arity operands
      exact ⟨name, arguments, rfl, Opcode.ofMnemonic?_eq_some_iff.mp opcode, arity,
        readOperands_eq_ok_iff.mp operands⟩
  · rw [← readAnnotations_eq_ok_iff.mp markers, annotationWords, List.mem_filter,
      decide_eq_true_eq]

theorem Denotes.readLine {line : List Char} {i : Instruction} (denotes : Denotes line i) :
    readLine line = .ok (some i) := by
  have filled := denotes.filled
  obtain ⟨⟨name, arguments, code, opcode, arity, operands⟩, notes, effects⟩ := denotes
  have markers : readAnnotations (annotationWords (commentOf line)) = .ok i.markers := by
    refine readAnnotations_eq_ok_iff.mpr fun word => ?_
    rw [← notes, annotationWords, List.mem_filter, decide_eq_true_eq]
  have read : readCode (codeOf line) = .ok { opcode := i.opcode, operands := i.operands } := by
    rw [readCode, code, List.headD_cons, List.tail_cons,
      Opcode.ofMnemonic?_eq_some_iff.mpr opcode]
    dsimp only
    rw [if_neg (not_not.mpr arity), readOperands_eq_ok_iff.mpr operands]
    rfl
  rw [Listing.readLine, splitComment_eq]
  dsimp only
  rw [if_neg (by simpa [Listing.filled] using filled), read, markers]
  obtain ⟨opcode, operands, markers, effects⟩ := i
  cases effects
  rfl

/-- A line is read as the instruction that it stands for. -/
theorem readLine_eq_some_iff {line : List Char} {i : Instruction} :
    readLine line = .ok (some i) ↔ Denotes line i :=
  ⟨fun read => (found_of_readLine read).denotes, Denotes.readLine⟩

theorem readLine_eq_none_iff {line : List Char} :
    readLine line = .ok none ↔ filled line = false := by
  rw [filled, Bool.not_eq_false']
  constructor
  · intro read
    obtain ⟨empty, -⟩ | ⟨i, some, -⟩ := readLine_cases read
    · rwa [splitComment_eq] at empty
    · cases some
  · intro empty
    rw [readLine, splitComment_eq]
    exact if_pos empty

/-- A line that cannot be read has code and stands for nothing. -/
theorem illegal_of_readLine {line : List Char} {fault : Fault}
    (failed : readLine line = .error fault) : filled line ∧ ¬Legal line := by
  constructor
  · cases code : filled line with
    | true => rfl
    | false => cases failed.symm.trans (readLine_eq_none_iff.mpr code)
  · rintro ⟨i, denotes⟩
    cases failed.symm.trans denotes.readLine

/-! ### Listings -/

/-- The program that the lines of a listing stand for. -/
def Reads (lines : List (List Char)) (code : List Instruction) : Prop :=
  ∃ first body, lines.filter filled = first :: body ∧ sameLetters (codeOf first) header.toList ∧
    List.Forall₂ Denotes body code

theorem readBody_eq_ok_iff {number : Nat} {lines : List (List Char)} {code : List Instruction} :
    readBody number lines = .ok code ↔ List.Forall₂ Denotes (lines.filter filled) code := by
  induction lines generalizing number code with
  | nil =>
    rw [readBody, List.filter_nil, List.forall₂_nil_left_iff, Except.ok.injEq]
    exact eq_comm
  | cons line rest inductionHypothesis =>
    constructor
    · intro read
      obtain ⟨empty, later⟩ | ⟨i, others, first, later, rfl⟩ := readBody_cons read
      · have unfilled := readLine_eq_none_iff.mp empty
        rw [List.filter_cons_of_neg (by simp [unfilled])]
        exact inductionHypothesis.mp later
      · have denotes := readLine_eq_some_iff.mp first
        rw [List.filter_cons_of_pos denotes.filled]
        exact .cons denotes (inductionHypothesis.mp later)
    · intro denotes
      rw [readBody]
      cases code : filled line with
      | false =>
        rw [List.filter_cons_of_neg (by simp [code])] at denotes
        rw [readLine_eq_none_iff.mpr code]
        exact inductionHypothesis.mpr denotes
      | true =>
        rw [List.filter_cons_of_pos code] at denotes
        obtain _ | ⟨first, later⟩ := denotes
        rw [first.readLine, inductionHypothesis.mpr later]
        rfl

theorem readHeader_eq_ok_iff {number : Nat} {lines : List (List Char)}
    {code : List Instruction} : readHeader number lines = .ok code ↔ Reads lines code := by
  induction lines generalizing number with
  | nil => simp [readHeader, Reads]
  | cons line rest inductionHypothesis =>
    rw [readHeader, splitComment_eq]
    dsimp only
    split
    · next empty =>
      have unfilled : ¬filled line := by simpa [filled] using empty
      rw [inductionHypothesis, Reads, Reads, List.filter_cons_of_neg unfilled]
    · next nonempty =>
      have full : filled line := by simpa [filled] using nonempty
      rw [Reads, List.filter_cons_of_pos full]
      split
      · next same =>
        rw [readBody_eq_ok_iff]
        constructor
        · exact fun denotes => ⟨line, _, rfl, same, denotes⟩
        · rintro ⟨first, body, ⟨rfl, rfl⟩, -, denotes⟩
          exact denotes
      · next differs =>
        refine iff_of_false (by simp) ?_
        rintro ⟨first, body, ⟨rfl, rfl⟩, same, -⟩
        exact absurd same differs

/-- Whether a line breaks the grammar: it has code, and it stands for nothing or, if no line with
code comes before it, is not the header. Lines are `headed` if they follow one with code. -/
def Breaks (headed : Bool) (lines : List (List Char)) (index : Nat) : Prop :=
  ∃ line, lines[index]? = some line ∧ filled line ∧
    if headed || (lines.take index).any filled then ¬Legal line
    else ¬sameLetters (codeOf line) header.toList

theorem breaks_cons_succ {headed : Bool} {line : List Char} {lines : List (List Char)}
    {index : Nat} : Breaks headed (line :: lines) (index + 1) ↔
      Breaks (headed || filled line) lines index := by
  rw [Breaks, Breaks, List.getElem?_cons_succ, List.take_succ_cons, List.any_cons, Bool.or_assoc]

/-- The line that an error is about, of which nothing behind it is read. -/
structure Blames (headed : Bool) (reader : List (List Char) → Except Error (List Instruction))
    (lines : List (List Char)) (index : Nat) (e : Error) : Prop where
  breaks : Breaks headed lines index
  first : ∀ earlier < index, ¬Breaks headed lines earlier
  unread : ∀ others, others.take (index + 1) = lines.take (index + 1) → reader others = .error e

namespace Blames

variable {headed behind : Bool} {reader inner : List (List Char) → Except Error (List Instruction)}
  {line : List Char} {lines : List (List Char)} {index : Nat} {e : Error}

theorem here (breaks : Breaks headed (line :: lines) 0)
    (fails : ∀ rest, reader (line :: rest) = .error e) :
    Blames headed reader (line :: lines) 0 e := by
  refine ⟨breaks, fun _ earlier => absurd earlier (Nat.not_lt_zero _), fun others same => ?_⟩
  cases others with
  | nil => cases same
  | cons other rest =>
    cases (List.cons.inj same).1
    exact fails rest

theorem later (blames : Blames behind inner lines index e)
    (passed : (headed || filled line) = behind) (intact : ¬Breaks headed (line :: lines) 0)
    (fails : ∀ rest, inner rest = .error e → reader (line :: rest) = .error e) :
    Blames headed reader (line :: lines) (index + 1) e := by
  cases passed
  refine ⟨breaks_cons_succ.mpr blames.breaks, fun earlier before => ?_, fun others same => ?_⟩
  · cases earlier with
    | zero => exact intact
    | succ earlier =>
      rw [breaks_cons_succ]
      exact blames.first earlier (Nat.lt_of_succ_lt_succ before)
  · cases others with
    | nil => cases same
    | cons other rest =>
      rw [List.take_succ_cons, List.take_succ_cons, List.cons.injEq] at same
      cases same.1
      exact fails rest (blames.unread rest same.2)

end Blames

theorem readBody_cons_eq_error_iff {number : Nat} {line : List Char} {lines : List (List Char)}
    {result : Option Instruction} {e : Error} (first : readLine line = .ok result) :
    readBody number (line :: lines) = .error e ↔ readBody (number + 1) lines = .error e := by
  cases result with
  | none => rw [readBody, first]
  | some i =>
    rw [readBody, first]
    dsimp only
    cases readBody (number + 1) lines with
    | error other => rfl
    | ok code => simp [Except.map]

theorem readBody_error {number : Nat} {lines : List (List Char)} {e : Error}
    (failed : readBody number lines = .error e) :
    ∃ index, e.line = number + index ∧ Blames true (readBody number) lines index e := by
  induction lines generalizing number with
  | nil => cases failed
  | cons line rest inductionHypothesis =>
    cases first : readLine line with
    | error fault =>
      have fails : ∀ rest, readBody number (line :: rest) = .error ⟨fault, number⟩ := by
        intro rest
        rw [readBody, first]
      cases failed.symm.trans (fails rest)
      obtain ⟨code, illegal⟩ := illegal_of_readLine first
      exact ⟨0, rfl, .here ⟨line, rfl, code, illegal⟩ fails⟩
    | ok result =>
      have intact : ¬Breaks true (line :: rest) 0 := by
        rintro ⟨_, ⟨⟩, code, illegal⟩
        cases result with
        | none => simp [readLine_eq_none_iff.mp first] at code
        | some i => exact illegal ⟨i, readLine_eq_some_iff.mp first⟩
      obtain ⟨index, same, blames⟩ :=
        inductionHypothesis ((readBody_cons_eq_error_iff first).mp failed)
      exact ⟨index + 1, by omega, blames.later rfl intact fun _ =>
        (readBody_cons_eq_error_iff first).mpr⟩

theorem readHeader_error {number : Nat} {lines : List (List Char)} {e : Error}
    (failed : readHeader number lines = .error e) :
    (∀ line ∈ lines, ¬filled line) ∧ e = ⟨.missingHeader, 1⟩ ∨
      ∃ index, e.line = number + index ∧ Blames false (readHeader number) lines index e := by
  induction lines generalizing number with
  | nil =>
    cases failed
    exact .inl ⟨List.forall_mem_nil _, rfl⟩
  | cons line rest inductionHypothesis =>
    cases code : filled line with
    | false =>
      have goesOn : ∀ rest, readHeader number (line :: rest) = readHeader (number + 1) rest := by
        intro rest
        rw [readHeader, splitComment_eq]
        exact if_pos (by simpa [filled] using code)
      have intact : ¬Breaks false (line :: rest) 0 := by
        rintro ⟨_, ⟨⟩, full, -⟩
        simp [code] at full
      rcases inductionHypothesis ((goesOn rest).symm.trans failed) with
        ⟨empty, rfl⟩ | ⟨index, same, blames⟩
      · exact .inl ⟨List.forall_mem_cons.mpr ⟨by simp [code], empty⟩, rfl⟩
      · exact .inr ⟨index + 1, by omega, blames.later code intact fun rest => (goesOn rest).trans⟩
    | true =>
      right
      have goesOn : ∀ rest, readHeader number (line :: rest) =
          if sameLetters (codeOf line) header.toList then readBody (number + 1) rest
          else .error ⟨.missingHeader, number⟩ := by
        intro rest
        rw [readHeader, splitComment_eq]
        exact if_neg (by simpa [filled] using code)
      by_cases same : sameLetters (codeOf line) header.toList
      · simp only [same, if_true] at goesOn
        have intact : ¬Breaks false (line :: rest) 0 := by
          rintro ⟨_, ⟨⟩, -, differs⟩
          exact differs same
        obtain ⟨index, same, blames⟩ := readBody_error ((goesOn rest).symm.trans failed)
        exact ⟨index + 1, by omega, blames.later code intact fun rest => (goesOn rest).trans⟩
      · simp only [same] at goesOn
        cases failed.symm.trans (goesOn rest)
        exact ⟨0, rfl, .here ⟨line, rfl, code, same⟩ goesOn⟩

/-- Listings are read exactly if they follow the grammar, and the first line that breaks it is
named without regard to what follows. -/
theorem reading_follows_grammar (source : String) :
    (∀ code, read source = .ok code ↔ Reads (Text.lines source.toList) code) ∧
      ∀ e, read source = .error e →
        (∀ line ∈ Text.lines source.toList, ¬filled line) ∧ e = ⟨.missingHeader, 1⟩ ∨
        ∃ index, e.line = index + 1 ∧ Breaks false (Text.lines source.toList) index ∧
          (∀ earlier < index, ¬Breaks false (Text.lines source.toList) earlier) ∧
          ∀ other : String, (Text.lines other.toList).take e.line =
            (Text.lines source.toList).take e.line → read other = .error e := by
  refine ⟨fun code => readHeader_eq_ok_iff, fun e failed => ?_⟩
  obtain empty | ⟨index, line, breaks, first, unread⟩ := readHeader_error failed
  · exact .inl empty
  · rw [Nat.add_comm] at line
    refine .inr ⟨index, line, breaks, first, fun other same => ?_⟩
    rw [line] at same
    exact unread _ same

end Listing

end ThreeAddress
