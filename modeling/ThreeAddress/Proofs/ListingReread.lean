/-
A listing that was read, written and read again. Every instruction that is read
is shaped as reading undoes writing asks for, so what remains are the literals.
The two white-space characters above the space that an escape can denote,
`\133` and `\160`, are written as themselves, and a string that has one of them
falls apart; a number may be read as one with another text. The listing of a
program that was read gives the same listing again exactly if it has no such
literal.
-/
import ThreeAddress.Proofs.ListingRoundTrip

namespace ThreeAddress

open Text (Ordinary Solid words isBlank)

/-! ### What is read is shaped -/

/-- Whether the white space of a string could be denoted by an escape of three digits. -/
def Operand.Coded : Operand → Prop
  | .const (.string text) => ∀ c ∈ text.toList, isBlank c → c.toNat ≤ 999
  | _ => True

namespace Listing

/-- What is read behind an at sign is a variable with that name or a constant. -/
theorem readValue_cases {kind value word : List Char} {operand : Operand}
    (read : readValue kind value word = .ok operand) :
    (∃ frame, operand = .var ⟨frame, String.ofList value⟩) ∨
      ∃ c : Constant, operand = .const c ∧
        ∀ text, c = .string text → Text.unescape? value = some text.toList := by
  unfold readValue at read
  dsimp only at read
  split at read
  · exact .inl ⟨.gf, (Except.ok.inj read).symm⟩
  · exact .inl ⟨.lf, (Except.ok.inj read).symm⟩
  · exact .inl ⟨.tf, (Except.ok.inj read).symm⟩
  · cases number : Text.readInt32? value with
    | none => simp [number] at read
    | some n =>
      rw [number] at read
      exact .inr ⟨.int n, (Except.ok.inj read).symm, nofun⟩
  · cases number : Number.readBinary64? value with
    | none => simp [number] at read
    | some x =>
      rw [number] at read
      exact .inr ⟨.float x, (Except.ok.inj read).symm, nofun⟩
  · split at read
    · exact .inr ⟨.bool true, (Except.ok.inj read).symm, nofun⟩
    · exact .inr ⟨.bool false, (Except.ok.inj read).symm, nofun⟩
    · cases read
  · cases unescaped : Text.unescape? value with
    | none => simp [unescaped] at read
    | some text =>
      rw [unescaped] at read
      refine .inr ⟨.string (String.ofList text), (Except.ok.inj read).symm, ?_⟩
      rintro _ ⟨⟩
      rw [String.toList_ofList]
  · cases read

theorem readValue_string (value word : List Char) :
    readValue "string".toList value word =
      match Text.unescape? value with
      | some text => .ok (.const (.string (String.ofList text)))
      | none => .error (.invalidEscape (String.ofList word)) := rfl

theorem readSymbol_cases {word : List Char} {operand : Operand}
    (ordinary : ∀ c ∈ word, Ordinary c) (read : readSymbol word = .ok operand) :
    Purpose.value.admits operand ∧ operand.Named ∧ operand.Coded := by
  rw [readSymbol] at read
  cases divided : Text.cut? '@' word with
  | none => simp [divided] at read
  | some parts =>
    rw [divided] at read
    obtain ⟨-, rfl⟩ := Text.cut?_eq_some divided
    rw [List.forall_mem_append, List.forall_mem_cons] at ordinary
    obtain ⟨frame, rfl⟩ | ⟨c, rfl, string⟩ := readValue_cases read
    · refine ⟨rfl, ?_, trivial⟩
      rw [Operand.Named, String.toList_ofList]
      exact ordinary.2.2
    · refine ⟨rfl, trivial, ?_⟩
      cases c with
      | string text =>
        intro c inside blank
        obtain inside | small := Text.of_mem_unescape? (string text rfl) inside
        · simp [(ordinary.2.2 c inside).unbroken] at blank
        · exact small
      | int | float | bool => trivial

theorem readPurpose_cases {word : List Char} {purpose : Purpose} {operand : Operand}
    (nonempty : word ≠ []) (ordinary : ∀ c ∈ word, Ordinary c)
    (read : readPurpose word purpose = .ok operand) :
    purpose.admits operand ∧ operand.Named ∧ operand.Coded := by
  cases purpose with
  | label =>
    cases read
    refine ⟨rfl, ?_, trivial⟩
    rw [Operand.Named, String.toList_ofList]
    exact ⟨nonempty, ordinary⟩
  | type =>
    rw [readPurpose] at read
    split at read
    · cases read
      exact ⟨rfl, trivial, trivial⟩
    · cases read
  | target =>
    rw [readPurpose] at read
    cases symbol : readSymbol word with
    | error => simp [symbol] at read
    | ok found =>
      obtain ⟨-, named, coded⟩ := readSymbol_cases ordinary symbol
      simp only [symbol] at read
      split at read
      · cases read
      · next isVar =>
        cases read
        refine ⟨?_, named, coded⟩
        cases operand with
        | var => rfl
        | const | label | type => exact absurd rfl isVar
  | value => exact readSymbol_cases ordinary read

theorem readOperands_cons {opcode : Opcode} {index : Nat} {word : List Char}
    {rest : List (List Char)} {operands : List Operand}
    (read : readOperands opcode index (word :: rest) = .ok operands) :
    ∃ operand others, readPurpose word (opcode.purpose index) = .ok operand ∧
      readOperands opcode (index + 1) rest = .ok others ∧ operands = operand :: others := by
  rw [readOperands, readOperand_eq] at read
  cases first : readPurpose word (opcode.purpose index) with
  | error => rw [first] at read; cases read
  | ok operand =>
    cases later : readOperands opcode (index + 1) rest with
    | error => rw [first, later] at read; cases read
    | ok others =>
      rw [first, later] at read
      exact ⟨operand, others, rfl, rfl, (Except.ok.inj read).symm⟩

theorem readOperands_cases {opcode : Opcode} {index : Nat} {list : List (List Char)}
    {operands : List Operand} (solid : ∀ word ∈ list, word ≠ [] ∧ ∀ c ∈ word, Ordinary c)
    (read : readOperands opcode index list = .ok operands) :
    operands.length = list.length ∧
      (∀ entry ∈ operands.zipIdx index, (opcode.purpose entry.2).admits entry.1) ∧
      (∀ operand ∈ operands, operand.Named) ∧ ∀ operand ∈ operands, operand.Coded := by
  induction list generalizing index operands with
  | nil =>
    cases read
    simp
  | cons word rest inductionHypothesis =>
    rw [List.forall_mem_cons] at solid
    obtain ⟨operand, others, first, later, rfl⟩ := readOperands_cons read
    obtain ⟨admitted, named, coded⟩ := readPurpose_cases solid.1.1 solid.1.2 first
    obtain ⟨length, placed, allNamed, allCoded⟩ := inductionHypothesis solid.2 later
    refine ⟨congrArg Nat.succ length, ?_, List.forall_mem_cons.mpr ⟨named, allNamed⟩,
      List.forall_mem_cons.mpr ⟨coded, allCoded⟩⟩
    rw [List.zipIdx_cons, List.forall_mem_cons]
    exact ⟨admitted, placed⟩

/-- How the parts of an instruction are found in a line. -/
structure Found (line : List Char) (i : Instruction) : Prop where
  opcode : Opcode.ofMnemonic? ((words (splitComment line).1).headD []) = some i.opcode
  arity : (words (splitComment line).1).tail.length = i.opcode.arity
  operands : readOperands i.opcode 0 (words (splitComment line).1).tail = .ok i.operands
  markers : readAnnotations (annotationWords (splitComment line).2) = .ok i.markers
  effects : i.effects = {}

theorem readCode_cases {code : List Char} {i : Instruction} (read : readCode code = .ok i) :
    Opcode.ofMnemonic? ((words code).headD []) = some i.opcode ∧
      (words code).tail.length = i.opcode.arity ∧
      readOperands i.opcode 0 (words code).tail = .ok i.operands ∧ i.effects = {} := by
  unfold readCode at read
  dsimp only at read
  split at read
  · cases read
  · next opcode found =>
    split at read
    · cases read
    · next arity =>
      cases operands : readOperands opcode 0 (words code).tail with
      | error => rw [operands] at read; cases read
      | ok list =>
        rw [operands] at read
        cases read
        exact ⟨found, not_not.mp arity, operands, rfl⟩

/-- A line is read as nothing if it has no code, and else as what is found in it. -/
theorem readLine_cases {line : List Char} {result : Option Instruction}
    (read : readLine line = .ok result) :
    (splitComment line).1.isEmpty ∧ result = none ∨ ∃ i, result = some i ∧ Found line i := by
  unfold readLine at read
  dsimp only at read
  split at read
  · next empty => exact .inl ⟨empty, (Except.ok.inj read).symm⟩
  · cases code : readCode (splitComment line).1 with
    | error => rw [code] at read; cases read
    | ok i =>
      cases notes : readAnnotations (annotationWords (splitComment line).2) with
      | error => rw [code, notes] at read; cases read
      | ok markers =>
        rw [code, notes] at read
        obtain ⟨opcode, arity, operands, effects⟩ := readCode_cases code
        exact .inr ⟨_, (Except.ok.inj read).symm, opcode, arity, operands, notes, effects⟩

theorem found_of_readLine {line : List Char} {i : Instruction}
    (read : readLine line = .ok (some i)) : Found line i := by
  obtain ⟨-, none⟩ | ⟨i, some, found⟩ := readLine_cases read
  · cases none
  · cases some
    exact found

theorem unmarked_splitComment (line : List Char) : '#' ∉ (splitComment line).1 := by
  rw [splitComment]
  split
  · next code comment divided =>
    exact fun inside => (Text.cut?_eq_some divided).1 (Text.mem_of_mem_trim inside)
  · next undivided =>
    exact fun inside => Text.cut?_eq_none_iff.mp undivided (Text.mem_of_mem_trim inside)

/-- What is read from a line is shaped, and its strings have only white space that an escape
denotes. -/
theorem shaped_of_readLine {line : List Char} {i : Instruction}
    (read : readLine line = .ok (some i)) :
    i.Shaped ∧ ∀ operand ∈ i.operands, operand.Coded := by
  have found := found_of_readLine read
  have solid : ∀ word ∈ (words (splitComment line).1).tail,
      word ≠ [] ∧ ∀ c ∈ word, Ordinary c := by
    intro word member
    obtain ⟨solid, inside⟩ := Text.solid_of_mem_words (List.mem_of_mem_tail member)
    refine ⟨solid.nonempty, fun c member => ⟨solid.unbroken c member, ?_⟩⟩
    rintro rfl
    exact unmarked_splitComment line (inside _ member)
  obtain ⟨length, placed, named, coded⟩ := readOperands_cases solid found.operands
  exact ⟨⟨length.trans found.arity, placed, named⟩, coded⟩

theorem readBody_cons {number : Nat} {line : List Char} {rest : List (List Char)}
    {code : List Instruction} (read : readBody number (line :: rest) = .ok code) :
    (readLine line = .ok none ∧ readBody (number + 1) rest = .ok code) ∨
      ∃ i others, readLine line = .ok (some i) ∧ readBody (number + 1) rest = .ok others ∧
        code = i :: others := by
  rw [readBody] at read
  split at read
  · cases read
  · next first => exact .inl ⟨first, read⟩
  · next i first =>
    cases later : readBody (number + 1) rest with
    | error => rw [later] at read; cases read
    | ok others =>
      rw [later] at read
      exact .inr ⟨i, others, first, rfl, (Except.ok.inj read).symm⟩

theorem exists_line_of_readBody {number : Nat} {lines : List (List Char)} {code : List Instruction}
    (read : readBody number lines = .ok code) :
    ∀ i ∈ code, ∃ line, readLine line = .ok (some i) := by
  induction lines generalizing number code with
  | nil =>
    cases read
    exact List.forall_mem_nil _
  | cons line rest inductionHypothesis =>
    obtain ⟨-, later⟩ | ⟨i, others, first, later, rfl⟩ := readBody_cons read
    · exact inductionHypothesis later
    · exact List.forall_mem_cons.mpr ⟨⟨line, first⟩, inductionHypothesis later⟩

theorem exists_line_of_readHeader {number : Nat} {lines : List (List Char)}
    {code : List Instruction} (read : readHeader number lines = .ok code) :
    ∀ i ∈ code, ∃ line, readLine line = .ok (some i) := by
  induction lines generalizing number with
  | nil => cases read
  | cons line rest inductionHypothesis =>
    rw [readHeader] at read
    split at read
    · exact inductionHypothesis read
    · split at read
      · exact exists_line_of_readBody read
      · cases read

/-- Every instruction that is read is shaped. -/
theorem shaped_of_read {source : String} {code : List Instruction}
    (accepted : read source = .ok code) :
    ∀ i ∈ code, i.Shaped ∧ ∀ operand ∈ i.operands, operand.Coded := by
  intro i member
  obtain ⟨line, found⟩ := exists_line_of_readHeader accepted i member
  exact shaped_of_readLine found

end Listing

/-! ### Literals that stay -/

theorem Constant.body_eq_of_render_eq (first second : Constant)
    (sameType : first.dataType = second.dataType) (same : first.render = second.render) :
    first.body = second.body := by
  rw [← String.toList_inj, toList_render, toList_render, sameType] at same
  exact (List.cons.inj (List.append_cancel_left same)).2

namespace Operand

/-- Whether an operand has the same text after it was written and read: a string has none of the
two white-space characters above the space that an escape can denote, and a number is read as one
with the same text. -/
def Durable : Operand → Prop
  | .const (.string text) => Char.ofNat 0x85 ∉ text.toList ∧ Char.ofNat 0xA0 ∉ text.toList
  | .const (.float x) => (Number.readBinary64? x.text).map Number.Binary64.text = some x.text
  | _ => True

instance : DecidablePred Durable
  | .const (.string text) =>
    inferInstanceAs (Decidable (Char.ofNat 0x85 ∉ text.toList ∧ Char.ofNat 0xA0 ∉ text.toList))
  | .const (.float x) =>
    inferInstanceAs
      (Decidable ((Number.readBinary64? x.text).map Number.Binary64.text = some x.text))
  | .const (.int _) | .const (.bool _) => .isTrue trivial
  | .var _ | .label _ | .type _ => .isTrue trivial

theorem eq_of_isBlank {c : Char} (blank : isBlank c) (coded : c.toNat ≤ 999) :
    c.toNat ≤ 32 ∨ c = Char.ofNat 0x85 ∨ c = Char.ofNat 0xA0 := by
  have code : c.toNat ≤ 32 ∨ c.toNat = 0x85 ∨ c.toNat = 0xA0 := by
    simp only [isBlank, Bool.or_eq_true, Bool.and_eq_true, decide_eq_true_eq, beq_iff_eq] at blank
    omega
  refine code.imp_right (.imp ?_ ?_)
  · intro code
    rw [← code, Char.ofNat_toNat]
  · intro code
    rw [← code, Char.ofNat_toNat]

theorem durable_iff {operand : Operand} (coded : operand.Coded) :
    operand.Durable ↔ operand.Unbroken ∧ operand.reread.render = operand.render := by
  cases operand with
  | const c =>
    cases c with
    | string text =>
      refine Iff.trans ?_ (and_iff_left rfl).symm
      constructor
      · rintro ⟨first, second⟩ c inside blank
        obtain low | rfl | rfl := eq_of_isBlank blank (coded c inside blank)
        · exact low
        · exact absurd inside first
        · exact absurd inside second
      · intro unbroken
        exact ⟨fun inside => absurd (unbroken _ inside (by decide)) (by decide),
          fun inside => absurd (unbroken _ inside (by decide)) (by decide)⟩
    | float x =>
      rw [Durable, Number.readBinary64?_text, Option.map_some, Option.some.injEq]
      refine Iff.trans ?_ (and_iff_right trivial).symm
      exact ⟨fun same => by simp [reread, Constant.reread, render, Constant.render, same],
        fun same => Constant.body_eq_of_render_eq (.float x.reread) (.float x) rfl same⟩
    | int | bool => exact iff_of_true trivial ⟨trivial, rfl⟩
  | var | label | type => exact iff_of_true trivial ⟨trivial, rfl⟩

theorem words_render_ne_nil {operand : Operand} (named : operand.Named) :
    words operand.render.toList ≠ [] := by
  cases operand with
  | var v =>
    refine Text.words_ne_nil (c := '@') ?_ (by decide)
    simp [render, v.toList_identifier]
  | const c =>
    refine Text.words_ne_nil (c := '@') ?_ (by decide)
    simp [render, c.toList_render]
  | label name =>
    obtain ⟨c, inside⟩ := List.exists_mem_of_ne_nil _ named.1
    exact Text.words_ne_nil inside (named.2 c inside).unbroken
  | type t => cases t <;> decide

/-- A string whose text is one word and is read as a string with the same text is unbroken: what
stands behind the first white space would be lost. -/
theorem unbroken_of_readSymbol {text : String} {word : List Char} {result : Operand}
    (single : words (const (.string text)).render.toList = [word])
    (read : Listing.readSymbol word = .ok result)
    (same : result.render = (const (.string text)).render) : (const (.string text)).Unbroken := by
  refine Text.toNat_le_of_unbroken ?_
  by_contra broken
  obtain ⟨blank, found⟩ : ∃ c, (Text.escape text.toList).find? isBlank = some c := by
    simpa [← Option.isSome_iff_exists] using broken
  obtain ⟨isBlank, before, after, divided, unbroken⟩ := List.find?_eq_some_iff_append.mp found
  have written : (const (.string text)).render.toList =
      ("string".toList ++ '@' :: before) ++ blank :: after := by
    rw [render, Constant.toList_render, Constant.body, divided, List.append_assoc]
    rfl
  have solid : Solid ("string".toList ++ '@' :: before) := by
    refine ⟨by simp, List.forall_mem_append.mpr ⟨?_, List.forall_mem_cons.mpr ⟨rfl, ?_⟩⟩⟩
    · exact fun c inside => (DataType.ordinary_keyword .string c inside).unbroken
    · exact fun c inside => by simpa using unbroken c inside
  rw [written, Text.words_append_blank isBlank, Text.words_of_solid solid] at single
  obtain ⟨rfl, -⟩ := List.cons.inj single
  rw [Listing.readSymbol, Text.cut?_append_cons (by decide)] at read
  simp only [Listing.readValue_string] at read
  cases unescaped : Text.unescape? before with
  | none => simp [unescaped] at read
  | some start =>
    rw [unescaped] at read
    cases read
    have body :=
      Constant.body_eq_of_render_eq (.string (String.ofList start)) (.string text) rfl same
    rw [Constant.body, Constant.body, String.toList_ofList] at body
    rw [← body] at divided
    exact List.cons_ne_nil _ _ (Text.eq_nil_of_escape_eq divided unescaped)

theorem durable_of_readPurpose {operand result : Operand} {purpose : Purpose} {word : List Char}
    (admitted : purpose.admits operand) (named : operand.Named) (coded : operand.Coded)
    (single : words operand.render.toList = [word])
    (read : Listing.readPurpose word purpose = .ok result)
    (same : result.render = operand.render) : operand.Durable := by
  have unbroken : operand.Unbroken := by
    cases operand with
    | const c =>
      cases c with
      | string text =>
        cases purpose <;> cases admitted
        exact unbroken_of_readSymbol single read same
      | int | float | bool => trivial
    | var | label | type => trivial
  rw [Text.words_of_solid (solid_render named unbroken)] at single
  obtain ⟨rfl, -⟩ := List.cons.inj single
  rw [Listing.readPurpose_render admitted] at read
  cases read
  exact (durable_iff coded).mpr ⟨unbroken, same⟩

theorem length_le_words {operands : List Operand} (named : ∀ operand ∈ operands, operand.Named) :
    operands.length ≤ (operands.flatMap (words ·.render.toList)).length := by
  induction operands with
  | nil => exact Nat.le_refl _
  | cons operand rest inductionHypothesis =>
    rw [List.forall_mem_cons] at named
    have first := List.length_pos_iff.mpr (words_render_ne_nil named.1)
    have others := inductionHypothesis named.2
    rw [List.flatMap_cons, List.length_append, List.length_cons]
    omega

/-- Operands that fall into as many words as there are operands, and are read as operands with the
same texts, are durable. -/
theorem durable_of_readOperands {opcode : Opcode} {index : Nat} {operands results : List Operand}
    (placed : ∀ entry ∈ operands.zipIdx index, (opcode.purpose entry.2).admits entry.1)
    (named : ∀ operand ∈ operands, operand.Named) (coded : ∀ operand ∈ operands, operand.Coded)
    (count : (operands.flatMap (words ·.render.toList)).length = operands.length)
    (read : Listing.readOperands opcode index (operands.flatMap (words ·.render.toList)) =
      .ok results)
    (same : results.map (·.render.toList) = operands.map (·.render.toList)) :
    ∀ operand ∈ operands, operand.Durable := by
  induction operands generalizing index results with
  | nil => exact List.forall_mem_nil _
  | cons operand rest inductionHypothesis =>
    rw [List.zipIdx_cons, List.forall_mem_cons] at placed
    rw [List.forall_mem_cons] at named coded
    have atLeast := length_le_words named.2
    rw [List.flatMap_cons, List.length_append, List.length_cons] at count
    rw [List.flatMap_cons] at read
    -- No operand is without a word, so none has more than one.
    obtain ⟨word, more, split⟩ := List.exists_cons_of_ne_nil (words_render_ne_nil named.1)
    have alone : more = [] := by
      rw [split, List.length_cons] at count
      exact List.length_eq_zero_iff.mp (by omega)
    rw [alone] at split
    rw [split, List.singleton_append] at read
    obtain ⟨result, others, first, later, rfl⟩ := Listing.readOperands_cons read
    obtain ⟨sameFirst, sameRest⟩ := List.cons.inj same
    refine List.forall_mem_cons.mpr ⟨?_, ?_⟩
    · exact durable_of_readPurpose placed.1 named.1 coded.1 split first
        (String.toList_inj.mp sameFirst)
    · refine inductionHypothesis placed.2 named.2 coded.2 ?_ later sameRest
      rw [split, List.length_singleton] at count
      omega

end Operand

/-! ### Listings that stay -/

namespace Instruction

theorem pieces_render {i : Instruction} (named : ∀ operand ∈ i.operands, operand.Named) :
    Text.pieces (· == ' ') i.render.toList =
      i.opcode.mnemonic.toList :: i.operands.map (·.render.toList) := by
  rw [toList_render]
  refine Text.pieces_append_spaced (List.forall_mem_cons.mpr ⟨?_, List.forall_mem_map.mpr ?_⟩)
  · exact fun space => absurd (i.opcode.ordinary_mnemonic _ space) (by decide)
  · exact fun operand member space =>
      absurd ((Operand.inline_render (named operand member) space).high rfl) (by decide)

end Instruction

namespace Listing

variable {i j : Instruction}

/-- A line that is read as an instruction with the same line has durable operands. -/
theorem durable_of_readLine (shaped : i.Shaped) (coded : ∀ operand ∈ i.operands, operand.Coded)
    (read : readLine (line i i.markers) = .ok (some j))
    (same : line j j.markers = line i i.markers) :
    ∀ operand ∈ i.operands, operand.Durable := by
  obtain ⟨code, notes⟩ := splitComment_line shaped.named i.markers
  have found := found_of_readLine read
  have markers : j.markers = i.markers := Except.ok.inj (found.markers.symm.trans notes)
  rw [markers] at same
  have pieces := congrArg (Text.pieces (· == ' ')) (List.append_cancel_right same)
  rw [Instruction.pieces_render (shaped_of_readLine read).1.named,
    Instruction.pieces_render shaped.named] at pieces
  obtain ⟨opcode, arity, operands, -⟩ := found
  rw [code, i.words_render] at opcode arity operands
  rw [List.headD_cons, i.opcode.ofMnemonic?_mnemonic, Option.some.injEq] at opcode
  rw [← opcode, List.tail_cons] at arity operands
  exact Operand.durable_of_readOperands shaped.placed shaped.named coded
    (arity.trans shaped.wellFormed.symm) operands (List.cons.inj pieces).2

theorem readLine_ne_none (named : ∀ operand ∈ i.operands, operand.Named) (m : Markers) :
    readLine (line i m) ≠ .ok none := by
  intro none
  obtain ⟨empty, -⟩ | ⟨_, some, -⟩ := readLine_cases none
  · rw [filled_splitComment named] at empty
    cases empty
  · cases some

/-- A program whose lines are read as a program with the same lines has durable operands. -/
theorem durable_of_readBody {code again : List Instruction} {number : Nat}
    (shaped : ∀ i ∈ code, i.Shaped ∧ ∀ operand ∈ i.operands, operand.Coded)
    (read : readBody number (code.map fun i => line i i.markers) = .ok again)
    (same : (again.map fun i => line i i.markers) = code.map fun i => line i i.markers) :
    ∀ i ∈ code, ∀ operand ∈ i.operands, operand.Durable := by
  induction code generalizing number again with
  | nil => exact List.forall_mem_nil _
  | cons i rest inductionHypothesis =>
    rw [List.forall_mem_cons] at shaped
    obtain ⟨none, -⟩ | ⟨j, others, first, later, rfl⟩ := readBody_cons read
    · exact absurd none (readLine_ne_none shaped.1.1.named i.markers)
    · obtain ⟨sameFirst, sameRest⟩ := List.cons.inj same
      exact List.forall_mem_cons.mpr ⟨durable_of_readLine shaped.1.1 shaped.1.2 first sameFirst,
        inductionHypothesis shaped.2 later sameRest⟩

theorem annotatedLine_reread
    (kept : ∀ operand ∈ i.operands, operand.reread.render = operand.render) :
    annotatedLine (i.reread i.markers) = annotatedLine i := by
  have renders : (i.operands.map Operand.reread).map (·.render.toList) =
      i.operands.map (·.render.toList) := by
    rw [List.map_map]
    exact List.map_congr_left fun operand inside => congrArg String.toList (kept operand inside)
  rw [← String.toList_inj, toList_annotatedLine, toList_annotatedLine, line, line,
    Instruction.toList_render, Instruction.toList_render, Instruction.reread, renders]

/-- An accepted program gives the same annotated listing after it was written and read again
exactly if its literals are durable: no string has U+0085 or U+00A0, and every number is read as
one with the same text. -/
theorem annotated_reread_iff {source : String} {code : List Instruction}
    (accepted : read source = .ok code) :
    (∃ again, read (annotated code) = .ok again ∧ annotated again = annotated code) ↔
      ∀ i ∈ code, ∀ operand ∈ i.operands, operand.Durable := by
  have shaped := shaped_of_read accepted
  have named := fun i member => (shaped i member).1.named
  constructor
  · rintro ⟨again, readAgain, same⟩
    have namedAgain := fun i member => (shaped_of_read readAgain i member).1.named
    have lines := congrArg (Text.lines ·.toList) same
    simp only [annotated, lines_joinLines toList_annotatedLine namedAgain,
      lines_joinLines toList_annotatedLine named] at lines
    rw [annotated, read_joinLines toList_annotatedLine named] at readAgain
    exact durable_of_readBody shaped readAgain (List.cons.inj lines).2
  · intro durable
    have literals : ∀ i ∈ code, ∀ operand ∈ i.operands,
        operand.Unbroken ∧ operand.reread.render = operand.render := fun i member operand inside =>
      (Operand.durable_iff ((shaped i member).2 operand inside)).mp
        (durable i member operand inside)
    refine ⟨_, read_annotated (fun i member => (shaped i member).1)
      fun i member operand inside => (literals i member operand inside).1, ?_⟩
    rw [annotated, annotated, List.map_map]
    refine congrArg (joinLines <| header :: ·) (List.map_congr_left fun i member => ?_)
    exact annotatedLine_reread fun operand inside => (literals i member operand inside).2

/-- A program with markers, escapes and a number, as it is read from `greetingSource`. -/
def greeting : List Instruction :=
  [{ opcode := .label, operands := [.label "top"], markers := { functionStart := true } },
   { opcode := .write, operands := [.const (.string "a #b")] },
   { opcode := .add,
     operands := [.var ⟨.gf, "x"⟩, .var ⟨.gf, "x"⟩,
       .const (.float ⟨0x3FF8000000000000⟩)],
     markers := { functionEnd := true } }]

/-- A source text with mnemonics in either case, a comment and a numeral with more digits than are
written. -/
def greetingSource : String :=
  " .ifjCODE17 # greeting\n\nlabel top # @function-start\nwrite string@a\\032\\035b\n" ++
    "  ADD GF@x GF@x float@1.500000 # twice @function-end\n"

theorem annotated_reread_greeting :
    read greetingSource = .ok greeting ∧
      ∃ again, read (annotated greeting) = .ok again ∧ annotated again = annotated greeting := by
  have found : (read greetingSource).toOption = some greeting := by decide +kernel
  have accepted : read greetingSource = .ok greeting := by
    cases result : read greetingSource with
    | error => rw [result] at found; cases found
    | ok code => rw [result] at found; exact congrArg _ (Option.some.inj found)
  exact ⟨accepted, (annotated_reread_iff accepted).mpr (by decide +kernel)⟩

/-- A string with a hard space between two letters is accepted, but its listing is not: the
instruction has two operands there. -/
theorem hard_space_not_reread :
    ∃ code, read ".IFJcode17\nWRITE string@a\\160b\n" = .ok code ∧
      read (annotated code) = .error ⟨.arity .write 2, 2⟩ :=
  ⟨[{ opcode := .write, operands := [.const (.string "a\u00a0b")] }], rfl, rfl⟩

-- Six digits of a number near the least one may be read as another number with other digits.
example : ¬ (Operand.const (.float ⟨202403⟩)).Durable := by decide +kernel

end Listing

end ThreeAddress
