/-
Well-nested construction. A statement is either a single call or a bracket: a
call that opens something, statements, and the call that closes it. Statements
leave what is open as they found it, define every label they take and jump to no
other label than these and those of functions. A program made of them can
therefore be surveyed, and its control-flow graph can be built.

Inside an `if` this holds up to two labels. The one of its end is jumped to by
every branch and defined when the `if` is closed; the one of the next branch
changes from step to step, each time the old one is defined and a new one taken.
-/
import ThreeAddress.Proofs.BuilderCalls
import ThreeAddress.Proofs.Consistency
import ThreeAddress.Proofs.JumpTargets

namespace ThreeAddress.Builder

open scoped List

/-! ### Statements -/

/-- The two kinds of sequences of calls. -/
inductive Part where
  | statements
  /-- What stands between the opening and the closing of an `if`. -/
  | branches
deriving DecidableEq, Repr

/-- The well-nested sequences of calls over functions with the given labels. In which order the
steps of an `if` come is left open. -/
inductive Nested (functions : List String) : Part → List Call → Prop
  | nil : Nested functions .statements []
  | plain {call : Call} : call.Plain functions → Nested functions .statements [call]
  | static {body : List Call} (function name : String) (type : DataType) :
    Nested functions .statements body →
      Nested functions .statements
        (.staticStart function name type :: (body ++ [.staticEnd function name]))
  | expression {body : List Call} (v : Variable) : Nested functions .statements body →
      Nested functions .statements (.expressionStart :: (body ++ [.expressionEnd v]))
  | loop {condition body : List Call} : Nested functions .statements condition →
      Nested functions .statements body →
      Nested functions .statements
        (.whileBefore :: (condition ++ (.whileAfter :: (body ++ [.whileEnd]))))
  | conditional {branches : List Call} : Nested functions .branches branches →
      Nested functions .statements (.ifAfterExpression :: (branches ++ [.ifAfterEnd]))
  | body {calls : List Call} : Nested functions .statements calls →
      Nested functions .branches calls
  | endBlock : Nested functions .branches [.ifEndBlock]
  | elseIf {condition : List Call} : Nested functions .statements condition →
      Nested functions .branches (.elseIfBefore :: (condition ++ [.elseIfAfter]))
  | otherwise : Nested functions .branches [.elseBlock]
  | append {part : Part} {calls others : List Call} : Nested functions part calls →
      Nested functions part others → Nested functions part (calls ++ others)

variable {b : Builder} {functions declared declared' : List String}
  {calls others condition body : List Call}

theorem settles_nil (functions : List String) : Settles functions [] [] :=
  fun b => ⟨b, [], [], [], Stretch.nil b, rfl, .refl _, List.nil_subset _⟩

theorem Settles.append (first : Settles functions declared calls)
    (second : Settles functions declared' others) :
    Settles functions (declared ++ declared') (calls ++ others) := by
  intro b
  obtain ⟨middle, fresh, defines, _, runs, restored, defined, known⟩ := first b
  obtain ⟨next, fresh', defines', _, runs', restored', defined', known'⟩ := second middle
  refine ⟨next, _, _, _, runs.append runs', restored'.trans restored, ?_, ?_⟩
  · calc defines ++ defines'
      _ ~ (declared ++ fresh) ++ (declared' ++ fresh') := defined.append defined'
      _ ~ declared ++ (fresh ++ (declared' ++ fresh')) := .of_eq (List.append_assoc _ _ _)
      _ ~ declared ++ (declared' ++ (fresh ++ fresh')) :=
        (List.perm_append_comm_assoc _ _ _).append_left declared
      _ ~ (declared ++ declared') ++ (fresh ++ fresh') := .of_eq (List.append_assoc _ _ _).symm
  · grind

theorem Settles.static (function name : String) (type : DataType)
    (body : Settles functions [] calls) :
    Settles functions []
      (.staticStart function name type :: (calls ++ [.staticEnd function name])) := by
  intro b
  obtain ⟨b₁, last, opens, skipping⟩ := stretch_staticStart b function name type
  obtain ⟨b₂, fresh, defines, _, runs, restored, defined, known⟩ := body b₁
  obtain ⟨b₃, closes, closed⟩ := stretch_staticEnd function name (restored.trans skipping)
  refine ⟨b₃, _, _, _, opens.append (runs.close closes), closed, ?_, ?_⟩
  · calc defines ++ [last]
      _ ~ last :: defines := List.perm_append_singleton _ _
      _ ~ last :: fresh := defined.cons last
  · grind

theorem Settles.expression (v : Variable) (body : Settles functions [] calls) :
    Settles functions [] (.expressionStart :: (calls ++ [.expressionEnd v])) :=
  (settles_expressionStart functions).append (body.append (settles_expressionEnd functions v))

theorem Settles.loop (test : Settles functions [] condition) (repeats : Settles functions [] body) :
    Settles functions []
      (.whileBefore :: (condition ++ (.whileAfter :: (body ++ [.whileEnd])))) := by
  intro b
  obtain ⟨b₁, start, opens, looping⟩ := stretch_whileBefore b
  obtain ⟨b₂, fresh, defines, _, tests, restored, defined, known⟩ := test b₁
  obtain ⟨b₃, last, leaves, inside⟩ := stretch_whileAfter (restored.trans looping)
  obtain ⟨b₄, fresh', defines', _, runs, restored', defined', known'⟩ := repeats b₃
  obtain ⟨b₅, closes, closed⟩ := stretch_whileEnd (restored'.trans inside)
  refine ⟨b₅, _, _, _, opens.append (tests.append (leaves.append (runs.close closes))), closed,
    ?_, ?_⟩
  · have behind : defines' ++ [last] ~ last :: fresh' :=
      (List.perm_append_singleton _ _).trans (defined'.cons last)
    exact (defined.append behind).cons start
  · grind

/-! ### Branches -/

/-- Whether calls inside an `if` define the label of the next branch and all labels they take, up to
the new label of the next branch; they may jump to the end. -/
def Branches (functions : List String) (calls : List Call) : Prop :=
  ∀ (b : Builder) (s : Nesting) (first last : String), b.nesting = s.inCondition [first, last] →
    ∃ next other fresh defines jumps,
      Stretch b calls next fresh defines jumps ∧ next.nesting = s.inCondition [other, last] ∧
        other :: defines ~ first :: fresh ∧ jumps ⊆ last :: (fresh ++ functions)

theorem Settles.branches (body : Settles functions [] calls) : Branches functions calls := by
  intro b s first last inside
  obtain ⟨next, fresh, _, _, runs, restored, defined, known⟩ := body b
  exact ⟨next, first, fresh, _, _, runs, restored.trans inside, defined.cons first,
    List.subset_cons_of_subset last known⟩

theorem Branches.append (front : Branches functions calls) (back : Branches functions others) :
    Branches functions (calls ++ others) := by
  intro b s first last inside
  obtain ⟨b₁, second, fresh, defines, _, runs, inside₁, defined, known⟩ :=
    front b s first last inside
  obtain ⟨b₂, third, fresh', defines', _, runs', inside₂, defined', known'⟩ :=
    back b₁ s second last inside₁
  refine ⟨b₂, third, _, _, _, runs.append runs', inside₂, ?_, ?_⟩
  · calc third :: (defines ++ defines')
      _ ~ defines ++ third :: defines' := List.perm_middle.symm
      _ ~ defines ++ second :: fresh' := defined'.append_left defines
      _ ~ second :: defines ++ fresh' := List.perm_middle
      _ ~ first :: fresh ++ fresh' := defined.append_right fresh'
  · grind

theorem branches_endBlock (functions : List String) : Branches functions [.ifEndBlock] := by
  intro b s first last inside
  obtain ⟨next, runs, inside'⟩ := stretch_ifEndBlock inside
  exact ⟨next, first, _, _, _, runs, inside', .refl _, by simp⟩

theorem branches_otherwise (functions : List String) : Branches functions [.elseBlock] := by
  intro b s first last inside
  obtain ⟨next, other, runs, inside'⟩ := stretch_elseBlock inside
  exact ⟨next, other, _, _, _, runs, inside', .swap _ _ _, by simp⟩

theorem Settles.elseIf (test : Settles functions [] condition) :
    Branches functions (.elseIfBefore :: (condition ++ [.elseIfAfter])) := by
  intro b s first last inside
  obtain ⟨b₁, opens, between⟩ := stretch_elseIfBefore inside
  obtain ⟨b₂, fresh, defines, _, tests, restored, defined, known⟩ := test b₁
  obtain ⟨b₃, other, leaves, inside'⟩ := stretch_elseIfAfter (restored.trans between)
  refine ⟨b₃, other, _, _, _, opens.append (tests.append leaves), inside', ?_, ?_⟩
  · calc other :: first :: (defines ++ [])
      _ ~ first :: other :: defines := .trans (.swap _ _ _) (.of_eq (by rw [List.append_nil]))
      _ ~ first :: other :: fresh := (defined.cons other).cons first
      _ ~ first :: (fresh ++ [other]) := (List.perm_append_singleton _ _).symm.cons first
  · grind

theorem Branches.conditional (branches : Branches functions calls) :
    Settles functions [] (.ifAfterExpression :: (calls ++ [.ifAfterEnd])) := by
  intro b
  obtain ⟨b₁, last, first, opens, inside⟩ := stretch_ifAfterExpression b
  obtain ⟨b₂, other, fresh, defines, _, runs, inside', defined, known⟩ :=
    branches b₁ _ first last inside
  obtain ⟨b₃, closes, closed⟩ := stretch_ifAfterEnd inside'
  refine ⟨b₃, _, _, _, opens.append (runs.close closes), closed, ?_, ?_⟩
  · calc defines ++ [other, last]
      _ ~ other :: (defines ++ [last]) := List.perm_middle
      _ ~ first :: fresh ++ [last] := defined.append_right [last]
      _ ~ last :: first :: fresh := List.perm_append_singleton _ _
  · grind

/-- What calls of each kind do to labels and to what is open. -/
def Part.Keeps (functions : List String) : Part → List Call → Prop
  | .statements => Settles functions []
  | .branches => Branches functions

theorem Nested.keeps {part : Part} (nested : Nested functions part calls) :
    part.Keeps functions calls := by
  induction nested with
  | nil => exact settles_nil functions
  | plain plain => exact plain.settles
  | static function name type _ body => exact Settles.static function name type body
  | expression v _ body => exact Settles.expression v body
  | loop _ _ test repeats => exact Settles.loop test repeats
  | conditional _ branches => exact Branches.conditional branches
  | body _ body => exact Settles.branches body
  | endBlock => exact branches_endBlock functions
  | elseIf _ test => exact Settles.elseIf test
  | otherwise => exact branches_otherwise functions
  | @append part _ _ _ _ front back =>
    cases part with
    | statements => exact Settles.append front back
    | branches => exact Branches.append front back

theorem Nested.settles (nested : Nested functions .statements calls) :
    Settles functions [] calls :=
  nested.keeps

/-! ### Programs -/

/-- A function to be built. -/
structure Definition where
  label : String
  body : List Call
  type : DataType
deriving DecidableEq, Repr

/-- The calls that build a function. -/
def Definition.construction (f : Definition) : List Call :=
  .functionHeader f.label :: (f.body ++ [.functionEnd f.type])

/-- The calls that build a program from functions and the statements of its main scope. -/
def programCalls (definitions : List Definition) (main : List Call) : List Call :=
  .startCode ::
    (definitions.flatMap Definition.construction ++ (.scopeStart :: (main ++ [.scopeEnd])))

theorem Definition.settles {f : Definition} (nested : Nested functions .statements f.body) :
    Settles functions [f.label] f.construction := by
  intro b
  obtain ⟨b₁, starts, opened⟩ := stretch_functionHeader b f.label
  obtain ⟨b₂, fresh, defines, _, runs, restored, defined, known⟩ := nested.settles b₁
  obtain ⟨b₃, ends, closed⟩ := stretch_functionEnd b₂ f.type
  refine ⟨b₃, _, _, _, starts.append (runs.close ends), closed.trans (restored.trans opened),
    ?_, ?_⟩
  · calc f.label :: (defines ++ [])
      _ ~ f.label :: defines := .of_eq (by rw [List.append_nil])
      _ ~ f.label :: fresh := defined.cons f.label
  · grind

theorem settles_definitions {definitions : List Definition}
    (nested : ∀ f ∈ definitions, Nested functions .statements f.body) :
    Settles functions (definitions.map Definition.label)
      (definitions.flatMap Definition.construction) := by
  induction definitions with
  | nil => exact settles_nil functions
  | cons f rest inductionHypothesis =>
    obtain ⟨first, others⟩ := List.forall_mem_cons.mp nested
    exact (Definition.settles first).append (inductionHypothesis others)

theorem exists_stretch_program {definitions : List Definition} {main : List Call}
    (bodies : ∀ f ∈ definitions, Nested functions .statements f.body)
    (nested : Nested functions .statements main) (outside : b.scopeDepth = 0) :
    ∃ next fresh defines jumps,
      Stretch b (programCalls definitions main) next fresh defines jumps ∧
        defines ~ definitions.map Definition.label ++ fresh ∧ jumps ⊆ fresh ++ functions := by
  obtain ⟨b₁, label, starts, skipping⟩ := stretch_startCode b
  obtain ⟨b₂, fresh, defines, _, builds, restored, defined, known⟩ := settles_definitions bodies b₁
  obtain ⟨b₃, opens, inside⟩ := stretch_scopeStart (restored.trans skipping) outside
  obtain ⟨b₄, fresh', defines', _, runs, restored', defined', known'⟩ := nested.settles b₃
  obtain ⟨b₅, closes, -⟩ := stretch_scopeEnd (restored'.trans inside) outside
  refine ⟨b₅, _, _, _, starts.append (builds.append (opens.append (runs.close closes))), ?_, ?_⟩
  · calc defines ++ label :: (defines' ++ [])
      _ ~ label :: (defines ++ defines') := by rw [List.append_nil]; exact List.perm_middle
      _ ~ label :: (definitions.map Definition.label ++ fresh ++ fresh') :=
        (defined.append defined').cons label
      _ ~ definitions.map Definition.label ++ label :: (fresh ++ fresh') := by
        rw [List.append_assoc]
        exact List.perm_middle.symm
  · grind

/-- Whether functions and the statements of a main scope can be built into one program. -/
structure WellNested (definitions : List Definition) (main : List Call) : Prop where
  distinct : (definitions.map Definition.label).Nodup
  /-- The labels of functions cannot be taken for labels of the source. -/
  apart : ∀ f ∈ definitions, ¬ "%LABEL_".toList <+: f.label.toList
  bodies : ∀ f ∈ definitions, Nested (definitions.map Definition.label) .statements f.body
  main : Nested (definitions.map Definition.label) .statements main

/-- Labels of the source differ from each other and from those of functions. -/
theorem WellNested.nodup {definitions : List Definition} {main : List Call} {fresh : List String}
    {n : Nat} (nested : WellNested definitions main) (numbered : Numbered n fresh) :
    (definitions.map Definition.label ++ fresh).Nodup := by
  refine List.nodup_append.mpr ⟨nested.distinct, numbered.nodup, ?_⟩
  rintro _ declared label taken rfl
  obtain ⟨f, member, rfl⟩ := List.mem_map.mp declared
  obtain ⟨m, -, tail, text⟩ := numbered.exists_number taken
  exact nested.apart f member ⟨_, text.symm⟩

theorem resolved_of_subset {store : Store} (known : store.targets ⊆ store.defined) :
    Flow.Resolved store.code := by
  intro i member label target
  have jumped : label ∈ store.targets := List.mem_filterMap.mpr ⟨i, member, target⟩
  exact List.mem_filterMap.mp (known jumped)

/-- Well-nested calls are all carried out, and every statement among them leaves what is open as it
was. Every label that they take is defined exactly once, and the program can be surveyed and its
control-flow graph built. -/
theorem nested_construction_resolves {definitions : List Definition} {main : List Call}
    (nested : WellNested definitions main) :
    ∃ b : Builder,
      performAll {} (programCalls definitions main) = .done b ∧
      (∀ before statement after,
        programCalls definitions main = before ++ (statement ++ after) →
        Nested (definitions.map Definition.label) .statements statement →
        ∃ b₁ b₂, performAll {} before = .done b₁ ∧ b₁.performAll statement = .done b₂ ∧
          b₂.nesting = b₁.nesting) ∧
      (issuedBy {} (programCalls definitions main)).length = b.labels.counter ∧
      (issuedBy {} (programCalls definitions main)).Nodup ∧
      (∀ label ∈ issuedBy {} (programCalls definitions main), b.store.defined.count label = 1) ∧
      (∀ i ∈ b.store.code, i.WellFormed) ∧
      (Usage.survey b.store.code).isOk ∧
      (Flow.build b.store.code).isOk := by
  obtain ⟨b, fresh, defines, jumps, stretch, account, known⟩ :=
    exists_stretch_program (b := {}) nested.bodies nested.main rfl
  have orderly : Orderly b.store b.pending :=
    stretch.grows.orderly ⟨List.forall_mem_nil _, Bool.false_ne_true⟩
  have defined : b.store.defined = defines := stretch.grows.defined
  have targets : b.store.targets = jumps := stretch.grows.targets
  refine ⟨b, stretch.runs, ?_, ?_, ?_, ?_, fun i member => (orderly.code i member).1, ?_, ?_⟩
  · intro before statement after split inside
    obtain ⟨b₁, reached, goesOn⟩ := exists_of_performAll_append (split ▸ stretch.runs)
    obtain ⟨b₂, _, _, _, runs, restored, -, -⟩ := inside.settles b₁
    exact ⟨b₁, b₂, reached, runs.runs, restored⟩
  · rw [stretch.issued, stretch.counter]
    exact (Nat.zero_add _).symm
  · rw [stretch.issued]
    exact stretch.numbered.nodup
  · intro label taken
    rw [stretch.issued] at taken
    rw [defined, account.count_eq]
    exact List.count_eq_one_of_mem (nested.nodup stretch.numbered) (List.mem_append_right _ taken)
  · exact isOk_survey_iff.mpr fun i member => (orderly.code i member).2
  · refine Flow.isOk_build.mpr (resolved_of_subset ?_)
    rw [defined, targets]
    intro label jumped
    exact account.mem_iff.mpr (List.mem_append.mpr (List.mem_append.mp (known jumped)).symm)

/-- A function that calls itself in one of three branches. -/
def descend : Definition where
  label := "descend"
  body := [
    .expressionStart, .emit .pushs [.var ⟨.lf, "n"⟩], .expressionEnd ⟨.lf, "n"⟩,
    .ifAfterExpression, .call "descend", .ifEndBlock,
    .elseIfBefore, .emit .pushs [truth true], .elseIfAfter, .returnStatement,
    .elseBlock, .ifAfterEnd]
  type := .int

/-- A loop that calls the function. -/
def descents : List Call := [
  .whileBefore, .emit .pushs [truth true], .whileAfter,
  .staticStart "main" "n" .int, .input ⟨.gf, "n"⟩ .int, .staticEnd "main" "n",
  .declare ⟨.lf, "m"⟩ .int, .call "descend", .whileEnd]

theorem nested_descend : Nested ["descend"] .statements descend.body := by
  have pushes : Nested ["descend"] .statements [.emit .pushs [.var ⟨.lf, "n"⟩]] :=
    .plain ⟨by decide, by decide, rfl⟩
  have tests : Nested ["descend"] .statements [.emit .pushs [truth true]] :=
    .plain ⟨by decide, by decide, rfl⟩
  have again : Nested ["descend"] .branches [.call "descend", .ifEndBlock] :=
    (Nested.body (.plain List.mem_cons_self)).append .endBlock
  have back : Nested ["descend"] .branches
      [.elseIfBefore, .emit .pushs [truth true], .elseIfAfter, .returnStatement] :=
    (Nested.elseIf tests).append (.body (.plain trivial))
  exact (Nested.expression ⟨.lf, "n"⟩ pushes).append
    (.conditional (again.append (back.append .otherwise)))

theorem nested_descents : Nested ["descend"] .statements descents := by
  have tests : Nested ["descend"] .statements [.emit .pushs [truth true]] :=
    .plain ⟨by decide, by decide, rfl⟩
  have asks : Nested ["descend"] .statements [.input ⟨.gf, "n"⟩ .int] := .plain trivial
  have declares : Nested ["descend"] .statements [.declare ⟨.lf, "m"⟩ .int] := .plain trivial
  have calls : Nested ["descend"] .statements [.call "descend"] := .plain List.mem_cons_self
  exact .loop tests ((Nested.static "main" "n" .int asks).append (declares.append calls))

theorem nested_construction_resolves_descend : WellNested [descend] descents ∧
    ∃ b : Builder, performAll {} (programCalls [descend] descents) = .done b ∧
      b.labels.counter = 8 ∧ (Flow.build b.store.code).isOk := by
  have nested : WellNested [descend] descents :=
    ⟨by decide, by decide, List.forall_mem_singleton.mpr nested_descend, nested_descents⟩
  obtain ⟨b, runs, -, counter, -, -, -, -, built⟩ := nested_construction_resolves nested
  exact ⟨nested, b, runs, counter.symm.trans (by decide), built⟩

end ThreeAddress.Builder
