/-
What the names of a peephole rule stand for. A match meets operands at the named
places of the pattern, in order, and a name stands for the operand at the first
place that has it. A rule that is accepted uses no name in its replacement that
no place has, and gives each instruction as many names as its opcode takes
operands; so wherever such a rule matches, every instruction of its replacement
can be made.
-/
import ThreeAddress.Proofs.PeepholeSoundness

namespace ThreeAddress.Peephole

/-! ### Names and the operands at their places -/

/-- The name of a place. -/
def Place.name? : Place → Option String
  | .any => none
  | .named name _ _ => some name

/-- The names of the places of a template, each with the operand there. -/
def namingsAt (places : List Place) (operands : List Operand) : List (String × Operand) :=
  (places.zip operands).filterMap fun entry => entry.1.name?.map (·, entry.2)

/-- The names of the places of a pattern, each with the operand that it meets, in order. -/
def namings (templates : List Template) (code : List Instruction) : List (String × Operand) :=
  (templates.zip code).flatMap fun entry => namingsAt entry.1.places entry.2.operands

/-- The operand at the first place of a pattern that has a name. -/
def firstNamed (templates : List Template) (code : List Instruction) (name : String) :
    Option Operand :=
  (namings templates code).lookup name

section Matched

variable {usage : Usage} {bindings found : Bindings} {name : String}

/-- A place binds its own name, if that is new, and no other. -/
theorem get?_of_matchPlace? {place : Place} {operand : Operand}
    (matched : matchPlace? usage place operand bindings = some found) (name : String) :
    found.get? name =
      (bindings.get? name).or ((namingsAt [place] [operand]).lookup name) := by
  cases place with
  | any =>
    obtain rfl := Option.some_inj.mp matched
    exact (Option.or_none).symm
  | named own requirement quantity =>
    have single : (namingsAt [.named own requirement quantity] [operand]).lookup name =
        if name = own then some operand else none := by
      by_cases same : name = own
      · simp [namingsAt, Place.name?, same]
      · simp [namingsAt, Place.name?, List.lookup_cons, beq_false_of_ne same, same]
    rw [single]
    cases known : bindings.get? own with
    | some bound =>
      obtain ⟨-, rfl⟩ := matchPlace?_bound known matched
      split
      · next same => rw [same, known, Option.some_or]
      · rw [Option.or_none]
    | none =>
      obtain ⟨-, -, rfl⟩ := matchPlace?_new known matched
      split
      · next same => rw [same, known, Option.none_or, get?_put_self]
      · next differs => rw [Option.or_none, Table.put, Table.get?_alter_of_ne _ differs]

theorem namingsAt_cons (place : Place) (places : List Place) (operand : Operand)
    (operands : List Operand) : namingsAt (place :: places) (operand :: operands) =
      namingsAt [place] [operand] ++ namingsAt places operands := by
  rw [namingsAt, List.zip_cons_cons, ← List.singleton_append, List.filterMap_append]
  rfl

theorem get?_of_matchPlaces? {places : List Place} {operands : List Operand}
    (matched : matchPlaces? usage places operands bindings = some found) (name : String) :
    found.get? name = (bindings.get? name).or ((namingsAt places operands).lookup name) := by
  induction places generalizing operands bindings with
  | nil =>
    obtain rfl := Option.some_inj.mp matched
    exact (Option.or_none).symm
  | cons place places inductionHypothesis =>
    obtain ⟨operand, rest, bound, rfl, here, later⟩ := matchPlaces?_cons matched
    rw [inductionHypothesis later, get?_of_matchPlace? here, namingsAt_cons place places,
      List.lookup_append, Option.or_assoc]

/-- A match binds each name to the operand at the first place that has it. -/
theorem get?_of_matchPattern? {templates : List Template} {code : List Instruction}
    (matched : matchPattern? usage templates code bindings = some found) (name : String) :
    found.get? name = (bindings.get? name).or (firstNamed templates code name) := by
  induction templates generalizing code bindings with
  | nil =>
    obtain rfl := Option.some_inj.mp matched
    exact (Option.or_none).symm
  | cons template templates inductionHypothesis =>
    cases code with
    | nil => exact absurd matched (by simp [matchPattern?])
    | cons i rest =>
      obtain ⟨-, bound, here, later⟩ := matchPattern?_cons matched
      rw [inductionHypothesis later, get?_of_matchPlaces? here, Option.or_assoc, firstNamed,
        ← List.lookup_append]
      rfl

/-- Every place of a template that matches has an operand, so its name is bound. -/
theorem isSome_of_matchPlaces? {places : List Place} {operands : List Operand}
    (matched : matchPlaces? usage places operands bindings = some found)
    (has : name ∈ places.filterMap Place.name?) : (found.get? name).isSome := by
  induction places generalizing operands bindings with
  | nil => exact absurd has (by simp)
  | cons place places inductionHypothesis =>
    obtain ⟨operand, rest, bound, rfl, here, later⟩ := matchPlaces?_cons matched
    obtain ⟨other, member, own⟩ := List.mem_filterMap.mp has
    obtain rfl | behind := List.mem_cons.mp member
    · have naming : namingsAt [other] [operand] = [(name, operand)] := by
        simp [namingsAt, own]
      rw [get?_of_matchPlaces? later, get?_of_matchPlace? here, naming]
      simp
    · exact inductionHypothesis later (List.mem_filterMap.mpr ⟨other, behind, own⟩)

theorem isSome_of_matchPattern? {templates : List Template} {code : List Instruction}
    (matched : matchPattern? usage templates code bindings = some found)
    (has : ∃ template ∈ templates, name ∈ template.places.filterMap Place.name?) :
    (found.get? name).isSome := by
  induction templates generalizing code bindings with
  | nil => simp at has
  | cons template templates inductionHypothesis =>
    cases code with
    | nil => exact absurd matched (by simp [matchPattern?])
    | cons i rest =>
      obtain ⟨-, bound, here, later⟩ := matchPattern?_cons matched
      obtain ⟨other, member, own⟩ := has
      obtain rfl | behind := List.mem_cons.mp member
      · rw [get?_of_matchPattern? later]
        simp [isSome_of_matchPlaces? here own]
      · exact inductionHypothesis later ⟨other, behind, own⟩

end Matched

/-! ### What is checked when a rule is made -/

namespace Rule

/-- Whether a rule can be made. -/
def Accepted (rule : Rule) : Prop :=
  ∃ name pattern replacement, make name pattern replacement = .ok rule

theorem mem_of_bindPlaces {opcode : Opcode} {places : List Place} {bound after : List String}
    (bind : bindPlaces opcode places bound = .ok after) {name : String} (member : name ∈ after) :
    name ∈ bound ∨ name ∈ places.filterMap Place.name? := by
  fun_induction bindPlaces opcode places bound with
  | case1 bound =>
    obtain rfl := Except.ok.inj bind
    exact Or.inl member
  | case2 rest bound inductionHypothesis => exact inductionHypothesis bind
  | case3 own other quantity rest bound known inductionHypothesis =>
    have later := inductionHypothesis bind
    simp only [List.mem_cons, List.filterMap_cons, Place.name?] at later ⊢
    grind
  | case4 => exact absurd bind (by simp)
  | case5 own requirement quantity rest bound other inductionHypothesis =>
    have later := inductionHypothesis bind
    simp only [List.mem_cons, List.filterMap_cons, Place.name?] at later ⊢
    grind

/-- A name that counts as bound behind a pattern has a place there. -/
theorem exists_place_of_bindPattern {templates : List Template} {bound after : List String}
    (bind : bindPattern templates bound = .ok after) {name : String} (member : name ∈ after) :
    name ∈ bound ∨ ∃ template ∈ templates, name ∈ template.places.filterMap Place.name? := by
  induction templates generalizing bound with
  | nil =>
    obtain rfl := Except.ok.inj bind
    exact Or.inl member
  | cons template templates inductionHypothesis =>
    unfold bindPattern at bind
    split at bind
    · exact absurd bind (by simp)
    · obtain ⟨between, here, later⟩ := exists_ok_of_bind bind
      obtain known | ⟨other, behind, own⟩ := inductionHypothesis later
      · refine (mem_of_bindPlaces here known).imp_right fun own => ?_
        exact ⟨template, List.mem_cons_self, own⟩
      · exact Or.inr ⟨other, List.mem_cons_of_mem _ behind, own⟩

theorem of_checkReplacement {bound : List String} {replacement : List Substitute}
    (checked : checkReplacement bound replacement = .ok ()) {substitute : Substitute}
    (member : substitute ∈ replacement) :
    substitute.aliases.length = substitute.opcode.arity ∧
      ∀ name ∈ substitute.aliases, name ∈ bound := by
  induction replacement with
  | nil => exact absurd member (by simp)
  | cons first rest inductionHypothesis =>
    unfold checkReplacement at checked
    split at checked
    · exact absurd checked (by simp)
    · next length =>
      split at checked
      · exact absurd checked (by simp)
      · next all =>
        obtain rfl | behind := List.mem_cons.mp member
        · refine ⟨not_not.mp length, fun name has => ?_⟩
          simpa using List.find?_eq_none.mp all name has
        · exact inductionHypothesis checked behind

/-- The instructions of an accepted replacement have all their operands, and the names of these have
places in the pattern. -/
theorem Accepted.substitute {rule : Rule} (accepted : rule.Accepted) {substitute : Substitute}
    (member : substitute ∈ rule.replacement) :
    substitute.aliases.length = substitute.opcode.arity ∧
      ∀ name ∈ substitute.aliases, ∃ template ∈ rule.pattern,
        name ∈ template.places.filterMap Place.name? := by
  obtain ⟨name, pattern, replacement, made⟩ := accepted
  obtain ⟨bound, bind, rest⟩ := exists_ok_of_bind made
  obtain ⟨_, checked, result⟩ := exists_ok_of_bind rest
  obtain rfl := Except.ok.inj result
  obtain ⟨length, named⟩ := of_checkReplacement checked member
  refine ⟨length, fun name has => ?_⟩
  exact (exists_place_of_bindPattern bind (named name has)).resolve_left (by simp)

end Rule

theorem accepted_standard : ∀ rule ∈ standard, rule.Accepted := by
  simp only [standard, List.mem_cons, List.not_mem_nil, or_false, forall_eq_or_imp, forall_eq]
  exact ⟨⟨_, emptyFrame.pattern, emptyFrame.replacement, rfl⟩,
    ⟨_, soleJumpToNext.pattern, soleJumpToNext.replacement, rfl⟩,
    ⟨_, jumpToNext.pattern, jumpToNext.replacement, rfl⟩,
    ⟨_, pushPop.pattern, pushPop.replacement, rfl⟩,
    ⟨_, overwrittenMove.pattern, overwrittenMove.replacement, rfl⟩⟩

/-! ### What a replacement is made of -/

/-- The instruction that a substitute stands for. -/
def Substitute.written (bindings : Bindings) (substitute : Substitute) : Instruction where
  opcode := substitute.opcode
  operands := substitute.aliases.filterMap bindings.get?

theorem mapM_eq_some_map {α β : Type} {f : α → Option β} {g : α → β} {list : List α}
    (all : ∀ a ∈ list, f a = some (g a)) : list.mapM f = some (list.map g) := by
  induction list with
  | nil => rfl
  | cons a rest inductionHypothesis =>
    rw [List.forall_mem_cons] at all
    rw [List.mapM_cons, all.1, inductionHypothesis all.2]
    rfl

section Replacement

variable {rule : Rule} {usage : Usage} {code : List Instruction} {bindings : Bindings}

/-- Where an accepted rule matches, the operands of its replacement are those at the first places of
their names, and there are as many as the opcode takes. -/
theorem Rule.Accepted.written (accepted : rule.Accepted)
    (matched : matchPattern? usage rule.pattern code {} = some bindings) {substitute : Substitute}
    (member : substitute ∈ rule.replacement) :
    (substitute.written bindings).operands.map some =
        substitute.aliases.map (firstNamed rule.pattern code) ∧
      (substitute.written bindings).WellFormed := by
  obtain ⟨length, placed⟩ := accepted.substitute member
  have bound : ∀ name ∈ substitute.aliases, (bindings.get? name).isSome := fun name has =>
    isSome_of_matchPattern? matched (placed name has)
  have operands : (substitute.aliases.filterMap bindings.get?).map some =
      substitute.aliases.map bindings.get? := by
    generalize substitute.aliases = names at bound
    induction names with
    | nil => rfl
    | cons name names inductionHypothesis =>
      obtain ⟨operand, known⟩ := Option.isSome_iff_exists.mp (bound name List.mem_cons_self)
      rw [List.filterMap_cons_some known, List.map_cons, List.map_cons, known,
        inductionHypothesis fun name has => bound name (List.mem_cons_of_mem _ has)]
  refine ⟨operands.trans (List.map_congr_left fun name _ => ?_), ?_⟩
  · exact (get?_of_matchPattern? matched name).trans (Option.none_or)
  · have lengths := congrArg List.length operands
    rw [List.length_map, List.length_map, length] at lengths
    exact lengths

/-- Where an accepted rule matches, its replacement can be made. -/
theorem Rule.Accepted.instances (accepted : rule.Accepted)
    (matched : matchPattern? usage rule.pattern code {} = some bindings) :
    rule.replacement.mapM (Substitute.instantiate? bindings) =
      some (rule.replacement.map (Substitute.written bindings)) := by
  refine mapM_eq_some_map fun substitute member => ?_
  exact if_pos (accepted.written matched member).2

end Replacement

end ThreeAddress.Peephole
