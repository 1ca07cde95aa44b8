/-
References to variables. Two operands name the same variable if they hold the same
reference, while tables of variables are keyed by text, a frame, an at sign and a
name. Both ways of telling variables apart agree, for any names and any order of
requests to one registry.

What carries the proof is that the registry and the list of what was made
determine each other: a frame and a name are registered with a reference if that
reference stands for a variable with this frame and name. So the same variable is
never made twice. Making a variable keeps this, and changes no reference that was
handed out before; a reference once returned is therefore the one that the
registry still has at the end.
-/
import ThreeAddress.Symbols
import Mathlib.Data.List.Basic
import Mathlib.Logic.Function.Basic

namespace ThreeAddress

/-! ### Texts of variables -/

theorem Frame.code_injective : Function.Injective Frame.code := by
  intro first second same
  cases first <;> cases second <;> simp [code] at same ⊢

theorem Frame.length_code (frame : Frame) : frame.code.toList.length = 2 := by
  cases frame <;> simp [code]

/-- The text of a variable determines it: the text of a frame has two characters, so whatever is
behind the third one is the name. -/
theorem Variable.identifier_injective : Function.Injective Variable.identifier := by
  rintro ⟨frame, name⟩ ⟨otherFrame, otherName⟩ same
  have texts := congrArg String.toList same
  simp only [identifier, String.toList_append, List.append_assoc] at texts
  obtain ⟨codes, names⟩ := List.append_inj texts (by rw [Frame.length_code, Frame.length_code])
  rw [Frame.code_injective (String.toList_inj.mp codes),
    String.toList_inj.mp (List.append_cancel_left names)]

theorem Variable.scratch_injective : Function.Injective Variable.scratch := by
  intro first second same
  have texts : "%temp" ++ toString first = "%temp" ++ toString second :=
    congrArg Variable.name same
  rw [String.append_right_inj, Nat.toString_eq_ofList_toDigits, Nat.toString_eq_ofList_toDigits,
    String.ofList_inj] at texts
  rw [← @Nat.ofDigitChars_ten_toDigits first, texts, Nat.ofDigitChars_ten_toDigits]

namespace Symbols

variable {symbols : Symbols}

/-! ### Making variables -/

theorem get?_make (symbols : Symbols) (frame : Frame) (name : String) (reference : Nat) :
    (symbols.make frame name).2.get? reference =
      if reference = symbols.made.length then some ⟨frame, name⟩ else symbols.get? reference := by
  rw [get?, make, List.getElem?_append, get?]
  split
  · next inside => rw [if_neg (Nat.ne_of_lt inside)]
  · next outside =>
    split
    · next last => simp [last]
    · next other => rw [List.getElem?_eq_none (by simp; omega), List.getElem?_eq_none (by omega)]

theorem lookup?_make (symbols : Symbols) (frame other : Frame) (name otherName : String) :
    (symbols.make frame name).2.lookup? other otherName =
      if (other, otherName) = (frame, name) then some symbols.made.length
      else symbols.lookup? other otherName := by
  simp only [lookup?, make, Table.put]
  split
  · next same => rw [same, Table.get?_alter_self]
  · next different => rw [Table.get?_alter_of_ne _ different]

/-- The registry holds what was made, and nothing else. -/
def Indexed (symbols : Symbols) : Prop :=
  ∀ (v : Variable) (reference : Nat),
    symbols.lookup? v.frame v.name = some reference ↔ symbols.get? reference = some v

theorem Indexed.make (indexed : symbols.Indexed) {frame : Frame} {name : String}
    (fresh : symbols.lookup? frame name = none) : (symbols.make frame name).2.Indexed := by
  intro v reference
  have beyond : symbols.get? symbols.made.length = none := List.getElem?_eq_none (Nat.le_refl _)
  rw [lookup?_make, get?_make]
  by_cases same : v = ⟨frame, name⟩
  · subst same
    rw [if_pos rfl, Option.some_inj]
    by_cases last : reference = symbols.made.length
    · simp [last]
    · have unmade : symbols.get? reference ≠ some ⟨frame, name⟩ := fun found =>
        Option.some_ne_none reference (((indexed _ _).mpr found).symm.trans fresh)
      simp [last, Ne.symm last, unmade]
  · have otherKey : (v.frame, v.name) ≠ (frame, name) := by
      rintro keys
      cases keys
      exact same rfl
    rw [if_neg otherKey, indexed]
    by_cases last : reference = symbols.made.length
    · simp [last, beyond, Ne.symm same]
    · rw [if_neg last]

/-- What is registered stays registered with the same reference. -/
def Grows (symbols later : Symbols) : Prop :=
  ∀ frame name reference, symbols.lookup? frame name = some reference →
    later.lookup? frame name = some reference

theorem grows_make {frame : Frame} {name : String} (fresh : symbols.lookup? frame name = none) :
    symbols.Grows (symbols.make frame name).2 := by
  intro other otherName reference found
  rw [lookup?_make, if_neg, found]
  intro keys
  cases keys
  exact Option.some_ne_none reference (found.symm.trans fresh)

/-! ### The scratch variables -/

/-- A registry after the first scratch variables were made. -/
structure Prepared (symbols : Symbols) (count : Nat) : Prop where
  indexed : symbols.Indexed
  pad : symbols.pad = List.range count
  made : symbols.made = (List.range count).map fun index => Variable.scratch (index + 1)

theorem Prepared.makeScratch {count : Nat} (prepared : symbols.Prepared count) :
    (symbols.makeScratch (count + 1)).Prepared (count + 1) := by
  have length : symbols.made.length = count := by
    rw [prepared.made, List.length_map, List.length_range]
  have fresh : symbols.lookup? .tf (Variable.scratch (count + 1)).name = none := by
    refine Option.eq_none_iff_forall_ne_some.mpr fun reference found => ?_
    have old := List.mem_of_getElem? ((prepared.indexed (Variable.scratch (count + 1)) _).mp found)
    rw [prepared.made, List.mem_map] at old
    obtain ⟨index, inside, same⟩ := old
    rw [List.mem_range] at inside
    have := Variable.scratch_injective same
    omega
  exact {
    indexed := prepared.indexed.make fresh
    pad := by
      rw [List.range_succ, ← prepared.pad, ← length]
      rfl
    made := by
      rw [List.range_succ, List.map_append, ← prepared.made]
      rfl }

theorem prepared_initial : initial.Prepared Variable.scratchCount := by
  rw [initial]
  induction Variable.scratchCount with
  | zero => exact ⟨fun v reference => by simp [lookup?, get?], rfl, rfl⟩
  | succ count inductionHypothesis =>
    rw [List.range_succ, List.foldl_append]
    exact inductionHypothesis.makeScratch

/-! ### Requests -/

/-- What a registry can be asked for. -/
inductive Request where
  | intern (frame : Frame) (name : String)
  | internGlobal (name : String)
  | internLocal (name : String)
  | scratch (number : Nat)
  | lookup (frame : Frame) (name : String)
deriving DecidableEq, Repr

/-- The variable that a request asks for. -/
def Request.asked : Request → Variable
  | .intern frame name | .lookup frame name => ⟨frame, name⟩
  | .internGlobal name => ⟨.gf, name⟩
  | .internLocal name => ⟨.lf, name⟩
  | .scratch number => .scratch number

/-- Whether a request has the variable made if it was not. -/
def Request.makes : Request → Bool
  | .intern _ _ | .internGlobal _ | .internLocal _ => true
  | .scratch _ | .lookup _ _ => false

/-- Carries out a request; gives the reference that it returns, if it returns one. -/
def perform (symbols : Symbols) : Request → Option Nat × Symbols
  | .intern frame name => (symbols.intern frame name).map some id
  | .internGlobal name => (symbols.internGlobal name).map some id
  | .internLocal name => (symbols.internLocal name).map some id
  | .scratch number => (symbols.scratch? number, symbols)
  | .lookup frame name => (symbols.lookup? frame name, symbols)

/-- The registry after some requests. -/
def after (symbols : Symbols) (requests : List Request) : Symbols :=
  requests.foldl (fun symbols request => (symbols.perform request).2) symbols

/-- The requests that were answered, with the references that they returned. -/
def answers (symbols : Symbols) : List Request → List (Request × Nat)
  | [] => []
  | request :: later =>
    ((symbols.perform request).1.map (request, ·)).toList ++
      answers (symbols.perform request).2 later

/-- What every request keeps. -/
structure Sound (symbols : Symbols) : Prop where
  indexed : symbols.Indexed
  pad : symbols.pad = List.range Variable.scratchCount
  scratch : ∀ index < Variable.scratchCount,
    symbols.get? index = some (Variable.scratch (index + 1))

theorem Prepared.sound (prepared : symbols.Prepared Variable.scratchCount) : symbols.Sound where
  indexed := prepared.indexed
  pad := prepared.pad
  scratch index inside := by
    rw [get?, prepared.made, List.getElem?_map, List.getElem?_range inside]
    rfl

theorem Sound.make (sound : symbols.Sound) {frame : Frame} {name : String}
    (fresh : symbols.lookup? frame name = none) : (symbols.make frame name).2.Sound where
  indexed := sound.indexed.make fresh
  pad := sound.pad
  scratch index inside := by
    have old := sound.scratch index inside
    obtain ⟨bound, -⟩ := List.getElem?_eq_some_iff.mp old
    rw [get?_make, if_neg (Nat.ne_of_lt bound), old]

/-- What carrying out a request comes to: nothing is lost, and a reference that is returned is the
one registered for the variable asked for. -/
structure Serves (symbols : Symbols) (asked : Variable) (reply : Option Nat) (later : Symbols) :
    Prop where
  sound : later.Sound
  grows : symbols.Grows later
  returned : ∀ reference, reply = some reference →
    later.lookup? asked.frame asked.name = some reference

theorem Sound.intern (sound : symbols.Sound) (frame : Frame) (name : String) :
    Serves symbols ⟨frame, name⟩ (some (symbols.intern frame name).1)
      (symbols.intern frame name).2 := by
  rw [Symbols.intern]
  split
  · next reference found =>
    exact ⟨sound, fun _ _ _ known => known, fun _ same => Option.some_inj.mp same ▸ found⟩
  · next fresh =>
    refine ⟨sound.make fresh, grows_make fresh, fun reference same => ?_⟩
    rw [lookup?_make, if_pos rfl, ← same]
    rfl

/-- The numbers of scratch variables are one more than their references. -/
theorem Sound.scratch?_eq_some_iff (sound : symbols.Sound) {number reference : Nat} :
    symbols.scratch? number = some reference ↔
      number = reference + 1 ∧ number ≤ Variable.scratchCount := by
  rw [scratch?, sound.pad]
  split
  · next zero => exact iff_of_false (Option.some_ne_none _).symm (by omega)
  · next positive =>
    by_cases small : number - 1 < Variable.scratchCount
    · rw [List.getElem?_range small, Option.some_inj]
      omega
    · rw [List.getElem?_eq_none (by rw [List.length_range]; omega)]
      exact iff_of_false (Option.some_ne_none _).symm (by omega)

theorem Sound.scratchNumber?_eq_some_iff (sound : symbols.Sound) {number reference : Nat} :
    symbols.scratchNumber? reference = some number ↔ symbols.scratch? number = some reference := by
  have place : ∀ index, (List.range Variable.scratchCount).idxOf? reference = some index ↔
      index = reference ∧ index < Variable.scratchCount := by
    intro index
    rw [List.idxOf?_eq_some_iff]
    simp only [List.length_range, List.getElem_range, exists_prop]
    constructor
    · rintro ⟨small, same, -⟩
      exact ⟨same, small⟩
    · rintro ⟨rfl, small⟩
      exact ⟨small, rfl, fun earlier before => Nat.ne_of_lt before⟩
  rw [sound.scratch?_eq_some_iff, scratchNumber?, sound.pad, Option.map_eq_some_iff]
  simp only [place]
  constructor
  · rintro ⟨index, ⟨rfl, small⟩, rfl⟩
    exact ⟨rfl, small⟩
  · rintro ⟨rfl, small⟩
    exact ⟨reference, ⟨rfl, small⟩, rfl⟩

/-- A scratch variable is known by its number if it was made with the name for that number. -/
theorem Sound.scratch?_iff_get? (sound : symbols.Sound) {number reference : Nat} :
    symbols.scratch? number = some reference ↔
      (1 ≤ number ∧ number ≤ Variable.scratchCount) ∧
        symbols.get? reference = some (Variable.scratch number) := by
  rw [sound.scratch?_eq_some_iff]
  constructor
  · rintro ⟨rfl, small⟩
    exact ⟨⟨Nat.le_add_left 1 reference, small⟩, sound.scratch reference small⟩
  · rintro ⟨⟨positive, small⟩, made⟩
    have own := sound.scratch (number - 1) (by omega)
    rw [Nat.sub_add_cancel positive, ← sound.indexed] at own
    rw [← sound.indexed, own, Option.some_inj] at made
    omega

theorem Sound.perform (sound : symbols.Sound) (request : Request) :
    Serves symbols request.asked (symbols.perform request).1 (symbols.perform request).2 := by
  cases request with
  | intern frame name => exact sound.intern frame name
  | internGlobal name => exact sound.intern .gf name
  | internLocal name => exact sound.intern .lf name
  | scratch number =>
    refine ⟨sound, fun _ _ _ known => known, fun reference found => ?_⟩
    exact (sound.indexed _ _).mpr (sound.scratch?_iff_get?.mp found).2
  | lookup frame name => exact ⟨sound, fun _ _ _ known => known, fun _ found => found⟩

/-- A reference that was returned is the one registered at the end. -/
theorem Sound.after (sound : symbols.Sound) (requests : List Request) :
    (symbols.after requests).Sound ∧ symbols.Grows (symbols.after requests) ∧
      ∀ answer ∈ symbols.answers requests,
        (symbols.after requests).lookup? answer.1.asked.frame answer.1.asked.name =
          some answer.2 := by
  induction requests generalizing symbols with
  | nil => exact ⟨sound, fun _ _ _ known => known, fun _ member => absurd member List.not_mem_nil⟩
  | cons request later inductionHypothesis =>
    have served := sound.perform request
    obtain ⟨final, grows, returned⟩ := inductionHypothesis served.sound
    refine ⟨final, fun frame name reference known => ?_, fun answer member => ?_⟩
    · exact grows frame name reference (served.grows frame name reference known)
    · rcases List.mem_append.mp member with first | rest
      · obtain ⟨reference, replied, rfl⟩ := Option.map_eq_some_iff.mp (Option.mem_toList.mp first)
        exact grows _ _ _ (served.returned reference replied)
      · exact returned answer rest

/-- Registered references are the same if the variables are. -/
theorem Indexed.reference_eq_iff (indexed : symbols.Indexed) {v w : Variable} {first second : Nat}
    (found : symbols.lookup? v.frame v.name = some first)
    (otherFound : symbols.lookup? w.frame w.name = some second) : first = second ↔ v = w := by
  constructor
  · rintro rfl
    rw [indexed] at found otherFound
    exact Option.some_inj.mp (found.symm.trans otherFound)
  · rintro rfl
    exact Option.some_inj.mp (found.symm.trans otherFound)

/-! ### Which requests are answered -/

theorem Indexed.isSome_lookup?_iff (indexed : symbols.Indexed) (v : Variable) :
    (symbols.lookup? v.frame v.name).isSome ↔ v ∈ symbols.made := by
  rw [Option.isSome_iff_exists, List.mem_iff_getElem?]
  exact exists_congr (indexed v)

theorem mem_made_intern (indexed : symbols.Indexed) (frame : Frame) (name : String) (v : Variable) :
    v ∈ (symbols.intern frame name).2.made ↔ v ∈ symbols.made ∨ v = ⟨frame, name⟩ := by
  rw [intern]
  split
  · next reference found =>
    have known := (indexed.isSome_lookup?_iff ⟨frame, name⟩).mp (Option.isSome_of_eq_some found)
    exact (or_iff_left_of_imp fun same => same ▸ known).symm
  · exact List.mem_append.trans (or_congr_right List.mem_singleton)

theorem mem_made_perform (indexed : symbols.Indexed) (request : Request) (v : Variable) :
    v ∈ (symbols.perform request).2.made ↔
      v ∈ symbols.made ∨ (request.makes ∧ v = request.asked) := by
  cases request with
  | intern frame name =>
    exact (mem_made_intern indexed frame name v).trans (or_congr_right (and_iff_right rfl).symm)
  | internGlobal name =>
    exact (mem_made_intern indexed .gf name v).trans (or_congr_right (and_iff_right rfl).symm)
  | internLocal name =>
    exact (mem_made_intern indexed .lf name v).trans (or_congr_right (and_iff_right rfl).symm)
  | scratch number => simp [perform, Request.makes]
  | lookup frame name => simp [perform, Request.makes]

theorem Sound.mem_made_after (sound : symbols.Sound) (requests : List Request) (v : Variable) :
    v ∈ (symbols.after requests).made ↔
      v ∈ symbols.made ∨ ∃ request ∈ requests, request.makes ∧ v = request.asked := by
  induction requests generalizing symbols with
  | nil => simp [Symbols.after]
  | cons request later inductionHypothesis =>
    have rest := inductionHypothesis (sound.perform request).sound
    rw [mem_made_perform sound.indexed, or_assoc] at rest
    simp only [List.mem_cons, exists_eq_or_imp]
    exact rest

/-- Whether a request is answered when it comes after others. -/
def Request.Answerable (before : List Request) : Request → Prop
  | .intern _ _ | .internGlobal _ | .internLocal _ => True
  | .scratch number => 1 ≤ number ∧ number ≤ Variable.scratchCount
  | .lookup frame name =>
    (∃ number, (1 ≤ number ∧ number ≤ Variable.scratchCount) ∧
        ⟨frame, name⟩ = Variable.scratch number) ∨
      ∃ request ∈ before, request.makes ∧ ⟨frame, name⟩ = request.asked

theorem isSome_perform_iff (before : List Request) (request : Request) :
    ((initial.after before).perform request).1.isSome ↔ request.Answerable before := by
  obtain ⟨sound, -, -⟩ := prepared_initial.sound.after before
  cases request with
  | intern | internGlobal | internLocal => exact iff_of_true rfl trivial
  | scratch number =>
    show ((initial.after before).scratch? number).isSome ↔ 1 ≤ number ∧ number ≤ _
    rw [Option.isSome_iff_exists]
    simp only [sound.scratch?_eq_some_iff]
    exact ⟨fun ⟨reference, same, small⟩ => ⟨by omega, small⟩,
      fun ⟨positive, small⟩ => ⟨number - 1, by omega, small⟩⟩
  | lookup frame name =>
    show ((initial.after before).lookup? frame name).isSome ↔ _ ∨ _
    rw [sound.indexed.isSome_lookup?_iff ⟨frame, name⟩, prepared_initial.sound.mem_made_after,
      prepared_initial.made, List.mem_map]
    refine or_congr_left ⟨?_, ?_⟩
    · rintro ⟨index, inside, same⟩
      exact ⟨index + 1, ⟨by omega, List.mem_range.mp inside⟩, same.symm⟩
    · rintro ⟨number, ⟨positive, small⟩, same⟩
      refine ⟨number - 1, List.mem_range.mpr (by omega), ?_⟩
      rw [same, Nat.sub_add_cancel positive]

/-! ### References, names and texts -/

/-- What is promised of the answers to a sequence of requests to a new registry. -/
structure Distinguishes (requests : List Request) : Prop where
  answered : ∀ before request later, requests = before ++ request :: later →
    (((initial.after before).perform request).1.isSome ↔ request.Answerable before)
  named : ∀ answer ∈ initial.answers requests,
    (initial.after requests).get? answer.2 = some answer.1.asked
  byName : ∀ first ∈ initial.answers requests, ∀ second ∈ initial.answers requests,
    first.2 = second.2 ↔ first.1.asked = second.1.asked
  byText : ∀ first ∈ initial.answers requests, ∀ second ∈ initial.answers requests,
    first.2 = second.2 ↔
      ((initial.after requests).get? first.2).map Variable.identifier =
        ((initial.after requests).get? second.2).map Variable.identifier
  byOperand : ∀ first ∈ initial.answers requests, ∀ second ∈ initial.answers requests,
    first.2 = second.2 ↔ (Operand.var first.1.asked).same (.var second.1.asked)
  scratch : ∀ answer ∈ initial.answers requests, ∀ number,
    (initial.after requests).scratchNumber? answer.2 = some number ↔
      (1 ≤ number ∧ number ≤ 5) ∧ answer.1.asked = ⟨.tf, "%temp" ++ toString number⟩

/-- For any sequence of requests, references are the same if the variables asked for are, and if
their texts are; and the scratch variables are known by their references. -/
theorem references_follow_texts (requests : List Request) : Distinguishes requests := by
  obtain ⟨sound, -, returned⟩ := prepared_initial.sound.after requests
  have named : ∀ answer ∈ initial.answers requests,
      (initial.after requests).get? answer.2 = some answer.1.asked := fun answer member =>
    (sound.indexed _ _).mp (returned answer member)
  have byName : ∀ first ∈ initial.answers requests, ∀ second ∈ initial.answers requests,
      first.2 = second.2 ↔ first.1.asked = second.1.asked := fun first firstMember second member =>
    sound.indexed.reference_eq_iff (returned first firstMember) (returned second member)
  refine ⟨fun before request _ _ => isSome_perform_iff before request, named, byName, ?_, ?_, ?_⟩
  · intro first firstMember second secondMember
    rw [byName first firstMember second secondMember, named first firstMember,
      named second secondMember, Option.map_some, Option.map_some, Option.some_inj,
      Variable.identifier_injective.eq_iff]
  · intro first firstMember second secondMember
    rw [byName first firstMember second secondMember, Operand.same, decide_eq_true_iff]
  · intro answer member number
    rw [sound.scratchNumber?_eq_some_iff, sound.scratch?_iff_get?, named answer member,
      Option.some_inj]
    rfl

end Symbols

end ThreeAddress
