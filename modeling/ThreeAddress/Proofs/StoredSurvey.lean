/-
The survey of a stored program is that of the list of its instructions. A stored
program is scanned slot by slot, and what is found inside an expression is noted
for the slot where the expression starts; in a list it is noted for the position.
Since no two positions have one slot, what is collected for the one is what is
collected for the other. A survey that fails leaves the effects of the
expressions in front of the cause cleared, in the store and in the list.
-/
import ThreeAddress.Proofs.CallEffects
import ThreeAddress.Proofs.StoreEntries
import ThreeAddress.Usage.Cursor

namespace ThreeAddress

/-- What follows a pass over a stored program, read off the store. -/
theorem StoreHalt.read_bind {α β γ δ : Type} {view : α → β} {viewNext : γ → δ}
    {outcome : Except StoreHalt α} {next : α → Except StoreHalt γ} {other : β → Except Halt δ}
    (same : ∀ result, outcome = .ok result → read viewNext (next result) = other (view result)) :
    read viewNext (outcome >>= next) = read view outcome >>= other := by
  cases outcome with
  | error halt => rfl
  | ok result => exact same result rfl

namespace Survey

/-! ### Scanning slots -/

/-- What was found, with other places for the starts of expressions. -/
def move (f : Nat → Nat) (found : Survey) : Survey :=
  { found with
    bracket := found.bracket.map f
    bracketCalls := found.bracketCalls.map fun entry => (f entry.1, entry.2)
    bracketEffects := found.bracketEffects.map fun entry => (f entry.1, entry.2) }

theorem scanOne_move (f : Nat → Nat) (found : Survey) (position : Nat) (i : Instruction) :
    (found.move f).scanOne position i (f position) =
      (found.scanOne position i).map (move f) := by
  have bracket : (if i.markers.expressionStart then some (f position) else found.bracket.map f) =
      (if i.markers.expressionStart then some position else found.bracket).map f := by
    split <;> rfl
  unfold scanOne
  rw [show (found.move f).enterFunction position i = found.enterFunction position i from rfl]
  cases found.enterFunction position i with
  | error cause => rfl
  | ok function =>
    dsimp only [bind, Except.bind, pure, Except.pure, Except.map, move]
    rw [bracket]
    generalize (if i.markers.expressionStart then some position else found.bracket) = inside
    congr 2
    · split <;> rfl
    · cases inside <;> cases Usage.calledFunction? i <;> simp
    · cases inside with
      | none => rfl
      | some start =>
        dsimp only [Option.map_some]
        split <;> simp

/-- The scan of an instruction fails exactly if the instruction is not accepted. -/
theorem exists_scanOne (found : Survey) (position : Nat) {i : Instruction} (place : Nat)
    (accepted : accepts i) : ∃ next, found.scanOne position i place = .ok next := by
  have entered : ∃ function, found.enterFunction position i = .ok function := by
    unfold enterFunction
    split
    · next marked =>
      have labelled : i.definedLabel?.isSome := by simpa [accepts, marked] using accepted
      obtain ⟨label, defined⟩ := Option.isSome_iff_exists.mp labelled
      exact ⟨some label, by rw [defined]⟩
    · exact ⟨found.function, rfl⟩
  obtain ⟨function, entered⟩ := entered
  unfold scanOne
  rw [entered]
  exact ⟨_, rfl⟩

theorem exists_scanOne_error (found : Survey) (position : Nat) {i : Instruction} (place : Nat)
    (refused : ¬ accepts i) : ∃ cause, found.scanOne position i place = .error cause := by
  rw [accepts, Bool.or_eq_true, not_or, Bool.not_eq_true', Bool.not_eq_false] at refused
  obtain ⟨marked, unlabelled⟩ := refused
  rw [Option.not_isSome_iff_eq_none] at unlabelled
  unfold scanOne enterFunction
  rw [if_pos marked, unlabelled]
  exact ⟨_, rfl⟩

theorem interrupted_of_accepts {i : Instruction} (accepted : accepts i) (rest : List Instruction) :
    interrupted (i :: rest) = clear i :: interrupted rest := by
  rw [interrupted, List.takeWhile_cons_of_pos accepted, List.dropWhile_cons_of_pos accepted]
  rfl

theorem interrupted_of_not_accepts {i : Instruction} (refused : ¬ accepts i)
    (rest : List Instruction) : interrupted (i :: rest) = i :: rest := by
  rw [interrupted, List.takeWhile_cons_of_neg refused, List.dropWhile_cons_of_neg refused]
  rfl

/-- Scanning the slots from a place on is scanning their instructions, and every instruction that
was scanned has lost its effects, whether the scan succeeds or not. -/
theorem scanSlots_eq {f : Nat → Nat} (rest : List (Slot × Instruction)) {s : Store}
    {before : List (Slot × Instruction)} (split : s.entries = before ++ rest) (found : Survey)
    (places : ∀ position slot, s.order[position]? = some slot → f position = slot) :
    ∃ t, t.order = s.order ∧
      t.code = before.map Prod.snd ++ interrupted (rest.map Prod.snd) ∧
      scanSlots before.length (rest.map Prod.fst) (s, found.move f) =
        match scan before.length (rest.map Prod.snd) found with
        | .ok final => .ok (t, final.move f)
        | .error cause => .error ⟨cause, t⟩ := by
  induction rest generalizing s before found with
  | nil =>
    refine ⟨s, rfl, ?_, rfl⟩
    rw [Store.code, split, List.map_append]
    rfl
  | cons entry rest inductionHypothesis =>
    obtain ⟨slot, i⟩ := entry
    have used := Store.used_of_split split
    have here : f before.length = slot := by
      refine places _ _ ?_
      rw [Store.order, split, List.map_append, List.getElem?_append_right (by simp)]
      simp
    have scanned := scanOne_move f found before.length i
    rw [here] at scanned
    by_cases accepted : accepts i
    · obtain ⟨next, one⟩ := found.exists_scanOne before.length before.length accepted
      rw [one] at scanned
      have changed := used.modify clear
      obtain ⟨t, order, code, others⟩ := @inductionHypothesis (s.modify slot clear)
        (before ++ [(slot, clear i)]) (by rw [changed, List.append_assoc]; rfl) next
        (by rw [Store.order_modify]; exact places)
      rw [List.length_append, List.length_singleton] at others
      refine ⟨t, order.trans (Store.order_modify _ _ _), ?_, ?_⟩
      · rw [code, List.map_append, List.map_singleton, List.append_assoc, List.map_cons,
          interrupted_of_accepts accepted]
        rfl
      · simp only [List.map_cons, scanSlots, scanSlot, used.get, scanned, StoreHalt.leaving,
          Except.map, bind, Except.bind, pure, Except.pure, others, scan, one]
    · obtain ⟨cause, one⟩ := found.exists_scanOne_error before.length before.length accepted
      rw [one] at scanned
      refine ⟨s, rfl, ?_, ?_⟩
      · rw [Store.code, split, List.map_append, List.map_cons, interrupted_of_not_accepts accepted]
      · simp only [List.map_cons, scanSlots, scanSlot, used.get, scanned, StoreHalt.leaving,
          Except.map, bind, Except.bind, scan, one]

/-! ### Storing effects -/

/-- Effects that are added slot by slot are collected in the slots. -/
theorem entries_foldl_addEffects {α : Type} (effects : α → Effects) (list : List (Slot × α))
    (s : Store) :
    (list.foldl (fun s entry => addEffects s entry.1 (effects entry.2)) s).entries =
      s.entries.map fun entry => (entry.1, { entry.2 with
        effects := list.foldl (fun total added => if added.1 = entry.1
          then total.union (effects added.2) else total) entry.2.effects }) := by
  induction list generalizing s with
  | nil => simp
  | cons added list inductionHypothesis =>
    rw [List.foldl_cons, inductionHypothesis, addEffects, Store.entries_modify, List.map_map]
    refine List.map_congr_left fun entry _ => ?_
    rw [Function.comp_apply, List.foldl_cons]
    by_cases here : entry.1 = added.1
    · rw [if_pos here, if_pos here.symm]
    · rw [if_neg here, if_neg (Ne.symm here)]

theorem interrupted_of_scan {position : Nat} {code : List Instruction} {found final : Survey}
    (scanned : scan position code found = .ok final) : interrupted code = code.map clear := by
  induction code generalizing position found with
  | nil => rfl
  | cons i rest inductionHypothesis =>
    obtain ⟨next, one, others⟩ := exists_ok_of_bind scanned
    have accepted : accepts i := by
      by_contra refused
      obtain ⟨cause, failed⟩ := found.exists_scanOne_error position position refused
      exact absurd (failed.symm.trans one) (by simp)
    rw [interrupted_of_accepts accepted, inductionHypothesis others, List.map_cons]

/-- Whether something is noted for an expression that starts at a position. -/
def Notes (found : Survey) (start : Nat) : Prop :=
  (∃ effects, (start, effects) ∈ found.bracketEffects) ∨
    ∃ callee, (start, callee) ∈ found.bracketCalls

theorem Describes.starts {found : Survey} {code : List Instruction}
    (describes : found.Describes code) {start : Nat} (noted : found.Notes start) :
    ∃ i, code[start]? = some i ∧ i.markers.expressionStart := by
  have opened : At (·.markers.expressionStart) code start := by
    obtain ⟨effects, member⟩ | ⟨callee, member⟩ := noted
    · obtain ⟨_, _, _, inside, _⟩ := (describes.bracketEffects start effects).mp member
      exact inside.opened
    · obtain ⟨_, _, _, inside, _⟩ := (describes.bracketCalls start callee).mp member
      exact inside.opened
  exact at_iff.mp opened

section Effects

variable {s t : Store} {found : Survey} {place : Nat → Nat}

/-- What is collected for the slot of a position is what is noted for the position. -/
theorem foldl_place {α : Type} (effects : α → Effects) {list : List (Nat × α)} {position : Nat}
    {slot : Slot} (there : s.order[position]? = some slot)
    (places : ∀ position slot, s.order[position]? = some slot → place position = slot)
    (inside : ∀ entry ∈ list, entry.1 < s.order.length) (total : Effects) :
    (list.map fun entry => (place entry.1, entry.2)).foldl (fun total added =>
        if added.1 = slot then total.union (effects added.2) else total) total =
      list.foldl (fun total entry =>
        if entry.1 = position then total.union (effects entry.2) else total) total := by
  rw [List.foldl_map]
  refine List.foldl_ext _ _ _ fun total entry member => ?_
  obtain ⟨bound, here⟩ := List.getElem?_eq_some_iff.mp there
  have same : place entry.1 = slot ↔ entry.1 = position := by
    have other := List.getElem?_eq_getElem (inside entry member)
    rw [places _ _ other, ← here, s.acts_as_list.distinct.getElem_inj_iff]
  exact if_congr same rfl rfl

theorem foldl_elsewhere {α : Type} (effects : α → Effects) {list : List (Nat × α)} {position : Nat}
    {total : Effects} (elsewhere : ∀ entry ∈ list, entry.1 ≠ position) :
    list.foldl (fun total entry =>
      if entry.1 = position then total.union (effects entry.2) else total) total = total := by
  refine (List.foldl_ext _ (fun total _ => total) _ fun total entry member => ?_).trans
    (List.foldl_fixed _)
  exact if_neg (elsewhere entry member)

theorem order_storeEffects (found : Survey) (functions : Table String FunctionUse) (s : Store) :
    (found.storeEffects functions s).order = s.order := by
  have own := entries_foldl_addEffects (fun effects : Effects => effects) found.bracketEffects s
  rw [storeEffects, Store.order, entries_foldl_addEffects, own, List.map_map, List.map_map]
  rfl

/-- Storing the effects of expressions by slot gives what marking them by position gives. -/
theorem code_storeEffects (describes : found.Describes s.code)
    (functions : Table String FunctionUse)
    (entries : t.entries = s.entries.map fun entry => (entry.1, clear entry.2))
    (places : ∀ position slot, s.order[position]? = some slot → place position = slot) :
    ((found.move place).storeEffects functions t).code = found.markEffects functions s.code := by
  have length := s.length_order
  have inside : ∀ start, found.Notes start → start < s.order.length := by
    intro start noted
    obtain ⟨i, there, -⟩ := describes.starts noted
    exact length ▸ (List.getElem?_eq_some_iff.mp there).1
  have own := entries_foldl_addEffects (fun effects : Effects => effects)
    (found.move place).bracketEffects t
  rw [storeEffects, Store.code, entries_foldl_addEffects, own, entries, List.map_map, List.map_map,
    List.map_map, markEffects]
  refine List.ext_getElem? fun position => ?_
  rw [List.getElem?_map, List.getElem?_mapIdx, Store.code, List.getElem?_map, Option.map_map]
  cases here : s.entries[position]? with
  | none => rfl
  | some entry =>
    obtain ⟨slot, i⟩ := entry
    have there : s.order[position]? = some slot := by rw [Store.order, List.getElem?_map, here]; rfl
    have stands : s.code[position]? = some i := by rw [Store.code, List.getElem?_map, here]; rfl
    have own := fun total => foldl_place (fun effects : Effects => effects) there places
      (fun entry member => inside entry.1 (Or.inl ⟨entry.2, member⟩)) total
    have called := fun total => foldl_place (calleeEffects functions) there places
      (fun entry member => inside entry.1 (Or.inr ⟨entry.2, member⟩)) total
    simp only [move, Option.map_some, Function.comp_apply, own, called]
    rw [clear]
    by_cases marked : i.markers.expressionStart
    · rw [if_pos marked, if_pos marked]
      rfl
    · -- nothing is noted for a position where no expression starts
      have elsewhere : ∀ start, found.Notes start → start ≠ position := by
        rintro start noted rfl
        obtain ⟨j, same, starts⟩ := describes.starts noted
        exact marked (Option.some_inj.mp (same.symm.trans stands) ▸ starts)
      rw [if_neg marked, if_neg marked, foldl_elsewhere (fun effects : Effects => effects),
        foldl_elsewhere]
      · exact fun entry member => elsewhere entry.1 (Or.inr ⟨entry.2, member⟩)
      · exact fun entry member => elsewhere entry.1 (Or.inl ⟨entry.2, member⟩)

end Effects

end Survey

/-- The survey of a stored program is that of the list of its instructions. Every instruction stays
in its slot. -/
theorem Usage.surveyOver_eq (s : Store) :
    StoreHalt.read (fun result => (result.1, result.2.code)) (surveyOver s) =
        Halt.surveying s.code ∧
      ∀ usage t, surveyOver s = .ok (usage, t) → t.order = s.order := by
  let place (position : Nat) : Nat := (s.order[position]?).getD position
  obtain ⟨t, order, code, scanned⟩ := @Survey.scanSlots_eq place s.entries s [] rfl {}
    fun position slot there => by simp [place, there]
  have start : Survey.scanSlots 0 s.order (s, {}) =
      match Survey.scan 0 s.code {} with
      | .ok final => .ok (t, final.move place)
      | .error cause => .error ⟨cause, t⟩ := scanned
  rw [List.map_nil, List.nil_append] at code
  have left : t.code = Survey.interrupted s.code := code
  unfold surveyOver Halt.surveying survey
  rw [start]
  cases found : Survey.scan 0 s.code {} with
  | error cause =>
    refine ⟨?_, fun usage t impossible => absurd impossible (by simp [bind, Except.bind])⟩
    simp [bind, Except.bind, StoreHalt.read, StoreHalt.toHalt, left]
  | ok final =>
    rw [Survey.interrupted_of_scan found] at left
    have describes : final.Describes s.code := Survey.Describes.start.scan found
    have entries : t.entries = s.entries.map fun entry => (entry.1, Survey.clear entry.2) := by
      rw [t.entries_eq_zip, order, left, s.entries_eq_zip, List.zip_map_right]
      rfl
    have stored := Survey.code_storeEffects describes final.closedFunctions entries
      fun position slot there => show place position = slot by simp [place, there]
    refine ⟨?_, fun usage u same => ?_⟩
    · simp only [bind, Except.bind, pure, Except.pure, StoreHalt.read]
      rw [show (final.move place).closedFunctions = final.closedFunctions from rfl, stored]
      rfl
    · obtain ⟨-, rfl⟩ := Prod.mk.inj (Except.ok.inj same)
      rw [Survey.order_storeEffects, order]

end ThreeAddress
