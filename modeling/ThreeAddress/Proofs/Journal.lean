/-
The account of a sequence of calls: which slots belong to loops, to declarations
and to flags of static variables, by the slots that each call takes, and in which
order instructions were added. The program grows by appended code, by a
declaration that is put directly before the outermost open loop, and by flags that
are put further ahead. Each of these keeps three things true: no declaration is
between the labels of a loop, be it open or closed; the declarations that were put
before the outermost loop stand there side by side; and without these and the
flags, instructions are in the order in which they were added.
-/
import ThreeAddress.Proofs.SlotSupply

namespace ThreeAddress.Builder

open scoped List

/-! ### The account of calls -/

/-- What is kept account of along a sequence of calls, in slots. -/
structure Journal where
  /-- The instructions that were added, in the order in which they were. -/
  log : List Slot := []
  /-- The start labels of the loops that are open, innermost first. -/
  opened : List Slot := []
  /-- The start labels and the end labels of the loops that were closed. -/
  closed : List (Slot × Slot) := []
  /-- The declarations of variables. -/
  declared : List Slot := []
  /-- The declarations made inside a loop, in the order in which they were made, with the start
  label of the outermost loop. -/
  hoisted : List (Slot × Slot) := []
  /-- The flags of static variables. -/
  flags : List Slot := []

namespace Journal

/-- The account after a call, by the slots that the call takes. -/
def note (j : Journal) (slots : Nat → Slot) : Call → Journal
  | .declare _ _ =>
    { j with
      declared := slots 0 :: j.declared
      hoisted := j.hoisted ++ j.opened.getLast?.toList.map fun start => (slots 0, start) }
  | .staticStart _ _ _ => { j with flags := slots 1 :: slots 0 :: j.flags }
  | .whileBefore => { j with opened := slots 0 :: j.opened }
  | .whileEnd =>
    { j with
      opened := j.opened.tail
      closed := (j.opened.head?.toList.map fun start => (start, slots 1)) ++ j.closed }
  | _ => j

/-- The account after a call that led from one builder to another. -/
def record (j : Journal) (b next : Builder) (call : Call) : Journal :=
  { j with
    log := j.log ++ (List.range (next.store.size - b.store.size)).map b.store.upcoming }.note
      b.store.upcoming call

/-- The instructions that were not appended. -/
def moved (j : Journal) : List Slot :=
  j.hoisted.map Prod.fst ++ j.flags

/-- The declarations that were put before a loop. -/
def before (j : Journal) (start : Slot) : List Slot :=
  (j.hoisted.filter fun entry => entry.2 = start).map Prod.fst

end Journal

/-- The account of calls that are carried out one after the other. -/
def chronicle (b : Builder) (j : Journal) : List Call → Journal
  | [] => j
  | call :: rest =>
    match b.perform call with
    | .done next => next.chronicle (j.record b next call) rest
    | _ => j

/-! ### Pairs in a list -/

/-- Whether one element of a list comes before another one. -/
def Precedes {α : Type} (list : List α) (first second : α) : Prop :=
  [first, second] <+ list

section Precedes

variable {α : Type} {front back list larger : List α} {x y new : α}

theorem Precedes.mono (precedes : Precedes list x y) (sublist : list <+ larger) :
    Precedes larger x y :=
  precedes.trans sublist

theorem precedes_append (first : x ∈ front) (second : y ∈ back) : Precedes (front ++ back) x y :=
  (List.singleton_sublist.mpr first).append (List.singleton_sublist.mpr second)

theorem Precedes.mem_back (precedes : Precedes (front ++ x :: back) x y)
    (distinct : (front ++ x :: back).Nodup) : y ∈ back := by
  have absent : x ∉ front := fun member =>
    (List.nodup_append.mp distinct).2.2 x member x List.mem_cons_self rfl
  obtain ⟨first, second, same, inFront, inBack⟩ := List.sublist_append_iff.mp precedes
  cases first with
  | nil =>
    cases same
    cases inBack with
    | cons _ rest => exact rest.subset (by simp)
    | cons_cons _ rest => exact List.singleton_sublist.mp rest
  | cons head tail =>
    obtain ⟨rfl, -⟩ := List.cons.inj same
    exact absurd (inFront.subset List.mem_cons_self) absent

theorem Precedes.mem_front (precedes : Precedes (front ++ x :: back) y x)
    (distinct : (front ++ x :: back).Nodup) : y ∈ front := by
  have absent : x ∉ back := (List.nodup_cons.mp (List.nodup_append.mp distinct).2.1).1
  obtain ⟨first, second, same, inFront, inBack⟩ := List.sublist_append_iff.mp precedes
  cases first with
  | nil =>
    cases same
    cases inBack with
    | cons _ rest => exact absurd (rest.subset (by simp)) absent
    | cons_cons _ rest => exact absurd (List.singleton_sublist.mp rest) absent
  | cons head tail =>
    obtain ⟨rfl, -⟩ := List.cons.inj same
    exact inFront.subset List.mem_cons_self

/-- Of two elements of a list without repetitions only one comes first. -/
theorem Precedes.asymm (precedes : Precedes list x y) (distinct : list.Nodup) :
    ¬Precedes list y x := by
  intro other
  obtain ⟨front, back, rfl⟩ := List.append_of_mem (precedes.subset List.mem_cons_self)
  have behind := precedes.mem_back distinct
  have ahead := other.mem_front distinct
  exact (List.nodup_append.mp distinct).2.2 y ahead y (List.mem_cons_of_mem _ behind) rfl

/-- What is put directly before an element comes before all that it comes before. -/
theorem Precedes.of_insert (precedes : Precedes (front ++ x :: back) x y)
    (distinct : (front ++ x :: back).Nodup) : Precedes (front ++ new :: x :: back) new y := by
  refine (precedes_append (List.mem_singleton_self new)
    (List.mem_cons_of_mem x (precedes.mem_back distinct))).mono ?_
  exact List.sublist_append_right front _

/-- What comes before an element comes before what is put directly before it. -/
theorem Precedes.insert (precedes : Precedes (front ++ x :: back) y x)
    (distinct : (front ++ x :: back).Nodup) : Precedes (front ++ new :: x :: back) y new :=
  precedes_append (precedes.mem_front distinct) List.mem_cons_self

/-- What stands together stays together if something is put elsewhere. -/
theorem exists_split_of_insert {middle left right : List α}
    (split : front ++ x :: back = left ++ (middle ++ right)) (outside : x ∉ middle)
    (added : List α) :
    ∃ left' right', front ++ (added ++ x :: back) = left' ++ (middle ++ right') := by
  rcases List.append_eq_append_iff.mp split with ⟨between, rfl, rest⟩ | ⟨between, rfl, rest⟩
  · cases between with
    | nil =>
      cases middle with
      | nil => exact ⟨front, added ++ x :: back, rfl⟩
      | cons head tail => exact absurd (List.cons.inj rest).1 (List.ne_of_not_mem_cons outside)
    | cons head tail =>
      obtain ⟨rfl, rfl⟩ := List.cons.inj rest
      exact ⟨front ++ (added ++ x :: tail), right, by simp⟩
  · rcases List.append_eq_append_iff.mp rest with ⟨more, rfl, behind⟩ | ⟨more, rfl, behind⟩
    · exact ⟨left, more ++ (added ++ x :: back), by simp⟩
    · cases more with
      | nil => exact ⟨left, added ++ x :: back, by simp⟩
      | cons head tail =>
        obtain ⟨rfl, -⟩ := List.cons.inj behind
        simp at outside

end Precedes

/-! ### What holds of the account -/

/-- How loops and declarations lie in the program. Nothing of it is lost when the program grows. -/
structure Laid (order : List Slot) (j : Journal) : Prop where
  opened : ∀ start ∈ j.opened, start ∈ order
  declared : ∀ d ∈ j.declared, d ∈ order
  hoisted : ∀ entry ∈ j.hoisted, Precedes order entry.1 entry.2
  /-- Inner loops start behind outer ones. -/
  nested : j.opened.Pairwise fun inner outer => Precedes order outer inner
  loops : ∀ loop ∈ j.closed, Precedes order loop.1 loop.2
  /-- A loop that was closed is inside of an open one or ahead of it. -/
  around : ∀ start ∈ j.opened, ∀ loop ∈ j.closed,
    Precedes order start loop.1 ∨ Precedes order loop.2 start
  ahead : ∀ d ∈ j.declared, ∀ start ∈ j.opened, Precedes order d start
  apart : ∀ d ∈ j.declared, ∀ loop ∈ j.closed,
    Precedes order d loop.1 ∨ Precedes order loop.2 d

namespace Laid

variable {order larger : List Slot} {j : Journal}

theorem mono (laid : Laid order j) (sublist : order <+ larger) : Laid larger j where
  opened start member := sublist.subset (laid.opened start member)
  declared d member := sublist.subset (laid.declared d member)
  hoisted entry member := (laid.hoisted entry member).mono sublist
  nested := laid.nested.imp fun precedes => precedes.mono sublist
  loops loop member := (laid.loops loop member).mono sublist
  around start opened loop closed :=
    (laid.around start opened loop closed).imp (·.mono sublist) (·.mono sublist)
  ahead d declared start opened := (laid.ahead d declared start opened).mono sublist
  apart d declared loop closed :=
    (laid.apart d declared loop closed).imp (·.mono sublist) (·.mono sublist)

theorem closed (laid : Laid order j) : ∀ loop ∈ j.closed, loop.2 ∈ order := fun loop member =>
  (laid.loops loop member).subset (by simp)

/-- A loop that starts at the end of the program. -/
theorem opening (laid : Laid order j) (start : Slot) :
    Laid (order ++ [start]) { j with opened := start :: j.opened } := by
  have old := laid.mono (List.sublist_append_left order [start])
  have last : ∀ {slot}, slot ∈ order → Precedes (order ++ [start]) slot start := fun member =>
    precedes_append member (List.mem_singleton_self start)
  refine ⟨List.forall_mem_cons.mpr ⟨?_, old.opened⟩, old.declared, old.hoisted,
    List.pairwise_cons.mpr ⟨fun outer opened => last (laid.opened outer opened), old.nested⟩,
    old.loops, List.forall_mem_cons.mpr ⟨fun loop closed => ?_, old.around⟩,
    fun d declared => List.forall_mem_cons.mpr ⟨?_, old.ahead d declared⟩, old.apart⟩
  · exact List.mem_append_right order (List.mem_singleton_self start)
  · exact .inr (last (laid.closed loop closed))
  · exact last (laid.declared d declared)

/-- A loop that ends at the end of the program. -/
theorem closing (laid : Laid order j) {start stop : Slot} {rest added : List Slot}
    (opened : j.opened = start :: rest) (last : stop ∈ added) :
    Laid (order ++ added) { j with opened := rest, closed := (start, stop) :: j.closed } := by
  have old := laid.mono (List.sublist_append_left order added)
  have inside : ∀ {outer}, outer ∈ rest → outer ∈ j.opened := fun member =>
    opened ▸ List.mem_cons_of_mem start member
  have here : start ∈ j.opened := opened ▸ List.mem_cons_self
  have nested := old.nested
  rw [opened, List.pairwise_cons] at nested
  refine ⟨fun outer member => old.opened outer (inside member), old.declared, old.hoisted,
    nested.2, List.forall_mem_cons.mpr ⟨?_, old.loops⟩,
    fun outer member => List.forall_mem_cons.mpr ⟨?_, old.around outer (inside member)⟩,
    fun d declared outer member => old.ahead d declared outer (inside member),
    fun d declared => List.forall_mem_cons.mpr ⟨?_, old.apart d declared⟩⟩
  · exact precedes_append (laid.opened start here) last
  · exact .inl (nested.1 outer member)
  · exact .inl (old.ahead d declared start here)

/-- A declaration at the end of the program, outside of loops. -/
theorem declaring (laid : Laid order j) (outside : j.opened = []) {d : Slot} {added : List Slot}
    (last : d ∈ added) : Laid (order ++ added) { j with declared := d :: j.declared } := by
  have old := laid.mono (List.sublist_append_left order added)
  refine ⟨old.opened, List.forall_mem_cons.mpr ⟨List.mem_append_right order last, old.declared⟩,
    old.hoisted, old.nested, old.loops, old.around, ?_,
    List.forall_mem_cons.mpr ⟨fun loop closed => .inr ?_, old.apart⟩⟩
  · intro d _ start opened
    rw [outside] at opened
    exact absurd opened List.not_mem_nil
  · exact precedes_append (laid.closed loop closed) last

/-- The outermost loop starts before the others that are open. -/
theorem outermost (laid : Laid order j) {outer start : Slot}
    (last : j.opened.getLast? = some outer) (opened : start ∈ j.opened) :
    start = outer ∨ Precedes order outer start := by
  obtain ⟨inner, split⟩ := List.getLast?_eq_some_iff.mp last
  have nested := laid.nested
  rw [split, List.pairwise_append] at nested
  rw [split, List.mem_append, List.mem_singleton] at opened
  obtain inside | same := opened
  · exact .inr (nested.2.2 start inside outer (List.mem_singleton_self outer))
  · exact .inl same

/-- A declaration that is put directly before the outermost loop. -/
theorem hoisting {front back : List Slot} {outer : Slot} (laid : Laid (front ++ outer :: back) j)
    (distinct : (front ++ outer :: back).Nodup) (last : j.opened.getLast? = some outer)
    (d : Slot) :
    Laid (front ++ d :: outer :: back)
      { j with declared := d :: j.declared, hoisted := j.hoisted ++ [(d, outer)] } := by
  have old : Laid (front ++ d :: outer :: back) j :=
    laid.mono ((List.sublist_cons_self d _).append_left front)
  have member : outer ∈ j.opened := List.mem_of_getLast? last
  have directly : Precedes (front ++ d :: outer :: back) d outer :=
    (precedes_append (List.mem_singleton_self d) List.mem_cons_self).mono
      (List.sublist_append_right front _)
  refine ⟨old.opened, List.forall_mem_cons.mpr ⟨by simp, old.declared⟩,
    List.forall_mem_append.mpr ⟨old.hoisted, List.forall_mem_singleton.mpr directly⟩,
    old.nested, old.loops, old.around,
    List.forall_mem_cons.mpr ⟨fun start opened => ?_, old.ahead⟩,
    List.forall_mem_cons.mpr ⟨fun loop closed => ?_, old.apart⟩⟩
  · obtain rfl | precedes := laid.outermost last opened
    · exact directly
    · exact precedes.of_insert distinct
  · exact (laid.around outer member loop closed).imp (·.of_insert distinct) (·.insert distinct)

end Laid

/-- Whether the program is what it was at first and what was added, and whether that is in its
order but for what was moved. -/
structure Accounted (s : Store) (order : List Slot) (j : Journal) : Prop where
  added : order ~ s.order ++ j.log
  kept : order.filter (· ∉ j.moved) = (s.order ++ j.log).filter (· ∉ j.moved)

namespace Accounted

variable {s : Store} {order : List Slot} {j : Journal}

theorem append (accounted : Accounted s order j) (added : List Slot) :
    Accounted s (order ++ added) { j with log := j.log ++ added } where
  added := by
    rw [← List.append_assoc]
    exact accounted.added.append_right added
  kept := by
    rw [← List.append_assoc, List.filter_append, List.filter_append _ added]
    exact congrArg (· ++ _) accounted.kept

/-- One instruction that is moved. -/
theorem insert {front back : List Slot} {new : Slot} {j' : Journal}
    (accounted : Accounted s (front ++ back) j) (log : j'.log = j.log ++ [new])
    (moved : ∀ slot, slot ∈ j'.moved ↔ slot = new ∨ slot ∈ j.moved) :
    Accounted s (front ++ new :: back) j' where
  added := by
    rw [log, ← List.append_assoc]
    exact (List.perm_middle.trans (accounted.added.cons new)).trans
      (List.perm_append_singleton new _).symm
  kept := by
    have both : ∀ list : List Slot, list.filter (· ∉ j'.moved) =
        (list.filter (· ∉ j.moved)).filter (· ≠ new) := by
      intro list
      rw [List.filter_filter]
      refine List.filter_congr fun slot _ => ?_
      simp [moved, not_or]
    rw [log, ← List.append_assoc, List.filter_append, List.filter_cons_of_neg (by simp [moved]),
      List.filter_append _ [new], List.filter_cons_of_neg (by simp [moved]), List.filter_nil,
      List.append_nil, ← List.filter_append, both, both, accounted.kept]

end Accounted

/-- Whether the declarations put before the outermost loop stand directly before it. -/
def Adjacent (order : List Slot) (j : Journal) : Prop :=
  ∀ outer, j.opened.getLast? = some outer →
    ∃ front back, order = front ++ (j.before outer ++ [outer] ++ back)

namespace Adjacent

variable {order : List Slot} {j : Journal}

theorem append (adjacent : Adjacent order j) (added : List Slot) : Adjacent (order ++ added) j := by
  intro outer last
  obtain ⟨front, back, rfl⟩ := adjacent outer last
  exact ⟨front, back ++ added, by simp⟩

theorem opening (adjacent : Adjacent order j) {start : Slot} (laid : Laid order j)
    (fresh : start ∉ order) :
    Adjacent (order ++ [start]) { j with opened := start :: j.opened } := by
  intro outer last
  cases opened : j.opened with
  | nil =>
    simp only [opened, List.getLast?_singleton, Option.some.injEq] at last
    cases last
    refine ⟨order, [], ?_⟩
    have none : ({ j with opened := [start] } : Journal).before start = [] := by
      rw [Journal.before, List.map_eq_nil_iff, List.filter_eq_nil_iff]
      intro entry member same
      have behind : entry.2 ∈ order := (laid.hoisted entry member).subset (by simp)
      exact fresh (of_decide_eq_true same ▸ behind)
    simp [none]
  | cons inner rest =>
    simp only [opened, List.getLast?_cons_cons] at last
    rw [← opened] at last
    exact adjacent.append [start] outer last

theorem closing (adjacent : Adjacent order j) {start : Slot} {rest : List Slot}
    (opened : j.opened = start :: rest) (closed : List (Slot × Slot)) :
    Adjacent order { j with opened := rest, closed } := by
  intro outer last
  refine adjacent outer ?_
  cases rest with
  | nil => cases last
  | cons inner others =>
    rw [opened, List.getLast?_cons_cons]
    exact last

/-- A declaration that is put directly before the outermost loop, behind the earlier ones. -/
theorem hoisting {front back : List Slot} {outer : Slot}
    (last : j.opened.getLast? = some outer) (d : Slot) (declared : List Slot) :
    Adjacent (front ++ j.before outer ++ d :: outer :: back)
      { j with declared, hoisted := j.hoisted ++ [(d, outer)] } := by
  intro other last'
  obtain rfl : other = outer := Option.some.inj (last'.symm.trans last)
  refine ⟨front, back, ?_⟩
  simp [Journal.before]

end Adjacent

/-- Whether something can be put directly before an instruction so that declarations and the loop
that they were put before stay together. -/
def Clear (order : List Slot) (j : Journal) (anchor : Slot) : Prop :=
  ∃ front back, order = front ++ anchor :: back ∧
    ∀ added, Adjacent (front ++ (added ++ anchor :: back)) j

namespace Clear

variable {order : List Slot} {j : Journal} {anchor : Slot}

theorem first {rest : List Slot} (adjacent : Adjacent (anchor :: rest) j) :
    Clear (anchor :: rest) j anchor := by
  refine ⟨[], rest, rfl, fun added outer last => ?_⟩
  obtain ⟨front, back, split⟩ := adjacent outer last
  exact ⟨added ++ front, back, by simp [split]⟩

theorem elsewhere (adjacent : Adjacent order j) (member : anchor ∈ order)
    (notOpened : anchor ∉ j.opened) (notHoisted : anchor ∉ j.hoisted.map Prod.fst) :
    Clear order j anchor := by
  obtain ⟨front, back, rfl⟩ := List.append_of_mem member
  refine ⟨front, back, rfl, fun added outer last => ?_⟩
  obtain ⟨left, right, split⟩ := adjacent outer last
  refine exists_split_of_insert split ?_ added
  rw [List.mem_append, List.mem_singleton]
  rintro (before | rfl)
  · exact notHoisted ((List.filter_sublist.map Prod.fst).subset before)
  · exact notOpened (List.mem_of_getLast? last)

end Clear

/-- Whether an entry for a slot has a property. -/
def Holds (entries : List (Slot × Instruction)) (slot : Slot) (test : Instruction → Prop) : Prop :=
  ∃ i, (slot, i) ∈ entries ∧ test i

/-- What the slots of the account hold. -/
structure Held (entries : List (Slot × Instruction)) (j : Journal) : Prop where
  opened : ∀ start ∈ j.opened, Holds entries start fun i => i.opcode = .label
  closed : ∀ loop ∈ j.closed, Holds entries loop.1 (fun i => i.opcode = .label) ∧
    Holds entries loop.2 fun i => i.opcode = .label
  declared : ∀ d ∈ j.declared, Holds entries d fun i => i.opcode = .defvar
  flags : ∀ flag ∈ j.flags, Holds entries flag fun i =>
    ∃ function name, i.operands.head? = some (.var (staticFlag function name))

theorem Holds.mono {entries larger : List (Slot × Instruction)} {slot : Slot}
    {test : Instruction → Prop} (holds : Holds entries slot test) (subset : entries ⊆ larger) :
    Holds larger slot test :=
  holds.imp fun _ both => ⟨subset both.1, both.2⟩

theorem Held.mono {entries larger : List (Slot × Instruction)} {j : Journal}
    (held : Held entries j) (subset : entries ⊆ larger) : Held larger j where
  opened start member := (held.opened start member).mono subset
  closed loop member := (held.closed loop member).imp (·.mono subset) (·.mono subset)
  declared d member := (held.declared d member).mono subset
  flags flag member := (held.flags flag member).mono subset

/-- Whether the account of calls that started from one store is right about another one. -/
structure Sound (s t : Store) (j : Journal) : Prop where
  laid : Laid t.order j
  accounted : Accounted s t.order j
  adjacent : Adjacent t.order j
  held : Held t.entries j

namespace Sound

variable {s t u : Store} {j : Journal} {code : List Instruction} {i k : Instruction}

theorem append (sound : Sound s t j) (appended : t.Appended code u) :
    Sound s u { j with log := j.log ++ (List.range code.length).map t.upcoming } := by
  have grown : t.order <+ u.order := by
    rw [appended.order]
    exact List.sublist_append_left _ _
  have subset : t.entries ⊆ u.entries := by
    rw [appended.entries]
    exact List.subset_append_left _ _
  refine ⟨{ sound.laid.mono grown with }, ?_, ?_, { sound.held.mono subset with }⟩
  · rw [appended.order]
    exact sound.accounted.append _
  · rw [appended.order]
    exact sound.adjacent.append _

theorem opening (sound : Sound s t j) (appended : t.Appended [i] u) (label : i.opcode = .label) :
    Sound s u { j with
      log := j.log ++ [t.upcoming 0], opened := t.upcoming 0 :: j.opened } := by
  have old := sound.append appended
  have order : u.order = t.order ++ [t.upcoming 0] := appended.order
  have here : Holds u.entries (t.upcoming 0) fun i => i.opcode = .label := by
    rw [appended.entries]
    exact ⟨i, by simp, label⟩
  refine ⟨?_, { old.accounted with }, ?_, { old.held with
    opened := List.forall_mem_cons.mpr ⟨here, old.held.opened⟩ }⟩
  · rw [order]
    exact { sound.laid.opening _ with }
  · rw [order]
    exact sound.adjacent.opening sound.laid t.upcoming_not_mem

theorem closing (sound : Sound s t j) (appended : t.Appended [i, k] u)
    (label : k.opcode = .label) {start : Slot} {rest : List Slot}
    (opened : j.opened = start :: rest) :
    Sound s u { j with
      log := j.log ++ [t.upcoming 0, t.upcoming 1], opened := rest
      closed := (start, t.upcoming 1) :: j.closed } := by
  have old := sound.append appended
  have order : u.order = t.order ++ [t.upcoming 0, t.upcoming 1] := appended.order
  have here : Holds u.entries (t.upcoming 1) fun i => i.opcode = .label := by
    rw [appended.entries]
    exact ⟨k, by simp, label⟩
  have started : Holds u.entries start fun i => i.opcode = .label :=
    old.held.opened start (by simp [opened])
  refine ⟨?_, { old.accounted with }, ?_, { old.held with
    opened := fun outer member => old.held.opened outer (by simp [opened, member])
    closed := List.forall_mem_cons.mpr ⟨⟨started, here⟩, old.held.closed⟩ }⟩
  · rw [order]
    exact { sound.laid.closing opened (by simp) with }
  · exact old.adjacent.closing opened _

theorem declaring (sound : Sound s t j) (appended : t.Appended [i, k] u)
    (declares : i.opcode = .defvar) (outside : j.opened = []) :
    Sound s u { j with
      log := j.log ++ [t.upcoming 0, t.upcoming 1]
      declared := t.upcoming 0 :: j.declared } := by
  have old := sound.append appended
  have order : u.order = t.order ++ [t.upcoming 0, t.upcoming 1] := appended.order
  have here : Holds u.entries (t.upcoming 0) fun i => i.opcode = .defvar := by
    rw [appended.entries]
    exact ⟨i, by simp, declares⟩
  refine ⟨?_, { old.accounted with }, old.adjacent, { old.held with
    declared := List.forall_mem_cons.mpr ⟨here, old.held.declared⟩ }⟩
  rw [order]
  exact { sound.laid.declaring outside (by simp) with }

variable {front back : List (Slot × Instruction)}

/-- A flag that is put where nothing is torn apart. -/
theorem flag (sound : Sound s t j) (gains : t.Gains front i back u)
    (isFlag : ∃ function name, i.operands.head? = some (.var (staticFlag function name)))
    (adjacent : Adjacent u.order j) :
    Sound s u { j with
      log := j.log ++ [t.upcoming 0], flags := t.upcoming 0 :: j.flags } := by
  obtain ⟨order, grown⟩ := gains.order
  have sublist : t.order <+ u.order := by
    rw [order, grown]
    exact (List.sublist_cons_self _ _).append_left _
  have held := sound.held.mono gains.subset
  have here : Holds u.entries (t.upcoming 0) fun i =>
      ∃ function name, i.operands.head? = some (.var (staticFlag function name)) := by
    rw [gains.entries]
    exact ⟨i, by simp, isFlag⟩
  refine ⟨{ sound.laid.mono sublist with }, ?_, adjacent, { held with
    flags := List.forall_mem_cons.mpr ⟨here, held.flags⟩ }⟩
  rw [grown]
  refine (order ▸ sound.accounted).insert rfl fun slot => ?_
  simp only [Journal.moved, List.mem_append, List.mem_cons]
  exact or_left_comm

theorem flagging (sound : Sound s t j) {anchor : Slot} (clear : Clear t.order j anchor)
    (isFlag : ∃ function name, i.operands.head? = some (.var (staticFlag function name))) :
    ∃ u front back, t.insertBefore? i anchor = some (t.upcoming 0, u) ∧ t.Gains front i back u ∧
      Sound s u { j with
        log := j.log ++ [t.upcoming 0], flags := t.upcoming 0 :: j.flags } ∧
      Clear u.order j anchor := by
  obtain ⟨left, right, order, adjacent⟩ := clear
  obtain ⟨front, rest, split, rfl, restSlots⟩ := List.map_eq_append_iff.mp order
  obtain ⟨⟨anchor, k⟩, back, rfl, rfl, rfl⟩ := List.map_eq_cons_iff.mp restSlots
  obtain ⟨u, inserted, gains⟩ := Store.gains_insertBefore split i
  have grown := gains.order.2
  rw [List.map_cons] at grown
  refine ⟨u, front, _, inserted, gains, sound.flag gains isFlag ?_, ?_⟩
  · rw [grown]
    exact adjacent [t.upcoming 0]
  · refine ⟨front.map Prod.fst ++ [t.upcoming 0], back.map Prod.fst, by simp [grown], ?_⟩
    intro added
    have both := adjacent (t.upcoming 0 :: added)
    rw [List.append_assoc]
    exact both

/-- A declaration is put directly before the outermost loop, behind those that are there. -/
theorem hoisting (sound : Sound s t j) {outer : Slot} (last : j.opened.getLast? = some outer)
    (declares : i.opcode = .defvar) :
    ∃ front label back u, t.entries = front ++ (outer, label) :: back ∧
      j.before outer <:+ front.map Prod.fst ∧
      t.insertBefore? i outer = some (t.upcoming 0, u) ∧
      t.Gains front i ((outer, label) :: back) u ∧
      Sound s u { j with
        log := j.log ++ [t.upcoming 0]
        declared := t.upcoming 0 :: j.declared
        hoisted := j.hoisted ++ [(t.upcoming 0, outer)] } := by
  obtain ⟨left, right, order⟩ := sound.adjacent outer last
  rw [List.append_assoc, ← List.append_assoc, List.singleton_append, Store.order,
    List.map_eq_append_iff] at order
  obtain ⟨front, rest, split, frontSlots, restSlots⟩ := order
  obtain ⟨⟨outer, label⟩, back, rfl, rfl, rfl⟩ := List.map_eq_cons_iff.mp restSlots
  obtain ⟨u, inserted, gains⟩ := Store.gains_insertBefore split i
  refine ⟨front, label, back, u, split, ⟨left, frontSlots.symm⟩, inserted, gains, ?_⟩
  obtain ⟨order, grown⟩ := gains.order
  have held := sound.held.mono gains.subset
  have here : Holds u.entries (t.upcoming 0) fun i => i.opcode = .defvar := by
    rw [gains.entries]
    exact ⟨i, by simp, declares⟩
  rw [List.map_cons] at order grown
  refine ⟨?_, ?_, ?_, { held with
    declared := List.forall_mem_cons.mpr ⟨here, held.declared⟩ }⟩
  · have distinct := t.acts_as_list.distinct
    rw [order] at distinct
    rw [grown]
    exact { (order ▸ sound.laid).hoisting distinct last _ with }
  · rw [grown]
    refine (order ▸ sound.accounted).insert rfl fun slot => ?_
    simp only [Journal.moved, List.map_append, List.map_cons, List.map_nil, List.mem_append,
      List.mem_singleton]
    exact or_assoc.trans or_left_comm
  · rw [grown, frontSlots]
    exact Adjacent.hoisting last (t.upcoming 0) (t.upcoming 0 :: j.declared)

end Sound

end ThreeAddress.Builder
