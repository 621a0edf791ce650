import Mathlib.Algebra.Order.Group.Multiset
import Mathlib.Logic.Relation
import StackMachine.Proofs.Heap.Accounting

/-!
# Marking comes to an end

The worklist of a mark phase grows while it is drained, and functions may refer to
themselves and to each other, so it is not plain that the work ends. Here the phase is
a machine that takes one pending handle at a time. The pending handles are a bag and any
of them may be the next, so the stack that `mark` keeps is one way to run the machine
among others.

An object without a mark holds its children back until it is marked. Count what is
pending together with what is held back: taking a handle moves children from one side
to the other and removes the handle itself, so the sum goes down by exactly one. Hence a
run cannot be longer than the sum at its start, in whatever order handles are taken.

Two handles can also be taken in either order with the same result. All runs therefore
meet, and the table at the end is the one that `mark` computes.
-/

namespace StackMachine

/-- The handles that an object pushes when it is marked. -/
def Entry.withheld (e : Entry) : Nat :=
  if e.marked then 0 else e.object.children.length

/-- The handles that what a slot holds still holds back. -/
def withheldBy (entry : Option Entry) : Nat :=
  (entry.map Entry.withheld).getD 0

/-- A mark phase under way. -/
structure Marking where
  slots : SlotTable
  /-- The handles that were found and not yet looked at. -/
  pending : Multiset Handle

namespace Marking

/-- The objects that have no mark yet. -/
def unmarked (m : Marking) : Nat :=
  m.slots.entries.countP isUnmarked

/-- The handles that are pending, and those that objects without a mark hold back. -/
def load (m : Marking) : Nat :=
  m.pending.card + (m.slots.entries.toList.map withheldBy).sum

/-- Looks at a handle: marks what it stands for and puts the children on the worklist,
or passes it over when it stands for nothing or for a marked object. -/
def visit (m : Marking) (x : Handle) : Marking :=
  match unmarkedAt? m.slots x with
  | none => ⟨m.slots, m.pending.erase x⟩
  | some e => ⟨setMark m.slots x e, e.object.children + m.pending.erase x⟩

/-- The pops of a mark phase, by the handles that they take. -/
inductive Run : Marking → List Handle → Marking → Prop where
  | done (m : Marking) : Run m [] m
  | pop {m m' : Marking} {x : Handle} {taken : List Handle} :
      x ∈ m.pending → Run (m.visit x) taken m' → Run m (x :: taken) m'

/-- Those of the handles taken that put a mark. -/
def marks (m : Marking) : List Handle → List Handle
  | [] => []
  | x :: taken => (unmarkedAt? m.slots x).elim [] (fun _ => [x]) ++ (m.visit x).marks taken

/-- Taking `x` leads from `m` to `m'`: it puts the one mark on a live object that had
none, and its children become pending, or it changes no slot and shortens the worklist. -/
def Advances (m : Marking) (x : Handle) (m' : Marking) : Prop :=
  (∃ e, entryAt? m.slots x = some e ∧ e.marked = false ∧
    (∀ y, entryAt? m'.slots y =
      if y = x then some { e with marked := true } else entryAt? m.slots y) ∧
    m'.unmarked < m.unmarked ∧ m'.pending = e.object.children + m.pending.erase x) ∨
  (m'.slots = m.slots ∧ m'.pending = m.pending.erase x ∧ m'.pending.card < m.pending.card)

variable {m m' m'' : Marking} {x y : Handle} {e : Entry} {taken taken' : List Handle}

/-! ## One pop -/

theorem visit_none (hu : unmarkedAt? m.slots x = none) :
    m.visit x = ⟨m.slots, m.pending.erase x⟩ := by
  rw [visit, hu]

theorem visit_some (hu : unmarkedAt? m.slots x = some e) :
    m.visit x = ⟨setMark m.slots x e, e.object.children + m.pending.erase x⟩ := by
  rw [visit, hu]

/-- **Each pop does one of two things.** -/
theorem visit_advances (hx : x ∈ m.pending) : m.Advances x (m.visit x) := by
  cases hu : unmarkedAt? m.slots x with
  | none =>
      rw [visit_none hu]
      exact .inr ⟨rfl, rfl, Multiset.card_erase_lt_of_mem hx⟩
  | some e =>
      obtain ⟨he, hm⟩ := unmarkedAt?_eq_some_iff.mp hu
      rw [visit_some hu]
      exact .inl ⟨e, he, hm, entryAt?_setMark hu, countP_isUnmarked_setMark hu, rfl⟩

/-- What the object of a handle holds back is given out by its mark. -/
theorem withheld_setMark {slots : SlotTable} (hu : unmarkedAt? slots x = some e) :
    ((setMark slots x e).entries.toList.map withheldBy).sum + e.object.children.length =
      (slots.entries.toList.map withheldBy).sum := by
  obtain ⟨he, hm⟩ := unmarkedAt?_eq_some_iff.mp hu
  have hset : (setMark slots x e).entries =
      slots.entries.setIfInBounds x.index (some { e with marked := true }) := rfl
  have hsum := sum_map_set (f := withheldBy) (entryAt?_eq_some.mp he).2 hset
  have hold : withheldBy (some e) = e.object.children.length := by
    simp [withheldBy, Entry.withheld, hm]
  have hnew : withheldBy (some { e with marked := true }) = 0 := rfl
  rw [hold, hnew] at hsum
  exact hsum

/-- **Each pop lowers the load by one.** -/
theorem load_visit (hx : x ∈ m.pending) : (m.visit x).load + 1 = m.load := by
  have hcard := Multiset.card_erase_add_one hx
  unfold load
  cases hu : unmarkedAt? m.slots x with
  | none =>
      rw [visit_none hu]
      dsimp only
      omega
  | some e =>
      have hwithheld := withheld_setMark hu
      rw [visit_some hu, Multiset.card_add, Multiset.coe_card]
      dsimp only
      omega

/-! ## Runs -/

theorem Run.load (h : Run m taken m') : taken.length + m'.load = m.load := by
  induction h with
  | done m => simp
  | pop hx _ ih =>
      have hone := load_visit hx
      rw [List.length_cons]
      omega

theorem Run.trans (h : Run m taken m') (h' : Run m' taken' m'') :
    Run m (taken ++ taken') m'' := by
  induction h with
  | done m => exact h'
  | pop hx _ ih => exact .pop hx (ih h')

/-- What a run marks is live and had no mark at its start. -/
theorem mem_marks (hy : y ∈ m.marks taken) : ∃ e, unmarkedAt? m.slots y = some e := by
  induction taken generalizing m with
  | nil => simp [marks] at hy
  | cons x taken ih =>
      rw [marks] at hy
      cases hu : unmarkedAt? m.slots x with
      | none =>
          rw [hu, Option.elim_none, List.nil_append] at hy
          have hlater := ih hy
          rw [visit_none hu] at hlater
          exact hlater
      | some e =>
          rw [hu, Option.elim_some, List.singleton_append, List.mem_cons] at hy
          rcases hy with rfl | hy
          · exact ⟨e, hu⟩
          · obtain ⟨d, hd⟩ := ih hy
            obtain ⟨he, hm⟩ := unmarkedAt?_eq_some_iff.mp hd
            rw [visit_some hu, entryAt?_setMark hu] at he
            split at he
            · -- `y` is the handle marked just now
              obtain rfl := Option.some.inj he
              simp at hm
            · exact ⟨d, unmarkedAt?_eq_some_iff.mpr ⟨he, hm⟩⟩

/-- **No slot is marked twice.** -/
theorem nodup_marks (m : Marking) (taken : List Handle) :
    ((m.marks taken).map Handle.index).Nodup := by
  induction taken generalizing m with
  | nil => simp [marks]
  | cons x taken ih =>
      rw [marks]
      cases hu : unmarkedAt? m.slots x with
      | none => exact ih (m.visit x)
      | some e =>
          rw [Option.elim_some, List.singleton_append, List.map_cons, List.nodup_cons]
          refine ⟨fun hmem => ?_, ih (m.visit x)⟩
          -- the slot holds a marked object from here on
          obtain ⟨y, hy, hindex⟩ := List.mem_map.mp hmem
          obtain ⟨d, hd⟩ := mem_marks hy
          obtain ⟨hlater, hnone⟩ := unmarkedAt?_eq_some_iff.mp hd
          have hmarked : entryAt? (m.visit x).slots x = some { e with marked := true } := by
            rw [visit_some hu, entryAt?_setMark hu, if_pos rfl]
          rw [eq_of_entryAt? hindex hlater hmarked, hmarked] at hlater
          obtain rfl := Option.some.inj hlater
          exact absurd hnone (by simp)

/-! ## The order of the pops -/

theorem setMark_comm {slots : SlotTable} {d : Entry} (hxy : x ≠ y)
    (hx : unmarkedAt? slots x = some e) (hy : unmarkedAt? slots y = some d) :
    setMark (setMark slots x e) y d = setMark (setMark slots y d) x e := by
  have hindex : x.index ≠ y.index := by
    intro hi
    exact hxy (eq_of_entryAt? hi (unmarkedAt?_eq_some_iff.mp hx).1
      (unmarkedAt?_eq_some_iff.mp hy).1)
  unfold setMark SlotTable.setEntry
  simp only [Array.setIfInBounds_comm _ _ hindex]

/-- Whether there is something to mark does not depend on the mark of another handle. -/
theorem unmarkedAt?_visit (hxy : x ≠ y) :
    unmarkedAt? (m.visit x).slots y = unmarkedAt? m.slots y := by
  cases hu : unmarkedAt? m.slots x with
  | none => rw [visit_none hu]
  | some e =>
      rw [visit_some hu]
      unfold unmarkedAt?
      rw [entryAt?_setMark hu, if_neg hxy.symm]

theorem mem_visit (hy : y ∈ m.pending) (hxy : x ≠ y) : y ∈ (m.visit x).pending := by
  have herase : y ∈ m.pending.erase x := (Multiset.mem_erase_of_ne hxy.symm).mpr hy
  cases hu : unmarkedAt? m.slots x with
  | none => rw [visit_none hu]; exact herase
  | some e => rw [visit_some hu]; exact Multiset.mem_add.mpr (Or.inr herase)

/-- Two pending handles can be taken in either order. -/
theorem visit_comm (hx : x ∈ m.pending) (hy : y ∈ m.pending) (hxy : x ≠ y) :
    (m.visit x).visit y = (m.visit y).visit x := by
  have hxy' : y ∈ m.pending.erase x := (Multiset.mem_erase_of_ne hxy.symm).mpr hy
  have hyx' : x ∈ m.pending.erase y := (Multiset.mem_erase_of_ne hxy).mpr hx
  have hvy := unmarkedAt?_visit (m := m) hxy
  have hvx := unmarkedAt?_visit (m := m) hxy.symm
  cases hu : unmarkedAt? m.slots x with
  | none =>
      rw [hu] at hvx
      cases hv : unmarkedAt? m.slots y with
      | none =>
          rw [hv] at hvy
          rw [visit_none hvy, visit_none hvx, visit_none hu, visit_none hv,
            Multiset.erase_comm]
      | some d =>
          rw [hv] at hvy
          rw [visit_some hvy, visit_none hvx, visit_none hu, visit_some hv,
            Multiset.erase_add_right_pos _ hyx', Multiset.erase_comm]
  | some e =>
      rw [hu] at hvx
      cases hv : unmarkedAt? m.slots y with
      | none =>
          rw [hv] at hvy
          rw [visit_none hvy, visit_some hvx, visit_some hu, visit_none hv,
            Multiset.erase_add_right_pos _ hxy', Multiset.erase_comm]
      | some d =>
          rw [hv] at hvy
          rw [visit_some hvy, visit_some hvx, visit_some hu, visit_some hv]
          rw [setMark_comm hxy hu hv, Multiset.erase_add_right_pos _ hxy',
            Multiset.erase_add_right_pos _ hyx', Multiset.erase_comm, add_left_comm]

/-- One pop, of whichever handle. -/
def Step (m m' : Marking) : Prop :=
  ∃ x ∈ m.pending, m' = m.visit x

theorem Run.reaches (h : Run m taken m') : Relation.ReflTransGen Step m m' := by
  induction h with
  | done m => exact .refl
  | pop hx _ ih => exact .head ⟨_, hx, rfl⟩ ih

theorem exists_run (h : Relation.ReflTransGen Step m m') : ∃ taken, Run m taken m' := by
  induction h using Relation.ReflTransGen.head_induction_on with
  | refl => exact ⟨[], .done _⟩
  | head hstep _ ih =>
      obtain ⟨x, hx, rfl⟩ := hstep
      obtain ⟨taken, hrun⟩ := ih
      exact ⟨x :: taken, .pop hx hrun⟩

/-- **Runs meet**: of two from one state, each can be taken on to a state of the other. -/
theorem Run.meet (h : Run m taken m') (h' : Run m taken' m'') :
    ∃ d rest rest', Run m' rest d ∧ Run m'' rest' d := by
  have hdiamond : ∀ a b c, Step a b → Step a c →
      ∃ d, Relation.ReflGen Step b d ∧ Relation.ReflTransGen Step c d := by
    rintro a b c ⟨x, hx, rfl⟩ ⟨y, hy, rfl⟩
    by_cases hxy : x = y
    · subst hxy
      exact ⟨_, .refl, .refl⟩
    · exact ⟨_, .single ⟨y, mem_visit hy hxy, rfl⟩,
        .single ⟨x, mem_visit hx (Ne.symm hxy), visit_comm hx hy hxy⟩⟩
  obtain ⟨d, hd, hd'⟩ := Relation.church_rosser hdiamond h.reaches h'.reaches
  obtain ⟨rest, hrest⟩ := exists_run hd
  obtain ⟨rest', hrest'⟩ := exists_run hd'
  exact ⟨d, rest, rest', hrest, hrest'⟩

/-- Marking is a run that ends with nothing pending. -/
theorem run_mark (slots : SlotTable) (work : List Handle) :
    ∃ taken, Run ⟨slots, work⟩ taken ⟨mark slots work, 0⟩ := by
  induction slots, work using mark.induct with
  | case1 slots =>
      rw [mark]
      exact ⟨[], .done _⟩
  | case2 slots x rest hu ih =>
      rw [mark, hu]
      obtain ⟨taken, hrun⟩ := ih
      refine ⟨x :: taken, .pop (by simp) ?_⟩
      rw [visit_none hu]
      simpa using hrun
  | case3 slots x rest e hu ih =>
      rw [mark, hu]
      obtain ⟨taken, hrun⟩ := ih
      refine ⟨x :: taken, .pop (by simp) ?_⟩
      rw [visit_some hu]
      simpa using hrun

/-- **The mark phase ends on every table and every worklist.** Slots, marks, generations
and handles are arbitrary. Each pop puts a mark on a live object without one and makes
its children pending, or changes nothing but the worklist, which it shortens. A run puts
at most one mark on a slot and takes no more handles than are pending or held back at its
start. It stops only when nothing is pending, and wherever it stands it can be taken on to
the end: the table that `mark` computes and an empty worklist, after a number of pops that
the order does not change. -/
theorem marking_drains (slots : SlotTable) (work : List Handle) :
    (∀ m x, x ∈ m.pending → Advances m x (m.visit x)) ∧
    ∀ taken m, Run ⟨slots, work⟩ taken m →
      ((marks ⟨slots, work⟩ taken).map Handle.index).Nodup ∧
      taken.length ≤ load ⟨slots, work⟩ ∧
      (m.pending = 0 → m.slots = mark slots work) ∧
      ∃ rest, Run m rest ⟨mark slots work, 0⟩ ∧
        (taken ++ rest).length + load ⟨mark slots work, 0⟩ = load ⟨slots, work⟩ := by
  refine ⟨fun m x hx => visit_advances hx, fun taken m hrun => ?_⟩
  have hload := hrun.load
  obtain ⟨all, hall⟩ := run_mark slots work
  obtain ⟨d, rest, none, hrest, hnone⟩ := hrun.meet hall
  -- nothing is pending at the end of `mark`, so the runs meet there
  obtain rfl : d = ⟨mark slots work, 0⟩ := by
    cases hnone with
    | done => rfl
    | pop hx _ => simp at hx
  refine ⟨nodup_marks _ _, by omega, fun hempty => ?_, rest, hrest, (hrun.trans hrest).load⟩
  cases hrest with
  | done => rfl
  | pop hx _ => rw [hempty] at hx; simp at hx

/-- A function that refers to itself twice and to another one, which refers back and
has its mark from the start. -/
def tangle : SlotTable where
  entries :=
    #[some ⟨.function ⟨none, 0, { constants := #[.object ⟨0, 3⟩, .object ⟨1, 0⟩, .object ⟨0, 3⟩] }⟩,
        152, false⟩,
      some ⟨.function ⟨none, 0, { constants := #[.object ⟨0, 3⟩] }⟩, 120, true⟩]
  generations := #[3, 0]

/-- A handle twice, one of an earlier generation and one of no slot. -/
def tangleWork : List Handle :=
  [⟨0, 3⟩, ⟨0, 2⟩, ⟨0, 3⟩, ⟨9, 0⟩]

theorem marking_drains_tangle :
    load ⟨tangle, tangleWork⟩ = 7 ∧
    ∃ taken, Run ⟨tangle, tangleWork⟩ taken ⟨mark tangle tangleWork, 0⟩ ∧ taken.length ≤ 7 := by
  have hload : load ⟨tangle, tangleWork⟩ = 7 := by decide
  obtain ⟨_, _, _, taken, hrun, hlength⟩ :=
    (marking_drains tangle tangleWork).2 [] _ (.done _)
  rw [hload, List.nil_append] at hlength
  exact ⟨hload, taken, hrun, by omega⟩

end Marking

end StackMachine
