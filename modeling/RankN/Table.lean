import RankN.Ty.Basic

/-!
# The table of metavariables

One inference run allocates metavariables in order, and the table holds a slot for each: the
metavariable itself and, once it is solved, the type found for it. A slot is found by the
metavariable's `id`, but a table *owns* a metavariable only if the slot holds that very one, so a
metavariable of an earlier run, or of none, has no solution here whatever its `id`.

**Following solutions.** A type is read through the table: a solved metavariable means its solution.
In a table without cycles, a chain of solutions passes each slot at most once, so `Table.hops`
bounds the number of solutions that can be nested in each other. The functions that read types
through the table recurse on the type, and on this bound where they enter a solution.
-/

namespace RankN

/-- A metavariable with the type found for it. -/
structure Slot where
  mvar : MVar
  solution : Option Ty := none
deriving DecidableEq

/-- The metavariables of a run, by `id`. -/
structure Table where
  slots : Array Slot := #[]
deriving DecidableEq

namespace Table

/-- The number of metavariables. -/
def size (tb : Table) : Nat := tb.slots.size

/-- The slot of an owned metavariable. -/
def slot? (tb : Table) (m : MVar) : Option Slot :=
  tb.slots[m.id.toNat]?.filter (·.mvar = m)

/-- Whether the table allocated this metavariable. -/
def owns (tb : Table) (m : MVar) : Bool := (tb.slot? m).isSome

/-- The type found for a metavariable. -/
def solution? (tb : Table) (m : MVar) : Option Ty := (tb.slot? m).bind (·.solution)

/-- Whether a metavariable has a solution. -/
def solved (tb : Table) (m : MVar) : Bool := (tb.solution? m).isSome

/-- The metavariable at a position. -/
def mvarAt? (tb : Table) (i : Nat) : Option MVar := tb.slots[i]?.map (·.mvar)

/-- Add a slot for a new metavariable. -/
def push (tb : Table) (m : MVar) : Table := ⟨tb.slots.push { mvar := m }⟩

/-- Write the solution of an owned metavariable. -/
def write (tb : Table) (m : MVar) (t : Ty) : Table :=
  if tb.owns m then ⟨tb.slots.modify m.id.toNat fun s => { s with solution := some t }⟩ else tb

/-- How many solutions can be nested in each other, and one more. -/
def hops (tb : Table) : Nat := tb.size + 1

/-- The number of metavariables still to be solved. -/
def unsolved (tb : Table) : Nat := tb.slots.countP (·.solution.isNone)

/-- The number of nodes in the slots. -/
def weight (tb : Table) : Nat :=
  tb.slots.foldl (fun n s => n + (s.solution.elim 0 Ty.size) + 1) 0

/-- Follow solutions for at most `n` steps. -/
def resolveWithin (tb : Table) : Nat → Ty → Ty
  | n + 1, .mvar m =>
    match tb.solution? m with
    | some t => resolveWithin tb n t
    | none => .mvar m
  | _, t => t

/-- Follow solutions from a metavariable to something that is not solved. -/
def resolve (tb : Table) (t : Ty) : Ty := tb.resolveWithin tb.hops t

/-! ## What pushing and writing do to solutions -/

@[simp]
theorem size_push (tb : Table) (m : MVar) : (tb.push m).size = tb.size + 1 := by
  simp [push, size]

@[simp]
theorem size_write (tb : Table) (m : MVar) (t : Ty) : (tb.write m t).size = tb.size := by
  unfold write
  split <;> simp [size]

theorem slot?_eq_some {tb : Table} {m : MVar} {s : Slot} :
    tb.slot? m = some s ↔ tb.slots[m.id.toNat]? = some s ∧ s.mvar = m := by
  simp [slot?, Option.filter_eq_some_iff]

/-- Pushing a metavariable changes no solution. -/
theorem solution?_push (tb : Table) (m m' : MVar) :
    (tb.push m).solution? m' = tb.solution? m' := by
  unfold solution? slot? push
  rw [Array.getElem?_push]
  split
  · rename_i h
    have : tb.slots[m'.id.toNat]? = none := by simp [h]
    rw [this]
    by_cases hm : m = m' <;> simp [Option.filter, hm]
  · rfl

/-- A metavariable pushed at its own position is owned. -/
theorem owns_push_self (tb : Table) {m : MVar} (h : m.id = tb.size) : (tb.push m).owns m := by
  have h' : m.id.toNat = tb.slots.size := by simp [h, size]
  simp [owns, slot?, push, h', Option.filter]

theorem owns_push_of_owns {tb : Table} {m m' : MVar} (h : tb.owns m') : (tb.push m).owns m' := by
  obtain ⟨s, hs⟩ := Option.isSome_iff_exists.1 h
  obtain ⟨hs, hm⟩ := slot?_eq_some.1 hs
  refine Option.isSome_iff_exists.2 ⟨s, slot?_eq_some.2 ⟨?_, hm⟩⟩
  obtain ⟨hi, -⟩ := Array.getElem?_eq_some_iff.1 hs
  rw [push, Array.getElem?_push, if_neg (Nat.ne_of_lt hi), hs]

/-- The slot of any metavariable after a write. -/
theorem slot?_write (tb : Table) (m m' : MVar) (t : Ty) :
    (tb.write m t).slot? m' =
      if m' = m then (tb.slot? m).map fun s => { s with solution := some t } else tb.slot? m' := by
  unfold write
  split
  · rename_i howns
    obtain ⟨s, hs⟩ := Option.isSome_iff_exists.1 howns
    obtain ⟨hget, hsm⟩ := slot?_eq_some.1 hs
    by_cases hm : m' = m
    · subst hm
      simp [slot?, Array.getElem?_modify, hget, hsm, Option.filter]
    · rw [if_neg hm]
      by_cases hi : m.id.toNat = m'.id.toNat
      · -- The position is that of `m`, so `m'` has no slot before and after.
        rw [hi] at hget
        have hne : s.mvar ≠ m' := fun h => hm (h.symm.trans hsm)
        simp [slot?, Array.getElem?_modify, hget, hi, hne, Option.filter]
      · simp [slot?, Array.getElem?_modify, hi]
  · rename_i howns
    have hnone : tb.slot? m = none := by simpa [owns] using howns
    by_cases hm : m' = m
    · simp [hm, hnone]
    · simp [hm]

@[simp]
theorem owns_write (tb : Table) (m m' : MVar) (t : Ty) :
    (tb.write m t).owns m' = tb.owns m' := by
  unfold owns
  rw [slot?_write]
  split
  · rename_i h
    simp [h]
  · rfl

/-- A write gives an owned metavariable its solution. -/
theorem solution?_write_self {tb : Table} {m : MVar} (h : tb.owns m) (t : Ty) :
    (tb.write m t).solution? m = some t := by
  obtain ⟨s, hs⟩ := Option.isSome_iff_exists.1 h
  simp [solution?, slot?_write, hs]

/-- A write leaves the solutions of other metavariables alone. -/
theorem solution?_write_of_ne (tb : Table) {m m' : MVar} (h : m' ≠ m) (t : Ty) :
    (tb.write m t).solution? m' = tb.solution? m' := by
  simp [solution?, slot?_write, h]

end Table

end RankN
