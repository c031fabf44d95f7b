import RankN.Env
import RankN.Error
import RankN.Run
import Mathlib.Logic.Function.Basic

/-!
# Other stamps

Stamps tell nodes and metavariables apart, and that is all they do: none of them is printed, counted
or compared otherwise than for equality. So nothing that is computed from types and tables changes
when all stamps are replaced, as long as different stamps stay different.

`Ty.restamp σ` replaces the stamps in a type, and `Table.restamp σ` those in a table. Each operation
on tables commutes with it, for injective `σ`.
-/

namespace RankN

variable {σ : Nat → Nat}

/-! ## Types -/

/-- The metavariable with another stamp. -/
def MVar.restamp (σ : Nat → Nat) (m : MVar) : MVar := { m with stamp := σ m.stamp }

/-- The type with other stamps. -/
def Ty.restamp (σ : Nat → Nat) : Ty → Ty
  | .all n x body => .all (σ n) x (body.restamp σ)
  | .arrow n p q => .arrow (σ n) (p.restamp σ) (q.restamp σ)
  | .app n f a => .app (σ n) (f.restamp σ) (a.restamp σ)
  | .mvar m => .mvar (m.restamp σ)
  | .unknown n k => .unknown (σ n) k
  | .var x => .var x
  | .skolem c => .skolem c
  | .absent => .absent

@[simp]
theorem MVar.scope_restamp (σ : Nat → Nat) (m : MVar) : (m.restamp σ).scope = m.scope := rfl

@[simp]
theorem Ty.mvarText_restamp (σ : Nat → Nat) (m : MVar) :
    Ty.mvarText (m.restamp σ) = Ty.mvarText m := rfl

theorem MVar.restamp_inj (hσ : σ.Injective) {m k : MVar} :
    m.restamp σ = k.restamp σ ↔ m = k := by
  obtain ⟨n, id, scope⟩ := m
  obtain ⟨n', id', scope'⟩ := k
  simp [restamp, hσ.eq_iff]

namespace Ty

theorem restamp_inj (hσ : σ.Injective) {t u : Ty} : t.restamp σ = u.restamp σ ↔ t = u := by
  refine ⟨fun h => ?_, fun h => h ▸ rfl⟩
  induction t generalizing u with
  | var x => cases u <;> simp_all [restamp]
  | all n x body ih =>
    cases u with
    | all n' x' body' =>
      simp only [restamp, Ty.all.injEq, hσ.eq_iff] at h
      rw [h.1, h.2.1, ih h.2.2]
    | _ => simp [restamp] at h
  | arrow n p q ihp ihq =>
    cases u with
    | arrow n' p' q' =>
      simp only [restamp, Ty.arrow.injEq, hσ.eq_iff] at h
      rw [h.1, ihp h.2.1, ihq h.2.2]
    | _ => simp [restamp] at h
  | app n f a ihf iha =>
    cases u with
    | app n' f' a' =>
      simp only [restamp, Ty.app.injEq, hσ.eq_iff] at h
      rw [h.1, ihf h.2.1, iha h.2.2]
    | _ => simp [restamp] at h
  | mvar m => cases u <;> simp_all [restamp, MVar.restamp_inj hσ]
  | skolem c => cases u <;> simp_all [restamp]
  | unknown n k => cases u <;> simp_all [restamp, hσ.eq_iff]
  | absent => cases u <;> simp_all [restamp]

@[simp]
theorem size_restamp (t : Ty) : (t.restamp σ).size = t.size := by
  induction t with
  | all n x body ih => simp [restamp, size, ih]
  | arrow n p q ihp ihq => simp [restamp, size, ihp, ihq]
  | app n f a ihf iha => simp [restamp, size, ihf, iha]
  | _ => rfl

/-- Stamps are not printed. -/
@[simp]
theorem text_restamp (t : Ty) : (t.restamp σ).text = t.text := by
  have main : ∀ place, textIn place (t.restamp σ) = textIn place t := by
    induction t with
    | all n x body ih => simp [restamp, textIn, ih]
    | arrow n p q ihp ihq => simp [restamp, textIn, ihp, ihq]
    | app n f a ihf iha => simp [restamp, textIn, ihf, iha]
    | mvar m => simp [restamp, textIn]
    | _ => simp [restamp, textIn]
  exact main .outer

/-- A type is left alone if its stamps are. -/
theorem restamp_eq_self {b : Nat} (hσ : ∀ n < b, σ n = n) {t : Ty} (ht : t.stampBound ≤ b) :
    t.restamp σ = t := by
  induction t with
  | all n x body ih =>
    obtain ⟨hn, hbody⟩ := Nat.max_le.1 ht
    simp [restamp, ih hbody, hσ n hn]
  | arrow n p q ihp ihq =>
    obtain ⟨hn, hpq⟩ := Nat.max_le.1 ht
    obtain ⟨hp, hq⟩ := Nat.max_le.1 hpq
    simp [restamp, ihp hp, ihq hq, hσ n hn]
  | app n f a ihf iha =>
    obtain ⟨hn, hfa⟩ := Nat.max_le.1 ht
    obtain ⟨hf, ha⟩ := Nat.max_le.1 hfa
    simp [restamp, ihf hf, iha ha, hσ n hn]
  | mvar m => simp [restamp, MVar.restamp, hσ m.stamp ht]
  | unknown n k => simp [restamp, hσ n ht]
  | _ => rfl

/-- The type without its stamps and those of its metavariables. -/
def unstamped (t : Ty) : Ty := t.restamp fun _ => 0

@[simp]
theorem unstamped_restamp (σ : Nat → Nat) (t : Ty) : (t.restamp σ).unstamped = t.unstamped := by
  unfold unstamped
  induction t with
  | all n x body ih => simp [restamp, ih]
  | arrow n p q ihp ihq => simp [restamp, ihp, ihq]
  | app n f a ihf iha => simp [restamp, ihf, iha]
  | mvar m => simp [restamp, MVar.restamp]
  | _ => rfl

end Ty

/-! ## Tables -/

/-- The slot with other stamps. -/
def Slot.restamp (σ : Nat → Nat) (s : Slot) : Slot :=
  ⟨s.mvar.restamp σ, s.solution.map (·.restamp σ)⟩

namespace Table

/-- The table with other stamps. -/
def restamp (σ : Nat → Nat) (tb : Table) : Table := ⟨tb.slots.map (·.restamp σ)⟩

variable {tb : Table} {m : MVar} {t : Ty}

@[simp]
theorem restamp_empty (σ : Nat → Nat) : ({} : Table).restamp σ = {} := by
  simp [restamp]

@[simp]
theorem size_restamp (σ : Nat → Nat) (tb : Table) : (tb.restamp σ).size = tb.size := by
  simp [restamp, size]

@[simp]
theorem hops_restamp (σ : Nat → Nat) (tb : Table) : (tb.restamp σ).hops = tb.hops := by
  simp [hops]

theorem slot?_restamp (hσ : σ.Injective) (tb : Table) (m : MVar) :
    (tb.restamp σ).slot? (m.restamp σ) = (tb.slot? m).map (·.restamp σ) := by
  have hid : (m.restamp σ).id = m.id := rfl
  unfold slot? restamp
  rw [hid, Array.getElem?_map]
  cases tb.slots[m.id.toNat]? with
  | none => rfl
  | some s =>
    by_cases hs : s.mvar = m
    · simp [Option.filter, Slot.restamp, hs]
    · simp [Option.filter, Slot.restamp, hs, MVar.restamp_inj hσ]

@[simp]
theorem owns_restamp (hσ : σ.Injective) (tb : Table) (m : MVar) :
    (tb.restamp σ).owns (m.restamp σ) = tb.owns m := by
  simp [owns, slot?_restamp hσ]

@[simp]
theorem solution?_restamp (hσ : σ.Injective) (tb : Table) (m : MVar) :
    (tb.restamp σ).solution? (m.restamp σ) = (tb.solution? m).map (·.restamp σ) := by
  unfold solution?
  rw [slot?_restamp hσ]
  cases tb.slot? m <;> rfl

theorem push_restamp (σ : Nat → Nat) (tb : Table) (m : MVar) :
    (tb.restamp σ).push (m.restamp σ) = (tb.push m).restamp σ := by
  simp [push, restamp, Slot.restamp]

theorem write_restamp (hσ : σ.Injective) (tb : Table) (m : MVar) (t : Ty) :
    (tb.restamp σ).write (m.restamp σ) (t.restamp σ) = (tb.write m t).restamp σ := by
  have hid : (m.restamp σ).id = m.id := rfl
  unfold write
  rw [owns_restamp hσ]
  split
  · rw [hid, restamp, restamp]
    congr 1
    apply Array.ext_getElem?
    intro i
    by_cases hi : m.id.toNat = i
    · cases hs : tb.slots[i]? <;> simp [Array.getElem?_modify, hi, hs, Slot.restamp]
    · simp [Array.getElem?_modify, hi]
  · rfl

@[simp]
theorem unsolved_restamp (σ : Nat → Nat) (tb : Table) : (tb.restamp σ).unsolved = tb.unsolved := by
  simp only [unsolved, restamp, Array.countP_map]
  congr 1
  funext s
  simp [Slot.restamp]

@[simp]
theorem weight_restamp (σ : Nat → Nat) (tb : Table) : (tb.restamp σ).weight = tb.weight := by
  simp only [weight, restamp, Array.foldl_map]
  congr 1
  funext n s
  cases s with
  | mk m solution => cases solution <;> simp [Slot.restamp]

end Table

/-! ## Obstacles -/

theorem obstacleWith_restamp (hσ : σ.Injective) {tb : Table} {m : MVar}
    {enter enter' : Ty → Option Obstacle} (he : ∀ u, enter' (u.restamp σ) = enter u) (t : Ty) :
    obstacleWith (tb.restamp σ) (m.restamp σ) enter' (t.restamp σ) = obstacleWith tb m enter t := by
  induction t with
  | mvar k =>
    simp only [Ty.restamp, obstacleWith, MVar.restamp_inj hσ, Table.solution?_restamp hσ,
      MVar.scope_restamp]
    cases tb.solution? k with
    | none => rfl
    | some u => simp [he]
  | all n x body ih => simpa [Ty.restamp, obstacleWith] using ih
  | arrow n p q ihp ihq => simp [Ty.restamp, obstacleWith, ihp, ihq]
  | app n f a ihf iha => simp [Ty.restamp, obstacleWith, ihf, iha]
  | _ => rfl

/-- The obstacles to a solution do not depend on stamps. -/
theorem obstacle?_restamp (hσ : σ.Injective) (tb : Table) (m : MVar) (t : Ty) :
    obstacle? (tb.restamp σ) (m.restamp σ) (t.restamp σ) = obstacle? tb m t := by
  have main : ∀ n (t : Ty), obstacleWithin (tb.restamp σ) (m.restamp σ) n (t.restamp σ) =
      obstacleWithin tb m n t := by
    intro n
    induction n with
    | zero => exact fun _ => rfl
    | succ n ih => exact obstacleWith_restamp hσ ih
  rw [obstacle?, obstacle?, Table.hops_restamp]
  exact main _ t

/-! ## Steps -/

/-- As many steps are allowed with other stamps. -/
theorem Run.depth_restamp {r r' : Run} (h : r'.table = r.table.restamp σ) (ts : List Ty) :
    r'.depth (ts.map (·.restamp σ)) = r.depth ts := by
  simp [Run.depth, h, List.foldr_map]

end RankN
