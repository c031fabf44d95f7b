/-!
# Ascending lists and ordered maps

A finite set of ordered values is kept as its strictly ascending list. Each set has exactly one such
list, so equality of sets is equality of lists, and printing one needs no sorting.

**Inserting** walks to the first larger value; a value already there is not repeated. The result
has the expected members (`mem_insert`) and is ascending again (`ascending_insert`). Ascending
lists with the same members are equal (`eq_of_mem_iff`).

**An ordered map** is known by its interface: what it holds at a key, how many entries it has, and
the entries by ascending keys. An update returns another map and leaves the first one alone.
-/

namespace RankN

/-- A persistent ordered map. -/
class OrderedMap (M : Type) (κ ν : outParam Type) [LT κ] [DecidableEq κ] where
  /-- The map without entries. -/
  empty : M
  /-- The value at a key. -/
  get? : M → κ → Option ν
  /-- The map with a value at a key, in place of the one that was there. -/
  set : M → κ → ν → M
  /-- The number of entries. -/
  size : M → Nat
  /-- The entries, in the order of their keys. -/
  entries : M → List (κ × ν)
  get?_empty (k : κ) : get? empty k = none
  get?_set (m : M) (k : κ) (v : ν) (k' : κ) :
    get? (set m k v) k' = if k' = k then some v else get? m k'
  mem_entries (m : M) (k : κ) (v : ν) : (k, v) ∈ entries m ↔ get? m k = some v
  ascending (m : M) : ((entries m).map Prod.fst).Pairwise (· < ·)
  size_eq (m : M) : size m = (entries m).length

end RankN

namespace RankN.Ordered

variable {α : Type}

/-- Insert a value into an ascending list, once. -/
def insert [LT α] [DecidableLT α] (a : α) : List α → List α
  | [] => [a]
  | b :: l => if a < b then a :: b :: l else if b < a then b :: insert a l else b :: l

/-- The ascending list of the members of a list. -/
def ofList [LT α] [DecidableLT α] (l : List α) : List α := l.foldr insert []

/-! ## Members and order -/

section

variable [LT α] [DecidableLT α]

@[simp]
theorem mem_insert [Std.Trichotomous (fun a b : α => a < b)] {a x : α} {l : List α} :
    x ∈ insert a l ↔ x = a ∨ x ∈ l := by
  induction l with
  | nil => simp [insert]
  | cons b l ih =>
    unfold insert
    split
    · simp
    · rename_i hab
      split
      · simp only [List.mem_cons, ih]
        grind
      · rename_i hba
        have : a = b := Std.Trichotomous.trichotomous a b hab hba
        subst this
        simp

theorem ascending_insert [Std.Trichotomous (fun a b : α => a < b)]
    [Trans (fun a b : α => a < b) (fun a b : α => a < b) (fun a b : α => a < b)]
    (a : α) {l : List α} (h : l.Pairwise (· < ·)) : (insert a l).Pairwise (· < ·) := by
  induction l with
  | nil => simp [insert]
  | cons b l ih =>
    obtain ⟨hb, hl⟩ := List.pairwise_cons.1 h
    unfold insert
    split
    · rename_i hab
      refine List.pairwise_cons.2 ⟨fun x hx => ?_, h⟩
      rcases List.mem_cons.1 hx with rfl | hx
      · exact hab
      · exact Trans.trans hab (hb x hx)
    · split
      · rename_i hba
        refine List.pairwise_cons.2 ⟨fun x hx => ?_, ih hl⟩
        rcases mem_insert.1 hx with rfl | hx
        · exact hba
        · exact hb x hx
      · exact h

@[simp]
theorem mem_ofList [Std.Trichotomous (fun a b : α => a < b)] {x : α} {l : List α} :
    x ∈ ofList l ↔ x ∈ l := by
  induction l with
  | nil => simp [ofList]
  | cons a l ih =>
    have : ofList (a :: l) = insert a (ofList l) := rfl
    rw [this, mem_insert, ih, List.mem_cons]

theorem ascending_ofList [Std.Trichotomous (fun a b : α => a < b)]
    [Trans (fun a b : α => a < b) (fun a b : α => a < b) (fun a b : α => a < b)]
    (l : List α) : (ofList l).Pairwise (· < ·) := by
  induction l with
  | nil => exact List.Pairwise.nil
  | cons a l ih => exact ascending_insert a ih

end

section

variable [LT α] [Std.Asymm (fun a b : α => a < b)] {l l' : List α}

/-- An ascending list with all its members in another one is part of it, in order. -/
theorem sublist_of_subset (h : l.Pairwise (· < ·)) (h' : l'.Pairwise (· < ·))
    (hm : ∀ x ∈ l, x ∈ l') : l.Sublist l' := by
  induction l' generalizing l with
  | nil => exact List.eq_nil_iff_forall_not_mem.2 (fun x hx => List.not_mem_nil (hm x hx)) ▸ .slnil
  | cons b l' ih =>
    obtain ⟨hb, hl'⟩ := List.pairwise_cons.1 h'
    have irrefl : ∀ x : α, ¬ x < x := fun x hx => Std.Asymm.asymm x x hx hx
    cases l with
    | nil => exact List.nil_sublist _
    | cons a l =>
      obtain ⟨ha, hl⟩ := List.pairwise_cons.1 h
      rcases List.mem_cons.1 (hm a List.mem_cons_self) with rfl | hal'
      · refine .cons_cons a (ih hl hl' fun x hx => ?_)
        rcases List.mem_cons.1 (hm x (List.mem_cons_of_mem a hx)) with rfl | hx'
        · exact absurd (ha x hx) (irrefl x)
        · exact hx'
      · -- `b` is below `a`, so it is in neither the head nor the tail of the part.
        refine .cons b (ih h hl' fun x hx => ?_)
        rcases List.mem_cons.1 (hm x hx) with rfl | hx'
        · rcases List.mem_cons.1 hx with rfl | hx
          · exact absurd (hb x hal') (irrefl x)
          · exact absurd (hb a hal') (Std.Asymm.asymm a x (ha x hx))
        · exact hx'

/-- A set has only one ascending list. -/
theorem eq_of_mem_iff (h : l.Pairwise (· < ·)) (h' : l'.Pairwise (· < ·))
    (hm : ∀ x, x ∈ l ↔ x ∈ l') : l = l' := by
  have hsub := sublist_of_subset h h' fun x => (hm x).1
  have hsup := sublist_of_subset h' h fun x => (hm x).2
  exact hsub.eq_of_length_le hsup.length_le

end

end RankN.Ordered
