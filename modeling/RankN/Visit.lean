/-!
# Visits that may stop early

Walking over the items of a collection in order, until one of them ends the walk. The item that
ends it has been visited too.
-/

namespace RankN

/-- The items of a list up to and including the first one that `p` refuses. -/
def visit {α : Type} (p : α → Bool) : List α → List α
  | [] => []
  | a :: l => a :: if p a then visit p l else []

/-- A visit that nothing stops reaches every item. -/
theorem visit_eq_self {α : Type} {p : α → Bool} {l : List α} (h : ∀ a ∈ l, p a) :
    visit p l = l := by
  induction l with
  | nil => rfl
  | cons a l ih =>
    obtain ⟨ha, hl⟩ := List.forall_mem_cons.1 h
    rw [visit, if_pos ha, ih hl]

/-- The last item visited is a refused one, if any item is refused. -/
theorem all_getLast?_visit {α : Type} (p : α → Bool) (l : List α) :
    (visit p l).getLast?.all p = l.all p := by
  induction l with
  | nil => rfl
  | cons a l ih =>
    cases hp : p a with
    | false => simp [visit, hp]
    | true =>
      rw [visit, if_pos hp, List.getLast?_cons, List.all_cons, hp, Bool.true_and, ← ih]
      cases (visit p l).getLast? with
      | none => exact hp
      | some b => rfl

end RankN
