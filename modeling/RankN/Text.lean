/-!
# Laying out text

Blanks that bring a text to a width, and blanks that hang its further lines under the first.
-/

namespace RankN.Text

/-- Fill a text with blanks on the right up to a width. -/
def padRight (width : Nat) (s : String) : String :=
  s ++ String.ofList (List.replicate (width - s.length) ' ')

/-- Indent every line of a text but its first. -/
def hang (width : Nat) (s : String) : String :=
  String.ofList (s.toList.flatMap fun c =>
    if c = '\n' then '\n' :: List.replicate width ' ' else [c])

/-- A text of one line is left as it is. -/
theorem hang_of_not_mem {s : String} (h : '\n' ∉ s.toList) (width : Nat) : hang width s = s := by
  have step : ∀ cs : List Char, '\n' ∉ cs →
      cs.flatMap (fun c => if c = '\n' then '\n' :: List.replicate width ' ' else [c]) = cs := by
    intro cs
    induction cs with
    | nil => intro _; rfl
    | cons c cs ih =>
      intro h
      rw [List.mem_cons, not_or] at h
      rw [List.flatMap_cons, if_neg (Ne.symm h.1), ih h.2, List.singleton_append]
  rw [hang, step _ h, String.ofList_toList]

end RankN.Text
