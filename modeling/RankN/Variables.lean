/-!
# Variables of the process environment

A process is started with words of the form `NAME=value`. A name may be assigned more than once, and
then its last value counts; a word without `=` assigns nothing.
-/

namespace RankN

/-- The variables of a process and their values, the latest assignment first. -/
abbrev Variables := List (String × String)

namespace Variables

/-- Assign a value to a name. -/
def assign (vs : Variables) (name value : String) : Variables := (name, value) :: vs

/-- The value of a name. -/
def get? (vs : Variables) (name : String) : Option String := vs.lookup name

/-- Take an assignment from a word. -/
def assignWord (vs : Variables) (word : String) : Variables :=
  match word.toList.dropWhile (· ≠ '=') with
  | [] => vs
  | _ :: value => vs.assign (String.ofList (word.toList.takeWhile (· ≠ '='))) (String.ofList value)

/-- The variables assigned by words, read from left to right. -/
def ofWords (words : List String) : Variables := words.foldl assignWord []

/-- The value last assigned to a name is its value. -/
theorem get?_assign_self (vs : Variables) (name value : String) :
    (vs.assign name value).get? name = some value := by
  simp [get?, assign]

/-- An assignment leaves the other names alone. -/
theorem get?_assign_of_ne (vs : Variables) {name other : String} (h : other ≠ name)
    (value : String) : (vs.assign name value).get? other = vs.get? other := by
  simp [get?, assign, List.lookup_cons, beq_eq_false_iff_ne.2 h]

end Variables

end RankN
