import RankN.Scope
import Mathlib

/-!
# Scopes are finite sets

A scope is looked at through the set of its members (`Scope.members`), and a handle through the scope
it stands for. Each operation on handles is an operation on these sets: extending a scope inserts a
member, the identifiers are listed as in the sorted set, the size is its cardinality, and the two
comparisons are inclusion and equality. Of the map behind a handle only its interface is used.

**Comparing.** The inclusion test gives up at once if the first scope is larger, and equality is
tested by the sizes and one inclusion. Both rest on no identifier being counted twice: between
ascending lists inclusion is being a sublist (`Ordered.sublist_of_subset`), and a sublist is shorter
or the same.

**A handle without a map** stands for the empty scope, and nothing tells it from a handle with the
empty map (`Handle.Interchangeable`). Main result: `Handle.finite_set`.
-/

namespace RankN

namespace Scope

variable {s t : Scope} {id : Int}

/-- The set of the skolem constants in a scope. -/
def members (s : Scope) : Finset Int := s.ids.toFinset

@[simp]
theorem mem_members : id ∈ s.members ↔ id ∈ s := List.mem_toFinset

theorem members_inj : s.members = t.members ↔ s = t := by
  refine ⟨fun h => ext_mem fun id => ?_, congrArg members⟩
  rw [← mem_members, h, mem_members]

@[simp]
theorem members_empty : empty.members = ∅ := rfl

@[simp]
theorem members_insert (s : Scope) (id : Int) :
    (s.insert id).members = Insert.insert id s.members := by
  ext x
  simp

@[simp]
theorem members_ofList (ids : List Int) : (ofList ids).members = ids.toFinset := by
  ext x
  simp

/-- The identifiers are listed as the sorted set lists them. -/
theorem ids_eq_sort (s : Scope) : s.ids = s.members.sort := by
  refine Ordered.eq_of_mem_iff s.ascending s.members.sortedLT_sort.pairwise fun id => ?_
  rw [Finset.mem_sort, mem_members, mem_def]

theorem size_eq_card (s : Scope) : s.size = s.members.card := by
  rw [size, ids_eq_sort, Finset.length_sort]

end Scope

namespace Handle

variable {M : Type} [OrderedMap M Int Unit] {h g : Handle M}

/-! ## Building scopes -/

theorem scope_empty : (empty : Handle M).scope = .empty := by
  refine Scope.ext_mem fun id => ?_
  rw [mem_scope]
  show (OrderedMap.get? (OrderedMap.empty : M) id).isSome ↔ _
  simp [OrderedMap.get?_empty]

/-- Extending a scope inserts a member, whether it is there already or not. -/
theorem scope_extend (h : Handle M) (id : Int) : (h.extend id).scope = h.scope.insert id := by
  refine Scope.ext_mem fun x => ?_
  rw [Scope.mem_insert]
  by_cases hid : h.contains id
  · rw [extend, if_pos hid]
    refine ⟨.inr, ?_⟩
    rintro (rfl | hx)
    · exact contains_iff.1 hid
    · exact hx
  · rw [extend, if_neg hid, mem_scope, mem_scope]
    show (OrderedMap.get? (OrderedMap.set h.sorted id ()) x).isSome ↔ _
    rw [OrderedMap.get?_set]
    by_cases hx : x = id <;> simp [hx]

/-- Extending a scope one by one adds all that it is extended by. -/
theorem members_foldl_extend (ids : List Int) (h : Handle M) :
    (ids.foldl extend h).scope.members = h.scope.members ∪ ids.toFinset := by
  induction ids generalizing h with
  | nil => simp
  | cons id ids ih =>
    rw [List.foldl_cons, ih, scope_extend, Scope.members_insert, List.toFinset_cons,
      Finset.insert_union, Finset.union_insert]

theorem members_ofList (ids : List Int) :
    (ofList ids : Handle M).scope.members = ids.toFinset := by
  rw [ofList, members_foldl_extend, scope_empty, Scope.members_empty, Finset.empty_union]

theorem scope_ofList (ids : List Int) : (ofList ids : Handle M).scope = .ofList ids := by
  rw [← Scope.members_inj, members_ofList, Scope.members_ofList]

/-! ## Looking at scopes -/

theorem ids_eq (h : Handle M) : h.ids = h.scope.ids := visit_eq_self fun _ _ => rfl

theorem subset_iff_members : h.subset g = true ↔ h.scope.members ⊆ g.scope.members := by
  simp only [subset_iff, Finset.subset_iff, Scope.mem_members]

theorem equal_iff_members : h.equal g = true ↔ h.scope.members = g.scope.members := by
  rw [equal_iff, Scope.members_inj]

theorem equivalence_equal : Equivalence fun h g : Handle M => h.equal g = true where
  refl _ := equal_iff.2 rfl
  symm h := equal_iff.2 (equal_iff.1 h).symm
  trans h h' := equal_iff.2 ((equal_iff.1 h).trans (equal_iff.1 h'))

/-! ## Handles without a map -/

/-- Whatever is done with the handles, the result is the same. -/
structure Interchangeable (h g : Handle M) : Prop where
  len : h.len = g.len
  contains : h.contains = g.contains
  extend : h.extend = g.extend
  visit : h.visit = g.visit
  ids : h.ids = g.ids
  subset : h.subset = g.subset
  subset_of : ∀ k : Handle M, k.subset h = k.subset g
  equal : h.equal = g.equal
  equal_of : ∀ k : Handle M, k.equal h = k.equal g
  text : h.text = g.text

/-- Handles are read through their maps only, and an empty map is read where there is none. Neither
holds what it is extended by, so an extension never returns the handle itself. -/
theorem interchangeable_zero : (zero : Handle M).Interchangeable empty where
  len := rfl
  contains := rfl
  extend := by
    funext id
    have hnew : (empty : Handle M).contains id = false := by
      show (OrderedMap.get? (OrderedMap.empty : M) id).isSome = false
      rw [OrderedMap.get?_empty, Option.isSome_none]
    have hnew' : (zero : Handle M).contains id = false := hnew
    simp only [Handle.extend, hnew, hnew']
    rfl
  visit := rfl
  ids := rfl
  subset := rfl
  subset_of _ := rfl
  equal := rfl
  equal_of _ := rfl
  text := rfl

/-- **A scope is a finite set of identifiers**, whatever persistent ordered map it is kept in. For
all lists of integers, in any order and with repetitions: the scope of a list has its items as
members, lists their set strictly ascending, and its size is the cardinality of the set. One scope is
part of another exactly if the sets are included, and equal to it exactly if they are equal, which is
an equivalence. After any further extensions a scope contains what it was made from and what it was
extended by, and nothing else. The scope that was never set up is equal to the empty one, and nothing
tells the two apart. -/
theorem finite_set {M : Type} [OrderedMap M Int Unit] (xs ys : List Int) :
    let s : Handle M := ofList xs
    let r : Handle M := ofList ys
    s.scope = .ofList xs ∧
    s.ids = xs.toFinset.sort ∧ s.ids.Pairwise (· < ·) ∧ s.len = xs.toFinset.card ∧
    (s.subset r = true ↔ xs.toFinset ⊆ ys.toFinset) ∧
    (s.equal r = true ↔ xs.toFinset = ys.toFinset) ∧
    (Equivalence fun h g : Handle M => h.equal g = true) ∧
    (∀ id, (ys.foldl extend s).contains id = true ↔ id ∈ xs.toFinset ∪ ys.toFinset) ∧
    (zero : Handle M).equal empty = true ∧ (zero : Handle M).Interchangeable empty := by
  intro s r
  refine ⟨scope_ofList xs, ?_, ?_, ?_, ?_, ?_, equivalence_equal, fun id => ?_, ?_,
    interchangeable_zero⟩
  · rw [ids_eq, Scope.ids_eq_sort, members_ofList]
  · rw [ids_eq]
    exact s.scope.ascending
  · rw [len_eq, Scope.size_eq_card, members_ofList]
  · rw [subset_iff_members, members_ofList, members_ofList]
  · rw [equal_iff_members, members_ofList, members_ofList]
  · rw [contains_iff, ← Scope.mem_members, members_foldl_extend, members_ofList]
  · rw [interchangeable_zero.equal]
    exact equal_iff.2 rfl

example : (ofList [2, 0, 2] : Handle Scope).ids = [0, 2] := by decide

end Handle

end RankN
