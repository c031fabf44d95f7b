import RankN.Ordered
import RankN.Visit

/-!
# Scopes

A scope is the finite set of skolem constants that were in force where a metavariable was born. A
solution of the metavariable may mention these constants and no others, so scopes are compared as
sets.

**Ascending lists.** A scope holds its identifiers in ascending order, each once. Two scopes with the
same members are therefore equal (`Scope.ext_mem`).

**Handles.** Scopes are handed around as references to an ordered map, whose keys are the identifiers;
the ascending list is one such map. The reference may be missing: a scope that was never set up has no
map. Whoever reads a scope reads the empty map instead (`Handle.sorted`), so that such a scope can be
used as it is. What a handle stands for is `Handle.scope`.
-/

namespace RankN

/-- A finite set of skolem constants, by their identifiers. -/
structure Scope where
  ids : List Int
  ascending : ids.Pairwise (· < ·)
deriving DecidableEq

namespace Scope

/-- The scope without skolem constants. -/
def empty : Scope := ⟨[], List.Pairwise.nil⟩

/-- The scope with one more skolem constant. -/
def insert (s : Scope) (id : Int) : Scope :=
  ⟨Ordered.insert id s.ids, Ordered.ascending_insert id s.ascending⟩

/-- The scope of the listed skolem constants, in any order. -/
def ofList (ids : List Int) : Scope := ⟨Ordered.ofList ids, Ordered.ascending_ofList ids⟩

/-- The number of skolem constants. -/
def size (s : Scope) : Nat := s.ids.length

/-! ## Membership -/

instance : Membership Int Scope := ⟨fun s id => id ∈ s.ids⟩

instance (s : Scope) (id : Int) : Decidable (id ∈ s) := inferInstanceAs (Decidable (id ∈ s.ids))

theorem mem_def {s : Scope} {id : Int} : id ∈ s ↔ id ∈ s.ids := Iff.rfl

@[simp]
theorem not_mem_empty {id : Int} : id ∉ empty := by simp [empty, mem_def]

@[simp]
theorem mem_insert {s : Scope} {id x : Int} : x ∈ s.insert id ↔ x = id ∨ x ∈ s := by
  simp [insert, mem_def]

@[simp]
theorem mem_ofList {ids : List Int} {x : Int} : x ∈ ofList ids ↔ x ∈ ids := by
  simp [ofList, mem_def]

/-- Scopes with the same members are equal. -/
theorem ext_mem {s t : Scope} (h : ∀ id, id ∈ s ↔ id ∈ t) : s = t := by
  obtain ⟨l, hl⟩ := s
  obtain ⟨l', hl'⟩ := t
  have : l = l' := Ordered.eq_of_mem_iff hl hl' h
  subst this
  rfl

/-- A scope with all its members in another one is no larger. -/
theorem size_le {s t : Scope} (h : ∀ id ∈ s, id ∈ t) : s.size ≤ t.size :=
  (Ordered.sublist_of_subset s.ascending t.ascending h).length_le

/-- Among scopes of one size, one inclusion makes them equal. -/
theorem eq_of_size_eq {s t : Scope} (hsize : s.size = t.size) (h : ∀ id ∈ s, id ∈ t) : s = t := by
  have hids := (Ordered.sublist_of_subset s.ascending t.ascending h).eq_of_length hsize
  exact ext_mem fun id => by rw [mem_def, hids, mem_def]

/-- A scope maps each of its skolem constants to nothing. -/
instance : OrderedMap Scope Int Unit where
  empty := empty
  get? s id := if id ∈ s then some () else none
  set s id _ := s.insert id
  size := size
  entries s := s.ids.map fun id => (id, ())
  get?_empty id := if_neg not_mem_empty
  get?_set s id _ x := by
    by_cases hx : x = id <;> simp [hx]
  mem_entries s id _ := by
    by_cases hid : id ∈ s.ids <;> simp [hid, mem_def]
  ascending s := by
    rw [List.map_map]
    exact (List.map_id s.ids).symm ▸ s.ascending
  size_eq s := (List.length_map _).symm

end Scope

/-! ## Handles -/

/-- A scope as it is handed around: its map, unless it was never set up. -/
structure Handle (M : Type) where
  map? : Option M

namespace Handle

variable {M : Type} [OrderedMap M Int Unit]

/-- The scope that was never set up. -/
def zero : Handle M := ⟨none⟩

/-- The scope without skolem constants. -/
def empty : Handle M := ⟨some OrderedMap.empty⟩

/-- The map to read; a missing one is read as empty. -/
def sorted (h : Handle M) : M :=
  match h.map? with
  | none => OrderedMap.empty
  | some m => m

/-- The number of skolem constants. -/
def len (h : Handle M) : Nat := OrderedMap.size h.sorted

/-- Whether a skolem constant is in scope. -/
def contains (h : Handle M) (id : Int) : Bool := (OrderedMap.get? h.sorted id).isSome

/-- The scope with one more skolem constant; the same scope if it is there already. -/
def extend (h : Handle M) (id : Int) : Handle M :=
  if h.contains id then h else ⟨some (OrderedMap.set h.sorted id ())⟩

/-- The scope of the listed skolem constants, in any order. -/
def ofList (ids : List Int) : Handle M := ids.foldl extend empty

/-- The identifiers that a visit in ascending order reaches, if it stops after the first one that
`p` refuses. -/
def visit (h : Handle M) (p : Int → Bool) : List Int :=
  RankN.visit p ((OrderedMap.entries h.sorted).map Prod.fst)

/-- The identifiers in ascending order. -/
def ids (h : Handle M) : List Int := h.visit fun _ => true

/-- Whether every skolem constant of `h` is in scope in `g`. A larger scope is never part of a
smaller one; otherwise a visit that stops at the first constant missing from `g` decides. -/
def subset (h g : Handle M) : Bool :=
  h.len ≤ g.len && (h.visit g.contains).getLast?.all g.contains

/-- Whether two scopes have the same skolem constants, by their sizes and one inclusion. -/
def equal (h g : Handle M) : Bool := h.len == g.len && h.subset g

/-- The printed scope, as in `[#0, #2]`. -/
def text (h : Handle M) : String :=
  "[" ++ ", ".intercalate (h.ids.map fun id => "#" ++ id.repr) ++ "]"

/-- The scope that a handle stands for. -/
def scope (h : Handle M) : Scope :=
  ⟨(OrderedMap.entries h.sorted).map Prod.fst, OrderedMap.ascending h.sorted⟩

variable {h g : Handle M} {id : Int}

theorem mem_scope : id ∈ h.scope ↔ (OrderedMap.get? h.sorted id).isSome := by
  rw [Scope.mem_def, scope, List.mem_map, Option.isSome_iff_exists]
  constructor
  · rintro ⟨⟨id, v⟩, hv, rfl⟩
    exact ⟨v, (OrderedMap.mem_entries _ _ _).1 hv⟩
  · rintro ⟨v, hv⟩
    exact ⟨(id, v), (OrderedMap.mem_entries _ _ _).2 hv, rfl⟩

theorem contains_iff : h.contains id = true ↔ id ∈ h.scope := mem_scope.symm

theorem len_eq (h : Handle M) : h.len = h.scope.size := by
  rw [len, OrderedMap.size_eq, Scope.size, scope, List.length_map]

theorem subset_iff : h.subset g = true ↔ ∀ id ∈ h.scope, id ∈ g.scope := by
  simp only [subset, visit, all_getLast?_visit, Bool.and_eq_true, decide_eq_true_eq,
    List.all_eq_true, contains_iff, len_eq]
  exact ⟨fun hsub => hsub.2, fun hsub => ⟨Scope.size_le hsub, hsub⟩⟩

theorem equal_iff : h.equal g = true ↔ h.scope = g.scope := by
  simp only [equal, Bool.and_eq_true, beq_iff_eq, subset_iff, len_eq]
  refine ⟨fun heq => Scope.eq_of_size_eq heq.1 heq.2, fun heq => ?_⟩
  rw [heq]
  exact ⟨rfl, fun _ hid => hid⟩

end Handle

namespace Scope

/-! ## What is asked of a scope -/

/-- The scope, set up. -/
def handle (s : Scope) : Handle Scope := ⟨some s⟩

@[simp]
theorem scope_handle (s : Scope) : s.handle.scope = s := by
  refine ext_mem fun id => ?_
  rw [Handle.mem_scope]
  show (if id ∈ s then some () else none).isSome ↔ id ∈ s
  by_cases hid : id ∈ s <;> simp [hid]

/-- Whether a skolem constant is in scope. -/
def contains (s : Scope) (id : Int) : Bool := s.handle.contains id

/-- Whether two scopes have the same skolem constants. -/
def equal (s t : Scope) : Bool := s.handle.equal t.handle

/-- The printed scope. -/
def text (s : Scope) : String := s.handle.text

@[simp]
theorem contains_iff {s : Scope} {id : Int} : s.contains id = true ↔ id ∈ s := by
  rw [contains, Handle.contains_iff, scope_handle]

@[simp]
theorem equal_iff {s t : Scope} : s.equal t = true ↔ s = t := by
  rw [equal, Handle.equal_iff, scope_handle, scope_handle]

end Scope

end RankN
