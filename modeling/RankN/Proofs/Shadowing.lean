import RankN.Env
import RankN.Proofs.ByteOrder
import Mathlib.Data.List.Induction

/-!
# Layers shadow the layers around them

An environment is a chain of layers, and names are declared in and removed from any of them. What
can be looked up afterwards is told here from the history of these edits, without carrying them out.

**Entries.** A chain is looked at layer by layer: `Env.entry` is the type that one layer holds for a
name. A look-up finds the innermost entry (`Env.find?_drop_eq_some_iff`), and the listed names are
those that a look-up finds (`Env.mem_names_iff`), so the two walks along the chain agree.

**Edits.** An edit sets one entry and leaves all others (`Env.Edit.apply_entry`). By induction over
the history an entry is what the last edit of its name in its layer left there, and what it was at
the start if there is no such edit (`Env.run_entry`).

Main result: `Env.layers_shadow`.
-/

namespace RankN.Env

variable {n : Nat} {env env' : Env} {x : String} {t : Ty}

/-! ## Entries -/

/-- The type that a layer holds for a name, the layers counted from the innermost outwards. -/
def entry (env : Env) (k : Nat) (x : String) : Option Ty := env[k]?.bind (·.find? x)

theorem entry_drop (env : Env) (i k : Nat) (x : String) :
    entry (env.drop i) k x = env.entry (i + k) x := by
  rw [entry, entry, List.getElem?_drop]

theorem lt_length_of_entry {k : Nat} (h : env.entry k x = some t) : k < env.length := by
  obtain ⟨l, hl, -⟩ := Option.bind_eq_some_iff.1 h
  exact (List.getElem?_eq_some_iff.1 hl).1

/-- A name has the type of the innermost entry for it. -/
theorem find?_eq_some_iff :
    env.find? x = some t ↔ ∃ k, env.entry k x = some t ∧ ∀ j < k, env.entry j x = none := by
  induction env with
  | nil => simp [find?, entry]
  | cons l outer ih =>
    have hzero : entry (l :: outer) 0 x = l.find? x := rfl
    rw [find?, List.findSome?_cons]
    cases hl : l.find? x with
    | some u =>
      refine ⟨fun h => ⟨0, by rw [hzero, hl]; exact h, by simp⟩, fun ⟨k, hk, hinner⟩ => ?_⟩
      cases k with
      | zero => rwa [hzero, hl] at hk
      | succ k =>
        have := hinner 0 k.succ_pos
        rw [hzero, hl] at this
        contradiction
    | none =>
      refine ih.trans ⟨fun ⟨k, hk, hinner⟩ => ⟨k + 1, hk, fun j hj => ?_⟩,
        fun ⟨k, hk, hinner⟩ => ?_⟩
      · cases j with
        | zero => rw [hzero, hl]
        | succ j => exact hinner j (Nat.lt_of_succ_lt_succ hj)
      · cases k with
        | zero => rw [hzero, hl] at hk; contradiction
        | succ k => exact ⟨k, hk, fun j hj => hinner (j + 1) (Nat.succ_lt_succ hj)⟩

theorem find?_eq_none_iff : env.find? x = none ↔ ∀ k, env.entry k x = none := by
  simp only [find?, List.findSome?_eq_none_iff, entry, Option.bind_eq_none_iff,
    List.mem_iff_getElem?]
  exact ⟨fun h k l hl => h l ⟨k, hl⟩, fun h l ⟨k, hl⟩ => h k l hl⟩

/-- From a layer outwards a name has the type of the first entry for it. -/
theorem find?_drop_eq_some_iff (hlen : env.length = n) (i : Fin n) :
    find? (env.drop i) x = some t ↔
      ∃ k : Fin n, i ≤ k ∧ env.entry k x = some t ∧
        ∀ j : Fin n, i ≤ j → j < k → env.entry j x = none := by
  simp only [find?_eq_some_iff, entry_drop]
  constructor
  · rintro ⟨k, hk, hinner⟩
    have hlt := Nat.lt_of_lt_of_eq (lt_length_of_entry hk) hlen
    refine ⟨⟨i + k, hlt⟩, Nat.le_add_right _ _, hk, fun j hij hjk => ?_⟩
    have hj := hinner (j - i) (Nat.sub_lt_left_of_lt_add hij hjk)
    rwa [Nat.add_sub_cancel' hij] at hj
  · rintro ⟨k, hik, hk, hinner⟩
    refine ⟨k - i, by rwa [Nat.add_sub_cancel' hik], fun j hj => ?_⟩
    have hjk : i + j < (k : Nat) := Nat.add_lt_of_lt_sub' hj
    exact hinner ⟨i + j, Nat.lt_trans hjk k.isLt⟩ (Nat.le_add_right _ _) hjk

theorem find?_drop_eq_none_iff (hlen : env.length = n) (i : Fin n) :
    find? (env.drop i) x = none ↔ ∀ k : Fin n, i ≤ k → env.entry k x = none := by
  simp only [find?_eq_none_iff, entry_drop]
  refine ⟨fun h k hik => ?_, fun h k => ?_⟩
  · have hk := h (k - i)
    rwa [Nat.add_sub_cancel' hik] at hk
  · by_contra hk
    obtain ⟨t, ht⟩ := Option.ne_none_iff_exists'.1 hk
    have hlt := Nat.lt_of_lt_of_eq (lt_length_of_entry ht) hlen
    exact hk (h ⟨i + k, hlt⟩ (Nat.le_add_right _ _))

/-- A look-up depends only on the entries from its layer outwards. -/
theorem find?_drop_congr (hlen : env.length = n) (hlen' : env'.length = n) (i : Fin n)
    (h : ∀ k : Fin n, i ≤ k → env'.entry k x = env.entry k x) :
    find? (env'.drop i) x = find? (env.drop i) x := by
  refine Option.ext fun t => ?_
  rw [find?_drop_eq_some_iff hlen', find?_drop_eq_some_iff hlen]
  refine exists_congr fun k => and_congr_right fun hik => ?_
  rw [h k hik]
  refine and_congr_right fun _ => forall_congr' fun j => forall_congr' fun hij => ?_
  rw [h j hij]

/-! ## Listed names -/

theorem mem_names_iff : x ∈ env.names ↔ (env.find? x).isSome := by
  simp only [names, Ordered.mem_ofList, find?, List.findSome?_isSome_iff, Layer.find?,
    List.lookup_isSome_iff, List.mem_map, List.mem_flatten, beq_iff_eq]
  grind

theorem names_ascending (env : Env) : (env.names.map Utf8.bytes).Pairwise (· < ·) :=
  List.pairwise_map.2 ((Ordered.ascending_ofList _).imp Utf8.bytes_lt_bytes)

/-! ## Edits -/

/-- An operation on a layer of a chain of `n` layers. -/
inductive Edit (n : Nat) where
  | declare (layer : Fin n) (name : String) (t : Ty)
  | remove (layer : Fin n) (name : String)

namespace Edit

/-- The layer that is edited. -/
def layer : Edit n → Fin n
  | declare k _ _ => k
  | remove k _ => k

/-- The name that is edited. -/
def name : Edit n → String
  | declare _ x _ => x
  | remove _ x => x

/-- The entry that an edit leaves. -/
def result : Edit n → Option Ty
  | declare _ _ t => some t
  | remove _ _ => none

/-- What an edit does to its layer. -/
def change : Edit n → Layer → Layer
  | declare _ x t, l => l.insert x t
  | remove _ x, l => l.erase x

/-- Carry out an edit. -/
def apply : Edit n → Env → Except Fault Env
  | declare k x t, env => env.atDepth k (·.declare x t)
  | remove k x, env => env.atDepth k (·.remove x)

/-- Whether an edit is one of a name in a layer. -/
def Concerns (e : Edit n) (k : Fin n) (x : String) : Prop := e.layer = k ∧ e.name = x

instance (e : Edit n) (k : Fin n) (x : String) : Decidable (e.Concerns k x) :=
  inferInstanceAs (Decidable (_ ∧ _))

theorem find?_change (e : Edit n) (l : Layer) (x : String) :
    (e.change l).find? x = if x = e.name then e.result else l.find? x := by
  cases e with
  | declare _ y t => exact Layer.find?_insert l y x t
  | remove _ y => exact Layer.find?_erase l y x

end Edit

/-- Work on the innermost layer of an outer environment is work on that layer of the chain. -/
theorem atDepth_eq_modify {k : Nat} {f : Env → Except Fault Env} {g : Layer → Layer}
    (hk : k < env.length) (hf : ∀ l outer, f (l :: outer) = .ok (g l :: outer)) :
    env.atDepth k f = .ok (env.modify k g) := by
  rw [atDepth, List.drop_eq_getElem_cons hk, hf, List.modify_eq_take_cons_drop hk]
  rfl

theorem Edit.apply_eq_modify (hlen : env.length = n) (e : Edit n) :
    e.apply env = .ok (env.modify e.layer e.change) := by
  have hk : e.layer < env.length := Nat.lt_of_lt_of_eq e.layer.isLt hlen.symm
  cases e with
  | declare k x t => exact atDepth_eq_modify (f := (·.declare x t)) hk fun _ _ => rfl
  | remove k x => exact atDepth_eq_modify (f := (·.remove x)) hk fun _ _ => rfl

/-- An edit sets the entry that it concerns, and no other. -/
theorem Edit.apply_entry (hlen : env.length = n) (e : Edit n) :
    ∃ env', e.apply env = .ok env' ∧ env'.length = n ∧
      ∀ (k : Fin n) (x : String),
        env'.entry k x = if e.Concerns k x then e.result else env.entry k x := by
  refine ⟨_, e.apply_eq_modify hlen, by rw [List.length_modify, hlen], fun k x => ?_⟩
  obtain ⟨l, hl⟩ : ∃ l, env[(k : Nat)]? = some l :=
    ⟨_, List.getElem?_eq_getElem (Nat.lt_of_lt_of_eq k.isLt hlen.symm)⟩
  rw [entry, entry, List.getElem?_modify, hl]
  by_cases hk : e.layer = k
  · simp [Concerns, hk, find?_change, eq_comm]
  · simp [Concerns, hk, Fin.val_inj]

/-- Carry out edits in order. -/
def run (env : Env) (edits : List (Edit n)) : Except Fault Env :=
  edits.foldlM (fun env e => e.apply env) env

theorem run_concat {edits : List (Edit n)} {e : Edit n} (h : env.run edits = .ok env') :
    env.run (edits ++ [e]) = e.apply env' := by
  rw [run, List.foldlM_append, ← run, h]
  simp only [List.foldlM_cons, List.foldlM_nil, bind_pure]
  rfl

/-! ## Histories -/

section

variable {edits : List (Edit n)} {e : Edit n} {k : Fin n}

/-- The last edit of a name in a layer declares it with the type `t`. -/
def LastDeclared (edits : List (Edit n)) (k : Fin n) (x : String) (t : Ty) : Prop :=
  ∃ before after, edits = before ++ .declare k x t :: after ∧ ∀ e ∈ after, ¬ e.Concerns k x

/-- After edits of a chain the type `t` stands for a name in a layer: the last edit of the name in
this layer declares it so, or there is none and the layer held this type at the start. -/
def Stands (env : Env) (edits : List (Edit n)) (k : Fin n) (x : String) (t : Ty) : Prop :=
  LastDeclared edits k x t ∨ env.entry k x = some t ∧ ∀ e ∈ edits, ¬ e.Concerns k x

theorem lastDeclared_concat :
    LastDeclared (edits ++ [e]) k x t ↔
      if e.Concerns k x then e.result = some t else LastDeclared edits k x t := by
  constructor
  · -- The declaration is the last edit itself, or stands before it.
    rintro ⟨before, after, heq, hafter⟩
    rcases List.eq_nil_or_concat after with rfl | ⟨after, e', rfl⟩
    · obtain ⟨-, hlast⟩ := List.append_inj' heq rfl
      rw [List.singleton_inj.1 hlast, if_pos ⟨rfl, rfl⟩]
      rfl
    · rw [List.concat_eq_append] at heq hafter
      rw [← List.cons_append, ← List.append_assoc] at heq
      obtain ⟨hfront, hlast⟩ := List.append_inj' heq rfl
      obtain rfl := List.singleton_inj.1 hlast
      obtain ⟨hafter, he⟩ := List.forall_mem_append.1 hafter
      rw [if_neg (he e List.mem_cons_self)]
      exact ⟨before, after, hfront, hafter⟩
  · split_ifs with he
    · intro ht
      cases e with
      | declare j y u =>
        obtain ⟨rfl, rfl⟩ := he
        obtain rfl := Option.some.inj ht
        exact ⟨edits, [], rfl, List.forall_mem_nil _⟩
      | remove j y => contradiction
    · rintro ⟨before, after, rfl, hafter⟩
      refine ⟨before, after ++ [e], by rw [List.append_assoc, List.cons_append], ?_⟩
      exact List.forall_mem_append.2 ⟨hafter, List.forall_mem_singleton.2 he⟩

theorem stands_concat :
    Stands env (edits ++ [e]) k x t ↔
      if e.Concerns k x then e.result = some t else Stands env edits k x t := by
  simp only [Stands, lastDeclared_concat, List.forall_mem_append, List.forall_mem_singleton]
  split_ifs with he <;> simp [he]

/-- The entries after edits are the types that stand. -/
theorem run_entry (hlen : env.length = n) (edits : List (Edit n)) :
    ∃ env', env.run edits = .ok env' ∧ env'.length = n ∧
      ∀ (k : Fin n) (x : String) (t : Ty), env'.entry k x = some t ↔ Stands env edits k x t := by
  -- From the last edit backwards, since the last one decides.
  induction edits using List.reverseRecOn with
  | nil => exact ⟨env, rfl, hlen, fun k x t => by simp [Stands, LastDeclared]⟩
  | append_singleton edits e ih =>
    obtain ⟨env₁, hrun, hlen₁, hentry₁⟩ := ih
    obtain ⟨env₂, happly, hlen₂, hentry₂⟩ := e.apply_entry hlen₁
    refine ⟨env₂, ?_, hlen₂, fun k x t => ?_⟩
    · rw [run_concat hrun, happly]
    · rw [hentry₂, stands_concat, ← hentry₁]
      split_ifs <;> rfl

/-- In a chain of new layers only what was declared stands. -/
theorem stands_iff_lastDeclared (hnew : ∀ l ∈ env, l = []) :
    Stands env edits k x t ↔ LastDeclared edits k x t := by
  refine ⟨fun h => h.resolve_right fun ⟨hentry, _⟩ => ?_, .inl⟩
  obtain ⟨l, hl, hfind⟩ := Option.bind_eq_some_iff.1 hentry
  rw [hnew l (List.mem_of_getElem? hl)] at hfind
  contradiction

end

/-- **Layers shadow the layers around them.** Take any chain of layers and any sequence of
declarations and removals in its layers. It can be carried out, and looking up a name from a layer
outwards then finds the type that stands in the first layer where one stands for the name: the type
of the last declaration of the name in that layer, if no removal follows it. If none stands in these
layers, nothing is found. What a layer held at the start counts as declared before; in a chain of
new layers there is no such thing. The names listed from a layer are strictly ascending in byte
order and are those that a look-up finds. One more declaration or removal changes no look-up of
another name, and none that starts further out. -/
theorem layers_shadow (env : Env) (edits : List (Edit env.length)) :
    ∃ env' : Env, env.run edits = .ok env' ∧ env'.length = env.length ∧
      (∀ (i : Fin env.length) (x : String) (t : Ty), find? (env'.drop i) x = some t ↔
        ∃ k, i ≤ k ∧ Stands env edits k x t ∧ ∀ j, i ≤ j → j < k → ∀ u, ¬ Stands env edits j x u) ∧
      (∀ (i : Fin env.length) (x : String), find? (env'.drop i) x = none ↔
        ∀ k, i ≤ k → ∀ u, ¬ Stands env edits k x u) ∧
      ((∀ l ∈ env, l = []) → ∀ k x t, Stands env edits k x t ↔ LastDeclared edits k x t) ∧
      (∀ i : Fin env.length, ((names (env'.drop i)).map Utf8.bytes).Pairwise (· < ·) ∧
        ∀ x, x ∈ names (env'.drop i) ↔ (find? (env'.drop i) x).isSome) ∧
      ∀ e : Edit env.length, ∃ env'', e.apply env' = .ok env'' ∧
        ∀ (i : Fin env.length) (x : String), x ≠ e.name ∨ e.layer < i →
          find? (env''.drop i) x = find? (env'.drop i) x := by
  obtain ⟨env', hrun, hlen, hentry⟩ := run_entry rfl edits
  have hnone (k : Fin env.length) (x : String) :
      env'.entry k x = none ↔ ∀ u, ¬ Stands env edits k x u := by
    simp only [Option.eq_none_iff_forall_ne_some, ne_eq, hentry]
  refine ⟨env', hrun, hlen, fun i x t => ?_, fun i x => ?_, fun hnew k x t => ?_, fun i => ?_,
    fun e => ?_⟩
  · simp only [find?_drop_eq_some_iff hlen, hentry, hnone]
  · simp only [find?_drop_eq_none_iff hlen, hnone]
  · exact stands_iff_lastDeclared hnew
  · exact ⟨names_ascending _, fun x => mem_names_iff⟩
  · obtain ⟨env'', happly, hlen', hset⟩ := e.apply_entry hlen
    refine ⟨env'', happly, fun i x hother => find?_drop_congr hlen hlen' i fun k hik => ?_⟩
    rw [hset, if_neg]
    rintro ⟨rfl, rfl⟩
    rcases hother with hx | hi
    · exact hx rfl
    · exact absurd hi (Fin.not_lt.2 hik)

-- A removal from the inner layer uncovers the declaration in the outer one.
example (a b : Ty) :
    (run [[], []] ([.declare 1 "inc" a, .declare 0 "inc" b, .remove 0 "inc"] : List (Edit 2))).map
      (find? · "inc") = .ok (some a) := rfl

end RankN.Env
