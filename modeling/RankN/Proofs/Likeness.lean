import RankN.Proofs.Pruning
import RankN.Proofs.Relabelling
import RankN.Proofs.Steps
import RankN.Proofs.Substitution

/-!
# Types that are alike

Two runs that do the same thing may draw other stamps for it, and open quantifiers at other
constants. Two types are *alike* if they have the same form and the same metavariables, and `g c`
stands in the second one where `c` stands in the first one (`Ty.Like`). Two tables are alike if the
solutions in them are.

Whatever is done to types that are alike, in tables that are alike, comes to types that are alike:
expanding them (`Table.Like.expand`), opening a quantifier (`openAll_like`) and pruning
(`prune_like`), which also leaves tables that are alike.
-/

namespace RankN

/-- The types differ in stamps, and `g c` stands for the constant `c`. -/
inductive Ty.Like (g : Int → Int) : Ty → Ty → Prop
  | var (x : String) : Like g (.var x) (.var x)
  | mvar (m : MVar) : Like g (.mvar m) (.mvar m)
  | skolem (c : Int) : Like g (.skolem c) (.skolem (g c))
  | unknown (n : Nat) (k : String) : Like g (.unknown n k) (.unknown n k)
  | absent : Like g .absent .absent
  | all {n n' : Nat} {x : String} {t t' : Ty} : Like g t t' → Like g (.all n x t) (.all n' x t')
  | arrow {n n' : Nat} {p p' q q' : Ty} : Like g p p' → Like g q q' →
    Like g (.arrow n p q) (.arrow n' p' q')
  | app {n n' : Nat} {f f' a a' : Ty} : Like g f f' → Like g a a' →
    Like g (.app n f a) (.app n' f' a')

namespace Ty

variable {g g' : Int → Int} {t u v : Ty}

/-- Types that are alike are the same without stamps, but for their constants. -/
theorem like_iff : t.Like g u ↔ u.plain = t.plain.relabel id g := by
  constructor
  · intro h
    induction h with
    | all _ ih => simp [plain, ih]
    | arrow _ _ ihp ihq => simp [plain, ihp, ihq]
    | app _ _ ihf iha => simp [plain, ihf, iha]
    | _ => rfl
  · intro h
    induction t generalizing u with
    | all n x body ih =>
      cases u with
      | all n' x' body' =>
        simp only [plain, relabel, all.injEq, true_and] at h
        rw [h.1]
        exact .all (ih h.2)
      | _ => cases h
    | arrow n p q ihp ihq =>
      cases u with
      | arrow n' p' q' =>
        simp only [plain, relabel, arrow.injEq, true_and] at h
        exact .arrow (ihp h.1) (ihq h.2)
      | _ => cases h
    | app n f a ihf iha =>
      cases u with
      | app n' f' a' =>
        simp only [plain, relabel, app.injEq, true_and] at h
        exact .app (ihf h.1) (iha h.2)
      | _ => cases h
    | _ =>
      cases u <;> cases h
      constructor

theorem like_id_iff : t.Like id u ↔ u.plain = t.plain := by rw [like_iff, relabel_id]

theorem Like.refl (t : Ty) : t.Like id t := like_id_iff.2 rfl

theorem Like.mvars (h : t.Like g u) : u.mvars = t.mvars := by
  rw [← mvars_plain u, like_iff.1 h, mvars_relabel, List.map_id, mvars_plain]

theorem Like.skolems (h : t.Like g u) : u.skolems = t.skolems.map g := by
  induction h with
  | all _ ih => exact ih
  | arrow _ _ ihp ihq => simp [ihp, ihq]
  | app _ _ ihf iha => simp [ihf, iha]
  | _ => rfl

theorem Like.clashes {t' u' : Ty} (ht : t.Like g t') (hu : u.Like g u') (h : t.Clashes u) :
    t'.Clashes u' := by
  cases ht <;> cases hu <;> exact h

/-- Only the constants in the type matter. -/
theorem Like.congr (h : t.Like g u) (hg : ∀ c ∈ t.skolems, g c = g' c) : t.Like g' u := by
  refine like_iff.2 ((like_iff.1 h).trans (relabel_congr ?_))
  exact leaves_plain.2 ⟨fun _ _ => rfl, hg⟩

/-- Types that are alike to the same type are alike to each other. -/
theorem Like.of_common (h : t.Like g u) (h' : t.Like g v) : u.Like id v :=
  like_id_iff.2 ((like_iff.1 h').trans (like_iff.1 h).symm)

end Ty

/-- The tables have the same metavariables, with solutions that are alike. -/
structure Table.Like (g : Int → Int) (tb tb' : Table) : Prop where
  mvarAt : ∀ i, tb'.mvarAt? i = tb.mvarAt? i
  solution : ∀ m, Option.Rel (Ty.Like g) (tb.solution? m) (tb'.solution? m)

namespace Table.Like

variable {g g' : Int → Int} {tb tb' : Table} {m : MVar} {t t' u : Ty}

theorem refl (tb : Table) : tb.Like id tb := by
  refine ⟨fun _ => rfl, fun m => ?_⟩
  cases tb.solution? m with
  | none => exact .none
  | some u => exact .some (.refl u)

theorem owns (h : tb.Like g tb') (m : MVar) : tb'.owns m ↔ tb.owns m := by
  rw [owns_iff_mvarAt?, owns_iff_mvarAt?, h.mvarAt]

theorem size (h : tb.Like g tb') : tb'.size = tb.size := by
  have hle : ∀ i, tb'.size ≤ i ↔ tb.size ≤ i := by
    intro i
    have hi := congrArg (· = none) (h.mvarAt i)
    simpa [mvarAt?, Table.size] using hi
  exact le_antisymm ((hle _).2 le_rfl) ((hle _).1 le_rfl)

theorem unsolved (h : tb.Like g tb') (hm : tb.solution? m = none) : tb'.solution? m = none := by
  have hrel := h.solution m
  rw [hm] at hrel
  generalize tb'.solution? m = o at hrel
  cases hrel with
  | none => rfl

theorem solved (h : tb.Like g tb') (hm : tb.solution? m = some u) :
    ∃ u', tb'.solution? m = some u' ∧ u.Like g u' := by
  have hrel := h.solution m
  rw [hm] at hrel
  generalize tb'.solution? m = o at hrel
  cases hrel with
  | some hu => exact ⟨_, rfl, hu⟩

theorem of_solved (h : tb.Like g tb') (hm : tb'.solution? m = some u) :
    ∃ v, tb.solution? m = some v ∧ v.Like g u := by
  have hrel := h.solution m
  rw [hm] at hrel
  generalize tb.solution? m = o at hrel
  cases hrel with
  | some hu => exact ⟨_, rfl, hu⟩

/-- Only the constants in solutions matter. -/
theorem congr (h : tb.Like g tb')
    (hg : ∀ m u, tb.solution? m = some u → ∀ c ∈ u.skolems, g c = g' c) : tb.Like g' tb' := by
  refine ⟨h.mvarAt, fun m => ?_⟩
  cases hm : tb.solution? m with
  | none =>
    rw [h.unsolved hm]
    exact .none
  | some u =>
    obtain ⟨u', hu', hlike⟩ := h.solved hm
    rw [hu']
    exact .some (hlike.congr (hg m u hm))

theorem write (h : tb.Like g tb') (m : MVar) (ht : t.Like g t') :
    (tb.write m t).Like g (tb'.write m t') := by
  refine ⟨fun i => by rw [mvarAt?_write, mvarAt?_write, h.mvarAt], fun k => ?_⟩
  by_cases ho : tb.owns m
  · by_cases hk : k = m
    · subst hk
      rw [solution?_write_self ho, solution?_write_self ((h.owns k).2 ho)]
      exact .some ht
    · rw [solution?_write_of_ne _ hk, solution?_write_of_ne _ hk]
      exact h.solution k
  · rw [Table.write, if_neg ho, Table.write, if_neg fun ho' => ho ((h.owns m).1 ho')]
    exact h.solution k

theorem points (h : tb.Like g tb') {a b : MVar} (hab : tb'.Points a b) : tb.Points a b := by
  obtain ⟨u, hu, hb⟩ := hab
  obtain ⟨v, hv, hlike⟩ := h.of_solved hu
  exact ⟨v, hv, hlike.mvars ▸ hb⟩

theorem acyclic (h : tb.Like g tb') (ha : tb.Acyclic) : tb'.Acyclic :=
  ha.of_points fun _ _ hab => .single (h.points hab)

/-- **Types that are alike mean the same**, but for their constants. -/
theorem expand (h : tb.Like g tb') (ha : tb.Acyclic) (ht : t.Like g t') :
    tb'.expand t' = (tb.expand t).relabel id g := by
  have ha' := h.acyclic ha
  induction t using ha.induction generalizing t' with
  | var | skolem | unknown | absent =>
    cases ht
    rfl
  | all n x body ih =>
    cases ht with
    | all hbody => simp [ih hbody]
  | arrow n p q ihp ihq =>
    cases ht with
    | arrow hp hq => simp [ihp hp, ihq hq]
  | app n f a ihf iha =>
    cases ht with
    | app hf hx => simp [ihf hf, iha hx]
  | unsolved m hm =>
    cases ht with
    | mvar => rw [expand_unsolved hm, expand_unsolved (h.unsolved hm), Ty.relabel, id]
  | solved m u hm ih =>
    cases ht with
    | mvar =>
      obtain ⟨u', hu', hlike⟩ := h.solved hm
      rw [ha.expand_solved hm, ha'.expand_solved hu', ih hlike]

end Table.Like

/-! ## Opening a quantifier -/

section

variable {g : Int → Int} {enter enter' : Ty → StateM Run Ty} {x : String}
  {new new' t t' : Ty} {r s : Run}

theorem substWith_like (hr : ∀ u r, Run.Restamped r (enter u r).2)
    (hr' : ∀ u r, Run.Restamped r (enter' u r).2)
    (he : ∀ u u' (r s : Run), r.table.Like g s.table → u.Like g u' →
      (enter u r).1.Like g (enter' u' s).1)
    (h : r.table.Like g s.table) (hnew : new.Like g new') (ht : t.Like g t') :
    (substWith enter x new t r).1.Like g (substWith enter' x new' t' s).1 := by
  induction ht generalizing r s with
  | var y =>
    by_cases hy : y = x
    · simpa [substWith_var, hy] using hnew
    · simpa [substWith_var, hy] using Ty.Like.var y
  | mvar m =>
    cases hm : r.table.solution? m with
    | none =>
      rw [substWith_mvar_none hm, substWith_mvar_none (h.unsolved hm)]
      exact .mvar m
    | some u =>
      obtain ⟨u', hu', hlike⟩ := h.solved hm
      rw [substWith_mvar_some hm, substWith_mvar_some hu']
      exact he u u' r s h hlike
  | @all n n' y body body' hbody ih =>
    by_cases hy : y = x
    · subst hy
      rw [substWith_all_self, substWith_all_self]
      exact .all hbody
    · rw [substWith_all_of_ne n hy, substWith_all_of_ne n' hy]
      exact .all (ih h)
  | @arrow n n' p p' q q' _ _ ihp ihq =>
    have hp : r.Restamped (substWith enter x new p r).2 := substWith_restamped hr p r
    have hp' : s.Restamped (substWith enter' x new' p' s).2 := substWith_restamped hr' p' s
    rw [substWith_arrow, substWith_arrow]
    exact .arrow (ihp h) (ihq (by rwa [hp.table, hp'.table]))
  | @app n n' f f' a a' _ _ ihf iha =>
    have hf : r.Restamped (substWith enter x new f r).2 := substWith_restamped hr f r
    have hf' : s.Restamped (substWith enter' x new' f' s).2 := substWith_restamped hr' f' s
    rw [substWith_app, substWith_app]
    exact .app (ihf h) (iha (by rwa [hf.table, hf'.table]))
  | skolem c => exact .skolem c
  | unknown n k => exact .unknown n k
  | absent => exact .absent

/-- **Opening quantifiers** of types that are alike gives types that are alike. -/
theorem openAll_like (h : r.table.Like g s.table) (hnew : new.Like g new') (ht : t.Like g t') :
    (openAll x t new r).1.Like g (openAll x t' new' s).1 := by
  have main : ∀ n (t t' : Ty) (r s : Run), r.table.Like g s.table → t.Like g t' →
      (substWithin x new n t r).1.Like g (substWithin x new' n t' s).1 := by
    intro n
    induction n with
    | zero => exact fun _ _ _ _ _ ht => ht
    | succ n ih =>
      exact fun t t' r s h ht => substWith_like (substWithin_restamped x new n)
        (substWithin_restamped x new' n) ih h hnew ht
  have hhops : s.table.hops = r.table.hops := congrArg (· + 1) h.size
  show (substWithin x new r.table.hops t r).1.Like g (substWithin x new' s.table.hops t' s).1
  rw [hhops]
  exact main _ t t' r s h ht

theorem table_openAll (x : String) (t new : Ty) (r : Run) :
    (openAll x t new r).2.table = r.table := (subst_restamped x new t r).table

/-! ## Pruning -/

/-- The types are alike, and so are the tables. -/
def AnswersLike (g : Int → Int) (x y : Ty × Run) : Prop :=
  x.1.Like g y.1 ∧ x.2.table.Like g y.2.table

/-- A node that is kept or made anew on either side. -/
theorem AnswersLike.of_node {x y : Ty × Run} {r s : Run}
    (hx : x.1.plain = t ∧ ∃ k, x.2 = { r with stamps := k })
    (hy : y.1.plain = t' ∧ ∃ k, y.2 = { s with stamps := k }) (ht : t' = t.relabel id g)
    (h : r.table.Like g s.table) : AnswersLike g x y := by
  obtain ⟨hx, k, hk⟩ := hx
  obtain ⟨hy, k', hk'⟩ := hy
  refine ⟨Ty.like_iff.2 ?_, ?_⟩
  · rw [hx, hy, ht]
  · rw [hk, hk']
    exact h

theorem pruneWith_like
    (he : ∀ u u' (r s : Run), r.table.Like g s.table → u.Like g u' →
      AnswersLike g (enter u r) (enter' u' s))
    (h : r.table.Like g s.table) (ht : t.Like g t') :
    AnswersLike g (pruneWith enter t r) (pruneWith enter' t' s) := by
  induction ht generalizing r s with
  | mvar m =>
    cases hm : r.table.solution? m with
    | none =>
      rw [pruneWith_mvar_none hm, pruneWith_mvar_none (h.unsolved hm)]
      exact ⟨.mvar m, h⟩
    | some u =>
      obtain ⟨u', hu', hlike⟩ := h.solved hm
      obtain ⟨hres, htb⟩ := he u u' r s h hlike
      rw [pruneWith_mvar_some hm, pruneWith_mvar_some hu']
      exact ⟨hres, htb.write m hres⟩
  | all _ ih =>
    obtain ⟨hb, htb⟩ := ih h
    rw [pruneWith_all, pruneWith_all]
    exact .of_node (plain_all_ite ..) (plain_all_ite ..) (by simp [Ty.like_iff.1 hb]) htb
  | arrow _ _ ihp ihq =>
    obtain ⟨hp, htb₁⟩ := ihp h
    obtain ⟨hq, htb₂⟩ := ihq htb₁
    rw [pruneWith_arrow, pruneWith_arrow]
    exact .of_node (plain_arrow_ite ..) (plain_arrow_ite ..)
      (by simp [Ty.like_iff.1 hp, Ty.like_iff.1 hq]) htb₂
  | app _ _ ihf iha =>
    obtain ⟨hf, htb₁⟩ := ihf h
    obtain ⟨hx, htb₂⟩ := iha htb₁
    rw [pruneWith_app, pruneWith_app]
    exact .of_node (plain_app_ite ..) (plain_app_ite ..)
      (by simp [Ty.like_iff.1 hf, Ty.like_iff.1 hx]) htb₂
  | var y => exact ⟨.var y, h⟩
  | skolem c => exact ⟨.skolem c, h⟩
  | unknown n k => exact ⟨.unknown n k, h⟩
  | absent => exact ⟨.absent, h⟩

/-- **Pruning** types that are alike. -/
theorem prune_like (h : r.table.Like g s.table) (ht : t.Like g t') :
    AnswersLike g (prune t r) (prune t' s) := by
  have main : ∀ n (t t' : Ty) (r s : Run), r.table.Like g s.table → t.Like g t' →
      AnswersLike g (pruneWithin n t r) (pruneWithin n t' s) := by
    intro n
    induction n with
    | zero => exact fun _ _ _ _ h ht => ⟨ht, h⟩
    | succ n ih => exact fun t t' r s h ht => pruneWith_like ih h ht
  have hhops : s.table.hops = r.table.hops := congrArg (· + 1) h.size
  show AnswersLike g (pruneWithin r.table.hops t r) (pruneWithin s.table.hops t' s)
  rw [hhops]
  exact main _ t t' r s h ht

end

end RankN
