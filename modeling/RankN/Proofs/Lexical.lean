import RankN.Proofs.History

/-!
# Inference and the names of variables

What a name means is settled by the function that binds it, or else by the environment. `e.Renames V
e'` says that two expressions differ only in the names that their functions bind. Annotations are
kept, and free variables stand for each other as `V` says; they are kept if `V` is equality.

**Free variables** are all that an expression takes from its environment. Two environments with the
same types for them may have any layers, and declare whatever else they like.

**Same inference** (`SameInference`). The answers are the same types but for stamps, or errors of
one kind that speak of the same types and point to the same place, and as many metavariables and
skolem constants are counted.

Main result: `infer_respects_binding`. The runs are twins, with stamps drawn above what is declared.
The environment that declares the higher stamps has to come second, so the case of the other order
is the same one read from right to left.
-/

namespace RankN

open Pairing (Binding)

/-! ## Renamed expressions -/

/-- The variables that an expression takes from its environment. -/
def Expr.freeVars : Expr → List String
  | .var x => [x]
  | .fn x body => body.freeVars.filter (· ≠ x)
  | .app f a => f.freeVars ++ a.freeVars
  | .ann e _ => e.freeVars
  | .unknown _ | .absent => []

/-- The expressions differ in the names that functions bind. Free variables stand for each other as
`V` says, and annotations are the same nodes. -/
inductive Expr.Renames : (String → String → Prop) → Expr → Expr → Prop
  | var {V : String → String → Prop} {x y : String} : V x y → Renames V (.var x) (.var y)
  | fn {V : String → String → Prop} {x y : String} {e e' : Expr} :
    Renames (Binding V x y) e e' → Renames V (.fn x e) (.fn y e')
  | app {V : String → String → Prop} {f f' a a' : Expr} : Renames V f f' → Renames V a a' →
    Renames V (.app f a) (.app f' a')
  | ann {V : String → String → Prop} {e e' : Expr} (t : Ty) : Renames V e e' →
    Renames V (.ann e t) (.ann e' t)
  | unknown {V : String → String → Prop} (k : String) : Renames V (.unknown k) (.unknown k)
  | absent {V : String → String → Prop} : Renames V .absent .absent

namespace Expr

variable {V W : String → String → Prop} {e e' : Expr}

/-- Only free variables matter for how names stand for each other. -/
theorem Renames.on_freeVars (h : e.Renames V e') (hVW : ∀ x ∈ e.freeVars, ∀ y, V x y → W x y) :
    e.Renames W e' := by
  induction h generalizing W with
  | var hxy => exact .var (hVW _ (List.mem_singleton_self _) _ hxy)
  | @fn V x y body body' _ ih =>
    refine .fn (ih fun a ha b hab => ?_)
    rcases hab with hab | ⟨hax, hby, hab⟩
    · exact .inl hab
    · have hfree : a ∈ (Expr.fn x body).freeVars := List.mem_filter.2 ⟨ha, by simpa using hax⟩
      exact .inr ⟨hax, hby, hVW a hfree b hab⟩
  | app _ _ ihf iha =>
    exact .app (ihf fun x hx => hVW x (List.mem_append_left _ hx))
      (iha fun x hx => hVW x (List.mem_append_right _ hx))
  | ann t _ ih => exact .ann t (ih hVW)
  | unknown k => exact .unknown k
  | absent => exact .absent

/-- Renaming back. -/
theorem Renames.symm (h : e.Renames V e') : e'.Renames (fun y x => V x y) e := by
  induction h with
  | var hxy => exact .var hxy
  | @fn V x y body body' _ ih =>
    refine .fn (ih.on_freeVars fun b _ a hab => ?_)
    rcases hab with ⟨ha, hb⟩ | ⟨ha, hb, hab⟩
    · exact .inl ⟨hb, ha⟩
    · exact .inr ⟨hb, ha, hab⟩
  | app _ _ ihf iha => exact .app ihf iha
  | ann t _ ih => exact .ann t ih
  | unknown k => exact .unknown k
  | absent => exact .absent

theorem Renames.absent_iff (h : e.Renames V e') : e = .absent ↔ e' = .absent := by
  cases h <;> simp

/-- The expressions are renamings of each other somewhere inside a term. -/
def SameShape (e e' : Expr) : Prop := ∃ V, e.Renames V e'

theorem SameShape.symm (h : e.SameShape e') : e'.SameShape e := by
  obtain ⟨V, h⟩ := h
  exact ⟨_, h.symm⟩

end Expr

/-! ## Same inferences -/

/-- The metavariables are the same but for stamps. -/
def MVar.SameNumber (m m' : MVar) : Prop := m.id = m'.id ∧ m.scope = m'.scope

/-- Errors of one kind. They speak of the same types and metavariables, but for stamps, with the
same reason, and of expressions that differ in bound names. -/
inductive TypeError.SameKind : TypeError → TypeError → Prop
  | unbound (x y : String) : SameKind (.unbound x) (.unbound y)
  | mismatch {a a' b b' : Ty} : a.unstamped = a'.unstamped → b.unstamped = b'.unstamped →
    SameKind (.mismatch a b) (.mismatch a' b')
  | escape {m m' : MVar} {t t' : Ty} (why : Obstacle) : m.SameNumber m' →
    t.unstamped = t'.unstamped → SameKind (.escape m t why) (.escape m' t' why)
  | notFunction {t t' : Ty} {args args' : List Expr} : t.unstamped = t'.unstamped →
    List.Forall₂ Expr.SameShape args args' → SameKind (.notFunction t args) (.notFunction t' args')
  | unsynthesizable {e e' : Expr} : e.SameShape e' →
    SameKind (.unsynthesizable e) (.unsynthesizable e')
  | notAllocated {m m' : MVar} : m.SameNumber m' → SameKind (.notAllocated m) (.notAllocated m')
  | absentSolution {m m' : MVar} : m.SameNumber m' →
    SameKind (.absentSolution m) (.absentSolution m')
  | alreadySolved {m m' : MVar} : m.SameNumber m' → SameKind (.alreadySolved m) (.alreadySolved m')
  | noExpr : SameKind .noExpr .noExpr
  | noEnv : SameKind .noEnv .noEnv

/-- Faults of one kind. -/
inductive Fault.SameKind : Fault → Fault → Prop
  | untyped (x y : String) : SameKind (.untyped x) (.untyped y)
  | refl (f : Fault) : SameKind f f

/-- Answers that differ in stamps and bound names. -/
inductive AgreeingAnswer : Except (Stop TypeError) Ty → Except (Stop TypeError) Ty → Prop
  | ok {T T' : Ty} : T.unstamped = T'.unstamped → AgreeingAnswer (.ok T) (.ok T')
  | error {why why' : TypeError} : why.SameKind why' →
    AgreeingAnswer (.error (.error why)) (.error (.error why'))
  | fault {f g : Fault} : f.SameKind g → AgreeingAnswer (.error (.fault f)) (.error (.fault g))

/-- Two inferences give the same answer and point to the same place, but for stamps and bound names,
and count the same metavariables and skolem constants. -/
structure SameInference (x y : Except (Stop TypeError) Ty × Context) : Prop where
  answer : AgreeingAnswer x.1 y.1
  invalid : x.2.invalid.SameShape y.2.invalid
  mvars : x.2.run.mvars = y.2.run.mvars
  skolems : x.2.run.skolems = y.2.run.skolems

section

variable {x y : Except (Stop TypeError) Ty × Context}

theorem MVar.SameNumber.symm {m m' : MVar} (h : m.SameNumber m') : m'.SameNumber m :=
  ⟨h.1.symm, h.2.symm⟩

theorem TypeError.SameKind.symm {why why' : TypeError} (h : why.SameKind why') :
    why'.SameKind why := by
  cases h with
  | unbound x y => exact .unbound y x
  | mismatch ha hb => exact .mismatch ha.symm hb.symm
  | escape why hm ht => exact .escape why hm.symm ht.symm
  | notFunction ht hargs =>
    exact .notFunction ht.symm (hargs.flip.imp fun _ _ h => Expr.SameShape.symm h)
  | unsynthesizable he => exact .unsynthesizable he.symm
  | notAllocated hm => exact .notAllocated hm.symm
  | absentSolution hm => exact .absentSolution hm.symm
  | alreadySolved hm => exact .alreadySolved hm.symm
  | noExpr => exact .noExpr
  | noEnv => exact .noEnv

theorem Fault.SameKind.symm {f g : Fault} (h : f.SameKind g) : g.SameKind f := by
  cases h with
  | untyped x y => exact .untyped y x
  | refl => exact .refl f

theorem AgreeingAnswer.symm {a b : Except (Stop TypeError) Ty} (h : AgreeingAnswer a b) :
    AgreeingAnswer b a := by
  cases h with
  | ok hT => exact .ok hT.symm
  | error hwhy => exact .error hwhy.symm
  | fault hf => exact .fault hf.symm

theorem SameInference.symm (h : SameInference x y) : SameInference y x :=
  ⟨h.answer.symm, h.invalid.symm, h.mvars.symm, h.skolems.symm⟩

end

/-! ## Runs that bind other names -/

/-- Any names may stand for each other, and expressions that differ in bound names do. The second
run draws its stamps from `s` where the first one draws them from `r`, and nothing is said of
traces. -/
def Pairing.ofNames (r s : Nat) : Pairing where
  __ := Pairing.ofSupplies r s False []
  name _ _ := True
  expr := Expr.SameShape

namespace Pairing

variable {r s : Nat} {V : String → String → Prop} {e e' : Expr}

theorem ofNames_ty {t : Ty} (ht : t.stampBound ≤ r) : (ofNames r s).ty t = t := by
  show (ofSupplies r s False []).ty t = t
  exact ofSupplies_ty ht

theorem ofNames_stamps (h : r ≤ s) (k : Nat) : (ofNames r s).stamp (r + k) = s + k := by
  show (ofSupplies r s False []).stamp (r + k) = s + k
  exact ofSupplies_stamps h k

theorem ofNames_faithful : (ofNames r s).Faithful := by
  intro V e e' h
  refine ⟨V, ?_⟩
  induction h with
  | var hV _ => exact .var hV
  | fn _ _ ih => exact .fn ih
  | app _ _ ihf iha => exact .app ihf iha
  | ann _ _ ih => exact .ann _ ih
  | unknown k => exact .unknown k
  | absent => exact .absent

/-- Renamed expressions are alike, if their annotations have stamps below both supplies. -/
theorem ofNames_alike (h : e.Renames V e') (he : e.stampBound ≤ r) :
    (ofNames r s).Alike V e e' := by
  induction h with
  | var hV => exact .var hV trivial
  | fn _ ih => exact .fn trivial (ih he)
  | app _ _ ihf iha =>
    obtain ⟨hf, ha⟩ := max_le_iff.1 he
    exact .app (ihf hf) (iha ha)
  | ann t _ ih =>
    obtain ⟨he, ht⟩ := max_le_iff.1 he
    exact .ann (ofNames_ty ht) (ih he)
  | unknown k => exact .unknown k
  | absent => exact .absent

theorem ofNames_mvar (m : MVar) : m.SameNumber ((ofNames r s).mvar m) := ⟨rfl, rfl⟩

theorem ofNames_unstamped (t : Ty) : t.unstamped = ((ofNames r s).ty t).unstamped :=
  (Ty.unstamped_restamp _ t).symm

theorem ofNames_errors {why why' : TypeError} (h : (ofNames r s).Errors why why') :
    why.SameKind why' := by
  cases h with
  | @unbound x y _ => exact .unbound x y
  | mismatch a b => exact .mismatch (ofNames_unstamped a) (ofNames_unstamped b)
  | escape m t why => exact .escape why (ofNames_mvar m) (ofNames_unstamped t)
  | notFunction t hargs => exact .notFunction (ofNames_unstamped t) hargs
  | unsynthesizable he => exact .unsynthesizable he
  | notAllocated m => exact .notAllocated (ofNames_mvar m)
  | absentSolution m => exact .absentSolution (ofNames_mvar m)
  | alreadySolved m => exact .alreadySolved (ofNames_mvar m)

theorem ofNames_faults {f g : Fault} (h : (ofNames r s).Faults f g) : f.SameKind g := by
  unfold Faults at h
  split at h
  · exact .untyped _ _
  · rw [h]
    exact .refl g

theorem ofNames_concludes {x y : Except (Stop TypeError) Ty × Context}
    (h : (ofNames r s).Concludes x y) : SameInference x y := by
  cases h with
  | @ok T c c' hi hi' htwin =>
    refine ⟨.ok (ofNames_unstamped T), ?_, htwin.mvars.symm, htwin.skolems.symm⟩
    rw [hi, hi']
    exact ⟨Eq, .absent⟩
  | error hwhy hexpr htwin =>
    exact ⟨.error (ofNames_errors hwhy), hexpr, htwin.mvars.symm, htwin.skolems.symm⟩
  | fault hf hi hi' htwin =>
    refine ⟨.fault (ofNames_faults hf), ?_, htwin.mvars.symm, htwin.skolems.symm⟩
    rw [hi, hi']
    exact ⟨Eq, .absent⟩

end Pairing

/-! ## Inference -/

section

variable {c c' : Context} {e e' : Expr} {env env' : Env}

/-- Names stand for each other if both environments give them the same type. -/
def Env.SameType (env env' : Env) (x y : String) : Prop := env.find? x = env'.find? y

/-- Inference from a supply of stamps that is no higher. -/
theorem sameInference_of_le (hc : c.Ready) (hc' : c'.Ready) (hclear : c.Clear) (hclear' : c'.Clear)
    (he : e ≠ .absent) (henv : env ≠ []) (henv' : env' ≠ [])
    (h : e.Renames (env.SameType env') e')
    (hle : (c.start e env).stamps ≤ (c'.start e' env').stamps) :
    SameInference (c.infer e env) (c'.infer e' env') := by
  obtain ⟨hexpr, hdeclared⟩ := c.stampBound_le_start e env
  set ρ := Pairing.ofNames (c.start e env).stamps (c'.start e' env').stamps
  have halike : ρ.Alike (env.SameType env') e e' := Pairing.ofNames_alike h hexpr
  have hnames : ρ.SameNames (env.SameType env') { env } { env := env' } := Pairing.sameNames_env
    (fun x t ht => Pairing.ofNames_ty ((env.every_stampBound_le x t ht).trans hdeclared))
    fun _ _ hxy => hxy
  have htwin : ρ.Twin (c.start e env) (c'.start e' env') :=
    (hc.empty_start e env).twin (hc'.empty_start e' env') id (Pairing.ofNames_stamps hle)
  have hconcludes : ρ.Concludes (c.infer e env) (c'.infer e' env') :=
    Pairing.infer_concludes Pairing.ofNames_faithful hclear hclear' he henv henv' halike hnames htwin
  exact Pairing.ofNames_concludes hconcludes

end

/-- **Inference respects binding.** Let two expressions differ in the names that functions bind, and
let two environments have the same types for their free variables, or none for both. Then inference
in new contexts does the same: it answers the same type but for stamps, so with the same
metavariable ids, or fails with errors of the same kind that name the same types for the same reason
and are found at the same place. It counts the same metavariables and skolem constants. Steps may be
recorded in either of the contexts. -/
theorem infer_respects_binding (on listen on' listen' : Bool) {e e' : Expr} (h : e.Renames Eq e')
    {env env' : Env} (hmissing : env = [] ↔ env' = [])
    (henv : ∀ x ∈ e.freeVars, env.find? x = env'.find? x) :
    SameInference ((({} : Context).trace on listen).infer e env)
      ((({} : Context).trace on' listen').infer e' env') := by
  set c := ({} : Context).trace on listen
  set c' := ({} : Context).trace on' listen'
  by_cases he : e = .absent
  · have he' := h.absent_iff.1 he
    simp only [Context.infer, he, he', if_true]
    exact ⟨.error .noExpr, ⟨Eq, .absent⟩, rfl, rfl⟩
  have he' : e' ≠ .absent := fun he' => he (h.absent_iff.2 he')
  by_cases hempty : env = []
  · have hempty' := hmissing.1 hempty
    simp only [Context.infer, he, he', hempty, hempty', if_true, if_false]
    exact ⟨.error .noEnv, ⟨Eq, .absent⟩, rfl, rfl⟩
  have hempty' : env' ≠ [] := fun h' => hempty (hmissing.2 h')
  have hsame : e.Renames (env.SameType env') e' := h.on_freeVars fun x hx y hxy => hxy ▸ henv x hx
  have hc : c.Ready := .inr ⟨rfl, rfl, rfl⟩
  have hc' : c'.Ready := .inr ⟨rfl, rfl, rfl⟩
  have hclear : c.Clear := .inr ⟨rfl, rfl⟩
  have hclear' : c'.Clear := .inr ⟨rfl, rfl⟩
  rcases le_total (c.start e env).stamps (c'.start e' env').stamps with hle | hle
  · exact sameInference_of_le hc hc' hclear hclear' he hempty hempty' hsame hle
  · have hback : e'.Renames (env'.SameType env) e :=
      hsame.symm.on_freeVars fun _ _ _ hxy => Eq.symm hxy
    exact (sameInference_of_le hc' hc hclear' hclear he' hempty' hempty hback hle).symm

/-- A function hides the parameter of the one around it. After renaming, its own parameter hides a
name that the environment declares, in front of the layer that declares `f`. -/
theorem infer_respects_binding_of_shadowed :
    let e : Expr := .fn "x" (.fn "x" (.app (.var "f") (.var "x")))
    let e' : Expr := .fn "z" (.fn "y" (.app (.var "f") (.var "y")))
    let f : Ty := .arrow 3 (.var "int") (.var "int")
    let env : Env := [[("f", f)]]
    let env' : Env := [[("y", .arrow 8 f f)], [("f", f)]]
    (e.Renames Eq e' ∧ (env = [] ↔ env' = []) ∧ ∀ x ∈ e.freeVars, env.find? x = env'.find? x) ∧
    (({} : Context).infer e env).1 =
      .ok (.arrow 11 (.mvar ⟨4, 0, .empty⟩) (.arrow 10 (.var "int") (.var "int"))) ∧
    SameInference (({} : Context).infer e env) (({} : Context).infer e' env') := by
  intro e e' f env env'
  have hbound : Binding (Binding Eq "x" "z") "x" "y" "x" "y" := .inl ⟨rfl, rfl⟩
  have hfree : Binding (Binding Eq "x" "z") "x" "y" "f" "f" :=
    .inr ⟨by decide, by decide, .inr ⟨by decide, by decide, rfl⟩⟩
  have he : e.Renames Eq e' := .fn (.fn (.app (.var hfree) (.var hbound)))
  have hmissing : env = [] ↔ env' = [] := by simp [env, env']
  have henv : ∀ x ∈ e.freeVars, env.find? x = env'.find? x := by decide
  exact ⟨⟨he, hmissing, henv⟩, by decide +kernel,
    infer_respects_binding false false false false he hmissing henv⟩

end RankN
