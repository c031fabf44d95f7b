import RankN.Proofs.Blame
import RankN.Proofs.Reachable
import RankN.Proofs.Totality
import RankN.Proofs.Twins

/-!
# What a context forgets

A context may be asked for anything, again and again (`Context.Asks`): to infer types, in any
environment, to unify, check or prune types of its run, to solve a metavariable directly, to start
over. Once an inference has run in it, the next one does not depend on what was asked before.

**Same answers.** The next inference starts from an empty table, like an inference in a new context;
only its supply of stamps is further on, and other events were recorded before. Stamps that the
expression and the environment bring along are below both supplies. So replacing the stamps that one
inference draws by those that the other draws pairs their runs, and they are twins.

**Metavariables of earlier runs** have stamps below the supply (`Context.Dated`), and those that an
inference allocates have stamps from the supply. They may be numbered alike, but none is the other.

Main result: `infer_forgets`.
-/

namespace RankN

open RankN.Action Relation

/-! ## Printing errors and events -/

/-- The error with other stamps. -/
def TypeError.restamp (σ : Nat → Nat) : TypeError → TypeError
  | .mismatch a b => .mismatch (a.restamp σ) (b.restamp σ)
  | .escape m t why => .escape (m.restamp σ) (t.restamp σ) why
  | .notFunction t args => .notFunction (t.restamp σ) args
  | .notAllocated m => .notAllocated (m.restamp σ)
  | .absentSolution m => .absentSolution (m.restamp σ)
  | .alreadySolved m => .alreadySolved (m.restamp σ)
  | why => why

/-- Stamps are not printed. -/
@[simp]
theorem TypeError.message_restamp (σ : Nat → Nat) (why : TypeError) :
    (why.restamp σ).message = why.message := by
  cases why with
  | mismatch a b =>
    show "Failed to unify " ++ (a.restamp σ).text ++ " with " ++ (b.restamp σ).text = _
    rw [Ty.text_restamp, Ty.text_restamp]
    rfl
  | escape m t why =>
    show why.message ++ _ ++ _ ++ _ ++ _ ++ (t.restamp σ).text = _
    rw [Ty.text_restamp]
    rfl
  | notFunction t args =>
    show "Cannot apply " ++ (t.restamp σ).text ++ _ ++ _ ++ _ = _
    rw [Ty.text_restamp]
    rfl
  | _ => rfl

/-- The error without stamps. -/
def TypeError.unstamped (why : TypeError) : TypeError := why.restamp fun _ => 0

@[simp]
theorem TypeError.unstamped_restamp (σ : Nat → Nat) (why : TypeError) :
    (why.restamp σ).unstamped = why.unstamped := by
  have hty : ∀ t : Ty, (t.restamp σ).restamp (fun _ => 0) = t.restamp fun _ => 0 :=
    fun t => Ty.unstamped_restamp σ t
  have hm : ∀ m : MVar, (m.restamp σ).restamp (fun _ => 0) = m.restamp fun _ => 0 := fun _ => rfl
  cases why <;> simp [unstamped, restamp, hty, hm]

/-- Answers that are the same but for stamps, and are printed alike. -/
def SameAnswer : Except (Stop TypeError) Ty → Except (Stop TypeError) Ty → Prop
  | .ok T, .ok T' => T.unstamped = T'.unstamped ∧ T.text = T'.text
  | .error (.error why), .error (.error why') =>
    why.unstamped = why'.unstamped ∧ why.message = why'.message
  | .error (.fault f), .error (.fault f') => f = f'
  | _, _ => False

/-! ## Two inferences with different supplies -/

/-- The second run draws its stamps from `s` where the first one draws them from `r`. All else is the
same, except that steps may be recorded in one of them only. -/
def Pairing.ofSupplies (r s : Nat) (traced : Prop) (before : List Event) : Pairing where
  stamp n := if n < r then n else n + (s - r)
  injective a b hab := by
    simp only at hab
    split_ifs at hab <;> omega
  name := Eq
  expr := Eq
  traced := traced
  before := []
  before' := before

namespace Pairing

variable {r s : Nat} {traced : Prop} {before : List Event}

theorem ofSupplies_ty {t : Ty} (ht : t.stampBound ≤ r) : (ofSupplies r s traced before).ty t = t :=
  Ty.restamp_eq_self (fun _ hn => if_pos hn) ht

/-- From a supply that is no higher, the stamps drawn correspond. -/
theorem ofSupplies_stamps (h : r ≤ s) (k : Nat) :
    (ofSupplies r s traced before).stamp (r + k) = s + k := by
  show (if _ < _ then _ else _) = _
  rw [if_neg (by omega)]
  omega

theorem ofSupplies_faithful : (ofSupplies r s traced before).Faithful := by
  intro V e e' he
  show e = e'
  induction he with
  | var _ hn => exact congrArg Expr.var hn
  | fn hn _ ih => rw [show _ = _ from hn, ih]
  | app _ _ ihf iha => rw [ihf, iha]
  | ann _ _ ih => rw [ih]
  | unknown | absent => rfl

/-- An expression is alike itself, if its annotations correspond to themselves. -/
theorem alike_self {ρ : Pairing} (hname : ∀ x, ρ.name x x) {e : Expr}
    (he : e.Every fun t => ρ.ty t = t) {V : String → String → Prop} (hV : ∀ x, V x x) :
    ρ.Alike V e e := by
  induction e generalizing V with
  | var x => exact .var (hV x) (hname x)
  | fn x body ih =>
    refine .fn (hname x) (ih he fun y => ?_)
    by_cases hy : y = x
    · exact .inl ⟨hy, hy⟩
    · exact .inr ⟨hy, hy, hV y⟩
  | app f a ihf iha =>
    exact .app (ihf (fun t ht => he t (List.mem_append_left _ ht)) hV)
      (iha (fun t ht => he t (List.mem_append_right _ ht)) hV)
  | ann e t ih =>
    exact .ann (he t List.mem_cons_self) (ih (fun u hu => he u (List.mem_cons_of_mem t hu)) hV)
  | unknown k => exact .unknown k
  | absent => exact .absent

/-- Environments that declare the same for names that stand for each other. -/
theorem sameNames_env {ρ : Pairing} {V : String → String → Prop} {env env' : Env}
    (henv : env.Every fun t => ρ.ty t = t) (hV : ∀ x y, V x y → env.find? x = env'.find? y) :
    ρ.SameNames V { env } { env := env' } := by
  intro x y hxy
  have hfind : Names.find? { env } x = .ok (env.find? x) := rfl
  have hfind' : Names.find? { env := env' } y = .ok (env'.find? y) := rfl
  have hmap : (env.find? x).map ρ.ty = env.find? x := by
    cases hx : env.find? x with
    | none => rfl
    | some t => exact congrArg some (henv x t hx)
  have hfound := Found.ok (ρ := ρ) (env.find? x)
  rw [hmap] at hfound
  rw [hfind, hfind', ← hV x y hxy]
  exact hfound

theorem ofSupplies_errors {why why' : TypeError}
    (hw : (ofSupplies r s traced before).Errors why why') :
    why' = why.restamp (ofSupplies r s traced before).stamp := by
  cases hw with
  | unbound hn => rw [show _ = _ from hn]; rfl
  | @notFunction t args args' hargs =>
    have hargs : args = args' := by
      rw [← List.forall₂_eq_eq_eq]
      exact hargs
    rw [hargs]
    rfl
  | unsynthesizable he => rw [show _ = _ from he]; rfl
  | _ => rfl

theorem ofSupplies_faults {f g : Fault} (hf : (ofSupplies r s traced before).Faults f g) :
    f = g := by
  unfold Faults at hf
  split at hf
  · exact congrArg Fault.untyped hf
  · exact hf

theorem ofSupplies_message {ev ev' : Event} (hev : (ofSupplies r s traced before).Events ev ev') :
    ev'.message = ev.message := by
  cases hev with
  | check t he =>
    rw [show _ = _ from he]
    simp only [Event.message, Ty.text_restamp]
  | synth he => rw [show _ = _ from he]
  | _ => simp only [Event.message, Ty.text_restamp, Ty.mvarText_restamp, MVar.scope_restamp]

end Pairing

/-! ## Supplies -/

section

variable {c c' : Context} {e : Expr} {env : Env}

theorem Context.stamps_start (c : Context) (e : Expr) (env : Env) :
    (c.start e env).stamps = max c.run.stamps (max e.stampBound env.stampBound) := by
  have hreset : c.reset.run.stamps = c.run.stamps := by
    unfold Context.reset
    split <;> rfl
  show max c.reset.run.stamps _ = _
  rw [hreset]

/-- The stamps that an inference is given are below its supply. -/
theorem Context.stampBound_le_start (c : Context) (e : Expr) (env : Env) :
    e.stampBound ≤ (c.start e env).stamps ∧ env.stampBound ≤ (c.start e env).stamps := by
  rw [c.stamps_start]
  omega

/-- Empty runs are twins, if their supplies of stamps correspond and traces do not matter. -/
theorem Run.Empty.twin {ρ : Pairing} {r s : Run} (hr : r.Empty) (hs : s.Empty) (hρ : ¬ ρ.traced)
    (hstamps : ∀ k, ρ.stamp (r.stamps + k) = s.stamps + k) : ρ.Twin r s where
  table := by
    rw [hr.table, hs.table]
    exact (Table.restamp_empty _).symm
  mvars := hs.mvars.trans hr.mvars.symm
  skolems := hs.skolems.trans hr.skolems.symm
  recording h := absurd h hρ
  stamps := hstamps
  trace h := absurd h hρ

/-- Two inferences end alike: with answers that correspond, pointing to expressions that stand for
each other, and with twin runs. -/
inductive Pairing.Concludes (ρ : Pairing) :
    Except (Stop TypeError) Ty × Context → Except (Stop TypeError) Ty × Context → Prop
  | ok {T : Ty} {c c' : Context} : c.invalid = .absent → c'.invalid = .absent →
    ρ.Twin c.run c'.run → Concludes ρ (.ok T, c) (.ok (ρ.ty T), c')
  | error {why why' : TypeError} {c c' : Context} : ρ.Errors why why' →
    ρ.expr c.invalid c'.invalid → ρ.Twin c.run c'.run →
    Concludes ρ (.error (.error why), c) (.error (.error why'), c')
  | fault {f g : Fault} {c c' : Context} : ρ.Faults f g → c.invalid = .absent →
    c'.invalid = .absent → ρ.Twin c.run c'.run →
    Concludes ρ (.error (.fault f), c) (.error (.fault g), c')

/-- **Inferences of alike expressions end alike**, if they start from twin runs. -/
theorem Pairing.infer_concludes {ρ : Pairing} {V : String → String → Prop} {e' : Expr} {env' : Env}
    (hρ : ρ.Faithful) (hc : c.Clear) (hc' : c'.Clear) (he : e ≠ .absent) (henv : env ≠ [])
    (henv' : env' ≠ []) (halike : ρ.Alike V e e') (hnames : ρ.SameNames V { env } { env := env' })
    (htwin : ρ.Twin (c.start e env) (c'.start e' env')) :
    ρ.Concludes (c.infer e env) (c'.infer e' env') := by
  have he' : e' ≠ .absent := by
    rintro rfl
    cases halike
    exact he rfl
  have hends : ρ.Matches (Context.synthPruned env e) (Context.synthPruned env' e')
      (fun t u => u = ρ.ty t) ρ.Rejections := by
    refine ((infer_matches hρ e).2 V e' _ _ .empty halike hnames).bind ?_
    rintro t _ rfl
    exact (couples_prune t).matches
  have hends := hends _ _ htwin
  have hclear : (c.opened e env).error = none ∧ (c.opened e env).invalid = .absent := hc.reset
  have hclear' : (c'.opened e' env').error = none ∧ (c'.opened e' env').invalid = .absent :=
    hc'.reset
  rcases c.infer_cases he henv with ⟨T, r, hx, h⟩ | ⟨p, r, hx, h⟩ | ⟨f, r, hx, h⟩ <;>
    rcases c'.infer_cases he' henv' with ⟨T', s, hy, h'⟩ | ⟨q, s, hy, h'⟩ | ⟨g, s, hy, h'⟩ <;>
    rw [hx, hy] at hends <;> rw [h, h'] <;> rcases hends with ⟨hT, htwin⟩ | ⟨hpq, htwin⟩
  · subst hT
    exact .ok hclear.2 hclear'.2 htwin
  · cases hpq with
    | error hpq =>
      simp only [Context.record, hclear.1, hclear'.1]
      exact .error hpq.1 hpq.2 htwin
  · cases hpq
  · cases hpq
  · cases hpq with
    | fault hfg => exact .fault hfg hclear.2 hclear'.2 htwin

/-- Two inferences give the same answer and point to the same expression, count the same
metavariables and skolem constants, and show the same steps. The first one does so after `before`. -/
structure SameResult (before : List Event) (x y : Except (Stop TypeError) Ty × Context) : Prop where
  answer : SameAnswer x.1 y.1
  invalid : x.2.invalid = y.2.invalid
  mvars : x.2.run.mvars = y.2.run.mvars
  skolems : x.2.run.skolems = y.2.run.skolems
  trace : ∃ events, x.2.run.trace.toList = before ++ events ∧
    events.map Event.message = y.2.run.trace.toList.map Event.message

/-- A new context in which steps are recorded as in this one. -/
def Context.renewed (c : Context) : Context :=
  ({} : Context).trace c.run.recording c.listening

theorem Pairing.Twin.trace_messages {r s : Nat} {before : List Event} {r' s' : Run}
    (h : (Pairing.ofSupplies r s True before).Twin r' s') :
    ∃ events, s'.trace.toList = before ++ events ∧
      events.map Event.message = r'.trace.toList.map Event.message := by
  obtain ⟨l, l', hl, hl', hevents⟩ := h.trace trivial
  have hmessages : l'.map Event.message = l.map Event.message := by
    clear hl hl'
    induction hevents with
    | nil => rfl
    | cons hev _ ih => rw [List.map_cons, List.map_cons, Pairing.ofSupplies_message hev, ih]
  refine ⟨l', hl', ?_⟩
  rw [hl, hmessages]
  rfl

/-- The next inference starts as one in a new context does. -/
theorem Context.twin_start (hused : c.used = true) (hsupply : Ty.firstStamp ≤ c.run.stamps)
    (hlistening : c.run.recording = true → c.listening = true) (e : Expr) (env : Env) :
    (Pairing.ofSupplies (c.renewed.start e env).stamps (c.start e env).stamps True
      c.run.trace.toList).Twin (c.renewed.start e env) (c.start e env) := by
  have hreset : c.reset.run = c.run.reset := by simp [Context.reset, hused]
  have hle : (c.renewed.start e env).stamps ≤ (c.start e env).stamps := by
    rw [c.stamps_start, c.renewed.stamps_start]
    exact max_le_max_right _ hsupply
  refine ⟨?_, ?_, ?_, fun _ => ?_, Pairing.ofSupplies_stamps hle, fun _ => ⟨[], [], rfl, ?_, .nil⟩⟩
  · show c.reset.run.table = _
    rw [hreset]
    exact (Table.restamp_empty _).symm
  · show c.reset.run.mvars = _
    rw [hreset]
    rfl
  · show c.reset.run.skolems = _
    rw [hreset]
    rfl
  · show c.reset.run.recording = (c.run.recording && (false || c.listening))
    rw [hreset]
    show c.run.recording = _
    cases hr : c.run.recording with
    | false => rfl
    | true => simp [hlistening hr]
  · show c.reset.run.trace.toList = _
    rw [hreset, List.append_nil]
    rfl

/-- **The next inference gives the same result** as the first one of a new context. -/
theorem Context.sameResult_renewed (hused : c.used = true)
    (hsupply : Ty.firstStamp ≤ c.run.stamps)
    (hlistening : c.run.recording = true → c.listening = true) (e : Expr) (env : Env) :
    SameResult c.run.trace.toList (c.infer e env) (c.renewed.infer e env) := by
  have hreset : c.reset = { c with
      run := c.run.reset, used := false, error := none, invalid := .absent } := by
    simp [Context.reset, hused]
  by_cases he : e = .absent
  · simp only [Context.infer, he, if_true, hreset]
    exact ⟨⟨rfl, rfl⟩, rfl, rfl, rfl, [], by simp [Run.reset], rfl⟩
  by_cases henv : env = []
  · simp only [Context.infer, he, henv, if_true, if_false, hreset]
    exact ⟨⟨rfl, rfl⟩, rfl, rfl, rfl, [], by simp [Run.reset], rfl⟩
  have hbound := c.renewed.stampBound_le_start e env
  have htwin := c.twin_start hused hsupply hlistening e env
  set ρ := Pairing.ofSupplies (c.renewed.start e env).stamps (c.start e env).stamps True
    c.run.trace.toList
  have halike : ρ.Alike Eq e e := Pairing.alike_self (fun _ => rfl)
    (fun t ht => Pairing.ofSupplies_ty ((Expr.stampBound_le_of_mem ht).trans hbound.1)) fun _ => rfl
  have hnames : ρ.SameNames Eq { env } { env } := Pairing.sameNames_env
    (fun x t ht => Pairing.ofSupplies_ty ((env.every_stampBound_le x t ht).trans hbound.2))
    fun _ _ hxy => congrArg env.find? hxy
  have hconcludes := Pairing.infer_concludes Pairing.ofSupplies_faithful (.inr ⟨rfl, rfl⟩)
    (.inl hused) he henv henv halike hnames htwin
  generalize c.renewed.infer e env = x, c.infer e env = y at hconcludes
  cases hconcludes with
  | ok hi hi' htwin =>
    exact ⟨⟨Ty.unstamped_restamp .., Ty.text_restamp ..⟩, hi'.trans hi.symm, htwin.mvars,
      htwin.skolems, htwin.trace_messages⟩
  | error hwhy hexpr htwin =>
    refine ⟨?_, hexpr.symm, htwin.mvars, htwin.skolems, htwin.trace_messages⟩
    rw [Pairing.ofSupplies_errors hwhy]
    exact ⟨TypeError.unstamped_restamp .., TypeError.message_restamp ..⟩
  | fault hfg hi hi' htwin =>
    exact ⟨(Pairing.ofSupplies_faults hfg).symm, hi'.trans hi.symm, htwin.mvars, htwin.skolems,
      htwin.trace_messages⟩

end

/-! ## Histories -/

/-- One request leads from the first context to the second: an inference, starting over, tracing, an
operation on the run, solving a metavariable directly, or opening a quantifier. Some operations also
remember a failure; which one does not matter here. -/
inductive Context.Asks : Context → Context → Prop
  | infer (c : Context) (e : Expr) (env : Env) : Asks c (c.infer e env).2
  | reset (c : Context) : Asks c c.reset
  | trace (c : Context) (on listen : Bool) : Asks c (c.trace on listen)
  | takeTrace (c : Context) : Asks c c.takeTrace.2
  | operation (c : Context) (op : Operation) (error : Option TypeError) (invalid : Expr) :
    Asks c { c with run := op.run c.run, error, invalid }
  | assign (c : Context) (m : MVar) (t : Ty) : Asks c (c.trySolve (RankN.assign m t)).2
  | openAll (c : Context) (x : String) (body new : Ty) :
    Asks c (c.perform (RankN.openAll x body new)).2

/-- How a run gets older: no stamp is given out again, so new metavariables have new stamps. -/
structure Run.Ages (r r' : Run) : Prop where
  stamps : r.stamps ≤ r'.stamps
  owns : ∀ m, r'.table.owns m → r.table.owns m ∨ r.stamps ≤ m.stamp ∧ m.stamp < r'.stamps
  recording : r'.recording = r.recording

namespace Run

variable {r r' r'' : Run}

theorem Ages.refl (r : Run) : r.Ages r := ⟨le_rfl, fun _ h => .inl h, rfl⟩

theorem Ages.trans (h : r.Ages r') (h' : r'.Ages r'') : r.Ages r'' where
  stamps := h.stamps.trans h'.stamps
  owns m hm := by
    rcases h'.owns m hm with hm | ⟨hle, hlt⟩
    · exact (h.owns m hm).imp_right fun hm => ⟨hm.1, hm.2.trans_le h'.stamps⟩
    · exact .inr ⟨h.stamps.trans hle, hlt⟩
  recording := h'.recording.trans h.recording

theorem Change.ages (h : r.Change r') : r.Ages r' := by
  cases h with
  | log e =>
    refine ⟨(r.stamps_log e).ge, fun m hm => .inl (by rwa [r.table_log] at hm), ?_⟩
    unfold Run.log
    split <;> rfl
  | stamps hn => exact ⟨hn, fun _ h => .inl h, rfl⟩
  | newSkolem => exact ⟨le_rfl, fun _ h => .inl h, rfl⟩
  | newMVar scope =>
    refine ⟨Nat.le_succ _, fun m hm => ?_, rfl⟩
    rcases Table.eq_or_owns_of_owns_push hm with rfl | hm
    · exact .inr ⟨le_rfl, Nat.lt_succ_self _⟩
    · exact .inl hm
  | write m t => exact ⟨le_rfl, fun k hk => .inl (by rwa [Table.owns_write] at hk), rfl⟩

theorem Changes.ages (h : r.Changes r') : r.Ages r' := by
  induction h with
  | refl => exact .refl r
  | tail _ h ih => exact ih.trans h.ages

end Run

theorem Action.Reports.changes {ε α : Type} {x : Action ε α} {P : ε → Prop} (h : x.Reports P)
    (r : Run) : r.Changes (x.after r) := by
  unfold Action.after
  cases hx : x r with
  | ok a r' => exact (h r).of_ok hx
  | error stop r' => exact ((h r).of_error hx).1

/-- Every operation changes its run step by step. -/
theorem Operation.changes (op : Operation) (r : Run) : r.Changes (op.run r) := by
  cases op with
  | newSkolem => exact .single (.newSkolem r)
  | newMVar scope => exact .single (.newMVar scope r)
  | unify a b => exact (unify_reports a b).changes r
  | solve m t => exact (solve_reports m t).changes r
  | subsume scope a b => exact (subsume_reports scope a b).changes r
  | check names scope e t => exact ((infer_calls_blame e).1 names scope t).changes r
  | synth names scope e => exact ((infer_calls_blame e).2 names scope).changes r
  | collect scope t args =>
    exact Parameters.ensures_takeAll_run
      ((takeAll_reports scope t args r).mono (fun _ _ h => h) fun _ _ h => h.1)
  | prune t => exact prune_changes t r

/-- An inference changes a run step by step that was emptied before, if one had run in it. -/
theorem Context.infer_changes (c : Context) (e : Expr) (env : Env) :
    c.reset.run.Changes (c.infer e env).2.run ∧
      (c.infer e env).2.listening = c.reset.listening := by
  by_cases he : e = .absent
  · simp only [Context.infer, he, if_true]
    exact ⟨.refl, trivial⟩
  by_cases henv : env = []
  · simp only [Context.infer, he, henv, if_true, if_false]
    exact ⟨.refl, trivial⟩
  have hstart : c.reset.run.Changes (c.start e env) := .single (.stamps (le_max_left _ _))
  have hreports := synthPruned_blames env e (c.start e env)
  rcases c.infer_cases he henv with ⟨T, r, hx, h⟩ | ⟨p, r, hx, h⟩ | ⟨f, r, hx, h⟩ <;> rw [h]
  · exact ⟨hstart.trans (hreports.of_ok hx), rfl⟩
  · rw [Context.run_record, Context.listening_record]
    exact ⟨hstart.trans (hreports.of_error hx).1, rfl⟩
  · exact ⟨hstart.trans (hreports.of_error hx).1, rfl⟩

theorem Context.trySolve_snd {α : Type} (c : Context) (x : Solve α) :
    (c.trySolve x).2 = { c with run := x.after c.run } := by
  unfold Context.trySolve Action.after
  cases x c.run <;> rfl

/-- All metavariables of the run have stamps from its supply, which starts above the fixed ones, and
steps are recorded only if someone listens. -/
structure Context.Dated (c : Context) : Prop where
  supply : Ty.firstStamp ≤ c.run.stamps
  owned : ∀ m, c.run.table.owns m → m.stamp < c.run.stamps
  listening : c.run.recording = true → c.listening = true

namespace Context

variable {c c₀ c' : Context}

theorem dated_new : ({} : Context).Dated :=
  ⟨le_rfl, fun m hm => by simp at hm, fun h => by cases h⟩

theorem Dated.ages (hc : c.Dated) (h : c.run.Ages c'.run) (hl : c'.listening = c.listening) :
    c'.Dated where
  supply := hc.supply.trans h.stamps
  owned m hm := by
    rcases h.owns m hm with hm | hm
    · exact (hc.owned m hm).trans_le h.stamps
    · exact hm.2
  listening hr := by
    rw [hl]
    exact hc.listening (h.recording.symm.trans hr)

theorem Dated.reset (hc : c.Dated) : c.reset.Dated := by
  unfold Context.reset
  split
  · exact ⟨hc.supply, fun m hm => by simp [Run.reset] at hm, hc.listening⟩
  · exact hc

theorem stamps_reset (c : Context) : c.reset.run.stamps = c.run.stamps := by
  unfold Context.reset
  split <;> rfl

/-- One request: supplies do not go back, and metavariables stay dated. -/
theorem Asks.dated (h : c.Asks c') (hc : c.Dated) : c'.Dated ∧ c.run.stamps ≤ c'.run.stamps := by
  cases h with
  | infer e env =>
    obtain ⟨hchanges, hlistening⟩ := c.infer_changes e env
    exact ⟨hc.reset.ages hchanges.ages hlistening, c.stamps_reset ▸ hchanges.ages.stamps⟩
  | reset => exact ⟨hc.reset, c.stamps_reset.ge⟩
  | trace on listen =>
    refine ⟨⟨hc.supply, hc.owned, fun hr => ?_⟩, le_rfl⟩
    exact (Bool.and_eq_true_iff.1 hr).2
  | takeTrace => exact ⟨⟨hc.supply, hc.owned, hc.listening⟩, le_rfl⟩
  | operation op error invalid =>
    have hages := (op.changes c.run).ages
    exact ⟨hc.ages hages rfl, hages.stamps⟩
  | assign m t =>
    have hages := ((assign_reports m t).changes c.run).ages
    rw [c.trySolve_snd]
    exact ⟨hc.ages hages rfl, hages.stamps⟩
  | openAll x body new =>
    have hages := (subst_changes x new body c.run).ages
    exact ⟨hc.ages hages rfl, hages.stamps⟩

theorem dated_of_asks (h : ReflTransGen Asks c₀ c) (hc : c₀.Dated) :
    c.Dated ∧ c₀.run.stamps ≤ c.run.stamps := by
  induction h with
  | refl => exact ⟨hc, le_rfl⟩
  | tail _ h ih =>
    have hstep := h.dated ih.1
    exact ⟨hstep.1, ih.2.trans hstep.2⟩

end Context

/-! ## The next inference -/

/-- **Inference does not depend on what was asked before.** Let a context come about by any requests,
and let an inference have run in it. Then the next one gives the same answer as in a new context in
which steps are recorded alike: the same type but for stamps, printed alike, or the same error with
the same message, found at the same expression. It counts the same metavariables and skolem
constants, and shows the same steps. And whatever it does on the way, no metavariable of an earlier
run, whichever context of the history had it, belongs to its table or has a solution there. -/
theorem infer_forgets (c₀ c : Context) (h₀ : ReflTransGen Context.Asks {} c₀)
    (h : ReflTransGen Context.Asks c₀ c) (hused : c.used = true) (e : Expr) (env : Env) :
    SameResult c.run.trace.toList (c.infer e env) (c.renewed.infer e env) ∧
    c.reset.run.Changes (c.infer e env).2.run ∧
    ∀ r, c.reset.run.Changes r → ∀ m, c₀.run.table.owns m →
      ¬ r.table.owns m ∧ r.table.solution? m = none := by
  have hdated₀ := (Context.dated_of_asks h₀ Context.dated_new).1
  obtain ⟨hdated, hstamps⟩ := Context.dated_of_asks h hdated₀
  refine ⟨Context.sameResult_renewed hused hdated.supply hdated.listening e env,
    (c.infer_changes e env).1, fun r hr m hm => ?_⟩
  have hold : m.stamp < c.run.stamps := (hdated₀.owned m hm).trans_le hstamps
  have hreset : c.reset.run = c.run.reset := by simp [Context.reset, hused]
  have howns : ¬ r.table.owns m := by
    intro ho
    rcases hr.ages.owns m ho with ho | ho
    · simp [hreset, Run.reset] at ho
    · have : c.run.stamps ≤ m.stamp := c.stamps_reset ▸ ho.1
      omega
  refine ⟨howns, ?_⟩
  cases hs : r.table.solution? m with
  | none => rfl
  | some t => exact absurd (Table.owns_of_solution? hs) howns

/-- The metavariable `?0` of one inference is declared as the type of `y` for the next, which has a
`?0` of its own and tries to solve the old one. -/
theorem infer_forgets_old_metavariable :
    let c := (({} : Context).infer (.fn "x" (.var "x")) [[]]).2
    let m : MVar := ⟨3, 0, .empty⟩
    let e : Expr := .fn "x" (.app (.var "f") (.var "y"))
    let env : Env := [[("f", .arrow 0 (.var "int") (.var "int")), ("y", .mvar m)]]
    (ReflTransGen Context.Asks {} c ∧ c.used = true ∧ c.run.table.owns m = true) ∧
    (c.infer e env).1 = .error (.error (.notAllocated m)) ∧
    SameResult c.run.trace.toList (c.infer e env) (c.renewed.infer e env) ∧
    ¬ (c.infer e env).2.run.table.owns m ∧ (c.infer e env).2.run.table.solution? m = none := by
  intro c m e env
  have hasks : ReflTransGen Context.Asks {} c := .single (.infer {} _ _)
  have hused : c.used = true := by decide +kernel
  have hm : c.run.table.owns m = true := by decide +kernel
  obtain ⟨hsame, hchanges, hold⟩ := infer_forgets c c hasks .refl hused e env
  exact ⟨⟨hasks, hused, hm⟩, by decide +kernel, hsame, hold _ hchanges m hm⟩

end RankN
