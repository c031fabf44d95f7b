import RankN.Unify

/-!
# What actions ensure

`x.Ensures r Q E` says how the action `x` ends when it starts from the run `r`: if it succeeds, `Q`
holds of its answer and of the run it leaves; if it stops, `E` holds of why, and of the run it
leaves. An action is taken apart by one rule for each way of putting actions together.
-/

namespace RankN.Action

variable {ε α β : Type} {x : Action ε α} {f : α → Action ε β} {r r' : Run}
  {Q Q' : α → Run → Prop} {E E' : Stop ε → Run → Prop}

/-- From the run `r`, the action ends with an answer as in `Q`, or stops as in `E`. -/
def Ensures (x : Action ε α) (r : Run) (Q : α → Run → Prop) (E : Stop ε → Run → Prop) : Prop :=
  match x r with
  | .ok a r' => Q a r'
  | .error stop r' => E stop r'

theorem Ensures.of_ok {a : α} (h : x.Ensures r Q E) (hx : x r = .ok a r') : Q a r' := by
  simpa [Ensures, hx] using h

theorem Ensures.of_error {stop : Stop ε} (h : x.Ensures r Q E) (hx : x r = .error stop r') :
    E stop r' := by
  simpa [Ensures, hx] using h

theorem ensures_iff : x.Ensures r Q E ↔
    (∀ a r', x r = .ok a r' → Q a r') ∧ ∀ stop r', x r = .error stop r' → E stop r' := by
  unfold Ensures
  cases x r with
  | ok a r' => simp
  | error stop r' => simp

theorem Ensures.mono (h : x.Ensures r Q E) (hQ : ∀ a r', Q a r' → Q' a r')
    (hE : ∀ stop r', E stop r' → E' stop r') : x.Ensures r Q' E' := by
  rw [ensures_iff] at h ⊢
  exact ⟨fun a r' hx => hQ a r' (h.1 a r' hx), fun stop r' hx => hE stop r' (h.2 stop r' hx)⟩

theorem Ensures.and (h : x.Ensures r Q E) (h' : x.Ensures r Q' E') :
    x.Ensures r (fun a r' => Q a r' ∧ Q' a r') (fun stop r' => E stop r' ∧ E' stop r') := by
  rw [ensures_iff] at h h' ⊢
  exact ⟨fun a r' hx => ⟨h.1 a r' hx, h'.1 a r' hx⟩,
    fun stop r' hx => ⟨h.2 stop r' hx, h'.2 stop r' hx⟩⟩

@[simp]
theorem ensures_pure {a : α} : (pure a : Action ε α).Ensures r Q E ↔ Q a r := Iff.rfl

@[simp]
theorem ensures_throw {stop : Stop ε} : (throw stop : Action ε α).Ensures r Q E ↔ E stop r :=
  Iff.rfl

@[simp]
theorem ensures_get {Q : Run → Run → Prop} : (get : Action ε Run).Ensures r Q E ↔ Q r r := Iff.rfl

@[simp]
theorem ensures_lift {x : StateM Run α} :
    (liftM x : Action ε α).Ensures r Q E ↔ Q (x r).1 (x r).2 := Iff.rfl

@[simp]
theorem ensures_bind {Q : β → Run → Prop} : (x >>= f).Ensures r Q E ↔
    x.Ensures r (fun a r' => (f a).Ensures r' Q E) E := by
  show (match EStateM.bind x f r with | .ok a r' => Q a r' | .error stop r' => E stop r') ↔ _
  unfold EStateM.bind Ensures
  cases x r with
  | ok a r' => rfl
  | error stop r' => rfl

end RankN.Action
