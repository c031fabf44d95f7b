import RankN.Numeral
import RankN.Proofs.Phrases

/-!
# Printed types and expressions can be read back

A type prints as a phrase, and so does an expression. What the phrase leaves out is what the text
does not show: stamps, and the scopes of metavariables. `Ty.shape` and `Expr.shape` forget these.

**Names.** Names are words of letters, digits and underscores, other than the keyword of their
language. `forall` names an expression variable as well as any other word, and `fn` a type
variable; the dialect that a word is read in tells it from the keyword (`Readable`).

**Words.** A word that begins with `'_` is a metavariable and one that begins with `#` a skolem
constant. No name begins so, and decimal numbers can be read back, with a sign or without.

Main results: a printed type is read back up to its shape, so that two types have the same text
exactly when they have the same shape (`Ty.text_determines_type`), and the same holds for
expressions with their annotations (`Expr.text_determines_expr`).
-/

namespace RankN

/-! ## Numerals -/

namespace Numeral

theorem digit?_digitChar : ∀ d < 10, digit? 10 (Nat.digitChar d) = some d := by decide

theorem digits?_concat (cs : List Char) (c : Char) :
    digits? 10 (cs ++ [c]) = (digits? 10 cs).bind fun n => (digit? 10 c).map (n * 10 + ·) := by
  simp only [digits?, List.foldlM_append, List.foldlM_cons, List.foldlM_nil]
  cases List.foldlM (m := Option) _ 0 cs with
  | none => rfl
  | some n => cases digit? 10 c <;> rfl

theorem digits?_toDigits (n : Nat) : digits? 10 (Nat.toDigits 10 n) = some n := by
  induction n using Nat.strongRecOn with
  | _ n ih =>
    by_cases hn : n < 10
    · rw [Nat.toDigits_of_lt_base hn]
      simp [digits?, digit?_digitChar n hn]
    · have hd := digit?_digitChar (n % 10) (Nat.mod_lt n (by decide))
      rw [Nat.toDigits_of_base_le (by decide) (by omega), digits?_concat, ih _ (by omega), hd]
      simp [Nat.div_add_mod']

theorem decimal?_toDigits (n : Nat) : decimal? (Nat.toDigits 10 n) = some n := by
  rw [← digits?_toDigits n]
  unfold decimal?
  split
  · simp_all
  · rfl

/-- The integer that a numeral in decimal is the text of. -/
def integer? : List Char → Option Int
  | '-' :: cs => (decimal? cs).map fun (n : Nat) => -(n : Int)
  | cs => (decimal? cs).map fun (n : Nat) => (n : Int)

theorem integer?_repr (id : Int) : integer? id.repr.toList = some id := by
  rw [Int.repr_eq_if]
  split
  · have h : ((id.toNat : Nat) : Int) = id := by omega
    rw [Nat.toList_repr]
    unfold integer?
    split
    · next cs hcs =>
      have hdash : ('-').isDigit :=
        Nat.isDigit_of_mem_toDigits (b := 10) (by decide) (by decide) (hcs ▸ List.mem_cons_self)
      simp at hdash
    · rw [decimal?_toDigits, Option.map_some, h]
  · have h : -(((-id).toNat : Nat) : Int) = id := by omega
    rw [String.toList_append, Nat.toList_repr]
    show (decimal? (Nat.toDigits 10 _)).map _ = _
    rw [decimal?_toDigits, Option.map_some, h]

end Numeral

/-! ## Words -/

/-- Names in a language with the given keyword. -/
def IsName (keyword x : String) : Prop :=
  x ≠ "" ∧ x ≠ keyword ∧ ∀ c ∈ x.toList, c.isAlphanum ∨ c = '_'

instance (keyword x : String) : Decidable (IsName keyword x) :=
  have : Decidable (∀ c ∈ x.toList, c.isAlphanum ∨ c = '_') := List.decidableBAll _ _
  inferInstanceAs (Decidable (_ ∧ _ ∧ _))

/-- The characters of names and numbers do not end a word. -/
theorem ofMark?_eq_none {c : Char} (h : c.isAlphanum ∨ c = '_' ∨ c = '-') :
    Token.ofMark? c = none := by
  unfold Token.ofMark?
  split <;> first | rfl | (revert h; decide)

theorem IsName.isWord {keyword x : String} (h : IsName keyword x) : Token.IsWord x :=
  ⟨h.1, fun c hc => ofMark?_eq_none ((h.2.2 c hc).imp_right .inl)⟩

/-- A word with a character of another kind is no name. -/
theorem IsName.ne {keyword x w : String} (h : IsName keyword x) {c : Char} (hc : c ∈ w.toList)
    (hn : ¬ (c.isAlphanum ∨ c = '_')) : x ≠ w := by
  intro hx
  exact hn (h.2.2 c (hx ▸ hc))

theorem mem_repr {id : Int} {c : Char} (hc : c ∈ id.repr.toList) : c.isAlphanum ∨ c = '-' := by
  have hnat : ∀ n : Nat, c ∈ n.repr.toList → c.isAlphanum := by
    intro n hn
    rw [Nat.toList_repr] at hn
    have := Nat.isDigit_of_mem_toDigits (by decide) (by decide) hn
    simp [Char.isAlphanum, this]
  rw [Int.repr_eq_if] at hc
  split at hc
  · exact .inl (hnat _ hc)
  · rw [String.toList_append, List.mem_append] at hc
    rcases hc with hc | hc
    · exact .inr (by simpa using hc)
    · exact .inl (hnat _ hc)

theorem isWord_append_repr {sigil : String} (h : Token.IsWord sigil) (id : Int) :
    Token.IsWord (sigil ++ id.repr) := by
  refine ⟨by simp [h.1], fun c hc => ?_⟩
  rw [String.toList_append, List.mem_append] at hc
  rcases hc with hc | hc
  · exact h.2 c hc
  · exact ofMark?_eq_none ((mem_repr hc).imp_right .inr)

theorem append_ne_of_head? {s w : String} (hs : s ≠ "") (h : s.toList.head? ≠ w.toList.head?)
    (s' : String) : s ++ s' ≠ w := by
  intro hw
  apply h
  obtain ⟨c, cs, hc⟩ := List.exists_cons_of_ne_nil (l := s.toList) (by simpa using hs)
  simp [← hw, hc]

/-- A sigil in front of a number keeps the word apart from the keyword and the joint of types. -/
theorem fits_numbered {sigil : String} (h : Token.IsWord sigil)
    (hk : sigil.toList.head? ≠ Dialect.type.keyword.toList.head?)
    (hj : sigil.toList.head? ≠ Dialect.type.joint.toList.head?) (id : Int) :
    (Phrase.word (sigil ++ id.repr)).Fits .type :=
  ⟨isWord_append_repr h id, append_ne_of_head? h.1 hk _, append_ne_of_head? h.1 hj _⟩

/-- Texts that show no more than the shape, and that can be read back up to the shape, are equal
exactly when the shapes are. -/
theorem text_eq_iff {α : Type} {text : α → String} {shape : α → α} {read? : String → Option α}
    {a b : α} (hs : ∀ a, text (shape a) = text a) (ha : read? (text a) = some (shape a))
    (hb : read? (text b) = some (shape b)) : text a = text b ↔ shape a = shape b := by
  constructor
  · intro h
    rw [h, hb] at ha
    exact (Option.some.inj ha).symm
  · intro h
    rw [← hs a, h, hs b]

/-! ## Types -/

namespace Ty

/-- The type without what its text does not show: its stamps and the scopes of its metavariables. -/
def shape : Ty → Ty
  | .all _ name body => .all 0 name body.shape
  | .arrow _ param result => .arrow 0 param.shape result.shape
  | .app _ fn arg => .app 0 fn.shape arg.shape
  | .mvar m => .mvar ⟨0, m.id, .empty⟩
  | .unknown _ kind => .unknown 0 kind
  | t => t

/-- Types without odd parts, all of whose names are names. -/
def Readable : Ty → Prop
  | .var name => IsName "forall" name
  | .all _ name body => IsName "forall" name ∧ body.Readable
  | .arrow _ param result => param.Readable ∧ result.Readable
  | .app _ fn arg => fn.Readable ∧ arg.Readable
  | .mvar _ | .skolem _ => True
  | .unknown .. | .absent => False

instance decidableReadable : (t : Ty) → Decidable t.Readable
  | .var name => inferInstanceAs (Decidable (IsName "forall" name))
  | .all _ name body =>
    have := decidableReadable body
    inferInstanceAs (Decidable (IsName "forall" name ∧ body.Readable))
  | .arrow _ a b | .app _ a b =>
    have := decidableReadable a
    have := decidableReadable b
    inferInstanceAs (Decidable (a.Readable ∧ b.Readable))
  | .mvar _ | .skolem _ => inferInstanceAs (Decidable True)
  | .unknown .. | .absent => inferInstanceAs (Decidable False)

/-- The phrase that a type is printed as. -/
def phrase : Ty → Phrase
  | .var name => .word name
  | .all _ name body => .binder .type name body.phrase
  | .arrow _ param result => .arrow param.phrase result.phrase
  | .app _ fn arg => .app fn.phrase arg.phrase
  | .mvar m => .word (mvarText m)
  | .skolem id => .word ("#" ++ id.repr)
  | .unknown .. => .word ""
  | .absent => .word "<nil>"

/-- A parameter is printed as the head of an application is. -/
def Place.inPhrase : Place → Expr.Place
  | .outer => .outer
  | .param | .head => .head
  | .arg => .arg

@[simp]
theorem Place.inPhrase_bne_outer (place : Place) :
    (place.inPhrase != .outer) = (place != .outer) := by
  cases place <;> rfl

@[simp]
theorem Place.inPhrase_beq_arg (place : Place) : (place.inPhrase == .arg) = (place == .arg) := by
  cases place <;> rfl

/-- The phrase of a type has the text of the type. -/
theorem textIn_phrase (t : Ty) (place : Place) :
    t.phrase.textIn place.inPhrase = t.textIn place := by
  induction t generalizing place with
  | all _ name body ih =>
    have hb : body.phrase.textIn .outer = body.textIn .outer := ih .outer
    simp [phrase, Phrase.textIn, textIn, hb, Dialect.keyword, Dialect.separatorText]
  | arrow _ param result ihp ihr =>
    have hp : param.phrase.textIn .head = param.textIn .param := ihp .param
    have hr : result.phrase.textIn .outer = result.textIn .outer := ihr .outer
    simp [phrase, Phrase.textIn, textIn, hp, hr]
  | app _ fn arg ihf iha =>
    have hf : fn.phrase.textIn .head = fn.textIn .head := ihf .head
    have ha : arg.phrase.textIn .arg = arg.textIn .arg := iha .arg
    simp [phrase, Phrase.textIn, textIn, hf, ha]
  | _ => rfl

theorem text_phrase (t : Ty) : t.phrase.text = t.text := textIn_phrase t .outer

theorem phrase_shape (t : Ty) : t.shape.phrase = t.phrase := by
  induction t <;> simp_all [shape, phrase, mvarText]

theorem text_shape (t : Ty) : t.shape.text = t.text := by
  rw [← text_phrase, phrase_shape, text_phrase]

theorem fits_phrase {t : Ty} (h : t.Readable) : t.phrase.Fits .type := by
  induction t with
  | var name => exact ⟨h.isWord, h.2.1, h.ne (c := '-') (by decide) (by decide)⟩
  | all _ name body ih => exact ⟨rfl, h.1.isWord, ih h.2⟩
  | arrow _ param result ihp ihr => exact ⟨rfl, ihp h.1, ihr h.2⟩
  | app _ fn arg ihf iha => exact ⟨ihf h.1, iha h.2⟩
  | mvar m => exact fits_numbered (by decide) (by decide) (by decide) m.id
  | skolem id => exact fits_numbered (by decide) (by decide) (by decide) id
  | unknown | absent => exact h.elim

/-- The type that a word stands for. -/
def ofWord? (w : String) : Option Ty :=
  match w.toList with
  | '\'' :: '_' :: cs => (Numeral.integer? cs).map fun id => .mvar ⟨0, id, .empty⟩
  | '#' :: cs => (Numeral.integer? cs).map .skolem
  | _ => some (.var w)

theorem ofWord?_name {keyword x : String} (h : IsName keyword x) : ofWord? x = some (.var x) := by
  have hc := h.2.2
  unfold ofWord?
  split
  · simp_all
  · simp_all
  · rfl

end Ty

/-- The type that a phrase is the text of. -/
def Phrase.toTy? : Phrase → Option Ty
  | .word w => Ty.ofWord? w
  | .binder .type x body => return .all 0 x (← body.toTy?)
  | .arrow param result => return .arrow 0 (← param.toTy?) (← result.toTy?)
  | .app f a => return .app 0 (← f.toTy?) (← a.toTy?)
  | .binder .expr .. | .ann .. => none

namespace Ty

/-- Read a type. -/
def read? (s : String) : Option Ty := (Phrase.read? .type s).bind Phrase.toTy?

theorem toTy?_phrase {t : Ty} (h : t.Readable) : t.phrase.toTy? = some t.shape := by
  induction t with
  | var name => exact ofWord?_name h
  | all _ name body ih => simp [phrase, shape, Phrase.toTy?, ih h.2]
  | arrow _ param result ihp ihr => simp [phrase, shape, Phrase.toTy?, ihp h.1, ihr h.2]
  | app _ fn arg ihf iha => simp [phrase, shape, Phrase.toTy?, ihf h.1, iha h.2]
  | mvar m => simp [phrase, shape, Phrase.toTy?, ofWord?, mvarText, Numeral.integer?_repr]
  | skolem id => simp [phrase, shape, Phrase.toTy?, ofWord?, Numeral.integer?_repr]
  | unknown | absent => exact h.elim

/-- A printed type is read back up to its shape. -/
theorem read?_text {t : Ty} (h : t.Readable) : read? t.text = some t.shape := by
  rw [read?, ← text_phrase, Phrase.read?_text (fits_phrase h), Option.bind_some, toTy?_phrase h]

/-- Types with the same text have the same shape, and the text alone gives the shape back. -/
theorem text_determines_type {t u : Ty} (ht : t.Readable) (hu : u.Readable) :
    read? t.text = some t.shape ∧ (t.text = u.text ↔ t.shape = u.shape) :=
  ⟨read?_text ht, text_eq_iff text_shape (read?_text ht) (read?_text hu)⟩

/-- The first text differs from the second in its parentheses only, and the type of the first from
the third in its stamps and in the scope of its metavariable only. -/
theorem text_determines_nested_arrows :
    let t (k : Nat) (scope : Scope) : Ty := .all k "a" (.arrow k
      (.all k "fn" (.arrow k (.var "fn") (.mvar ⟨k, -3, scope⟩)))
      (.app k (.var "F") (.app k (.skolem 2) (.var "a"))))
    let u : Ty := .all 0 "a" (.all 0 "fn" (.arrow 0 (.var "fn") (.arrow 0 (.mvar ⟨0, -3, .empty⟩)
      (.app 0 (.app 0 (.var "F") (.skolem 2)) (.var "a")))))
    (t 1 .empty).text = "forall a. (forall fn. fn -> '_-3) -> F (#2 a)" ∧
      u.text = "forall a. forall fn. fn -> '_-3 -> F #2 a" ∧
      read? (t 1 .empty).text = some (t 0 .empty) ∧ (t 1 .empty).text ≠ u.text ∧
      (t 1 .empty).text = (t 2 (.ofList [2])).text := by
  intro t u
  have ht : (t 1 .empty).Readable := by decide +kernel
  have ht' : (t 2 (.ofList [2])).Readable := by decide +kernel
  have hu : u.Readable := by decide +kernel
  refine ⟨by decide +kernel, by decide +kernel, (text_determines_type ht hu).1, fun h => ?_,
    (text_determines_type ht ht').2.2 rfl⟩
  have hshape := (text_determines_type ht hu).2.1 h
  exact absurd hshape (by decide +kernel)

end Ty

/-! ## Expressions -/

namespace Expr

/-- The expression without what its text does not show. -/
def shape : Expr → Expr
  | .fn param body => .fn param body.shape
  | .app f a => .app f.shape a.shape
  | .ann e type => .ann e.shape type.shape
  | e => e

/-- Expressions without odd parts, all of whose names are names and whose annotations can be
read. -/
def Readable : Expr → Prop
  | .var name => IsName "fn" name
  | .fn param body => IsName "fn" param ∧ body.Readable
  | .app f a => f.Readable ∧ a.Readable
  | .ann e type => e.Readable ∧ type.Readable
  | .unknown _ | .absent => False

instance decidableReadable : (e : Expr) → Decidable e.Readable
  | .var name => inferInstanceAs (Decidable (IsName "fn" name))
  | .fn param body =>
    have := decidableReadable body
    inferInstanceAs (Decidable (IsName "fn" param ∧ body.Readable))
  | .app f a =>
    have := decidableReadable f
    have := decidableReadable a
    inferInstanceAs (Decidable (f.Readable ∧ a.Readable))
  | .ann e type =>
    have := decidableReadable e
    inferInstanceAs (Decidable (e.Readable ∧ type.Readable))
  | .unknown _ | .absent => inferInstanceAs (Decidable False)

/-- The phrase that an expression is printed as. -/
def phrase : Expr → Phrase
  | .var name => .word name
  | .fn param body => .binder .expr param body.phrase
  | .app f a => .app f.phrase a.phrase
  | .ann e type => .ann e.phrase type.phrase
  | .unknown kind => .word ("<" ++ kind ++ ">")
  | .absent => .word "<nil>"

/-- The phrase of an expression has the text of the expression. -/
theorem textIn_phrase (e : Expr) (place : Place) : e.phrase.textIn place = e.textIn place := by
  induction e generalizing place with
  | fn param body ih =>
    simp [phrase, Phrase.textIn, textIn, ih, Dialect.keyword, Dialect.separatorText]
  | app f a ihf iha => simp [phrase, Phrase.textIn, textIn, ihf, iha]
  | ann e type ih =>
    have ht : type.phrase.textIn .outer = type.text := Ty.text_phrase type
    simp [phrase, Phrase.textIn, textIn, ih, ht]
  | _ => rfl

theorem text_phrase (e : Expr) : e.phrase.text = e.text := textIn_phrase e .outer

theorem phrase_shape (e : Expr) : e.shape.phrase = e.phrase := by
  induction e <;> simp_all [shape, phrase, Ty.phrase_shape]

theorem text_shape (e : Expr) : e.shape.text = e.text := by
  rw [← text_phrase, phrase_shape, text_phrase]

theorem fits_phrase {e : Expr} (h : e.Readable) : e.phrase.Fits .expr := by
  induction e with
  | var name => exact ⟨h.isWord, h.2.1, h.ne (c := ':') (by decide) (by decide)⟩
  | fn param body ih => exact ⟨rfl, h.1.isWord, ih h.2⟩
  | app f a ihf iha => exact ⟨ihf h.1, iha h.2⟩
  | ann e type ih => exact ⟨rfl, ih h.1, Ty.fits_phrase h.2⟩
  | unknown | absent => exact h.elim

end Expr

/-- The expression that a phrase is the text of. -/
def Phrase.toExpr? : Phrase → Option Expr
  | .word w => some (.var w)
  | .binder .expr x body => return .fn x (← body.toExpr?)
  | .app f a => return .app (← f.toExpr?) (← a.toExpr?)
  | .ann e type => return .ann (← e.toExpr?) (← type.toTy?)
  | .binder .type .. | .arrow .. => none

namespace Expr

/-- Read an expression. -/
def read? (s : String) : Option Expr := (Phrase.read? .expr s).bind Phrase.toExpr?

theorem toExpr?_phrase {e : Expr} (h : e.Readable) : e.phrase.toExpr? = some e.shape := by
  induction e with
  | var name => rfl
  | fn param body ih => simp [phrase, shape, Phrase.toExpr?, ih h.2]
  | app f a ihf iha => simp [phrase, shape, Phrase.toExpr?, ihf h.1, iha h.2]
  | ann e type ih => simp [phrase, shape, Phrase.toExpr?, ih h.1, Ty.toTy?_phrase h.2]
  | unknown | absent => exact h.elim

/-- A printed expression is read back up to its shape. -/
theorem read?_text {e : Expr} (h : e.Readable) : read? e.text = some e.shape := by
  rw [read?, ← text_phrase, Phrase.read?_text (fits_phrase h), Option.bind_some, toExpr?_phrase h]

/-- Expressions with the same text have the same shape, and the text alone gives the shape back. -/
theorem text_determines_expr {e u : Expr} (he : e.Readable) (hu : u.Readable) :
    read? e.text = some e.shape ∧ (e.text = u.text ↔ e.shape = u.shape) :=
  ⟨read?_text he, text_eq_iff text_shape (read?_text he) (read?_text hu)⟩

/-- The annotation takes the whole function, and the argument before it is an annotated variable.
Words that are keywords of the other language are names. -/
theorem text_determines_annotated_functions :
    let e (scope : Scope) : Expr := .app
      (.fn "x" (.app (.app (.var "f") (.ann (.var "x")
        (.all 0 "a" (.arrow 0 (.var "a") (.var "fn"))))) (.var "forall")))
      (.ann (.fn "y" (.app (.var "y") (.var "x"))) (.arrow 0 (.mvar ⟨0, 1, scope⟩) (.skolem 0)))
    let u : Expr := .app
      (.fn "x" (.app (.app (.var "f") (.ann (.var "x")
        (.all 0 "a" (.arrow 0 (.var "a") (.var "fn"))))) (.var "forall")))
      (.fn "y" (.ann (.app (.var "y") (.var "x")) (.arrow 0 (.mvar ⟨0, 1, .empty⟩) (.skolem 0))))
    (e .empty).text =
        "(fn x -> f (x : forall a. a -> fn) forall) (fn y -> y x : '_1 -> #0)" ∧
      u.text = "(fn x -> f (x : forall a. a -> fn) forall) (fn y -> (y x : '_1 -> #0))" ∧
      read? (e .empty).text = some (e .empty) ∧ (e .empty).text ≠ u.text ∧
      (e .empty).text = (e (.ofList [0])).text := by
  intro e u
  have he : (e .empty).Readable := by decide +kernel
  have he' : (e (.ofList [0])).Readable := by decide +kernel
  have hu : u.Readable := by decide +kernel
  refine ⟨by decide +kernel, by decide +kernel, (text_determines_expr he hu).1, fun h => ?_,
    (text_determines_expr he he').2.2 rfl⟩
  have hshape := (text_determines_expr he hu).2.1 h
  exact absurd hshape (by decide +kernel)

end Expr

end RankN
