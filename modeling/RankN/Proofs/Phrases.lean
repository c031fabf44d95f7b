import RankN.Expr.Printer

/-!
# Phrases

Types and expressions are printed by one grammar, and what is printed by it can be read back. A
phrase is a type or an expression as it stands on paper: words, binders, arrows, applications and
annotations, without what is not printed.

**Dialects.** The two languages differ in the word that opens a binder, in what stands between the
bound name and the body, and in what may join a phrase to the rest of the text: an arrow among
types, and the colon of an annotation among expressions. After the colon, a type follows.

**Reading.** `Reader` takes one token after the other and keeps one `Level` for each parenthesis
that is still open. A level knows the phrase that has been read last, which may yet become the head
of an application or the left side of a joint, and what it stands in. No token is looked at twice.

**Places.** A text read in an outermost place may end in any state that can be closed, a head ends
with its phrase complete, and an argument is put next to whatever stands before it. Each is a
property of the tokens alone, in front of any rest and inside any parentheses (`ReadsIn`).

Main result: reading inverts printing, for all phrases that fit the dialect (`Phrase.read?_text`).
-/

namespace RankN

/-! ## Tokens -/

/-- Tokens: words and parentheses. The dot after a bound name is a word of its own. -/
inductive Token where
  | word (w : String)
  | opening
  | closing
deriving DecidableEq

namespace Token

/-- The tokens of a character that ends a word; a blank is none. Other characters are part of a
word. -/
def ofMark? : Char → Option (List Token)
  | ' ' => some []
  | '.' => some [.word "."]
  | '(' => some [.opening]
  | ')' => some [.closing]
  | _ => none

/-- The token of a word, if any of it has been read. -/
def ofWord (w : List Char) : List Token := if w = [] then [] else [.word (.ofList w)]

/-- The tokens of a text, when `w` has been read of a word. -/
def scan (w : List Char) : List Char → List Token
  | [] => ofWord w
  | c :: cs =>
    match ofMark? c with
    | some ts => ofWord w ++ ts ++ scan [] cs
    | none => scan (w ++ [c]) cs

/-- The tokens of a text. -/
def ofText (s : String) : List Token := scan [] s.toList

/-- Whether a string can stand as a word: it has characters, and none of them ends a word. -/
def IsWord (w : String) : Prop := w ≠ "" ∧ ∀ c ∈ w.toList, ofMark? c = none

instance (w : String) : Decidable (IsWord w) :=
  have : Decidable (∀ c ∈ w.toList, ofMark? c = none) := List.decidableBAll _ _
  inferInstanceAs (Decidable (_ ∧ _))

theorem scan_append_mark {c : Char} {ts : List Token} (h : ofMark? c = some ts)
    (w s s' : List Char) : scan w (s ++ c :: s') = scan w s ++ ts ++ scan [] s' := by
  induction s generalizing w with
  | nil => simp [scan, h]
  | cons d s ih =>
    simp only [List.cons_append, scan]
    cases ofMark? d <;> simp [ih]

theorem scan_word {s : List Char} (h : ∀ c ∈ s, ofMark? c = none) (w : List Char) :
    scan w s = ofWord (w ++ s) := by
  induction s generalizing w with
  | nil => simp [scan]
  | cons c s ih =>
    rw [List.forall_mem_cons] at h
    simp [scan, h.1, ih h.2]

theorem ofText_word {w : String} (h : IsWord w) : ofText w = [.word w] := by
  have hw : w.toList ≠ [] := by simpa using h.1
  simp [ofText, scan_word h.2, ofWord, hw]

/-- A text that ends with a mark does not run into what follows. -/
theorem ofText_append_of_last {s : String} (h : (s.toList.getLast?.bind ofMark?).isSome)
    (s' : String) : ofText (s ++ s') = ofText s ++ ofText s' := by
  obtain ⟨ts, h⟩ := Option.isSome_iff_exists.mp h
  obtain ⟨c, hc, hts⟩ := Option.bind_eq_some_iff.mp h
  obtain ⟨cs, hs⟩ := List.getLast?_eq_some_iff.mp hc
  simp [ofText, hs, scan_append_mark hts, scan, ofWord]

/-- A text that starts with a mark does not run into what stands before it. -/
theorem ofText_append_of_first {s' : String} (h : (s'.toList.head?.bind ofMark?).isSome)
    (s : String) : ofText (s ++ s') = ofText s ++ ofText s' := by
  obtain ⟨ts, h⟩ := Option.isSome_iff_exists.mp h
  obtain ⟨c, hc, hts⟩ := Option.bind_eq_some_iff.mp h
  obtain ⟨cs, hs⟩ := List.head?_eq_some_iff.mp hc
  simp [ofText, hs, scan_append_mark hts, scan, ofWord, hts]

/-- Marks on both ends keep what stands before a text and what follows it apart. -/
theorem ofText_between {sep : String} (h₁ : (sep.toList.head?.bind ofMark?).isSome)
    (h₂ : (sep.toList.getLast?.bind ofMark?).isSome) (s s' : String) :
    ofText (s ++ sep ++ s') = ofText s ++ ofText sep ++ ofText s' := by
  obtain ⟨c, hc⟩ : ∃ c, sep.toList.head? = some c := by
    cases hs : sep.toList.head? with
    | none => simp [hs] at h₁
    | some c => exact ⟨c, rfl⟩
  have h : ((sep ++ s').toList.head?.bind ofMark?).isSome := by
    simpa [List.head?_append, hc] using h₁
  rw [String.append_assoc, ofText_append_of_first h, ofText_append_of_last h₂, List.append_assoc]

/-- A text in parentheses. -/
theorem ofText_parens (s : String) :
    ofText ("(" ++ s ++ ")") = .opening :: (ofText s ++ [.closing]) := by
  rw [ofText_append_of_first (by decide), ofText_append_of_last (by decide)]
  rfl

/-- An annotation in its parentheses. -/
theorem ofText_ann (s s' : String) :
    ofText ("(" ++ s ++ " : " ++ s' ++ ")") =
      .opening :: (ofText s ++ .word ":" :: ofText s' ++ [.closing]) := by
  rw [ofText_append_of_first (by decide), ofText_between (by decide) (by decide),
    ofText_append_of_last (by decide)]
  simp only [List.append_assoc]
  rfl

end Token

/-! ## Phrases and their texts -/

/-- The two languages that phrases are written in. -/
inductive Dialect where
  | type
  | expr
deriving DecidableEq

namespace Dialect

/-- The word that opens a binder. -/
def keyword : Dialect → String
  | .type => "forall"
  | .expr => "fn"

/-- The word between a bound name and the body. -/
def separator : Dialect → String
  | .type => "."
  | .expr => "->"

/-- The text between a bound name and the body. -/
def separatorText : Dialect → String
  | .type => ". "
  | .expr => " -> "

/-- The word that joins a phrase to the rest of the text. -/
def joint : Dialect → String
  | .type => "->"
  | .expr => ":"

end Dialect

/-- Phrases. -/
inductive Phrase where
  | word (w : String)
  | binder (d : Dialect) (x : String) (body : Phrase)
  | arrow (param result : Phrase)
  | app (f a : Phrase)
  | ann (e type : Phrase)
deriving DecidableEq

namespace Phrase

/-- The text of a phrase in a given place. -/
def textIn : Expr.Place → Phrase → String
  | _, .word w => w
  | place, .binder d x body =>
    Ty.enclose (place != .outer) (d.keyword ++ " " ++ x ++ d.separatorText ++ textIn .outer body)
  | place, .arrow param result =>
    Ty.enclose (place != .outer) (textIn .head param ++ " -> " ++ textIn .outer result)
  | place, .app f a => Ty.enclose (place == .arg) (textIn .head f ++ " " ++ textIn .arg a)
  | _, .ann e type => "(" ++ textIn .outer e ++ " : " ++ textIn .outer type ++ ")"

/-- The printed phrase. -/
def text (p : Phrase) : String := textIn .outer p

/-- Whether a phrase is one of a dialect: its words can be told from the keyword and the joint, and
arrows stand in types only, annotations in expressions only. -/
def Fits : Dialect → Phrase → Prop
  | d, .word w => Token.IsWord w ∧ w ≠ d.keyword ∧ w ≠ d.joint
  | d, .binder d' x body => d' = d ∧ Token.IsWord x ∧ body.Fits d
  | d, .arrow param result => d = .type ∧ param.Fits d ∧ result.Fits d
  | d, .app f a => f.Fits d ∧ a.Fits d
  | d, .ann e type => d = .expr ∧ e.Fits d ∧ type.Fits .type

end Phrase

/-! ## Reading -/

/-- What has been read last on a level. -/
inductive Latest where
  | nothing
  | keyword
  | name (x : String)
  | phrase (p : Phrase)

/-- The text between an open parenthesis and the place that reading has come to. -/
structure Level where
  dialect : Dialect
  /-- What a phrase that runs to the end of the level stands in. -/
  outside : Phrase → Phrase
  latest : Latest

namespace Level

/-- A level of which nothing has been read. -/
def start (d : Dialect) : Level := ⟨d, id, .nothing⟩

/-- Put a complete phrase next to what has been read. -/
def put (l : Level) (p : Phrase) : Option Level :=
  match l.latest with
  | .nothing => some { l with latest := .phrase p }
  | .phrase f => some { l with latest := .phrase (.app f p) }
  | _ => none

/-- Join the latest phrase to the rest of the level. An arrow takes it as its parameter, and an
annotation takes all of the level so far. -/
def join (l : Level) (p : Phrase) : Level :=
  match l.dialect with
  | .type => ⟨.type, l.outside ∘ .arrow p, .nothing⟩
  | .expr => ⟨.type, .ann (l.outside p), .nothing⟩

/-- Read a word. -/
def read (l : Level) (w : String) : Option Level :=
  match l.latest with
  | .nothing =>
    if w = l.dialect.keyword then some { l with latest := .keyword } else l.put (.word w)
  | .keyword => some { l with latest := .name w }
  | .name x =>
    if w = l.dialect.separator then
      some { l with outside := l.outside ∘ .binder l.dialect x, latest := .nothing }
    else none
  | .phrase p => if w = l.dialect.joint then some (l.join p) else l.put (.word w)

/-- The phrase of a whole level. -/
def close (l : Level) : Option Phrase :=
  match l.latest with
  | .phrase p => some (l.outside p)
  | _ => none

end Level

/-- The levels of a text that has been read in part, the innermost apart from those around it. -/
structure Reader where
  level : Level
  around : List Level

namespace Reader

/-- Read a token. -/
def step (r : Reader) : Token → Option Reader
  | .word w => return { r with level := ← r.level.read w }
  | .opening => some ⟨.start r.level.dialect, r.level :: r.around⟩
  | .closing =>
    match r.around with
    | [] => none
    | l :: ls => return ⟨← l.put (← r.level.close), ls⟩

/-- Read several tokens. -/
def run (r : Reader) (ts : List Token) : Option Reader := ts.foldlM step r

theorem run_nil (r : Reader) : r.run [] = some r := rfl

theorem run_cons (r : Reader) (t : Token) (ts : List Token) :
    r.run (t :: ts) = (r.step t).bind (·.run ts) := rfl

theorem run_append (r : Reader) (ts ts' : List Token) :
    r.run (ts ++ ts') = (r.run ts).bind (·.run ts') := by
  simp [run, List.foldlM_append]

end Reader

/-- Read a phrase of a dialect. -/
def Phrase.read? (d : Dialect) (s : String) : Option Phrase := do
  let r ← Reader.run ⟨.start d, []⟩ (Token.ofText s)
  if r.around.isEmpty then r.level.close else none

/-! ## What a text is read as -/

/-- The tokens are read as an argument: the phrase is put next to what stands before it. -/
def Puts (d : Dialect) (ts : List Token) (p : Phrase) : Prop :=
  ∀ l l' ls, l.dialect = d → l.put p = some l' → Reader.run ⟨l, ls⟩ ts = some ⟨l', ls⟩

/-- The tokens are read as a head: at the start of a level, they leave it with the phrase. -/
def Heads (d : Dialect) (ts : List Token) (p : Phrase) : Prop :=
  ∀ o ls, Reader.run ⟨⟨d, o, .nothing⟩, ls⟩ ts = some ⟨⟨d, o, .phrase p⟩, ls⟩

/-- The tokens are read as the rest of a level: the phrase is what stands in the outside, however
much of it has gone there already. -/
def Reads (d : Dialect) (ts : List Token) (p : Phrase) : Prop :=
  ∀ o ls, ∃ o' p', Reader.run ⟨⟨d, o, .nothing⟩, ls⟩ ts = some ⟨⟨d, o', .phrase p'⟩, ls⟩ ∧
    o' p' = o p

/-- The tokens are read as a phrase in a given place. -/
def ReadsIn (d : Dialect) : Expr.Place → List Token → Phrase → Prop
  | .outer => Reads d
  | .head => Heads d
  | .arg => Puts d

section

variable {d : Dialect} {ts ts' : List Token} {p q : Phrase}

theorem Puts.heads (h : Puts d ts p) : Heads d ts p := fun _ _ => h _ _ _ rfl rfl

theorem Heads.reads (h : Heads d ts p) : Reads d ts p := fun o ls => ⟨o, p, h o ls, rfl⟩

/-- What is read as an argument can stand everywhere. -/
theorem Puts.readsIn (h : Puts d ts p) : ∀ place, ReadsIn d place ts p
  | .outer => h.heads.reads
  | .head => h.heads
  | .arg => h

theorem puts_word {w : String} (hk : w ≠ d.keyword) (hj : w ≠ d.joint) :
    Puts d [.word w] (.word w) := by
  intro l l' ls hd hl
  subst hd
  have hr : l.read w = some l' := by
    simp only [Level.put] at hl
    unfold Level.read
    split <;> simp_all [Level.put]
  simp [Reader.run_cons, Reader.run_nil, Reader.step, hr]

/-- Parentheses make an argument of any text. -/
theorem Reads.parens (h : Reads d ts p) : Puts d (.opening :: (ts ++ [.closing])) p := by
  intro l l' ls hd hl
  subst hd
  obtain ⟨o, p', hr, ho⟩ := h id (l :: ls)
  have hp : o p' = p := ho
  simp only [Reader.run_cons, Reader.step, Option.bind_some, Reader.run_append, Level.start, hr]
  simp [Reader.run_nil, Level.close, hp, hl]

theorem Heads.app (h : Heads d ts p) (h' : Puts d ts' q) : Heads d (ts ++ ts') (.app p q) := by
  intro o ls
  rw [Reader.run_append, h o ls, Option.bind_some]
  exact h' _ _ _ rfl rfl

theorem Reads.binder (h : Reads d ts p) (x : String) :
    Reads d (.word d.keyword :: .word x :: .word d.separator :: ts) (.binder d x p) := by
  intro o ls
  obtain ⟨o', p', hr, ho⟩ := h (o ∘ .binder d x) ls
  refine ⟨o', p', ?_, ho⟩
  simpa [Reader.run_cons, Reader.step, Level.read] using hr

/-- An arrow takes the head before it and the rest of the level. -/
theorem Heads.arrow (h : Heads .type ts p) (h' : Reads .type ts' q) :
    Reads .type (ts ++ .word "->" :: ts') (.arrow p q) := by
  intro o ls
  obtain ⟨o', p', hr, ho⟩ := h' (o ∘ .arrow p) ls
  refine ⟨o', p', ?_, ho⟩
  simpa [Reader.run_append, h o ls, Reader.run_cons, Reader.step, Level.read, Level.join,
    Dialect.joint] using hr

/-- An annotation takes all that stands in its parentheses. -/
theorem Reads.ann (h : Reads .expr ts p) (h' : Reads .type ts' q) :
    Puts .expr (.opening :: (ts ++ .word ":" :: ts' ++ [.closing])) (.ann p q) := by
  intro l l' ls hd hl
  -- Nothing stands outside of what is read since the parenthesis, so the colon takes all of it.
  obtain ⟨o, e, hr, ho⟩ := h id (l :: ls)
  obtain ⟨o', t, hr', ho'⟩ := h' (.ann p) (l :: ls)
  have he : o e = p := ho
  simp only [Reader.run_cons, Reader.step, Option.bind_some, Reader.run_append, Level.start, hd, hr]
  simp [Reader.run_nil, Level.read, Level.join, Level.close, Dialect.joint, he, hr', ho', hl]

end

/-! ## Reading what has been printed -/

/-- A text that is enclosed unless it stands outermost is read in every place. -/
theorem Reads.enclosed {d : Dialect} {s : String} {p : Phrase} (h : Reads d (Token.ofText s) p)
    (place : Expr.Place) :
    ReadsIn d place (Token.ofText (Ty.enclose (place != .outer) s)) p := by
  have hp : Puts d (Token.ofText ("(" ++ s ++ ")")) p := by
    rw [Token.ofText_parens]
    exact h.parens
  cases place with
  | outer => exact h
  | head => exact hp.heads
  | arg => exact hp

/-- A head that is enclosed as an argument only is read in every place. -/
theorem Heads.enclosed {d : Dialect} {s : String} {p : Phrase} (h : Heads d (Token.ofText s) p)
    (place : Expr.Place) :
    ReadsIn d place (Token.ofText (Ty.enclose (place == .arg) s)) p := by
  cases place with
  | outer => exact h.reads
  | head => exact h
  | arg =>
    show Puts d (Token.ofText ("(" ++ s ++ ")")) p
    rw [Token.ofText_parens]
    exact h.reads.parens

namespace Phrase

theorem ofText_binder {x : String} (hx : Token.IsWord x) (d : Dialect) (s : String) :
    Token.ofText (d.keyword ++ " " ++ x ++ d.separatorText ++ s) =
      .word d.keyword :: .word x :: .word d.separator :: Token.ofText s := by
  rw [Token.ofText_between (by cases d <;> decide) (by cases d <;> decide),
    Token.ofText_append_of_last (by cases d <;> decide), Token.ofText_word hx]
  cases d <;> rfl

/-- A printed phrase is read as the phrase, in whatever place it has been printed for. By induction
on the phrase: each part is printed for the place in which the reader comes to it. -/
theorem readsIn_textIn {d : Dialect} {p : Phrase} (h : p.Fits d) (place : Expr.Place) :
    ReadsIn d place (Token.ofText (p.textIn place)) p := by
  induction p generalizing d place with
  | word w =>
    rw [textIn, Token.ofText_word h.1]
    exact (puts_word h.2.1 h.2.2).readsIn place
  | binder d' x body ih =>
    obtain ⟨rfl, hx, hb⟩ := h
    refine Reads.enclosed ?_ place
    rw [ofText_binder hx]
    exact (show Reads _ _ _ from ih hb .outer).binder x
  | arrow param result ihp ihr =>
    obtain ⟨rfl, hp, hr⟩ := h
    refine Reads.enclosed ?_ place
    rw [Token.ofText_between (by decide) (by decide), List.append_assoc]
    exact (show Heads _ _ _ from ihp hp .head).arrow (ihr hr .outer)
  | app f a ihf iha =>
    refine Heads.enclosed ?_ place
    rw [Token.ofText_between (by decide) (by decide), List.append_assoc]
    exact (show Heads _ _ _ from ihf h.1 .head).app (iha h.2 .arg)
  | ann e type ihe iht =>
    obtain ⟨rfl, he, ht⟩ := h
    refine Puts.readsIn ?_ place
    rw [textIn, Token.ofText_ann]
    exact (show Reads _ _ _ from ihe he .outer).ann (iht ht .outer)

/-- Reading inverts printing. -/
theorem read?_text {d : Dialect} {p : Phrase} (h : p.Fits d) : read? d p.text = some p := by
  obtain ⟨o, p', hr, ho⟩ := readsIn_textIn h .outer id []
  have hp : o p' = p := ho
  simp [read?, text, Level.start, hr, Level.close, hp]

end Phrase

end RankN
