/-!
# Integer numerals

Integers on a command line are written with an optional sign, and either in decimal or with a marker
for another base: `0x` for sixteen, `0o` or a leading `0` for eight, `0b` for two. An underscore may
stand between two digits, or between the marker and a digit, of a numeral whose base is read off the
text. The value has to fit in 64 bits.
-/

namespace RankN.Numeral

/-- The value of a digit in a base. -/
def digit? (base : Nat) (c : Char) : Option Nat :=
  let value :=
    if '0' ≤ c ∧ c ≤ '9' then some (c.toNat - '0'.toNat)
    else if 'a' ≤ c ∧ c ≤ 'z' then some (c.toNat - 'a'.toNat + 10)
    else if 'A' ≤ c ∧ c ≤ 'Z' then some (c.toNat - 'A'.toNat + 10)
    else none
  value.filter (· < base)

/-- The value of a string of digits. -/
def digits? (base : Nat) (cs : List Char) : Option Nat :=
  cs.foldlM (fun n c => return n * base + (← digit? base c)) 0

/-- Whether every underscore stands between two digits. `after` says whether a digit, or the marker
of a base, has just been read. -/
def separated (after : Bool) : List Char → Bool
  | [] => true
  | ['_'] => false
  | '_' :: cs => after && separated false cs
  | _ :: cs => separated true cs

/-- The digits without the underscores between them. -/
def ungrouped? (marked : Bool) (cs : List Char) : Option (List Char) :=
  if separated marked cs then some (cs.filter (· ≠ '_')) else none

/-- The value of an unsigned numeral whose base is read off the text. -/
def unsigned? : List Char → Option Nat
  | [] => none
  | ['0'] => some 0
  | '0' :: c :: d :: cs =>
    if c = 'x' ∨ c = 'X' then ungrouped? true (d :: cs) >>= digits? 16
    else if c = 'o' ∨ c = 'O' then ungrouped? true (d :: cs) >>= digits? 8
    else if c = 'b' ∨ c = 'B' then ungrouped? true (d :: cs) >>= digits? 2
    else ungrouped? true (c :: d :: cs) >>= digits? 8
  | '0' :: cs => ungrouped? true cs >>= digits? 8
  | cs => ungrouped? false cs >>= digits? 10

/-- The value of an unsigned decimal numeral. -/
def decimal? : List Char → Option Nat
  | [] => none
  | cs => digits? 10 cs

/-- Read a sign and a numeral, and keep to 64 bits. -/
def signed? (unsigned? : List Char → Option Nat) (s : String) : Option Int := do
  let value ← match s.toList with
    | '-' :: cs => (unsigned? cs).map fun n => -(n : Int)
    | '+' :: cs => (unsigned? cs).map fun n => (n : Int)
    | cs => (unsigned? cs).map fun n => (n : Int)
  if Int64.minValue.toInt ≤ value ∧ value ≤ Int64.maxValue.toInt then some value else none

end RankN.Numeral
