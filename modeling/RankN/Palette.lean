/-!
# Palettes

How the parts of a printed line are set apart: by colours on a terminal, or by plain punctuation.
-/

namespace RankN

/-- How the parts of a line are set apart. -/
inductive Palette where
  | plain
  | colored
deriving DecidableEq

namespace Palette

/-- A text between two terminal control sequences. -/
def styled (on off s : String) : String := "\x1b[" ++ on ++ "m" ++ s ++ "\x1b[" ++ off ++ "m"

/-- Source text. -/
def code : Palette → String → String
  | .plain, s => "`" ++ s ++ "`"
  | .colored, s => styled "34" "0" s

/-- An expected outcome. -/
def success : Palette → String → String
  | .plain, s => s
  | .colored, s => styled "32" "0" s

/-- An unexpected outcome. -/
def conflict : Palette → String → String
  | .plain, s => s
  | .colored, s => styled "31" "0" s

/-- A remark. -/
def extra : Palette → String → String
  | .plain, s => "(" ++ s ++ ")"
  | .colored, s => styled "2" "22" ("(" ++ s ++ ")")

/-- A heading. -/
def title : Palette → String → String
  | .plain, s => s
  | .colored, s => styled "1;4" "22;24" s

end Palette

end RankN
