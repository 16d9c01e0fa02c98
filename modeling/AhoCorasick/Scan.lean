import AhoCorasick.Build
import AhoCorasick.Cursor

/-!
# The scan command

Prints every occurrence of the patterns that are given as arguments in the text on standard input,
a line each: the pattern and the offsets where the occurrence starts and ends. Without arguments it
demonstrates itself with seven patterns in a text of six letters. It knows no limit, but breaks off
if the patterns need more states than there are ids.
-/

namespace AhoCorasick

namespace Scan

/-- What a run of the command leaves behind: an exit code and a text. -/
structure Outcome where
  code : Nat
  output : String
deriving DecidableEq

def demoPatterns : List String := ["a", "ab", "bab", "bc", "bca", "c", "caa"]

def demoText : String := "abccab"

def line (patterns : Array String) (m : Match) : String :=
  patterns.getD m.pattern "" ++ " " ++ toString m.start ++ ":" ++ toString m.stop ++ "\n"

def report (patterns : List String) (text : Haystack) : Outcome :=
  match ({} : Builder).build (patterns.map Bytes.ofString) with
  | .ok a => ⟨0, String.join ((a.search text).map (line patterns.toArray))⟩
  | .error _ => ⟨101, ""⟩

/-- The command: its arguments and its input. -/
def run (arguments : List String) (input : Haystack) : Outcome :=
  if arguments.isEmpty then report demoPatterns (Bytes.ofString demoText).toArray
  else report arguments input

end Scan

end AhoCorasick
