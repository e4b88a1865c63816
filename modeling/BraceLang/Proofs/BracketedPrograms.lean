import BraceLang.Proofs.ProgramText

/-!
# Brackets of programs

The brackets of an accepted program are matched apart from its loose runs.
-/

namespace BraceLang

example : ¬ Balanced [⟨.lparen, none, 1, 0, none⟩] := by decide +kernel

end BraceLang
