/-
From programs to source text.

* `Program.generate` — the text of a program, and the way back from short names if they were asked
  for; nothing is checked
-/
import ContractBasic.Options
import ContractBasic.Print.Source
import ContractBasic.Rename.Renaming

namespace ContractBasic

/-- Written source text; the mapping is there exactly if short names were asked for. -/
structure Generated where
  code : String
  mapping : Option Mapping
deriving DecidableEq

/-- The layout that options ask for. -/
def GenerateOptions.layout (o : GenerateOptions) : Layout :=
  if o.compact then .compact else .spaced

/-- The source text of a program. -/
def Program.generate (o : GenerateOptions) (p : Program) : Generated :=
  if o.minify then
    let (short, mapping) := p.minify (.ofProgram p)
    ⟨short.source o.layout o.comments, some mapping⟩
  else
    ⟨p.source o.layout o.comments, none⟩

end ContractBasic
