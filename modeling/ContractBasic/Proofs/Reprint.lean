/-
Programs that were read and are written again.

Parentheses vanish when a text is read, and the printer puts parentheses around nested operations
only.  So a bare expression that stood in parentheses because its first token would have claimed the
line is printed without them, and read as something else.  Nothing else is lost.

* `Program.read_generate_iff` — a program that was read is read again from its own text exactly if
  none of its bare expressions claims its line
* `Program.not_read_generate_groupedNumber` — one that is not
-/
import ContractBasic.Proofs.RoundTrip

namespace ContractBasic

namespace Program

/-- No line of a text without empty lines holds nothing. -/
theorem kind_ne_noOp {tree : ParseTree} {r : Routine} (hr : r ∈ (ofTree false tree).routines)
    {s : Statement} (hs : s ∈ r.statements) : s.kind ≠ .noOp := by
  obtain ⟨q, -, rfl⟩ := List.mem_map.mp hr
  obtain ⟨l, -, hs⟩ := List.mem_flatMap.mp hs
  obtain ⟨-, ⟨t, -, ht⟩ | ⟨hkeep, -⟩ | ⟨text, -, hkind⟩⟩ := Statement.ofLine_cases hs
  · intro hkind
    rw [hkind] at ht
    cases ParseTree.Stmt.isExecutable_ofTree _ ht
  · cases hkeep
  · rw [hkind]
    nofun

/-- What is known of a program that was read. -/
theorem wellFormed_of_read {source : String} {p : Program} (h : read .default source = .ok p) :
    p.WellFormed ∧ (∀ r ∈ p.routines, Item.Unsplit r.statements) ∧
      ∀ r ∈ p.routines, ∀ s ∈ r.statements, s.kind ≠ .noOp := by
  obtain ⟨t, htree, rfl, hlines, -⟩ := read_eq_ok.mp h
  refine ⟨?_, ?_, fun r hr s hs => kind_ne_noOp hr hs⟩
  · have h : evaluate .default source = .ok (ofTree false t) := by
      rw [evaluate, htree]
      rfl
    exact wellFormed_of_evaluate h
  · intro r hr
    obtain ⟨q, hq, rfl⟩ := List.mem_map.mp hr
    exact Routine.unsplit_ofTree false (ParseTree.checkLines_eq_ok.mp hlines q hq)

/-- A program that is read from its own text has no bare expression that claims its line. -/
theorem WellFormed.unclaimed {p : Program} (hp : p.WellFormed) (l : Layout)
    (hunsplit : ∀ r ∈ p.routines, Item.Unsplit r.statements)
    (hnoOp : ∀ r ∈ p.routines, ∀ s ∈ r.statements, s.kind ≠ .noOp)
    (h : read .default (p.source l true) = .ok p) :
    ∀ r ∈ p.routines, ∀ s ∈ r.statements, s.Unclaimed := by
  obtain ⟨t, htree, hprogram, -, hlines, -⟩ := read_eq_ok.mp h
  obtain ⟨hregular, hsigns⟩ := signs_of_parse (ofSource_eq_ok.mp htree)
  have harity : ∀ r ∈ p.routines, ∀ s ∈ r.statements, s.HasArity :=
    fun r hr s hs => ((hp.routines r hr).statements s hs).hasArity
  have hspellable : p.Spellable := fun r hr =>
    ⟨(hp.routines r hr).name, fun q hq => ((hp.routines r hr).params q hq).1,
      fun s hs => ((hp.routines r hr).statements s hs).spellable⟩
  have hrow := fits_pieces l harity
  rw [← (lex_source hspellable l true).2] at hrow
  have hdistinct : ∀ r ∈ p.tree.routines, r.takenLines.Nodup := by
    rw [← ParseTree.checkLines_eq_ok, checkLines_tree hunsplit, hlines]
  -- the tree that was read and the tree that is printed stand for one program
  have hsame : ofTree false t = ofTree false p.tree := by
    rw [hp.ofTree_tree, hp.readback_eq_self false hnoOp]
    exact hprogram
  -- they share the row as well, so that the printed one is as regular as the other
  have htree := ParseTree.regular_of_signs hp.shaped_tree hregular hdistinct hsame
    (ParseTree.fits_signs_of_row hp.shaped_tree hrow) hsigns
  intro r hr
  rw [← Routine.claim?_tree (harity r hr)]
  intro line hline s hs
  exact ((htree r.tree (List.mem_map_of_mem hr)).lines line hline s hs).claim?

/-- **A program that was read is read again from its own text exactly if none of its bare expressions
claims its line**, in either layout. -/
theorem read_generate_iff {source : String} {p : Program} (h : read .default source = .ok p)
    (compact : Bool) :
    read .default (p.generate ⟨false, true, compact⟩).code = .ok p ↔
      ∀ r ∈ p.routines, ∀ s ∈ r.statements, s.Unclaimed := by
  obtain ⟨hp, hunsplit, hnoOp⟩ := wellFormed_of_read h
  obtain ⟨-, -, -, -, hlines, hnames, -⟩ := read_eq_ok.mp h
  have hcode : (p.generate ⟨false, true, compact⟩).code
      = p.source (GenerateOptions.layout ⟨false, true, compact⟩) true := rfl
  rw [hcode]
  constructor
  · exact hp.unclaimed _ hunsplit hnoOp
  · intro hunclaimed
    exact (hp.renderable hunclaimed hunsplit hnoOp hlines hnames).read_source _

/-- A text with a call in parentheses as a whole statement. -/
def groupedCall : String := "Function A() Uint64\n10 (STORE(\"a\", 5))\nEnd Function"

/-- What the text with the call stands for. -/
def callAlone : Program where
  headers := []
  routines := [⟨"A", .uint64, [],
    [⟨10, .evaluate (.call "STORE" [.value (.string "a"), .value (.uint64 5)])⟩], []⟩]

theorem read_generate_groupedCall : read .default groupedCall = .ok callAlone ∧
    read .default (callAlone.generate ⟨false, true, true⟩).code = .ok callAlone := by
  have hread : read .default groupedCall = .ok callAlone := by decide +kernel
  have hunclaimed : ∀ r ∈ callAlone.routines, ∀ s ∈ r.statements, s.Unclaimed := by decide +kernel
  exact ⟨hread, (read_generate_iff hread true).mpr hunclaimed⟩

/-- A text with a number in parentheses as a whole statement. -/
def groupedNumber : String := "Function A() Uint64\n10 (5)\nEnd Function"

/-- What the text with the number stands for. -/
def numberAlone : Program where
  headers := []
  routines := [⟨"A", .uint64, [], [⟨10, .evaluate (.value (.uint64 5))⟩], []⟩]

/-- Without its parentheses the number is read as one more line number. -/
theorem not_read_generate_groupedNumber : read .default groupedNumber = .ok numberAlone ∧
    ∀ compact, read .default (numberAlone.generate ⟨false, true, compact⟩).code
      ≠ .ok numberAlone := by
  decide +kernel

end Program

end ContractBasic
