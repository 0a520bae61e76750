/-
Where reports point.

A report about a place of a text gives the line and the column of the place and shows the line with a
caret below.  Lines are what stands between line feeds, and columns count characters.  Line and column
together say which byte is meant.  The parser finds fault at boundaries of the text alone, so that every
part of the text that is taken for a report is there.

* `Position.PointsInto` — whether a position points into a text, on a line of it
* `Position.PointsInto.offset_eq` — line and column determine the byte
* `Text.IsBoundary.exists_pointsInto` — the position of a boundary points into the text
* `isBoundary_of_parse_eq_error` — the parser finds fault at boundaries
* `Position.locate_pointsInto` — reports point exactly at what they are about
-/
import ContractBasic.Proofs.Text.Lines
import ContractBasic.Proofs.Token.Fault
import ContractBasic.Proofs.ViablePrefix

namespace ContractBasic

/-! ### Positions and bytes -/

/-- Whether a position points into a text, on this line of it: the line is the one of its number between
the line feeds, it has all the characters before the column, and the offset counts the bytes of the lines
above, of their line feeds and of these characters. -/
structure Position.PointsInto (p : Position) (source line : List Char) : Prop where
  column_pos : 1 ≤ p.column
  column_le : p.column - 1 ≤ line.length
  exists_lines : ∃ above below, source.splitOn '\n' = above ++ line :: below ∧
    p.line = above.length + 1 ∧
    p.offset = (above.map fun l => Text.byteSize l + 1).sum +
      Text.byteSize (line.take (p.column - 1))

/-- Line and column determine the byte. -/
theorem Position.PointsInto.offset_eq {p q : Position} {source line line' : List Char}
    (hp : p.PointsInto source line) (hq : q.PointsInto source line') (hline : p.line = q.line)
    (hcolumn : p.column = q.column) : p.offset = q.offset := by
  obtain ⟨-, -, above, below, hlines, hnumber, hoffset⟩ := hp
  obtain ⟨-, -, above', below', hlines', hnumber', hoffset'⟩ := hq
  have hlength : above.length = above'.length := by omega
  -- the same number of lines stands above, so these are the same and so is the line behind them
  obtain ⟨rfl, hrest⟩ := List.append_inj (hlines.symm.trans hlines') hlength
  obtain ⟨rfl, -⟩ := List.cons.inj hrest
  rw [hoffset, hoffset', hcolumn]

/-- A place has a position that points into its text, on its line. -/
theorem Text.Place.pointsInto (p : Text.Place) :
    Position.PointsInto ⟨p.offset, p.above.length + 1, p.left.length + 1⟩ p.source p.line := by
  obtain ⟨below, hlines⟩ := p.splitOn_source
  have hlength : p.line.length = p.left.length + p.right.length := List.length_append
  exact {
    column_pos := Nat.le_add_left 1 _
    column_le := by
      dsimp only
      omega
    exists_lines := ⟨p.above, below, hlines, rfl, p.offset_eq⟩ }

/-- A boundary of a text is found with all checks, and its position points into the text, on the line
around it. -/
theorem Text.IsBoundary.exists_pointsInto {source : List Char} {offset : Nat}
    (h : Text.IsBoundary source offset) : ∃ line,
      Position.locate? source offset = some (.locate source offset) ∧
      (Position.locate source offset).offset = offset ∧
      (Position.locate source offset).PointsInto source line ∧
      Text.lineAt? source offset = some line ∧ Text.lineAt offset source = line := by
  obtain ⟨p, rfl, rfl⟩ := Text.exists_place h
  rw [p.locate_source]
  exact ⟨p.line, p.locate?_source, rfl, p.pointsInto, p.lineAt?_source, p.lineAt_source⟩

/-! ### Faults of the parser -/

/-- The parser finds fault at boundaries of the text, its end included. -/
theorem isBoundary_of_parse_eq_error {source : List Char} {f : Placed ParseFault}
    (h : parse source = .error f) : Text.IsBoundary source f.offset := by
  cases hlex : (lex source).fault with
  | none =>
    -- what does not fit is a token, or the end of the text
    obtain ⟨tokens, found, later, s, hmarks, -⟩ := (parse_eq_error_iff hlex).mp h
    obtain ⟨before, after, hsource, -, hoffset, -⟩ := exists_cutBefore_of_marks hlex hmarks
    exact ⟨before, after, hsource, hoffset⟩
  | some fault =>
    -- the fault of the lexer comes first
    obtain ⟨before, c, cs, hsource, -, hoffset, -⟩ := exists_cutBefore_of_fault hlex
    refine ⟨before, c :: cs, hsource, ?_⟩
    unfold parse at h
    split at h
    · rename_i hread
      rw [hread] at hlex
      cases hlex
      cases h
      exact hoffset
    · rename_i hread
      rw [hread] at hlex
      cases hlex

/-! ### Reports -/

/-- The report about a place with the line around it. -/
theorem Error.render_grammar {p : Position} {source line : List Char}
    (h : Text.lineAt p.offset source = line) (complaint : Complaint) :
    (grammar p complaint).render source = "Error: " ++ (grammar p complaint).message ++
      "\n --> line " ++ Text.decimal p.line ++ ", col " ++ Text.decimal p.column ++ "\n   |\n" ++
      Text.padded p.line ++ "| " ++ String.ofList line ++ "\n   | " ++
      (String.ofList (List.replicate (p.column - 1) ' ') ++ "^") := by
  rw [← h]
  rfl

/-- **Reports point exactly at what they are about.**  At every boundary of a text the position points
into the text, and the report shows its line and a caret behind as many spaces as there are characters
before it; other boundaries have another line or another column.  What the parser finds fault with stands
at a boundary.  At boundaries all parts of the text that are needed for the position and for the report
can be taken. -/
theorem Position.locate_pointsInto (source : String) :
    (∀ offset, Text.IsBoundary source.toList offset → ∃ p line,
      locate? source.toList offset = some p ∧ locate source.toList offset = p ∧ p.offset = offset ∧
      p.PointsInto source.toList line ∧
      Text.lineAt? source.toList p.offset = some line ∧
      ∀ complaint, (Error.grammar p complaint).render source.toList
        = "Error: " ++ (Error.grammar p complaint).message ++
          "\n --> line " ++ Text.decimal p.line ++ ", col " ++ Text.decimal p.column ++ "\n   |\n" ++
          Text.padded p.line ++ "| " ++ String.ofList line ++ "\n   | " ++
          (String.ofList (List.replicate (p.column - 1) ' ') ++ "^")) ∧
    (∀ offset offset', Text.IsBoundary source.toList offset →
      Text.IsBoundary source.toList offset' →
      (locate source.toList offset).line = (locate source.toList offset').line →
      (locate source.toList offset).column = (locate source.toList offset').column →
        offset = offset') ∧
    ∀ p complaint, ParseTree.ofSource source = .error (.grammar p complaint) →
      ∃ f line, parse source.toList = .error f ∧ complaint = .fault f.item ∧ f.offset = p.offset ∧
        Text.IsBoundary source.toList f.offset ∧ f.offset ≤ Text.byteSize source.toList ∧
        locate? source.toList f.offset = some p ∧
        Text.lineAt? source.toList p.offset = some line ∧
        Text.lineAt p.offset source.toList = line := by
  refine ⟨?_, ?_, ?_⟩
  · intro offset hoffset
    obtain ⟨line, hlocate, hsame, hpoints, hline, hplain⟩ := hoffset.exists_pointsInto
    generalize locate source.toList offset = p at *
    obtain rfl := hsame
    exact ⟨p, line, hlocate, rfl, rfl, hpoints, hline, Error.render_grammar hplain⟩
  · intro offset offset' hoffset hoffset' hline hcolumn
    obtain ⟨_, -, hsame, hpoints, -⟩ := hoffset.exists_pointsInto
    obtain ⟨_, -, hsame', hpoints', -⟩ := hoffset'.exists_pointsInto
    rw [← hsame, ← hsame']
    exact hpoints.offset_eq hpoints' hline hcolumn
  · -- the parser complains at a mark, and marks stand at boundaries
    intro p complaint herror
    obtain ⟨f, hparse, rfl, rfl⟩ := exists_parse_of_ofSource_error herror
    have hboundary := isBoundary_of_parse_eq_error hparse
    obtain ⟨line, hlocate, hsame, -, hline, hplain⟩ := hboundary.exists_pointsInto
    rw [hsame]
    exact ⟨f, line, hparse, rfl, rfl, hboundary, hboundary.le, hlocate, hline, hplain⟩

/-- A character that starts no token, behind a letter of two bytes. -/
def strayMark : String := "Function F() Uint64\n10 RETURN \"é\" ?\nEnd Function"

theorem Position.locate_pointsInto_strayMark :
    (∃ p line, locate? strayMark.toList 35 = some p ∧ locate strayMark.toList 35 = p ∧
      p.offset = 35 ∧ p.PointsInto strayMark.toList line ∧
      Text.lineAt? strayMark.toList p.offset = some line ∧
      ∀ complaint, (Error.grammar p complaint).render strayMark.toList
        = "Error: " ++ (Error.grammar p complaint).message ++
          "\n --> line " ++ Text.decimal p.line ++ ", col " ++ Text.decimal p.column ++ "\n   |\n" ++
          Text.padded p.line ++ "| " ++ String.ofList line ++ "\n   | " ++
          (String.ofList (List.replicate (p.column - 1) ' ') ++ "^")) ∧
    ¬((locate strayMark.toList 35).line = (locate strayMark.toList 0).line ∧
      (locate strayMark.toList 35).column = (locate strayMark.toList 0).column) ∧
    ParseTree.ofSource strayMark
      = .error (.grammar ⟨35, 2, 15⟩ (.fault (.lexical (.unexpected '?')))) ∧
    ∃ f line, parse strayMark.toList = .error f ∧
      Complaint.fault (.lexical (.unexpected '?')) = .fault f.item ∧ f.offset = 35 ∧
      Text.IsBoundary strayMark.toList f.offset ∧ f.offset ≤ Text.byteSize strayMark.toList ∧
      locate? strayMark.toList f.offset = some ⟨35, 2, 15⟩ ∧
      Text.lineAt? strayMark.toList 35 = some line ∧ Text.lineAt 35 strayMark.toList = line := by
  have hstart : Text.IsBoundary strayMark.toList 0 := ⟨[], strayMark.toList, rfl, rfl⟩
  have hmark : Text.IsBoundary strayMark.toList 35 :=
    ⟨strayMark.toList.take 34, strayMark.toList.drop 34, (List.take_append_drop ..).symm,
      by decide +kernel⟩
  have herror : ParseTree.ofSource strayMark
      = .error (.grammar ⟨35, 2, 15⟩ (.fault (.lexical (.unexpected '?')))) :=
    ParseTree.ofSource_eq_error_iff.mpr (by decide +kernel)
  obtain ⟨hpoints, hdistinct, hfault⟩ := locate_pointsInto strayMark
  refine ⟨hpoints 35 hmark, ?_, herror, hfault _ _ herror⟩
  rintro ⟨hline, hcolumn⟩
  exact absurd (hdistinct 35 0 hmark hstart hline hcolumn) (by decide)

end ContractBasic
