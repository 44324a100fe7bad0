import SymbolRename.Proofs.Dialect.RoundTrip

/-!
# Rows that cannot be counted

Rows are counted from zero and lines from one, so the last row that can be read has no line. A line
with such a row is the only one that a dialect cannot answer, and the only reason why an output has
no captures (`Dialect.parse_fails_only_at_limit`): every other line holds no capture or one whose
line is its row plus one.
-/

namespace SymbolRename

/-- The last number that can be read. -/
def Count.last : Nat := limit - 1

/-- What is read can be counted. -/
theorem Count.le_last_of_read? {cs : List Char} {n : Nat} (h : read? cs = some n) : n ≤ last := by
  have hlt : n < limit := by
    unfold read? at h
    extract_lets digits at h
    by_cases hempty : digits.isEmpty = true
    · rw [if_pos hempty] at h
      cases h
    · rw [if_neg hempty] at h
      simpa using (Option.filter_eq_some_iff.mp h).2
  exact Nat.le_sub_one_of_lt hlt

/-- Only behind the last number there is none. -/
theorem Count.add?_one {n : Nat} (h : n ≤ last) :
    add? n 1 = if n = last then none else some (n + 1) := by
  have hpos : 0 < limit := Nat.pow_pos (by decide)
  unfold add?
  unfold last at h ⊢
  by_cases hn : n = limit - 1
  · rw [if_pos hn, if_neg (by omega)]
  · rw [if_neg hn, if_pos (by omega)]

namespace Dialect

variable {d : Dialect} {f : Fields} {line : List Char} {file : Path} {cause : Cause}

/-! ### One line -/

/-- The fields describe a capture: a known kind, a row and a column that are read, and a text. -/
structure Fields.Describe (f : Fields) (kind : CaptureKind) (row column : Nat) : Prop where
  kind : CaptureKind.ofName? (String.ofList f.kind) = some kind
  row : Count.read? f.row = some row
  column : Count.read? f.column = some column
  text : unquote f.text ≠ []

/-- A capture is described on the line, in the last row. -/
def AtLimit (d : Dialect) (line : List Char) : Prop :=
  ∃ f kind column, d.fields? line = some f ∧ f.Describe kind Count.last column

/-- What fields describe becomes a capture, unless its row is the last one. -/
theorem build_of_describe {kind : CaptureKind} {row column : Nat} (h : f.Describe kind row column) :
    build f file = if row = Count.last then .error .overflow
      else .ok (some ⟨kind, ⟨file, row + 1, column⟩, String.ofList (unquote f.text)⟩) := by
  have htext : (unquote f.text).isEmpty = false := by simpa using h.text
  unfold build
  simp only [h.kind, h.row, h.column, htext, Bool.false_eq_true, if_false,
    Count.add?_one (Count.le_last_of_read? h.row)]
  by_cases hlast : row = Count.last
  · simp only [if_pos hlast]
  · simp only [if_neg hlast]

/-- Fields become no capture, or describe one. -/
theorem build_eq_none_or_describe (f : Fields) (file : Path) :
    build f file = .ok none ∨ ∃ kind row column, f.Describe kind row column := by
  unfold build
  cases hkind : CaptureKind.ofName? (String.ofList f.kind) with
  | none => exact .inl rfl
  | some kind =>
    cases hrow : Count.read? f.row with
    | none => exact .inl rfl
    | some row =>
      cases hcolumn : Count.read? f.column with
      | none => exact .inl rfl
      | some column =>
        by_cases htext : unquote f.text = []
        · exact .inl (by simp [htext])
        · exact .inr ⟨kind, row, column, hkind, hrow, hcolumn, htext⟩

theorem parseLine_of_fields (h : d.fields? line = some f) : d.parseLine line file = build f file := by
  rw [parseLine, h]

/-- A line cannot be answered exactly when it describes a capture in the last row. -/
theorem parseLine_eq_error_iff :
    d.parseLine line file = .error cause ↔ cause = .overflow ∧ d.AtLimit line := by
  cases hfields : d.fields? line with
  | none => simp [AtLimit, hfields, parseLine_eq_none hfields]
  | some f =>
    rw [parseLine_of_fields hfields]
    constructor
    · intro hbuild
      rcases build_eq_none_or_describe f file with hnone | ⟨kind, row, column, h⟩
      · rw [hnone] at hbuild
        cases hbuild
      · rw [build_of_describe h] at hbuild
        split at hbuild
        · rename_i hlast
          cases hbuild
          exact ⟨rfl, f, kind, column, hfields, hlast ▸ h⟩
        · cases hbuild
    · rintro ⟨rfl, other, kind, column, hother, h⟩
      obtain rfl := Option.some.inj (hfields.symm.trans hother)
      exact (build_of_describe h).trans (if_pos rfl)

/-- A capture on a line is the one that its fields describe. -/
theorem describe_of_parseLine {c : Capture} (h : d.parseLine line file = .ok (some c)) :
    ∃ f row, d.fields? line = some f ∧ f.Describe c.kind row c.location.column ∧
      c.location.line = row + 1 ∧ c.text = String.ofList (unquote f.text) := by
  cases hfields : d.fields? line with
  | none =>
    rw [parseLine_eq_none hfields] at h
    cases h
  | some f =>
    rw [parseLine_of_fields hfields] at h
    rcases build_eq_none_or_describe f file with hnone | ⟨kind, row, column, hdescribe⟩
    · rw [hnone] at h
      cases h
    · rw [build_of_describe hdescribe] at h
      split at h
      · cases h
      · cases h
        exact ⟨f, row, rfl, hdescribe, rfl, rfl⟩

/-- A capture names something, and its line is at least one. -/
theorem solid_of_parseLine {c : Capture} (h : d.parseLine line file = .ok (some c)) :
    c.text ≠ "" ∧ 1 ≤ c.location.line := by
  obtain ⟨f, row, -, hdescribe, hline, htext⟩ := describe_of_parseLine h
  refine ⟨?_, by omega⟩
  rw [htext]
  exact fun hempty => hdescribe.text (String.ofList_eq_empty_iff.mp hempty)

/-! ### A whole output -/

/-- A dialect reads all lines of an output or fails at one of them. -/
theorem exists_of_parseLines_error {lines : List (List Char)}
    (h : d.parseLines file lines = .error cause) :
    ∃ line ∈ lines, d.parseLine line file = .error cause := by
  unfold parseLines at h
  cases hlines : lines.mapM (d.parseLine · file) with
  | error other =>
    rw [hlines] at h
    cases h
    exact exists_mapM_error hlines
  | ok found =>
    rw [hlines] at h
    cases h

theorem of_parseLines_ok {lines : List (List Char)} {captures : List Capture}
    (h : d.parseLines file lines = .ok captures) :
    (∀ line ∈ lines, ∃ found, d.parseLine line file = .ok found) ∧
      ∀ c ∈ captures, ∃ line ∈ lines, d.parseLine line file = .ok (some c) := by
  obtain ⟨found, hfound, hcaptures⟩ := bind_eq_ok_iff.mp h
  cases hcaptures
  obtain ⟨hall, hfrom⟩ := of_mapM_ok hfound
  refine ⟨hall, fun c hc => ?_⟩
  obtain ⟨result, hresult, heq⟩ := List.mem_filterMap.mp hc
  obtain ⟨line, hline, hread⟩ := hfrom result hresult
  exact ⟨line, hline, hread.trans (congrArg _ heq)⟩

theorem mem_all (d : Dialect) : d ∈ all := by
  cases d <;> decide

/-- To find the dialect of an output, all dialects read all its lines. -/
theorem detect_eq_error {output : String} (h : detect output file = .error cause) :
    ∃ e : Dialect, ∃ line ∈ Text.lines output.toList, e.parseLine line file = .error cause := by
  unfold detect at h
  cases hcounts : counts output file with
  | ok found =>
    rw [hcounts] at h
    cases h
  | error other =>
    rw [hcounts] at h
    cases h
    obtain ⟨e, -, hfail⟩ := exists_mapM_error hcounts
    cases hlines : e.parseLines file (Text.lines output.toList) with
    | error other =>
      rw [hlines] at hfail
      cases hfail
      exact ⟨e, exists_of_parseLines_error hlines⟩
    | ok captures =>
      rw [hlines] at hfail
      cases hfail

theorem exists_parseLines_of_detect {output : String} {found : Option Dialect}
    (h : detect output file = .ok found) (d : Dialect) :
    ∃ captures, d.parseLines file (Text.lines output.toList) = .ok captures := by
  obtain ⟨results, hresults, -⟩ := bind_eq_ok_iff.mp h
  obtain ⟨count, hcount⟩ := (of_mapM_ok hresults).1 d (mem_all d)
  obtain ⟨captures, hcaptures, -⟩ := bind_eq_ok_iff.mp hcount
  exact ⟨captures, hcaptures⟩

/-- An output has no captures exactly when some dialect cannot answer one of its lines. -/
theorem parseCaptures_eq_error_iff {output : String} :
    parseCaptures output file = .error cause ↔
      cause = .overflow ∧ ∃ e : Dialect, ∃ line ∈ Text.lines output.toList, e.AtLimit line := by
  unfold parseCaptures
  cases hdetect : detect output file with
  | error other =>
    obtain ⟨e, line, hline, hfail⟩ := detect_eq_error hdetect
    obtain ⟨rfl, hlimit⟩ := parseLine_eq_error_iff.mp hfail
    constructor
    · intro h
      cases h
      exact ⟨rfl, e, line, hline, hlimit⟩
    · rintro ⟨rfl, -⟩
      rfl
  | ok found =>
    have hread := exists_parseLines_of_detect hdetect
    constructor
    · intro h
      cases found with
      | none => cases h
      | some d =>
        obtain ⟨captures, hcaptures⟩ := hread d
        simp only [bind, Except.bind, hcaptures] at h
        cases h
    · rintro ⟨-, e, line, hline, hlimit⟩
      obtain ⟨captures, hcaptures⟩ := hread e
      obtain ⟨result, hresult⟩ := (of_parseLines_ok hcaptures).1 line hline
      rw [parseLine_eq_error_iff.mpr ⟨rfl, hlimit⟩] at hresult
      cases hresult

/-- The captures of an output stand on its lines. -/
theorem exists_line_of_parseCaptures {output : String} {captures : List Capture}
    (h : parseCaptures output file = .ok captures) {c : Capture} (hc : c ∈ captures) :
    ∃ d : Dialect, ∃ line ∈ Text.lines output.toList, d.parseLine line file = .ok (some c) := by
  obtain ⟨found, -, h⟩ := bind_eq_ok_iff.mp h
  cases found with
  | none =>
    cases h
    exact absurd hc List.not_mem_nil
  | some d =>
    obtain ⟨read, hread, h⟩ := bind_eq_ok_iff.mp h
    cases h
    have hmem := (stablySorted_sortByPosition read).perm.mem_iff.mp hc
    exact ⟨d, (of_parseLines_ok hread).2 c hmem⟩

/-- A line is fatal exactly when it describes a capture in the last row that can be read, and an
output exactly when it has such a line in some dialect; every capture that is found has a text, the
line after its row and the column that is written. -/
theorem parse_fails_only_at_limit (d : Dialect) (line : List Char) (output : String) (file : Path) :
    (∀ cause, d.parseLine line file = .error cause ↔ cause = .overflow ∧ d.AtLimit line) ∧
      (∀ c, d.parseLine line file = .ok (some c) → c.text ≠ "" ∧ ∃ f row,
        d.fields? line = some f ∧ Count.read? f.row = some row ∧ c.location.line = row + 1 ∧
          Count.read? f.column = some c.location.column) ∧
      (∀ cause, parseCaptures output file = .error cause ↔
        cause = .overflow ∧ ∃ e : Dialect, ∃ line ∈ Text.lines output.toList, e.AtLimit line) ∧
      ∀ captures, parseCaptures output file = .ok captures →
        ∀ c ∈ captures, c.text ≠ "" ∧ 1 ≤ c.location.line := by
  refine ⟨fun _ => parseLine_eq_error_iff, fun c hc => ?_, fun _ => parseCaptures_eq_error_iff,
    fun captures h c hc => ?_⟩
  · obtain ⟨f, row, hfields, hdescribe, hline, -⟩ := describe_of_parseLine hc
    exact ⟨(solid_of_parseLine hc).1, f, row, hfields, hdescribe.row, hline, hdescribe.column⟩
  · obtain ⟨e, other, -, hread⟩ := exists_line_of_parseCaptures h hc
    exact solid_of_parseLine hread

/-- A line in row four, and an output of this line. -/
theorem parse_row_four :
    (∃ c, positional.parseLine "reference 4 0 4 1 x".toList ⟨"a.rs"⟩ = .ok (some c) ∧
      c.text ≠ "" ∧ c.location.line = 4 + 1) ∧
    ∃ captures, parseCaptures "reference 4 0 4 1 x" ⟨"a.rs"⟩ = .ok captures ∧
      ∀ c ∈ captures, c.text ≠ "" ∧ 1 ≤ c.location.line := by
  obtain ⟨-, hline, -, houtput⟩ := parse_fails_only_at_limit positional
    "reference 4 0 4 1 x".toList "reference 4 0 4 1 x" ⟨"a.rs"⟩
  have hread : positional.parseLine "reference 4 0 4 1 x".toList ⟨"a.rs"⟩ =
      .ok (some ⟨.reference, ⟨⟨"a.rs"⟩, 5, 0⟩, "x"⟩) := by decide +kernel
  have hall : parseCaptures "reference 4 0 4 1 x" ⟨"a.rs"⟩ =
      .ok [⟨.reference, ⟨⟨"a.rs"⟩, 5, 0⟩, "x"⟩] := by decide +kernel
  exact ⟨⟨_, hread, (hline _ hread).1, rfl⟩, _, hall, houtput _ hall⟩

/-- A line that describes a capture in the last row. -/
def lastRowLine : Dialect → String
  | positional => "reference 18446744073709551615 0 0 0 x"
  | atCapture => "@reference (18446744073709551615, 0) x"
  | keyValue => "capture: reference, text: `x`, row: 18446744073709551615, col: 0"

/-- The last row is fatal in every dialect, and one such line to a whole output. -/
theorem last_row_is_fatal :
    (∀ d : Dialect, d.parseLine d.lastRowLine.toList ⟨"a.rs"⟩ = .error .overflow) ∧
      parseCaptures "reference 4 0 4 1 x\nreference 18446744073709551615 0 0 0 x\n" ⟨"a.rs"⟩ =
        .error .overflow := by
  refine ⟨fun d => ?_, ?_⟩
  · cases d <;> decide +kernel
  · decide +kernel

end Dialect

end SymbolRename
