import SymbolRename.Identifier
import Mathlib.Data.List.TakeWhile

/-!
# Texts that differ in words

Two texts can be the same up to their first word, and then any words may follow. A mark
that has no identifier byte stands at the beginning of both or of neither. Texts that also
share their first word agree up to the next one.
-/

namespace SymbolRename

/-- A run ends where a byte or a character stands that cannot go on with it. -/
theorem takeWhile_append_of_head {α : Type} {p : α → Bool} {u rest : List α}
    (hu : ∀ x ∈ u, p x = true) (hend : rest.head?.any p = false) :
    (u ++ rest).takeWhile p = u := by
  rw [List.takeWhile_append_of_pos hu]
  cases rest with
  | nil => simp
  | cons x rest =>
    have hx : p x = false := by simpa using hend
    simp [hx]

/-- A mark of comments or literals: not empty, no byte of a word, no line feed. -/
def Bytes.IsMark (mark : Bytes) : Prop :=
  mark ≠ [] ∧ ∀ b ∈ mark, isIdentifierByte b = false ∧ b ≠ Bytes.newline

instance (mark : Bytes) : Decidable mark.IsMark :=
  @instDecidableAnd _ _ _ (List.decidableBAll _ mark)

/-- A word of a text: identifier bytes, at least one. -/
def Bytes.IsWord (w : Bytes) : Prop := w ≠ [] ∧ ∀ b ∈ w, isIdentifierByte b = true

theorem ne_of_isIdentifierByte {b x : UInt8} (hb : isIdentifierByte b = true)
    (hx : isIdentifierByte x = false) : b ≠ x := by
  rintro rfl
  rw [hb] at hx
  cases hx

theorem Bytes.isWord_of_isValidIdentifier {name : String} (h : isValidIdentifier name = true) :
    (bytes name).IsWord := by
  refine ⟨fun hnil => ?_, all_isIdentifierByte h⟩
  rw [isValidIdentifier, hnil] at h
  cases h

/-- The same bytes up to the first word, which begins in both texts or in neither. -/
inductive Bytes.SameToWord : Bytes → Bytes → Prop
  | nil : SameToWord [] []
  | word {x y : UInt8} (a b : Bytes) (hx : isIdentifierByte x = true)
      (hy : isIdentifierByte y = true) : SameToWord (x :: a) (y :: b)
  | other {x : UInt8} {a b : Bytes} (hx : isIdentifierByte x = false) (h : SameToWord a b) :
      SameToWord (x :: a) (x :: b)

/-- The same word at the beginning, if one is there, and the same bytes from it to the
next word. -/
inductive Bytes.SamePastWord : Bytes → Bytes → Prop
  | other {a b : Bytes} (h : SameToWord a b) (hhead : a.head?.any isIdentifierByte = false) :
      SamePastWord a b
  | word {x : UInt8} {a b : Bytes} (hx : isIdentifierByte x = true) (h : SamePastWord a b) :
      SamePastWord (x :: a) (x :: b)

/-- Bytes in front of both texts change nothing. -/
theorem Bytes.SameToWord.append {a b : Bytes} (h : SameToWord a b) (front : Bytes) :
    SameToWord (front ++ a) (front ++ b) := by
  induction front with
  | nil => exact h
  | cons x front ih =>
    cases hx : isIdentifierByte x with
    | false => exact .other hx ih
    | true => exact .word _ _ hx hx

/-- A word begins both texts or neither. -/
theorem Bytes.SameToWord.head {a b : Bytes} (h : SameToWord a b) :
    a.head?.any isIdentifierByte = b.head?.any isIdentifierByte := by
  cases h with
  | nil => rfl
  | word a b hx hy => simp [hx, hy]
  | other hx h => simp [hx]

/-- A byte that belongs to no word begins both texts or neither. -/
theorem Bytes.SameToWord.head_eq_iff {a b : Bytes} (h : SameToWord a b) {x : UInt8}
    (hx : isIdentifierByte x = false) : a.head? = some x ↔ b.head? = some x := by
  cases h with
  | nil => rfl
  | word a b ha hb =>
    simp only [List.head?_cons, Option.some.injEq]
    constructor
    · rintro rfl
      rw [hx] at ha
      cases ha
    · rintro rfl
      rw [hx] at hb
      cases hb
  | other => rfl

/-- Bytes that belong to no word begin both texts or neither. -/
theorem Bytes.SameToWord.startsWith_eq {a b : Bytes} (h : SameToWord a b) {mark : Bytes}
    (hmark : ∀ x ∈ mark, isIdentifierByte x = false) :
    Bytes.startsWith a mark = Bytes.startsWith b mark := by
  induction mark generalizing a b with
  | nil => simp
  | cons x mark ih =>
    have hx := hmark x List.mem_cons_self
    cases h with
    | nil => rfl
    | @word y z a b hy hz =>
      have hne : ∀ c, isIdentifierByte c = true → (x == c) = false := by
        intro c hc
        refine beq_eq_false_iff_ne.mpr ?_
        rintro rfl
        rw [hx] at hc
        cases hc
      simp [Bytes.startsWith, List.isPrefixOf, hne y hy, hne z hz]
    | other _ h =>
      have hrest := ih h fun y hy => hmark y (List.mem_cons_of_mem _ hy)
      simp only [Bytes.startsWith, List.isPrefixOf] at hrest ⊢
      rw [hrest]

/-- Texts with the same first word are the same up to it. -/
theorem Bytes.SamePastWord.sameToWord {a b : Bytes} (h : SamePastWord a b) : SameToWord a b := by
  cases h with
  | other h _ => exact h
  | word hx _ => exact .word _ _ hx hx

theorem Bytes.SamePastWord.takeWhile_eq {a b : Bytes} (h : SamePastWord a b) :
    a.takeWhile isIdentifierByte = b.takeWhile isIdentifierByte := by
  induction h with
  | other h hhead =>
    cases h with
    | nil => rfl
    | word a b hx hy => simp [hx] at hhead
    | other hx h => simp [hx]
  | word hx _ ih => simp [hx, ih]

/-- What follows the first word is the same up to the next word. -/
theorem Bytes.SamePastWord.drop {a b : Bytes} (h : SamePastWord a b) :
    SameToWord (a.drop (a.takeWhile isIdentifierByte).length)
      (b.drop (a.takeWhile isIdentifierByte).length) := by
  induction h with
  | other h hhead =>
    cases h with
    | nil => exact .nil
    | word a b hx hy => simp [hx] at hhead
    | other hx h => simpa [hx] using SameToWord.other hx h
  | word hx _ ih => simpa [hx] using ih

theorem Bytes.SamePastWord.append {a b : Bytes} (h : SamePastWord a b) {front : Bytes}
    (hfront : ∀ x ∈ front, isIdentifierByte x = true) :
    SamePastWord (front ++ a) (front ++ b) := by
  induction front with
  | nil => exact h
  | cons x front ih =>
    exact .word (hfront x List.mem_cons_self) (ih fun y hy => hfront y (List.mem_cons_of_mem _ hy))

/-- One byte of a word before a mark stands at the beginning of both texts or of neither. -/
theorem Bytes.SamePastWord.startsWith_cons_eq {a b : Bytes} (h : SamePastWord a b) {x : UInt8}
    {mark : Bytes} (hx : isIdentifierByte x = true)
    (hmark : ∀ y ∈ mark, isIdentifierByte y = false) :
    Bytes.startsWith a (x :: mark) = Bytes.startsWith b (x :: mark) := by
  cases h with
  | other h hhead =>
    cases h with
    | nil => rfl
    | word a b hy _ => simp [hy] at hhead
    | @other y a b hy h =>
      have hne : (x == y) = false := by
        refine beq_eq_false_iff_ne.mpr ?_
        rintro rfl
        rw [hx] at hy
        cases hy
      simp [Bytes.startsWith, List.isPrefixOf, hne]
  | word _ h =>
    have hrest := h.sameToWord.startsWith_eq hmark
    simp only [Bytes.startsWith, List.isPrefixOf] at hrest ⊢
    rw [hrest]

end SymbolRename
