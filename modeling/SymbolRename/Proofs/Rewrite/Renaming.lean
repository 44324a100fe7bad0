import SymbolRename.Proofs.Lexer.WholeWords
import SymbolRename.Proofs.Rewrite.Splice
import Mathlib.Logic.Relation

/-!
# The words of a renamed content

The whole words of a content are its words of code and those in the rest of it. Replacing a
word of code by another leaves the rest as it is, so a word that is gone from the rest is gone
from the content when it is replaced. When both words are neutral in the language of the file,
the rest of the renamed content is the same also when the lexer reads it again.
-/

namespace SymbolRename

/-- The content of a file of this path without its words of code. -/
def Path.outside (path : Path) (content : Bytes) : Bytes := Lexer.outside (path.tokens content)

/-- The whole words of a content are its words of code and those of the rest. -/
theorem Path.mem_words_iff (path : Path) {content w : Bytes} :
    w ∈ Bytes.words content ↔
      w ∈ Lexer.codes (path.tokens content) ∨ w ∈ Bytes.words (path.outside content) := by
  have hwords := @Lexer.Cut.mem_words_append _ _ (path.cut_tokens content) [] nofun w
  rwa [List.nil_append, List.nil_append, path.textOf_tokens] at hwords

section

variable {path : Path} {old new : Bytes}

theorem Bytes.mapsWords_replaceWord (hnew : new.IsWord) : MapsWords (replaceWord old new) := by
  intro w hw
  unfold replaceWord
  split
  · exact hnew
  · exact hw

/-- The whole words of a renamed content. -/
theorem Path.mem_words_rename_iff (hnew : new.IsWord) {content w : Bytes} :
    w ∈ Bytes.words (path.rename old new content) ↔
      w ∈ (Lexer.codes (path.tokens content)).map (Bytes.replaceWord old new) ∨
        w ∈ Bytes.words (path.outside content) := by
  have hcut := @Lexer.Cut.map _ (@Bytes.mapsWords_replaceWord old new hnew) [] [] _
    (path.cut_tokens content) rfl
  have hwords := @Lexer.Cut.mem_words_append _ _ hcut [] nofun w
  rwa [List.nil_append, List.nil_append, Lexer.codes_map, Lexer.outside_map] at hwords

/-- A content without the old name as a word of code stays. -/
theorem Path.rename_eq_self (path : Path) {old content : Bytes} (new : Bytes)
    (h : old ∉ Lexer.codes (path.tokens content)) : path.rename old new content = content := by
  have hkept : ∀ p ∈ path.tokens content, p.map (Bytes.replaceWord old new) = p := by
    intro p hp
    unfold Lexer.Piece.map
    split
    · rename_i hcode
      have hne : p.text ≠ old := fun heq =>
        h (heq ▸ List.mem_map_of_mem (List.mem_filter.mpr ⟨hp, hcode⟩))
      rw [Bytes.replaceWord, if_neg hne]
    · rfl
  rw [rename, List.map_congr_left hkept, List.map_id', path.textOf_tokens]

/-- Renaming brings in no whole word but the new name. -/
theorem Path.mem_words_of_mem_rename (hnew : new.IsWord) {content w : Bytes}
    (h : w ∈ Bytes.words (path.rename old new content)) : w ∈ Bytes.words content ∨ w = new := by
  rw [path.mem_words_iff]
  rcases (mem_words_rename_iff hnew).mp h with h | h
  · obtain ⟨v, hv, rfl⟩ := List.mem_map.mp h
    unfold Bytes.replaceWord
    split
    · exact .inr rfl
    · exact .inl (.inl hv)
  · exact .inl (.inr h)

/-- What is left of the old name stands outside of code. -/
theorem Path.mem_outside_of_mem_rename (hnew : new.IsWord) (hne : old ≠ new) {content : Bytes}
    (h : old ∈ Bytes.words (path.rename old new content)) :
    old ∈ Bytes.words (path.outside content) := by
  refine ((mem_words_rename_iff hnew).mp h).resolve_left fun hmem => ?_
  obtain ⟨w, _, heq⟩ := List.mem_map.mp hmem
  unfold Bytes.replaceWord at heq
  split at heq
  · exact hne heq.symm
  · exact absurd heq ‹_›

/-- Replacing neutral words by words leaves the rest of a content as it is. -/
theorem Path.outside_rename (hnew : new.IsWord)
    (hneutral : ∀ w ∈ [old, new], (Language.ofPath path).syntactics.IsNeutral w) (content : Bytes) :
    path.outside (path.rename old new content) = path.outside content := by
  have hadmits : (Language.ofPath path).syntactics.Admits (Bytes.replaceWord old new) := by
    refine ⟨Bytes.mapsWords_replaceWord hnew, fun w => ?_⟩
    unfold Bytes.replaceWord
    split
    · rename_i hw
      exact .inr ⟨hw ▸ hneutral old (by simp), hneutral new (by simp)⟩
    · exact .inl rfl
  have htokens : path.tokens (path.rename old new content) =
      (path.tokens content).map (Lexer.Piece.map (Bytes.replaceWord old new)) :=
    Lexer.tokens_start_map (Language.regular_syntactics _) hadmits content
  rw [outside, htokens, Lexer.outside_map]
  rfl

/-! ### Renaming over and over -/

/-- One content is the other one renamed. -/
def Path.Renames (path : Path) (old new c c' : Bytes) : Prop := c' = path.rename old new c

open Relation in
theorem Path.mem_words_of_renames (hnew : new.IsWord) {c c' : Bytes}
    (h : ReflTransGen (path.Renames old new) c c') {w : Bytes} (hw : w ∈ Bytes.words c') :
    w ∈ Bytes.words c ∨ w = new := by
  induction h with
  | refl => exact .inl hw
  | tail _ hlast ih =>
    rw [hlast] at hw
    exact (mem_words_of_mem_rename hnew hw).elim ih .inr

open Relation in
theorem Path.outside_of_renames (hnew : new.IsWord)
    (hneutral : ∀ w ∈ [old, new], (Language.ofPath path).syntactics.IsNeutral w) {c c' : Bytes}
    (h : ReflTransGen (path.Renames old new) c c') : path.outside c' = path.outside c := by
  induction h with
  | refl => rfl
  | tail _ hlast ih => rw [hlast, outside_rename hnew hneutral, ih]

open Relation in
/-- What is left of the old name after renaming at least once stood outside of code before. -/
theorem Path.mem_outside_of_renames (hnew : new.IsWord) (hne : old ≠ new) {c c' : Bytes}
    (h : TransGen (path.Renames old new) c c') (hmem : old ∈ Bytes.words c') :
    old ∈ Bytes.words (path.outside c) := by
  obtain ⟨b, hfirst, hrest⟩ := TransGen.head'_iff.mp h
  have hbefore := (mem_words_of_renames hnew hrest hmem).resolve_right hne
  rw [hfirst] at hbefore
  exact mem_outside_of_mem_rename hnew hne hbefore

end

end SymbolRename
