import SymbolRename.Proofs.Mapping.Lines
import Mathlib.Data.List.Forall2

/-!
# Pairs on the command line

Pairs are joined to a text with a line for each. When no string is JSON, the mappings of the list
are those that the strings hold by themselves, so there is one for each string exactly when every
string holds one (`Mapping.parsePairs_each`). Nothing looks at that: a string without a mapping is
passed over, one with a line feed may hold several, and a bracket changes how all are read.
-/

namespace SymbolRename.Mapping

/-- Lines with line feeds between them hold what each of them holds. -/
theorem holds_intercalate {texts : List (List Char)} {ms : List Mapping} :
    Holds (['\n'].intercalate texts) ms ↔
      ∃ parts, List.Forall₂ Holds texts parts ∧ ms = parts.flatten := by
  induction texts generalizing ms with
  | nil =>
    rw [List.intercalate_nil, holds_nil]
    simp
  | cons text rest ih =>
    by_cases hrest : rest = []
    · rw [hrest, List.intercalate_singleton]
      constructor
      · exact fun h => ⟨[ms], .cons h .nil, (List.append_nil ms).symm⟩
      · rintro ⟨_, hparts, rfl⟩
        obtain ⟨part, _, hpart, hnil, rfl⟩ := List.forall₂_cons_left_iff.mp hparts
        rw [List.forall₂_nil_left_iff.mp hnil, List.flatten_cons, List.flatten_nil,
          List.append_nil]
        exact hpart
    · rw [List.intercalate_cons_of_ne_nil hrest, List.append_assoc, List.singleton_append,
        holds_append]
      constructor
      · rintro ⟨xs, ys, hxs, hys, rfl⟩
        obtain ⟨parts, hparts, rfl⟩ := ih.mp hys
        exact ⟨xs :: parts, .cons hxs hparts, rfl⟩
      · rintro ⟨_, hparts, rfl⟩
        obtain ⟨xs, parts, hxs, hmore, rfl⟩ := List.forall₂_cons_left_iff.mp hparts
        exact ⟨xs, _, hxs, ih.mpr ⟨parts, hmore, rfl⟩, rfl⟩

/-- The first character that is no blank is in one of the texts. -/
theorem exists_find?_intercalate {texts : List (List Char)} {c : Char}
    (h : (['\n'].intercalate texts).find? (!Text.isBlank ·) = some c) :
    ∃ text ∈ texts, text.find? (!Text.isBlank ·) = some c := by
  induction texts with
  | nil => cases h
  | cons text rest ih =>
    by_cases hrest : rest = []
    · rw [hrest, List.intercalate_singleton] at h
      exact ⟨text, List.mem_cons_self, h⟩
    · rw [List.intercalate_cons_of_ne_nil hrest, List.append_assoc, List.find?_append] at h
      cases htext : text.find? (!Text.isBlank ·) with
      | some d =>
        rw [htext, Option.some_or] at h
        exact ⟨text, List.mem_cons_self, htext.trans h⟩
      | none =>
        rw [htext, Option.none_or, List.singleton_append, List.find?_cons_of_neg (by decide)] at h
        obtain ⟨other, hmem, hother⟩ := ih h
        exact ⟨other, List.mem_cons_of_mem text hmem, hother⟩

section

variable {pairs more : List String} {s : String} {m : Mapping} {ms ns : List Mapping}

/-- Strings that are no JSON make a text that is none. -/
theorem isJson_pairs (h : ∀ s ∈ pairs, isJson s = false) :
    isJson ("\n".intercalate pairs) = false := by
  rw [isJson_eq, String.toList_intercalate]
  cases hfirst : (['\n'].intercalate (pairs.map String.toList)).find? (!Text.isBlank ·) with
  | none => exact (congrArg _ hfirst).trans rfl
  | some c =>
    obtain ⟨_, hmem, htext⟩ := exists_find?_intercalate hfirst
    obtain ⟨s, hs, rfl⟩ := List.mem_map.mp hmem
    have hjson := h s hs
    rw [isJson_eq, htext] at hjson
    exact (congrArg _ hfirst).trans hjson

/-- What is read from strings that are no JSON is what each of them holds, one after the other. -/
theorem parsePairs_eq_ok_iff (h : ∀ s ∈ pairs, isJson s = false) :
    parsePairs pairs = .ok ms ↔ ms ≠ [] ∧ ∃ parts,
      List.Forall₂ (fun s part => Holds s.toList part) pairs parts ∧ ms = parts.flatten := by
  unfold parsePairs
  rw [parse_eq_ok_iff (isJson_pairs h), String.toList_intercalate]
  refine and_congr_right fun _ => holds_intercalate.trans ?_
  simp only [List.forall₂_map_left_iff]

theorem parsePairs_single_eq_ok_iff (h : isJson s = false) :
    parsePairs [s] = .ok [m] ↔ Holds s.toList [m] := by
  unfold parsePairs
  rw [String.intercalate_singleton, parse_eq_ok_iff h]
  simp

/-- The string holds one mapping, if its lines can be read. -/
def IsSingle (s : String) : Prop := ∀ found, Holds s.toList found → found.length = 1

theorem IsSingle.eq_singleton (h : IsSingle s) (hms : Holds s.toList ms) : ∃ m, ms = [m] :=
  List.length_eq_one_iff.mp (h ms hms)

theorem isSingle_of_holds (h : Holds s.toList [m]) : IsSingle s := fun found hfound => by
  obtain rfl := Except.ok.inj (h.symm.trans hfound)
  rfl

/-- Strings that each hold one mapping hold them together, in order. -/
theorem forall₂_holds_iff {parts : List (List Mapping)}
    (hparts : List.Forall₂ (fun s part => Holds s.toList part) pairs parts) :
    List.Forall₂ (fun s m => Holds s.toList [m]) pairs parts.flatten ↔ ∀ s ∈ pairs, IsSingle s := by
  constructor
  · intro h s hs
    obtain ⟨i, hi, rfl⟩ := List.getElem_of_mem hs
    have hlength := h.length_eq
    exact isSingle_of_holds (List.forall₂_iff_get.mp h |>.2 i hi (hlength ▸ hi))
  · intro h
    induction hparts with
    | nil => exact .nil
    | cons hpart _ ih =>
      obtain ⟨hsingle, hrest⟩ := List.forall_mem_cons.mp h
      obtain ⟨m, rfl⟩ := hsingle.eq_singleton hpart
      exact .cons hpart (ih hrest)

/-- Strings that are no JSON give one mapping each when they hold one each. -/
theorem forall₂_parsePairs_iff (h : ∀ s ∈ pairs, isJson s = false) :
    List.Forall₂ (fun s m => parsePairs [s] = .ok [m]) pairs ms ↔
      List.Forall₂ (fun s m => Holds s.toList [m]) pairs ms := by
  induction pairs generalizing ms with
  | nil => simp only [List.forall₂_nil_left_iff]
  | cons s rest ih =>
    obtain ⟨hs, hrest⟩ := List.forall_mem_cons.mp h
    simp only [List.forall₂_cons_left_iff, parsePairs_single_eq_ok_iff hs, ih hrest]

/-- When no string is JSON, an accepted list has one mapping for each string, in order and read from
this string alone, exactly when every string holds one; strings that are accepted alone with one
mapping each are accepted together; and two accepted lists one after the other are accepted, with
the mappings of both. -/
theorem parsePairs_each (pairs more : List String)
    (hlines : ∀ s ∈ pairs ++ more, isJson s = false) :
    (∀ ms, parsePairs pairs = .ok ms →
      (List.Forall₂ (fun s m => parsePairs [s] = .ok [m]) pairs ms ↔ ∀ s ∈ pairs, IsSingle s)) ∧
    (∀ ms, pairs ≠ [] → List.Forall₂ (fun s m => parsePairs [s] = .ok [m]) pairs ms →
      parsePairs pairs = .ok ms) ∧
    ∀ ms ns, parsePairs pairs = .ok ms → parsePairs more = .ok ns →
      parsePairs (pairs ++ more) = .ok (ms ++ ns) := by
  obtain ⟨hpairs, hmore⟩ := List.forall_mem_append.mp hlines
  refine ⟨fun ms h => ?_, fun ms hne h => ?_, fun ms ns h h' => ?_⟩
  · obtain ⟨-, parts, hparts, rfl⟩ := (parsePairs_eq_ok_iff hpairs).mp h
    rw [forall₂_parsePairs_iff hpairs, forall₂_holds_iff hparts]
  · have hheld := (forall₂_parsePairs_iff hpairs).mp h
    have hms : ms ≠ [] := List.ne_nil_of_length_pos
      (hheld.length_eq ▸ List.length_pos_of_ne_nil hne)
    exact (parsePairs_eq_ok_iff hpairs).mpr ⟨hms, ms.map fun m => [m],
      List.forall₂_map_right_iff.mpr hheld, (List.flatMap_singleton' ms).symm⟩
  · obtain ⟨hne, parts, hparts, rfl⟩ := (parsePairs_eq_ok_iff hpairs).mp h
    obtain ⟨-, parts', hparts', rfl⟩ := (parsePairs_eq_ok_iff hmore).mp h'
    exact (parsePairs_eq_ok_iff hlines).mpr ⟨List.append_ne_nil_of_left_ne_nil hne _,
      parts ++ parts', List.rel_append hparts hparts', List.flatten_append.symm⟩

/-- Two pairs, the second one with a comment. -/
theorem parsePairs_each_two :
    parsePairs ["a=b", "c -> d # both"] = .ok [⟨"a", "b"⟩, ⟨"c", "d"⟩] ∧ IsSingle "a=b" := by
  obtain ⟨hsingle, -, happend⟩ := parsePairs_each ["a=b"] ["c -> d # both"] (by decide +kernel)
  refine ⟨happend [⟨"a", "b"⟩] [⟨"c", "d"⟩] (by decide +kernel) (by decide +kernel), ?_⟩
  exact (hsingle [⟨"a", "b"⟩] (by decide +kernel)).mp (.cons (by decide +kernel) .nil) "a=b"
    List.mem_cons_self

/-- One mapping for two strings, two mappings for one string, and no mappings for two strings that
are accepted alone. -/
theorem parsePairs_lose_and_multiply :
    parsePairs ["a=b", ""] = .ok [⟨"a", "b"⟩] ∧
    parsePairs ["a=b\nc=d"] = .ok [⟨"a", "b"⟩, ⟨"c", "d"⟩] ∧
    parsePairs ["a=b"] = .ok [⟨"a", "b"⟩] ∧ parsePairs ["\x7b\"c\":\"d\"\x7d"] = .ok [⟨"c", "d"⟩] ∧
    parsePairs (["a=b"] ++ ["\x7b\"c\":\"d\"\x7d"]) =
      .error (.mappingLine 2 "\x7b\"c\":\"d\"\x7d") := by
  decide +kernel

end

end SymbolRename.Mapping
