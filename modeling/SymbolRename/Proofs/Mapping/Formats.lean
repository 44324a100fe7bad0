import SymbolRename.Proofs.Mapping.Lines
import SymbolRename.Proofs.Mapping.Spelling

/-!
# All formats of a mapping set agree

A mapping set is read back, in order, from each of its spellings (`Mapping.parse_formats`). A line
is read by its three signs in turn: names hold none of the signs, so the first that is found is the
one that was written. The first sign of a text, which tells JSON from lines, is a name's or a
comment's on lines.
-/

namespace SymbolRename

/-! ### Words -/

namespace Text

variable {isSeparator : Char → Bool} {rest : List Char}

theorem fields_go_word {word : List Char} (h : ∀ c ∈ word, isSeparator c = false) (run : List Char) :
    fields.go isSeparator run (word ++ rest) = fields.go isSeparator (word.reverse ++ run) rest := by
  induction word generalizing run with
  | nil => rfl
  | cons c word ih =>
    obtain ⟨hc, hword⟩ := List.forall_mem_cons.mp h
    rw [List.cons_append, fields.go, if_neg (by simp [hc]), ih hword, List.reverse_cons,
      List.append_assoc, List.singleton_append]

theorem fields_go_separators {gap : List Char} (h : ∀ c ∈ gap, isSeparator c = true) :
    fields.go isSeparator [] (gap ++ rest) = fields.go isSeparator [] rest := by
  induction gap with
  | nil => rfl
  | cons c gap ih =>
    obtain ⟨hc, hgap⟩ := List.forall_mem_cons.mp h
    rw [List.cons_append, fields.go, if_pos hc, ih hgap]
    rfl

/-- Two words with a gap between them. -/
theorem fields_pair {first second gap : List Char} (hfirst : ∀ c ∈ first, isSeparator c = false)
    (hne : first ≠ []) (hgap : ∀ c ∈ gap, isSeparator c = true) (hgapne : gap ≠ [])
    (hsecond : ∀ c ∈ second, isSeparator c = false) (hne' : second ≠ []) :
    fields isSeparator (first ++ (gap ++ second)) = [first, second] := by
  obtain ⟨c, gap, rfl⟩ := List.exists_cons_of_ne_nil hgapne
  obtain ⟨hc, hgap⟩ := List.forall_mem_cons.mp hgap
  have hlast : fields.go isSeparator [] second = fields.go isSeparator second.reverse [] := by
    rw [← List.append_nil second, fields_go_word hsecond, List.append_nil, List.append_nil]
  unfold fields
  rw [fields_go_word hfirst, List.append_nil, List.cons_append, fields.go, if_pos hc,
    fields_go_separators hgap, hlast]
  simp [fields.go, fields.flush, hne, hne']

end Text

namespace Mapping

open Dialect (Blanks Gap IsName isName_of_isValidIdentifier)

/-- Both names of the mapping are identifiers. -/
def IsNamed (m : Mapping) : Prop := isValidIdentifier m.old = true ∧ isValidIdentifier m.new = true

section

variable {m : Mapping}

theorem IsNamed.old_isName (h : m.IsNamed) : IsName m.old.toList := isName_of_isValidIdentifier h.1

theorem IsNamed.new_isName (h : m.IsNamed) : IsName m.new.toList := isName_of_isValidIdentifier h.2

/-! ### Lines -/

theorem not_mem_blanks {c : Char} (hc : Text.isBlank c = false) {cs : List Char}
    (hcs : ∀ b ∈ cs, Text.isBlank b = true) : c ∉ cs := fun hmem => by
  rw [hcs c hmem] at hc
  cases hc

/-- A mark that is no part of names and no blank is on a line only where it is written. -/
theorem not_mem_names (hm : m.IsNamed) {c : Char} (hname : isIdentifierChar c = false)
    (s : LineSpelling) (hsign : c ∉ s.sign.print) : c ∉ s.names m := by
  unfold LineSpelling.names
  simp only [List.mem_append, not_or]
  exact ⟨hm.old_isName.not_mem hname, hsign, hm.new_isName.not_mem hname⟩

theorem not_mem_sign {c : Char} (hblank : Text.isBlank c = false) (hc : c ∉ ['=', '-', '>'])
    (sign : Sign) : c ∉ sign.print := by
  simp only [List.mem_cons, List.not_mem_nil, or_false, not_or] at hc
  cases sign with
  | equals before after =>
    simp [Sign.print, not_mem_blanks hblank before.2, not_mem_blanks hblank after.2, hc]
  | arrow before after =>
    simp [Sign.print, not_mem_blanks hblank before.2, not_mem_blanks hblank after.2, hc]
  | gap blanks => exact not_mem_blanks hblank blanks.2.2

/-- The names of a line are split where they were put together. -/
theorem splitPair?_names (hm : m.IsNamed) (s : LineSpelling) :
    splitPair? (s.names m) = some (m.old.toList, m.new.toList) := by
  have hold := hm.old_isName
  have hnew := hm.new_isName
  have htrim : ∀ before after : Blanks, Text.trimChars (m.old.toList ++ before.1) = m.old.toList ∧
      Text.trimChars (after.1 ++ m.new.toList) = m.new.toList := fun before after =>
    ⟨(Text.trimChars_append_blanks before.2).trans hold.trimChars_eq,
      (Text.trimChars_blanks_append after.2).trans hnew.trimChars_eq⟩
  have hbefore : ∀ (before : Blanks) (c : Char), isIdentifierChar c = false →
      Text.isBlank c = false → c ∉ m.old.toList ++ before.1 := fun before c hname hblank hmem =>
    (List.mem_append.mp hmem).elim (hold.not_mem hname) (not_mem_blanks hblank before.2)
  unfold splitPair?
  cases hsign : s.sign with
  | arrow before after =>
    have hnames : s.names m =
        (m.old.toList ++ before.1) ++ (['-', '>'] ++ (after.1 ++ m.new.toList)) := by
      simp [LineSpelling.names, hsign, Sign.print]
    rw [hnames, Text.splitOnce?_append_mark (hbefore before '-' (by decide) (by decide)),
      Option.some_or]
    dsimp only
    rw [(htrim before after).1, (htrim before after).2]
  | equals before after =>
    have hnames : s.names m = (m.old.toList ++ before.1) ++ '=' :: (after.1 ++ m.new.toList) := by
      simp [LineSpelling.names, hsign, Sign.print]
    have hnone : '-' ∉ s.names m := not_mem_names hm (by decide) s (by
      simp [hsign, Sign.print, not_mem_blanks (c := '-') (by decide) before.2,
        not_mem_blanks (c := '-') (by decide) after.2])
    rw [Text.splitOnce?_eq_none hnone, Option.none_or, hnames,
      Text.splitOnce?_append (hbefore before '=' (by decide) (by decide))]
    dsimp only
    rw [(htrim before after).1, (htrim before after).2]
  | gap blanks =>
    have hnone : ∀ c : Char, isIdentifierChar c = false → Text.isBlank c = false →
        c ∉ s.names m := fun c hname hblank =>
      not_mem_names hm hname s (hsign ▸ not_mem_blanks hblank blanks.2.2)
    have hwords : Text.words (s.names m) = [m.old.toList, m.new.toList] := by
      unfold LineSpelling.names Text.words
      rw [hsign]
      exact Text.fields_pair hold.solid hold.ne_nil blanks.2.2 blanks.2.1 hnew.solid hnew.ne_nil
    rw [Text.splitOnce?_eq_none (hnone '-' (by decide) (by decide)),
      Text.splitOnce?_eq_none (hnone '=' (by decide) (by decide)), Option.none_or]
    dsimp only
    rw [hwords]

/-- What stands before a comment is read. -/
theorem content_comment {cs : List Char} (h : '#' ∉ cs) (text : Option (List Char)) :
    content (cs ++ comment text) = Text.trimChars cs := by
  have hcut : (cs ++ comment text).takeWhile (· != '#') = cs := by
    rw [List.takeWhile_append_of_pos fun c hc => by
      simpa using fun heq : c = '#' => h (heq ▸ hc)]
    cases text <;> simp [comment]
  rw [content, hcut]

/-- A spelled line is read as its mapping. -/
theorem parseLine_print (hm : m.IsNamed) (s : LineSpelling) (number : Nat) :
    parseLine number (s.print m) = .ok (some m) := by
  have hold := hm.old_isName
  have hnew := hm.new_isName
  have hhash : '#' ∉ s.lead.1 ++ (s.names m ++ s.trail.1) := by
    simp only [List.mem_append, not_or]
    exact ⟨not_mem_blanks (by decide) s.lead.2,
      not_mem_names hm (by decide) s (not_mem_sign (by decide) (by decide) s.sign),
      not_mem_blanks (by decide) s.trail.2⟩
  have hcontent : content (s.print m) = s.names m := by
    rw [LineSpelling.print, content_comment hhash, Text.trimChars_blanks_append s.lead.2,
      Text.trimChars_append_blanks s.trail.2]
    unfold LineSpelling.names
    apply Text.trimChars_eq_self
    · intro c hc
      rw [List.head?_append_of_ne_nil _ hold.ne_nil] at hc
      exact hold.solid c (List.mem_of_head? hc)
    · intro c hc
      rw [← List.append_assoc, List.getLast?_append_of_ne_nil _ hnew.ne_nil] at hc
      exact hnew.solid c (List.mem_of_getLast? hc)
  refine parseLine_eq_ok_iff.mpr (.inr ⟨_, _, ?_, hold.ne_nil, hnew.ne_nil, ?_, ?_⟩)
  · rw [hcontent, splitPair?_names hm]
  · rw [hcontent]
    exact List.append_ne_nil_of_left_ne_nil hold.ne_nil _
  · rw [String.ofList_toList, String.ofList_toList]

/-- A line that writes a mapping or none is read so. -/
theorem WritesLine.parseLine_eq {line : List Char} {found : Option Mapping}
    (h : WritesLine line found) (hm : ∀ m ∈ found, m.IsNamed) (number : Nat) :
    parseLine number line = .ok found := by
  cases found with
  | some m =>
    obtain ⟨s, rfl⟩ := h
    exact parseLine_print (hm m rfl) s number
  | none =>
    obtain ⟨blanks, text, rfl⟩ := h
    refine parseLine_eq_ok_iff.mpr (.inl ⟨?_, rfl⟩)
    rw [content_comment (not_mem_blanks (by decide) blanks.2), ← List.append_nil blanks.1,
      Text.trimChars_blanks_append blanks.2]
    rfl

end

section

variable {ms : List Mapping}

/-- Lines that write mappings hold them. The induction is on the lines. -/
theorem WritesText.holds {text : List Char} (h : WritesText ms text) (hms : ∀ m ∈ ms, m.IsNamed) :
    Holds text ms := by
  induction h with
  | last h hline => exact holds_line hline (h.parseLine_eq (by simpa using hms) 1)
  | @line line found ms text h hline crlf hmore ih =>
    obtain ⟨hfound, hms⟩ := List.forall_mem_append.mp hms
    have hread := h.parseLine_eq (by simpa using hfound) 1
    have hended : Holds (line ++ ending crlf) found.toList := by
      cases crlf with
      | false => exact (List.append_nil line).symm ▸ holds_line hline hread
      | true =>
        refine holds_line ?_ ((parseLine_carriageReturn 1 line).trans hread)
        simpa [ending] using hline
    exact holds_append.mpr ⟨_, ms, hended, ih hms, rfl⟩

/-- The first sign of a line is a name's or a comment's. -/
theorem WritesLine.first {line : List Char} {found : Option Mapping} (h : WritesLine line found)
    (hm : ∀ m ∈ found, m.IsNamed) {c : Char} (hc : line.find? (!Text.isBlank ·) = some c) :
    isIdentifierChar c = true ∨ c = '#' := by
  have hblanks : ∀ blanks : Blanks, blanks.1.find? (!Text.isBlank ·) = none := fun blanks =>
    List.find?_eq_none.mpr fun b hb => by simp [blanks.2 b hb]
  cases found with
  | some m =>
    obtain ⟨s, rfl⟩ := h
    have hold := (hm m rfl).old_isName
    obtain ⟨d, more, hcons⟩ := List.exists_cons_of_ne_nil hold.ne_nil
    have hd := hold.chars d (hcons ▸ List.mem_cons_self)
    unfold LineSpelling.print LineSpelling.names at hc
    rw [hcons, List.append_assoc, List.find?_append, hblanks, Option.none_or, List.cons_append,
      List.cons_append, List.cons_append,
      List.find?_cons_of_pos (by simp [isBlank_of_isIdentifierChar hd])] at hc
    exact .inl (Option.some.inj hc ▸ hd)
  | none =>
    obtain ⟨blanks, text, rfl⟩ := h
    rw [List.find?_append, hblanks, Option.none_or] at hc
    cases text with
    | none => cases hc
    | some text => exact .inr (Option.some.inj hc).symm

theorem WritesText.first {text : List Char} (h : WritesText ms text) (hms : ∀ m ∈ ms, m.IsNamed)
    {c : Char} (hc : text.find? (!Text.isBlank ·) = some c) :
    isIdentifierChar c = true ∨ c = '#' := by
  induction h with
  | last h _ => exact h.first (by simpa using hms) hc
  | @line line found ms text h _ crlf _ ih =>
    obtain ⟨hfound, hms⟩ := List.forall_mem_append.mp hms
    have hending : (ending crlf).find? (!Text.isBlank ·) = none := by cases crlf <;> decide
    rw [List.append_assoc, List.find?_append, List.find?_append, hending, Option.none_or,
      List.find?_cons_of_neg (by decide)] at hc
    cases hline : line.find? (!Text.isBlank ·) with
    | some d =>
      rw [hline, Option.some_or] at hc
      obtain rfl := Option.some.inj hc
      exact h.first (by simpa using hfound) hline
    | none =>
      rw [hline, Option.none_or] at hc
      exact ih hms hc

/-- Mappings are read from lines. -/
theorem parse_of_writesText (hne : ms ≠ []) (hms : ∀ m ∈ ms, m.IsNamed) {text : String}
    (h : WritesText ms text.toList) : parse text = .ok ms := by
  have hjson : isJson text = false := by
    rw [isJson_eq]
    cases hfirst : text.toList.find? (!Text.isBlank ·) with
    | none => rfl
    | some c =>
      rcases h.first hms hfirst with hc | rfl
      · have hnot : c ≠ '[' ∧ c ≠ '\x7b' := by
          constructor <;> rintro rfl <;> cases hc
        simp [hnot]
      · rfl
  exact (parse_eq_ok_iff hjson).mpr ⟨hne, h.holds hms⟩

/-! ### JSON -/

/-- A list of steps gives what the steps give. -/
theorem mapM_eq_ok {α β ε : Type} {f : α → Except ε β} {xs : List α} {ys : List β}
    (h : List.Forall₂ (fun x y => f x = .ok y) xs ys) : xs.mapM f = .ok ys := by
  induction h with
  | nil => rfl
  | cons hx _ ih => rw [List.mapM_cons, hx, ih]; rfl

/-- A text with a bracket or brace behind its blanks is read as JSON from there on. -/
theorem parse_of_parseJson {text : String} {before : Blanks} {value : List Char}
    (hvalue : ∃ c more, value = c :: more ∧ (c = '[' ∨ c = '\x7b'))
    (htext : text.toList = before.1 ++ value) (h : parseJson (String.ofList value) = .ok ms)
    (hne : ms ≠ []) : parse text = .ok ms := by
  obtain ⟨c, more, rfl, hc⟩ := hvalue
  have htrim : Text.trimStart text = String.ofList (c :: more) := by
    have hsolid : Text.isBlank c = false := by rcases hc with rfl | rfl <;> decide
    rw [Text.trimStart, htext, Text.dropLeading, List.dropWhile_append_of_pos before.2,
      List.dropWhile_cons_of_neg (by simp [hsolid])]
  have hjson : isJson text = true := by
    rw [isJson, htrim, String.toList_ofList]
    rcases hc with rfl | rfl <;> rfl
  unfold parse
  rw [hjson, if_pos rfl, htrim]
  exact bind_eq_ok_iff.mpr ⟨ms, h, if_neg (by simpa using hne)⟩

theorem exists_eq_brace {members : List (String × String)} {text : List Char}
    (h : Json.SpellsObject members text) : ∃ more, text = '\x7b' :: more := by
  obtain ⟨content, _, rfl⟩ := h
  exact ⟨_, rfl⟩

/-- An object with the two names is read as the mapping, in any order of the members. -/
theorem ofJson_ofStrings {m : Mapping} {members : List (String × String)} (h : IsEntry m members) :
    ofJson (Json.ofStrings members) = .ok m := by
  rcases h with rfl | rfl <;> rfl

/-- The members of an entry have different keys and are read in few steps. -/
theorem IsEntry.reads {m : Mapping} {members : List (String × String)} (h : IsEntry m members)
    {text : List Char} (htext : Json.SpellsObject members text) {fuel depth : Nat} (hfuel : 3 < fuel)
    (hdepth : 1 < depth) (rest : List Char) :
    Json.Reader.Reads (Json.Reader.value fuel depth) text rest (Json.ofStrings members) := by
  have hmembers : members.length = 2 ∧ (members.map Prod.fst).Nodup := by
    rcases h with rfl | rfl <;> exact ⟨rfl, by simp⟩
  exact Json.Reader.reads_object htext hmembers.2 (by omega) hdepth

theorem exists_isEntry {entries : List (List (String × String))}
    (h : List.Forall₂ IsEntry ms entries) : ∀ members ∈ entries, ∃ m, IsEntry m members := by
  induction h with
  | nil => exact List.forall_mem_nil _
  | cons h _ ih => exact List.forall_mem_cons.mpr ⟨⟨_, h⟩, ih⟩

/-- Mappings are read from an array of objects. -/
theorem parse_of_writesArray (hne : ms ≠ []) {text : String} (h : WritesArray ms text.toList) :
    parse text = .ok ms := by
  obtain ⟨entries, hentries, before, list, after, hlist, htext⟩ := h
  have hread : Json.parse (String.ofList (list ++ after.1)) =
      .ok (.array (entries.map Json.ofStrings)) := by
    refine Json.Reader.parse_of_reads String.toList_ofList ?_
    refine Json.Reader.reads_list 3 ?_ ?_ hlist ?_ (by decide)
    · intro members text hobject
      obtain ⟨more, rfl⟩ := exists_eq_brace hobject
      exact ⟨'\x7b', more, rfl, rfl, by decide⟩
    · intro members hmem text hobject fuel hfuel rest
      obtain ⟨m, hm⟩ := exists_isEntry hentries members hmem
      exact hm.reads hobject hfuel (by decide) rest
    · obtain ⟨content, hcontent, rfl⟩ := hlist
      have hlength := hcontent.length_le fun members text hobject => by
        obtain ⟨more, rfl⟩ := exists_eq_brace hobject
        exact List.cons_ne_nil _ _
      simp only [Json.readFuel, String.length_ofList, List.length_append, List.length_singleton]
      omega
  have hmappings : (entries.map Json.ofStrings).mapM ofJson = .ok ms :=
    mapM_eq_ok (List.forall₂_map_left_iff.mpr (hentries.flip.imp fun _ _ => ofJson_ofStrings))
  have hjson : parseJson (String.ofList (list ++ after.1)) = .ok ms := by
    unfold parseJson
    rw [hread]
    dsimp only
    rw [hmappings, mapError_ok]
  refine parse_of_parseJson ?_ htext hjson hne
  obtain ⟨content, _, rfl⟩ := hlist
  exact ⟨'[', _, rfl, .inl rfl⟩

/-- Mappings with different old names are read from an object. -/
theorem parse_of_writesObject (hne : ms ≠ []) (hnodup : (ms.map Mapping.old).Nodup) {text : String}
    (h : WritesObject ms text.toList) : parse text = .ok ms := by
  obtain ⟨before, object, after, hobject, htext⟩ := h
  have hkeys : ((ms.map fun m => (m.old, m.new)).map Prod.fst).Nodup := by
    rwa [List.map_map]
  have hread : Json.parse (String.ofList (object ++ after.1)) =
      .ok (Json.ofStrings (ms.map fun m => (m.old, m.new))) := by
    refine Json.Reader.parse_of_reads String.toList_ofList ?_
    refine Json.Reader.reads_object hobject hkeys ?_ (by decide)
    obtain ⟨content, hcontent, rfl⟩ := hobject
    have hlength := hcontent.length_le fun member text hmember => by
      obtain ⟨_, _, rfl⟩ := hmember
      exact List.cons_ne_nil _ _
    simp only [Json.readFuel, String.length_ofList, List.length_append, List.length_singleton]
    omega
  have hmappings : ((ms.map fun m => (m.old, m.new)).map
      fun member => (member.1, Json.string member.2)).mapM ofMember = .ok ms := by
    refine mapM_eq_ok (List.forall₂_map_left_iff.mpr (List.forall₂_map_left_iff.mpr ?_))
    exact List.forall₂_same.mpr fun m _ => rfl
  have hjson : parseJson (String.ofList (object ++ after.1)) = .ok ms := by
    unfold parseJson
    rw [hread]
    exact hmappings
  refine parse_of_parseJson ?_ htext hjson hne
  obtain ⟨more, rfl⟩ := exists_eq_brace hobject
  exact ⟨'\x7b', _, rfl, .inr rfl⟩

/-- All formats agree: a list of mappings of identifiers is read back, in order, from each way to
write it on lines, from each way to write it as an array of objects and, when the old names are
different, from each way to write it as an object. -/
theorem parse_formats (ms : List Mapping) (hne : ms ≠ []) (hms : ∀ m ∈ ms, m.IsNamed) :
    (∀ text : String, WritesText ms text.toList → parse text = .ok ms) ∧
    (∀ text : String, WritesArray ms text.toList → parse text = .ok ms) ∧
    ((ms.map Mapping.old).Nodup →
      ∀ text : String, WritesObject ms text.toList → parse text = .ok ms) :=
  ⟨fun _ => parse_of_writesText hne hms, fun _ => parse_of_writesArray hne,
    fun hnodup _ => parse_of_writesObject hne hnodup⟩

/-- Two mappings below a comment, in an array with its members in both orders, and in an object. -/
theorem parse_formats_two :
    parse "# two\r\n a=b\nc -> d#" = .ok [⟨"a", "b"⟩, ⟨"c", "d"⟩] ∧
    parse " [\x7b\"old\":\"a\",\"new\":\"b\"\x7d,\n\x7b\"new\":\"d\",\"old\":\"c\"\x7d]" =
      .ok [⟨"a", "b"⟩, ⟨"c", "d"⟩] ∧
    parse "\x7b\"a\":\"b\",\n\"c\":\"d\"\x7d" = .ok [⟨"a", "b"⟩, ⟨"c", "d"⟩] := by
  have hnone : ∀ c ∈ ([] : List Char), Text.isBlank c = true := List.forall_mem_nil _
  have hspace : ∀ c ∈ [' '], Text.isBlank c = true := List.forall_mem_singleton.mpr rfl
  have hempty : ∀ c ∈ ([] : List Char), Json.Reader.isBlank c = true := List.forall_mem_nil _
  have hfeed : ∀ c ∈ ['\n'], Json.Reader.isBlank c = true := List.forall_mem_singleton.mpr rfl
  have hmember : ∀ member, Json.SpellsMember member
      (Json.quote member.1 ++ (([] ++ [':']) ++ ([] ++ Json.quote member.2))) := fun member =>
    ⟨⟨[], hempty⟩, ⟨[], hempty⟩, rfl⟩
  obtain ⟨htext, harray, hobject⟩ := parse_formats [⟨"a", "b"⟩, ⟨"c", "d"⟩] (by decide)
    (by unfold IsNamed; decide +kernel)
  refine ⟨htext _ ?_, harray _ ?_, hobject (by decide) _ ?_⟩
  · have hcomment : WritesLine "# two".toList none := ⟨⟨[], hnone⟩, some " two".toList, rfl⟩
    have hfirst : WritesLine " a=b".toList (some ⟨"a", "b"⟩) :=
      ⟨⟨⟨[' '], hspace⟩, .equals ⟨[], hnone⟩ ⟨[], hnone⟩, ⟨[], hnone⟩, none⟩, rfl⟩
    have hlast : WritesLine "c -> d#".toList (some ⟨"c", "d"⟩) :=
      ⟨⟨⟨[], hnone⟩, .arrow ⟨[' '], hspace⟩ ⟨[' '], hspace⟩, ⟨[], hnone⟩, some []⟩, rfl⟩
    have hchars : "# two\r\n a=b\nc -> d#".toList = "# two".toList ++ ending true ++
        '\n' :: (" a=b".toList ++ ending false ++ '\n' :: "c -> d#".toList) := by decide +kernel
    rw [hchars]
    exact .line hcomment (by decide +kernel) true
      (.line hfirst (by decide +kernel) false (.last hlast (by decide +kernel)))
  · have hfirst : Json.SpellsObject [("old", "a"), ("new", "b")] _ :=
      ⟨_, .cons ⟨[], hempty⟩ ⟨[], hempty⟩ (hmember ("old", "a"))
        (.cons ⟨[], hempty⟩ ⟨[], hempty⟩ (hmember ("new", "b")) (.nil ⟨[], hempty⟩)), rfl⟩
    have hsecond : Json.SpellsObject [("new", "d"), ("old", "c")] _ :=
      ⟨_, .cons ⟨[], hempty⟩ ⟨[], hempty⟩ (hmember ("new", "d"))
        (.cons ⟨[], hempty⟩ ⟨[], hempty⟩ (hmember ("old", "c")) (.nil ⟨[], hempty⟩)), rfl⟩
    have hentries : Json.Lists Json.SpellsObject true _ _ := .cons ⟨[], hempty⟩ ⟨[], hempty⟩ hfirst
      (.cons ⟨[], hempty⟩ ⟨['\n'], hfeed⟩ hsecond (.nil ⟨[], hempty⟩))
    exact ⟨_, .cons (.inl rfl) (.cons (.inr rfl) .nil), ⟨[' '], hspace⟩, _, ⟨[], hempty⟩,
      ⟨_, hentries, rfl⟩, rfl⟩
  · have hmembers : Json.Lists Json.SpellsMember true [("a", "b"), ("c", "d")] _ :=
      .cons ⟨[], hempty⟩ ⟨[], hempty⟩ (hmember ("a", "b"))
        (.cons ⟨[], hempty⟩ ⟨['\n'], hfeed⟩ (hmember ("c", "d")) (.nil ⟨[], hempty⟩))
    exact ⟨⟨[], hnone⟩, _, ⟨[], hempty⟩, ⟨_, hmembers, rfl⟩, rfl⟩

end

end Mapping

end SymbolRename
