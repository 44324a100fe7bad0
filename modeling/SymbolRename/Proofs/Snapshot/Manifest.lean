import SymbolRename.Proofs.Json.Layout
import SymbolRename.Snapshot.Manifest

/-!
# Manifests are read back

`Manifest.parse` gives back the entries that `Manifest.render` wrote, whatever texts they
hold. Each reader takes what the indented layout puts before it, blanks included.
-/

namespace SymbolRename

open Json (indent quote)
open Json.Reader (Reads)

namespace Manifest

theorem isBlank_indent (level : Nat) : ∀ b ∈ indent level, Json.Reader.isBlank b = true := by
  intro b hb
  rcases List.mem_cons.mp hb with rfl | hb
  · rfl
  · rw [List.eq_of_mem_replicate hb]
    rfl

theorem isBlank_nil : ∀ b ∈ ([] : List Char), Json.Reader.isBlank b = true :=
  fun _ h => absurd h List.not_mem_nil

/-- What stands before an item: a comma unless it is the first one, and a new line. -/
def lead (first : Bool) (level : Nat) : List Char :=
  (if first then [] else [',']) ++ indent level

/-- The blanks of a line break are blanks of JSON. -/
def breakLine (level : Nat) : Json.Blanks := ⟨indent level, isBlank_indent level⟩

/-- The items of a manifest have no blanks before their commas. -/
theorem lead_eq (first : Bool) (level : Nat) :
    lead first level = Json.lead first ⟨[], isBlank_nil⟩ (breakLine level) := by
  cases first <;> rfl

theorem reads_endObject (rest : List Char) : Reads Json.Reader.endObject ['\x7d'] rest () := by
  have hbrace := Json.Reader.reads_peekSolid isBlank_nil (c := '\x7d') rfl rest
  unfold Json.Reader.endObject
  exact Reads.look hbrace (Json.Reader.reads_skip '\x7d' rest)

theorem reads_endList (rest : List Char) : Reads Json.Reader.endList [']'] rest () := by
  have hbracket := Json.Reader.reads_peekSolid isBlank_nil (c := ']') rfl rest
  unfold Json.Reader.endList
  exact Reads.look hbracket (Json.Reader.reads_skip ']' rest)

/-- The text of a member is read. -/
theorem reads_text (fuel : Nat) (expected s : String) (rest : List Char) :
    Reads (text fuel expected) (' ' :: quote s) rest s := by
  have hblank : ∀ b ∈ [' '], Json.Reader.isBlank b = true := by
    intro b hb
    rw [List.mem_singleton.mp hb]
    rfl
  have hquote := Json.Reader.reads_peekSolid hblank (c := '"') rfl
    (s.toList.flatMap Json.escapeChar ++ ['"'] ++ rest)
  unfold text
  show Reads (Json.Reader.peekSolid? >>= _) ([' '] ++ quote s) rest s
  refine hquote.bind ?_
  exact Json.Reader.reads_string s rest

/-- Both brackets of a list or object are taken. -/
theorem reads_closing {α : Type} {read : Json.Reader α} {close : Json.Reader Unit}
    {content bracket rest : List Char} {v : α} (h : Reads read content (bracket ++ rest) v)
    (hclose : Reads close bracket rest ()) : Reads (closing read close) (content ++ bracket) rest v := by
  intro index
  obtain ⟨middle, hread⟩ := h index
  obtain ⟨last, hbracket⟩ := hclose middle
  refine ⟨last, ?_⟩
  unfold closing
  rw [List.append_assoc, hread]
  simp only [hbracket]

/-! ### Entries -/

/-- One member of an entry is read. -/
theorem reads_member {fuel count : Nat} (first : Bool) (level : Nat) {m : Members} {key : String}
    (hkey : keys.contains key = true) (hnew : m.get? key = none) (s : String)
    {more rest : List Char} {e : SnapshotEntry}
    (h : Reads (readMembers fuel count false (m.set key s)) more rest e) :
    Reads (readMembers fuel (count + 1) first m)
      (lead first level ++ (quote key ++ ([':'] ++ ((' ' :: quote s) ++ more)))) rest e := by
  unfold readMembers
  rw [lead_eq]
  refine (Json.Reader.reads_moreKeys first _ _ _).bind ?_
  rw [if_pos rfl]
  refine (Json.Reader.reads_string key _).bind ?_
  rw [if_pos hkey, hnew]
  refine (Json.Reader.reads_colon ⟨[], isBlank_nil⟩ _).bind ?_
  exact (reads_text fuel _ s _).bind h

/-- At the closing brace the entry is complete. -/
theorem reads_lastMember {fuel count : Nat} (level : Nat) {m : Members} {e : SnapshotEntry}
    {rest : List Char} (h : Reads m.entry [] ('\x7d' :: rest) e) :
    Reads (readMembers fuel (count + 1) false m) (indent level) ('\x7d' :: rest) e := by
  unfold readMembers
  refine (Json.Reader.reads_noMoreKeys false (breakLine level) rest).answer ?_
  exact h

/-- The members of an entry as they are written. -/
def members (e : SnapshotEntry) : List (String × Json) :=
  [("label", .string e.label), ("original_path", .string e.original.text),
    ("backup_path", .string e.backup.text), ("checksum", .string e.checksum)]

/-- All members of an entry are read. -/
theorem reads_members {fuel count : Nat} (hcount : 4 < count) (level : Nat) (e : SnapshotEntry)
    (rest : List Char) :
    Reads (readMembers fuel count true {})
      (Json.writePrettyMembers (level + 1) (members e) ++ indent level) ('\x7d' :: rest) e := by
  obtain ⟨count, rfl⟩ := Nat.exists_eq_add_of_lt hcount
  have htext : Json.writePrettyMembers (level + 1) (members e) ++ indent level =
      lead true (level + 1) ++ (quote "label" ++ ([':'] ++ ((' ' :: quote e.label) ++
        (lead false (level + 1) ++ (quote "original_path" ++ ([':'] ++
          ((' ' :: quote e.original.text) ++
        (lead false (level + 1) ++ (quote "backup_path" ++ ([':'] ++ ((' ' :: quote e.backup.text) ++
        (lead false (level + 1) ++ (quote "checksum" ++ ([':'] ++ ((' ' :: quote e.checksum) ++
          indent level))))))))))))))) := by
    simp [members, lead, Json.writePrettyMembers, Json.writePretty, Json.write]
  have hcounts : 4 + count + 1 = (count + 1) + 1 + 1 + 1 + 1 := by omega
  rw [htext, hcounts]
  refine reads_member true (level + 1) rfl rfl _ ?_
  refine reads_member false (level + 1) rfl rfl _ ?_
  refine reads_member false (level + 1) rfl rfl _ ?_
  refine reads_member false (level + 1) rfl rfl _ ?_
  exact reads_lastMember level (.pure e _)

/-- An entry is read. -/
theorem reads_entry {fuel : Nat} (hfuel : 4 < fuel) (level : Nat) (e : SnapshotEntry)
    (rest : List Char) :
    Reads (readEntry fuel) (Json.writePretty level (entryJson e)) rest e := by
  have htext : Json.writePretty level (entryJson e) = ['\x7b'] ++
      ((Json.writePrettyMembers (level + 1) (members e) ++ indent level) ++ ['\x7d']) := by
    simp [entryJson, members, Json.writePretty]
  have hbrace := Json.Reader.reads_peekSolid isBlank_nil (c := '\x7b') rfl
    (((Json.writePrettyMembers (level + 1) (members e) ++ indent level) ++ ['\x7d']) ++ rest)
  unfold readEntry
  rw [htext]
  refine Reads.look hbrace ?_
  refine (Json.Reader.reads_skip '\x7b' _).bind ?_
  exact (reads_closing (reads_members hfuel level e rest) (reads_endObject rest)).place

/-- The items of a list as they are written, with a comma before each but the first. -/
def items (first : Bool) : List SnapshotEntry → List Char
  | [] => []
  | e :: rest => lead first 1 ++ (Json.writePretty 1 (entryJson e) ++ items false rest)

theorem items_cons (e : SnapshotEntry) (rest : List SnapshotEntry) :
    items true (e :: rest) = Json.writePrettyItems 1 ((e :: rest).map entryJson) := by
  induction rest generalizing e with
  | nil => simp [items, lead, Json.writePrettyItems]
  | cons next rest ih =>
    have hnext : items false (next :: rest) = ',' :: items true (next :: rest) := rfl
    rw [items, hnext, ih]
    rfl

/-- The entries of a list are read; the induction is on the entries. -/
theorem reads_entries {fuel count : Nat} (hfuel : 4 < fuel) {entries : List SnapshotEntry}
    (hcount : entries.length < count) (first : Bool) {blanks : List Char}
    (hblanks : ∀ b ∈ blanks, Json.Reader.isBlank b = true) (rest : List Char) :
    Reads (readEntries fuel count first) (items first entries ++ blanks) (']' :: rest) entries := by
  obtain ⟨count, rfl⟩ := Nat.exists_eq_succ_of_ne_zero (Nat.ne_of_gt (Nat.zero_lt_of_lt hcount))
  induction entries generalizing count first with
  | nil =>
    unfold readEntries
    exact (Json.Reader.reads_noMoreItems first ⟨blanks, hblanks⟩ rest).answer (.pure [] _)
  | cons e more ih =>
    rw [List.length_cons] at hcount
    obtain ⟨count, rfl⟩ := Nat.exists_eq_succ_of_ne_zero
      (Nat.ne_of_gt (Nat.zero_lt_of_lt (Nat.lt_of_succ_lt_succ hcount)))
    have hmore := ih false count (Nat.lt_of_succ_lt_succ hcount)
    obtain ⟨text, htext⟩ : ∃ text, Json.writePretty 1 (entryJson e) = '\x7b' :: text := ⟨_, rfl⟩
    have hentry := reads_entry hfuel 1 e (items false more ++ blanks ++ ']' :: rest)
    rw [items, List.append_assoc, List.append_assoc]
    unfold readEntries
    rw [htext] at hentry ⊢
    rw [lead_eq]
    refine (Json.Reader.reads_moreItems first _ _ _ rfl (by decide)).bind ?_
    rw [if_pos rfl]
    exact hentry.bind (hmore.answer (.pure _ _))

theorem length_le_items (first : Bool) (entries : List SnapshotEntry) :
    entries.length ≤ (items first entries).length := by
  induction entries generalizing first with
  | nil => exact Nat.le_refl 0
  | cons e rest ih =>
    have hrest := ih false
    have hlead : 1 ≤ (lead first 1).length := by
      rw [lead, List.length_append, indent, List.length_cons]
      omega
    rw [items, List.length_append, List.length_append, List.length_cons]
    omega

/-- The text of a manifest between its brackets. -/
theorem exists_render (entries : List SnapshotEntry) :
    ∃ blanks, (∀ b ∈ blanks, Json.Reader.isBlank b = true) ∧
      render entries = String.ofList (['['] ++ ((items true entries ++ blanks) ++ [']'])) := by
  cases entries with
  | nil => exact ⟨[], isBlank_nil, rfl⟩
  | cons e rest =>
    refine ⟨indent 0, isBlank_indent 0, ?_⟩
    rw [items_cons, List.append_assoc]
    rfl

/-- A manifest is read back. -/
theorem parse_render (entries : List SnapshotEntry) : parse (render entries) = .ok entries := by
  obtain ⟨blanks, hblanks, hrender⟩ := exists_render entries
  have hlength := length_le_items true entries
  have hfuel : 4 < Json.readFuel (render entries) ∧ entries.length < Json.readFuel (render entries) := by
    simp only [Json.readFuel, hrender, String.length_ofList, List.length_append,
      List.length_singleton]
    omega
  have hbracket := Json.Reader.reads_peekSolid isBlank_nil (c := '[') rfl
    (((items true entries ++ blanks) ++ [']']) ++ [])
  have hread : Reads (readAll (Json.readFuel (render entries)))
      (['['] ++ ((items true entries ++ blanks) ++ [']'])) [] entries := by
    have hentries := reads_entries hfuel.1 hfuel.2 true hblanks []
    unfold readAll
    refine Reads.look hbracket ?_
    refine (Json.Reader.reads_skip '[' _).bind ?_
    exact (reads_closing hentries (reads_endList [])).place
  obtain ⟨index, hread⟩ := hread 0
  rw [List.append_nil] at hread
  unfold parse Json.readAll
  rw [hrender, String.toList_ofList, ← hrender]
  simp only [Bind.bind, EStateM.bind, hread]
  rfl

end Manifest

end SymbolRename
