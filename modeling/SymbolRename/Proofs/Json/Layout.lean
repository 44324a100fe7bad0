import SymbolRename.Proofs.Json.Reader

/-!
# Lists and objects in any layout

Blanks may stand between any two signs of a JSON text. A list and an object of strings are read
back in each layout (`Json.Reader.reads_list`, `Json.Reader.reads_object`), when the reader has
steps enough for the items; and a text that holds a value and blanks is read as this value.
-/

namespace SymbolRename

namespace Json

/-- Any number of the blanks of JSON. -/
abbrev Blanks := {cs : List Char // ∀ c ∈ cs, Reader.isBlank c = true}

/-- What stands before an item: a comma with blanks before it, unless the item is the first one, and
blanks. -/
def lead (first : Bool) (comma item : Blanks) : List Char :=
  if first then item.1 else comma.1 ++ ([','] ++ item.1)

/-- The text has the items between brackets, each in one of its spellings. -/
inductive Lists {α : Type} (Spells : α → List Char → Prop) : Bool → List α → List Char → Prop
  | nil {first : Bool} (blanks : Blanks) : Lists Spells first [] blanks.1
  | cons {first : Bool} {x : α} {xs : List α} {text more : List Char} (comma item : Blanks)
      (h : Spells x text) (hmore : Lists Spells false xs more) :
      Lists Spells first (x :: xs) (lead first comma item ++ (text ++ more))

/-- A key, a colon and a string. -/
def SpellsMember (member : String × String) (text : List Char) : Prop :=
  ∃ colon value : Blanks,
    text = quote member.1 ++ ((colon.1 ++ [':']) ++ (value.1 ++ quote member.2))

/-- An object with strings as values. -/
def SpellsObject (members : List (String × String)) (text : List Char) : Prop :=
  ∃ content, Lists SpellsMember true members content ∧ text = ['\x7b'] ++ (content ++ ['\x7d'])

/-- A list of items. -/
def SpellsList {α : Type} (Spells : α → List Char → Prop) (xs : List α) (text : List Char) : Prop :=
  ∃ content, Lists Spells true xs content ∧ text = ['['] ++ (content ++ [']'])

/-- The object with these strings. -/
def ofStrings (members : List (String × String)) : Json :=
  .object (members.map fun member => (member.1, .string member.2))

/-- There are no more items than characters. -/
theorem Lists.length_le {α : Type} {Spells : α → List Char → Prop} {first : Bool} {xs : List α}
    {text : List Char} (hne : ∀ x text, Spells x text → text ≠ []) (h : Lists Spells first xs text) :
    xs.length ≤ text.length := by
  induction h with
  | nil _ => exact Nat.zero_le _
  | cons comma item h _ ih =>
    have hpos := List.length_pos_of_ne_nil (hne _ _ h)
    simp only [List.length_cons, List.length_append]
    omega

namespace Reader

/-! ### Signs -/

section

variable (first : Bool) (comma item blanks : Blanks) (rest : List Char)

/-- Before a key that is there, a further key is announced. -/
theorem reads_moreKeys :
    Reads (moreKeys first) (lead first comma item) ('"' :: rest) true := by
  have hquote := reads_peekSolid item.2 (c := '"') rfl rest
  unfold moreKeys lead
  cases first with
  | true => exact hquote.answer (.pure true _)
  | false =>
    refine (reads_peekSolid comma.2 (c := ',') rfl _).bind ?_
    exact (reads_skip ',' _).bind (hquote.answer (.pure true _))

/-- Before the closing brace no further key is announced. -/
theorem reads_noMoreKeys : Reads (moreKeys first) blanks.1 ('\x7d' :: rest) false := by
  unfold moreKeys
  exact (reads_peekSolid blanks.2 (c := '\x7d') rfl rest).answer (.pure false _)

/-- Before an item that is there, a further item is announced. -/
theorem reads_moreItems {c : Char} (hc : isBlank c = false) (hclose : c ≠ ']') :
    Reads (moreItems first) (lead first comma item) (c :: rest) true := by
  have hitem := reads_peekSolid item.2 hc rest
  unfold moreItems lead
  cases first with
  | true =>
    refine hitem.answer ?_
    split
    · rename_i heq
      cases heq
    · rename_i heq
      exact absurd (Option.some.inj heq) hclose
    · exact .pure true _
  | false =>
    refine (reads_peekSolid comma.2 (c := ',') rfl _).bind ?_
    refine (reads_skip ',' _).bind (hitem.answer ?_)
    split
    · rename_i heq
      cases heq
    · rename_i heq
      exact absurd (Option.some.inj heq) hclose
    · exact .pure true _

/-- Before the closing bracket no further item is announced. -/
theorem reads_noMoreItems : Reads (moreItems first) blanks.1 (']' :: rest) false := by
  unfold moreItems
  exact (reads_peekSolid blanks.2 (c := ']') rfl rest).answer (.pure false _)

theorem reads_colon : Reads colon (blanks.1 ++ [':']) rest () := by
  unfold colon
  refine (reads_peekSolid blanks.2 (c := ':') rfl rest).bind ?_
  exact reads_skip ':' rest

end

/-! ### Values -/

section

variable {fuel depth : Nat} {rest : List Char}

theorem reads_stringValue (hfuel : 0 < fuel) (blanks : Blanks) (s : String) :
    Reads (value fuel depth) (blanks.1 ++ quote s) rest (.string s) := by
  obtain ⟨fuel, rfl⟩ := Nat.exists_eq_succ_of_ne_zero (Nat.ne_of_gt hfuel)
  unfold value
  refine (reads_peekSolid blanks.2 (c := '"') rfl _).bind ?_
  exact (reads_string s rest).answer (.pure _ _)

/-- Members with new keys are read. The induction is on the members, with those found so far. -/
theorem reads_members {first : Bool} {members : List (String × String)} {text : List Char}
    (h : Lists SpellsMember first members text) {found : List (String × Json)}
    (hnew : (found.map Prod.fst ++ members.map Prod.fst).Nodup) (hfuel : members.length < fuel) :
    Reads (Reader.members fuel depth first found) text ('\x7d' :: rest)
      (found ++ members.map fun member => (member.1, .string member.2)) := by
  induction h generalizing found fuel with
  | nil blanks =>
    obtain ⟨fuel, rfl⟩ := Nat.exists_eq_succ_of_ne_zero (Nat.ne_of_gt hfuel)
    unfold Reader.members
    rw [List.map_nil, List.append_nil]
    exact (reads_noMoreKeys _ blanks rest).answer (.pure found _)
  | @cons first member members text more comma item h hmore ih =>
    obtain ⟨key, s⟩ := member
    obtain ⟨colon, value, rfl⟩ := h
    obtain ⟨fuel, rfl⟩ := Nat.exists_eq_succ_of_ne_zero (Nat.ne_of_gt (Nat.zero_lt_of_lt hfuel))
    rw [List.length_cons] at hfuel
    have hset : setMember found key (.string s) = found ++ [(key, .string s)] := by
      refine if_neg fun hany => ?_
      obtain ⟨member, hmember, hkey⟩ := List.any_eq_true.mp hany
      refine List.disjoint_of_nodup_append hnew (List.mem_map_of_mem hmember) ?_
      rw [eq_of_beq hkey]
      exact List.mem_cons_self
    have hrest : Reads (Reader.members fuel depth false (found ++ [(key, .string s)])) more
        ('\x7d' :: rest)
        (found ++ [(key, .string s)] ++ members.map fun member => (member.1, .string member.2)) :=
      ih (by simpa using hnew) (Nat.lt_of_succ_lt_succ hfuel)
    rw [List.append_assoc, List.singleton_append, ← hset] at hrest
    unfold Reader.members
    refine (reads_moreKeys first comma item _).bind ?_
    rw [if_pos rfl, List.append_assoc, List.append_assoc]
    refine (reads_string key _).bind ((reads_colon colon _).bind ?_)
    exact (reads_stringValue (Nat.zero_lt_of_lt (Nat.lt_of_succ_lt_succ hfuel)) value s).bind hrest

/-- An object of strings is read. -/
theorem reads_object {members : List (String × String)} {text : List Char}
    (h : SpellsObject members text) (hnodup : (members.map Prod.fst).Nodup)
    (hfuel : members.length + 1 < fuel) (hdepth : 1 < depth) :
    Reads (value fuel depth) text rest (ofStrings members) := by
  obtain ⟨content, hcontent, rfl⟩ := h
  obtain ⟨fuel, rfl⟩ := Nat.exists_eq_succ_of_ne_zero (Nat.ne_of_gt (Nat.zero_lt_of_lt hfuel))
  have hmembers : Reads (Reader.members fuel (depth - 1) true []) content ('\x7d' :: rest)
      (members.map fun member => (member.1, .string member.2)) :=
    reads_members hcontent hnodup (Nat.lt_of_succ_lt_succ hfuel)
  unfold value
  refine Reads.look (reads_peekSolid (List.forall_mem_nil _) (c := '\x7b') rfl _) ?_
  simp only [Nat.not_le_of_lt hdepth, if_false]
  refine (reads_skip '\x7b' _).bind ?_
  exact Reads.bind hmembers ((reads_skip '\x7d' rest).answer (.pure _ rest))

/-- Items are read that are values themselves, each in so many steps. The induction is on the
items. -/
theorem reads_items {α : Type} {Spells : α → List Char → Prop} {toJson : α → Json} (steps : Nat)
    (hhead : ∀ x text, Spells x text → ∃ c more, text = c :: more ∧ isBlank c = false ∧ c ≠ ']')
    {first : Bool} {xs : List α} {text : List Char}
    (hitem : ∀ x ∈ xs, ∀ text, Spells x text → ∀ fuel > steps, ∀ rest,
      Reads (value fuel depth) text rest (toJson x))
    (h : Lists Spells first xs text) (hfuel : xs.length + steps < fuel) :
    Reads (items fuel depth first) text (']' :: rest) (xs.map toJson) := by
  induction h generalizing fuel with
  | nil blanks =>
    obtain ⟨fuel, rfl⟩ := Nat.exists_eq_succ_of_ne_zero (Nat.ne_of_gt (Nat.zero_lt_of_lt hfuel))
    unfold items
    exact (reads_noMoreItems _ blanks rest).answer (.pure _ _)
  | @cons first x xs text more comma item h hmore ih =>
    obtain ⟨fuel, rfl⟩ := Nat.exists_eq_succ_of_ne_zero (Nat.ne_of_gt (Nat.zero_lt_of_lt hfuel))
    obtain ⟨hx, hxs⟩ := List.forall_mem_cons.mp hitem
    rw [List.length_cons] at hfuel
    have hrest : Reads (items fuel depth false) more (']' :: rest) (xs.map toJson) :=
      ih hxs (by omega)
    have hvalue := hx text h fuel (by omega) (more ++ ']' :: rest)
    obtain ⟨c, tail, rfl, hc, hclose⟩ := hhead x text h
    unfold items
    refine (reads_moreItems first comma item _ hc hclose).bind ?_
    rw [if_pos rfl]
    exact hvalue.bind (hrest.answer (.pure _ _))

/-- A list is read. -/
theorem reads_list {α : Type} {Spells : α → List Char → Prop} {toJson : α → Json} (steps : Nat)
    (hhead : ∀ x text, Spells x text → ∃ c more, text = c :: more ∧ isBlank c = false ∧ c ≠ ']')
    {xs : List α} {text : List Char}
    (hitem : ∀ x ∈ xs, ∀ text, Spells x text → ∀ fuel > steps, ∀ rest,
      Reads (value fuel (depth - 1)) text rest (toJson x))
    (h : SpellsList Spells xs text) (hfuel : xs.length + steps + 1 < fuel) (hdepth : 1 < depth) :
    Reads (value fuel depth) text rest (.array (xs.map toJson)) := by
  obtain ⟨content, hcontent, rfl⟩ := h
  obtain ⟨fuel, rfl⟩ := Nat.exists_eq_succ_of_ne_zero (Nat.ne_of_gt (Nat.zero_lt_of_lt hfuel))
  have hitems : Reads (items fuel (depth - 1) true) content (']' :: rest) (xs.map toJson) :=
    reads_items steps hhead hitem hcontent (Nat.lt_of_succ_lt_succ hfuel)
  unfold value
  refine Reads.look (reads_peekSolid (List.forall_mem_nil _) (c := '[') rfl _) ?_
  simp only [Nat.not_le_of_lt hdepth, if_false]
  refine (reads_skip '[' _).bind ?_
  exact Reads.bind hitems ((reads_skip ']' rest).answer (.pure _ rest))

/-- Blanks at the end of a text are passed over. -/
theorem reads_finish (blanks : Blanks) : Reads finish blanks.1 [] () := by
  have hpeek : Reads peekSolid? blanks.1 [] none := by
    intro index
    have hread : peekSolid? ⟨blanks.1, index⟩ = .ok
        (blanks.1.drop (blanks.1.takeWhile isBlank).length).head?
        ⟨blanks.1.drop (blanks.1.takeWhile isBlank).length,
          index + (blanks.1.takeWhile isBlank).length⟩ := rfl
    refine ⟨index + blanks.1.length, ?_⟩
    rw [List.append_nil, hread, List.takeWhile_eq_self_iff.mpr blanks.2, List.drop_length]
    rfl
  unfold finish
  exact hpeek.answer (.pure () [])

/-- A text is read as the value that it holds, with blanks behind it. -/
theorem parse_of_reads {text : String} {content : List Char} {after : Blanks} {v : Json}
    (htext : text.toList = content ++ after.1)
    (h : Reads (value (readFuel text) depthLimit) content after.1 v) : Json.parse text = .ok v := by
  have hread : Reads (do let v ← value (readFuel text) depthLimit; finish; return v : Reader Json)
      (content ++ after.1) [] v := by
    refine Reads.bind ?_ ((reads_finish after).answer (.pure v []))
    rwa [List.append_nil]
  obtain ⟨index, hread⟩ := hread 0
  rw [List.append_nil] at hread
  unfold Json.parse Json.readAll
  rw [htext, hread]

end

end Reader

end Json

end SymbolRename
