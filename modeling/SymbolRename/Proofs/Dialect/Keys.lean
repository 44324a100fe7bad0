import SymbolRename.Proofs.Dialect.Parts

/-!
# Key-value lines

In a line of fields a colon stands only behind the name of a field, so a key is found where a field
of its name stands and nowhere else. A key-value line is read back whatever the order of its fields:
`Dialect.keyValueFields?_print`.
-/

namespace SymbolRename.Dialect

/-! ### Looking for a key -/

/-- The first answer of `here` at the positions of a text; `before` is the character before it. -/
def firstAt {α : Type} (here : Option Char → List Char → Option α) (before : Option Char) :
    List Char → Option α
  | [] => none
  | c :: rest => (here before (c :: rest)).or (firstAt here (some c) rest)

/-- What is read behind one of the keys, when one stands here. -/
def behindKey {α : Type} (names : List String) (bounded : Bool) (read : List Char → Option α)
    (before : Option Char) (cs : List Char) : Option α :=
  names.findSome? fun name =>
    if (key name).isPrefixOf cs && !(bounded && before.any Text.isWord) then
      read (cs.drop (key name).length)
    else none

section

variable {α : Type} {names : List String} {name : String} {bounded : Bool}
  {read : List Char → Option α} {before : Option Char} {a rest : List Char}

theorem behindKey_cons {cs : List Char} : behindKey (name :: names) bounded read before cs =
    (if (key name).isPrefixOf cs && !(bounded && before.any Text.isWord) then
      read (cs.drop (key name).length) else none).or (behindKey names bounded read before cs) := by
  unfold behindKey
  rw [List.findSome?_cons]
  split <;> simp_all

theorem search_eq (cs : List Char) :
    search (key name) bounded read before cs = firstAt (behindKey [name] bounded read) before cs := by
  induction cs generalizing before with
  | nil => rfl
  | cons c rest ih =>
    rw [search, firstAt, ih, behindKey_cons]
    exact congrArg (Option.or · _) (Option.or_none).symm

theorem searchColumn_eq (read : List Char → Option (List Char)) (cs : List Char) :
    keyValueFields?.searchColumn read before cs =
      firstAt (behindKey ["col", "column"] true read) before cs := by
  induction cs generalizing before with
  | nil => rfl
  | cons c rest ih =>
    rw [keyValueFields?.searchColumn, firstAt, ih, behindKey_cons, behindKey_cons]
    have hnil : behindKey [] true read before (c :: rest) = none := rfl
    rw [hnil, Option.or_none]
    rfl

/-- Positions at which nothing is found are passed. -/
theorem firstAt_skip {here : Option Char → List Char → Option α}
    (h : ∀ s, s ≠ [] → s <:+ a → ∀ b, here b (s ++ rest) = none) :
    firstAt here before (a ++ rest) = firstAt here (a.getLast?.or before) rest := by
  induction a generalizing before with
  | nil => rfl
  | cons c a ih =>
    rw [List.cons_append, firstAt, ← List.cons_append,
      h (c :: a) (List.cons_ne_nil c a) (List.suffix_refl _), Option.none_or,
      ih fun s hs hsuffix => h s hs (hsuffix.trans (List.suffix_cons c a))]
    cases a with
    | nil => rfl
    | cons d a => rw [List.getLast?_cons_cons, List.getLast?_eq_some_getLast (List.cons_ne_nil d a)]; rfl

/-- A name and a colon stand before the first colon of a text. -/
theorem isPrefixOf_key_iff (hname : ':' ∉ name.toList) (ha : ':' ∉ a) :
    (key name).isPrefixOf (a ++ ':' :: rest) = true ↔ a = name.toList := by
  rw [List.isPrefixOf_iff_prefix, key]
  constructor
  · rintro ⟨more, hmore⟩
    have hfirst : ∀ {x more : List Char}, ':' ∉ x → (x ++ ':' :: more).takeWhile (· != ':') = x := by
      intro x more hx
      rw [List.takeWhile_append_of_pos fun c hc => by simpa using fun heq : c = ':' => hx (heq ▸ hc)]
      simp
    rw [List.append_assoc, List.singleton_append] at hmore
    rw [← @hfirst a rest ha, ← hmore, hfirst hname]
  · rintro rfl
    exact ⟨rest, by simp⟩

/-- The names of keys: word characters, at least one. -/
def AreKeys (names : List String) : Prop :=
  ∀ name ∈ names, name.toList ≠ [] ∧ ∀ c ∈ name.toList, Text.isWord c = true

theorem AreKeys.colon_not_mem (h : AreKeys names) (hname : name ∈ names) : ':' ∉ name.toList :=
  fun hmem => by
    have hword := (h name hname).2 _ hmem
    revert hword
    decide

/-- Before a colon only the name of a key makes the key. -/
theorem behindKey_colon (hnames : AreKeys names) (ha : ':' ∉ a) (rest : List Char) :
    behindKey names bounded read before (a ++ ':' :: rest) =
      if a ∈ names.map String.toList ∧ (bounded && before.any Text.isWord) = false then read rest
      else none := by
  induction names with
  | nil => simp [behindKey]
  | cons name names ih =>
    rw [behindKey_cons, ih fun n hn => hnames n (List.mem_cons_of_mem name hn)]
    have hiff := @isPrefixOf_key_iff name a rest (hnames.colon_not_mem List.mem_cons_self) ha
    by_cases hname : a = name.toList
    · have hdrop : (a ++ ':' :: rest).drop (key name).length = rest := by
        rw [hname, ← List.singleton_append, ← List.append_assoc]
        exact List.drop_left
      rw [hiff.mpr hname, hdrop]
      cases bounded && before.any Text.isWord with
      | true => simp
      | false =>
        simp only [hname, List.map_cons, List.mem_cons, true_or, Bool.not_false,
          Bool.and_self, and_true, if_true]
        split
        · cases read rest <;> rfl
        · rw [Option.or_none]
    · rw [Bool.eq_false_iff.mpr (mt hiff.mp hname)]
      simp [hname]

/-- No key stands in a text without a colon. -/
theorem firstAt_eq_none (ha : ':' ∉ a) : firstAt (behindKey names bounded read) before a = none := by
  have hskip := @firstAt_skip _ before a [] (behindKey names bounded read) fun s _ hsuffix b => by
    refine List.findSome?_eq_none_iff.mpr fun name _ => if_neg fun h => ?_
    have hprefix := List.isPrefixOf_iff_prefix.mp (Bool.and_eq_true_iff.mp h).1
    have hcolon : ':' ∈ key name := by simp [key]
    have hmem := hprefix.subset hcolon
    rw [List.append_nil] at hmem
    exact ha (hsuffix.subset hmem)
  rwa [List.append_nil] at hskip

/-- No key stands up to a colon before which none ends. -/
theorem firstAt_colon (hnames : AreKeys names) (ha : ':' ∉ a)
    (h : ∀ s, s <:+ a → s ∉ names.map String.toList) (rest : List Char) :
    firstAt (behindKey names bounded read) before (a ++ ':' :: rest) =
      firstAt (behindKey names bounded read) (some ':') rest := by
  have hstep := @firstAt_skip _ before (a ++ [':']) rest (behindKey names bounded read)
    fun s hs hsuffix b => ?_
  · rw [List.append_assoc, List.singleton_append] at hstep
    rw [hstep, List.getLast?_append]
    rfl
  · obtain rfl | ⟨t, rfl, ht⟩ := List.suffix_concat_iff.mp hsuffix
    · exact absurd rfl hs
    · rw [List.append_assoc, List.singleton_append,
        behindKey_colon hnames fun hmem => ha (ht.subset hmem), if_neg fun hname => h t ht hname.1]

/-- Before a colon no key is found but the name of the field, if no other key ends the name. -/
theorem firstAt_field (hnames : AreKeys names) {lead field : List Char} (hlead : ':' ∉ lead)
    (hfield : ':' ∉ field) (hne : field ≠ [])
    (hapart : (lead.getLast?.or before).any Text.isWord = false)
    (hwhole : ∀ s, s <:+ field → s ∈ names.map String.toList → s = field) (rest : List Char) :
    firstAt (behindKey names bounded read) before (lead ++ (field ++ ':' :: rest)) =
      (if field ∈ names.map String.toList then read rest else none).or
        (firstAt (behindKey names bounded read) (some ':') rest) := by
  have hword : ∀ x ∈ names.map String.toList, x ≠ [] ∧ ∀ c ∈ x, Text.isWord c = true := by
    intro x hx
    obtain ⟨name, hname, rfl⟩ := List.mem_map.mp hx
    exact hnames name hname
  -- Up to the field a key would reach over the character before it.
  rw [firstAt_skip fun s hs hsuffix b => ?_]
  · obtain ⟨x, more, rfl⟩ := List.exists_cons_of_ne_nil hne
    rw [List.cons_append, firstAt, ← List.cons_append, behindKey_colon hnames hfield,
      hapart, Bool.and_false]
    simp only [and_true]
    congr 1
    refine firstAt_colon hnames (fun hmem => hfield (List.mem_cons_of_mem x hmem)) (fun s hs hname => ?_) rest
    have hlength := hs.length_le
    rw [hwhole s (hs.trans (List.suffix_cons x more)) hname, List.length_cons] at hlength
    omega
  · have hmem : ':' ∉ s ++ field := fun hmem => (List.mem_append.mp hmem).elim
      (fun h => hlead (hsuffix.subset h)) hfield
    rw [← List.append_assoc, behindKey_colon hnames hmem, if_neg]
    rintro ⟨hname, _⟩
    have hlast : s.getLast? = lead.getLast? := by
      obtain ⟨t, rfl⟩ := hsuffix
      obtain ⟨y, hy⟩ := Option.ne_none_iff_exists'.mp (mt List.getLast?_eq_none_iff.mp hs)
      rw [List.getLast?_append, hy]
      rfl
    have hisWord := (hword _ hname).2 (s.getLast hs) (List.mem_append_left _ (List.getLast_mem hs))
    rw [← hlast, List.getLast?_eq_some_getLast hs, Option.some_or, Option.any_some, hisWord] at hapart
    cases hapart

/-! ### Lines of fields -/

variable {c : Capture}

/-- What stands behind a field: nothing, or a separator. -/
def Ends (rest : List Char) : Prop := rest.head?.all isSeparator = true

theorem Ends.not {q : Char → Bool} (hq : ∀ x, isSeparator x = true → q x = false)
    (h : Ends rest) : rest.head?.all (!q ·) = true := by
  cases rest with
  | nil => rfl
  | cons x rest =>
    have hx : isSeparator x = true := by simpa [Ends] using h
    simp [hq x hx]

/-- The names of fields. -/
def fieldNames : List String := ["capture", "text", "row", "column", "col", "start", "end"]

theorem Field.name_mem (f : Field) : f.name ∈ fieldNames := by
  cases f with
  | column _ long => cases long <;> simp [name, fieldNames]
  | _ => simp [name, fieldNames]

theorem areKeys_of_subset (h : names ⊆ fieldNames) : AreKeys names := by
  have hall : ∀ name ∈ fieldNames, name.toList ≠ [] ∧ name.toList.all Text.isWord = true := by
    decide
  exact fun name hname => (hall name (h hname)).imp_right List.all_eq_true.mp

/-- No name of a field ends with another one. -/
theorem Field.eq_of_suffix (f : Field) (hname : name ∈ fieldNames)
    (h : name.toList <:+ f.name.toList) : name = f.name := by
  have hall : ∀ x ∈ fieldNames, ∀ y ∈ fieldNames, y.toList <:+ x.toList → y = x := by decide
  exact hall _ f.name_mem _ hname h

theorem colon_not_mem_blanks (b : Blanks) : ':' ∉ b.1 := fun h => by
  have hblank := b.2 _ h
  cases hblank

theorem colon_not_mem_numeral (n : Nat) : ':' ∉ numeral n := fun h => by
  have hdecimal := isDecimal_of_mem_numeral h
  revert hdecimal
  decide

theorem PairBlanks.colon_not_mem (p : PairBlanks) (row column : Nat) : ':' ∉ p.print row column := by
  simp [print, colon_not_mem_blanks, colon_not_mem_numeral]

/-- The value of a field holds no colon. -/
theorem Field.colon_not_mem (htext : IsName c.text.toList) (f : Field) : ':' ∉ f.value c := by
  have hword : ':' ∉ c.kind.word.toList := by cases c.kind <;> decide
  have hname := @IsName.not_mem _ htext ':' (by decide)
  cases f with
  | kind b number marked =>
    cases number <;> cases marked <;>
      simp [value, colon_not_mem_blanks, colon_not_mem_numeral, hword]
  | text b quote => cases quote <;> simp [value, Quote.mark, colon_not_mem_blanks, hname]
  | row b => simp [value, colon_not_mem_blanks, colon_not_mem_numeral]
  | column b long => simp [value, colon_not_mem_blanks, colon_not_mem_numeral]
  | start p => exact p.colon_not_mem _ _
  | stop p row column => exact p.colon_not_mem _ _

theorem colon_not_mem_separators {cs : List Char} (h : ∀ x ∈ cs, isSeparator x = true) : ':' ∉ cs :=
  fun hmem => by
    have hcolon := h _ hmem
    revert hcolon
    decide

theorem isWord_eq_false_of_isSeparator {x : Char} (h : isSeparator x = true) :
    Text.isWord x = false := by
  have hkind := (not_isKindChar_of_isSeparator h).1
  simp only [isKindChar, Bool.or_eq_false_iff] at hkind
  exact hkind.1.1

theorem Field.print_append (f : Field) (rest : List Char) :
    f.print c ++ rest = f.name.toList ++ ':' :: (f.value c ++ rest) := by
  rw [print, List.append_assoc, List.cons_append]

theorem printMore_cons (next : Separator × Field)
    (more : List (Separator × Field)) :
    printMore c (next :: more) = next.1.1 ++ (next.2.print c ++ printMore c more) := by
  rw [printMore, List.flatMap_cons, List.append_assoc]
  rfl

/-- Behind a field stands a separator or nothing. -/
theorem ends_printMore
    (more : List (Separator × Field))
    (trail : {cs : List Char // ∀ c ∈ cs, isSeparator c = true}) :
    Ends (printMore c more ++ trail.1) := by
  cases more with
  | nil =>
    obtain ⟨cs, hcs⟩ := trail
    cases cs with
    | nil => rfl
    | cons x cs =>
      show (x :: cs).head?.all isSeparator = true
      simp [hcs x List.mem_cons_self]
  | cons next more =>
    obtain ⟨x, cs, hcons⟩ := List.exists_cons_of_ne_nil next.1.2.1
    rw [printMore_cons, hcons]
    simp [Ends, next.1.2.2 x (hcons ▸ List.mem_cons_self)]

/-- One field: its value is read when its name is looked for. -/
theorem firstAt_print (hnames : names ⊆ fieldNames) {v : α} (f : Field)
    (hvalue : f.name ∈ names → ∀ rest, Ends rest → read (f.value c ++ rest) = some v)
    {lead : List Char} (hlead : ':' ∉ lead)
    (hapart : (lead.getLast?.or before).any Text.isWord = false) (hrest : Ends rest) :
    firstAt (behindKey names bounded read) before (lead ++ (f.print c ++ rest)) =
      (if f.name ∈ names then some v else none).or
        (firstAt (behindKey names bounded read) (some ':') (f.value c ++ rest)) := by
  have hall : AreKeys fieldNames := areKeys_of_subset fun _ h => h
  rw [Field.print_append, firstAt_field (areKeys_of_subset hnames) hlead
    (hall.colon_not_mem f.name_mem) (hall _ f.name_mem).1 hapart fun s hsuffix hs => ?_]
  · congr 1
    have hmem : f.name.toList ∈ names.map String.toList ↔ f.name ∈ names := by
      simp [String.toList_inj]
    simp only [hmem]
    split
    · rename_i hname
      exact hvalue hname rest hrest
    · rfl
  · obtain ⟨name, hname, rfl⟩ := List.mem_map.mp hs
    rw [f.eq_of_suffix (hnames hname) hsuffix]

/-- In a line of fields the keys of the names are found where the fields of these names stand. The
induction is on the fields; `lead` is what stands before the next one. -/
theorem firstAt_fields (htext : IsName c.text.toList) (hnames : names ⊆ fieldNames) {v : α}
    {f : Field} {more : List (Separator × Field)}
    (hvalue : ∀ g ∈ f :: more.map Prod.snd, g.name ∈ names → ∀ rest, Ends rest →
      read (g.value c ++ rest) = some v)
    {lead : List Char} (hlead : ':' ∉ lead)
    (hapart : (lead.getLast?.or before).any Text.isWord = false)
    (trail : {cs : List Char // ∀ c ∈ cs, isSeparator c = true}) :
    firstAt (behindKey names bounded read) before
        (lead ++ (f.print c ++ (printMore c more ++ trail.1))) =
      if ∃ name ∈ namesOf f more, name ∈ names then some v else none := by
  rw [firstAt_print hnames f (hvalue f List.mem_cons_self) hlead hapart (ends_printMore more trail)]
  induction more generalizing f before lead with
  | nil =>
    have hcolon : ':' ∉ f.value c ++ (printMore c [] ++ trail.1) := fun hmem =>
      (List.mem_append.mp hmem).elim (f.colon_not_mem htext) (colon_not_mem_separators trail.2)
    rw [firstAt_eq_none hcolon, Option.or_none]
    simp [namesOf]
  | cons next more ih =>
    have hlead : ':' ∉ f.value c ++ next.1.1 := fun hmem =>
      (List.mem_append.mp hmem).elim (f.colon_not_mem htext) (colon_not_mem_separators next.1.2.2)
    have hapart : ((f.value c ++ next.1.1).getLast?.or (some ':')).any Text.isWord = false := by
      have hlast := List.getLast_mem next.1.2.1
      rw [List.getLast?_append, List.getLast?_eq_some_getLast next.1.2.1]
      exact isWord_eq_false_of_isSeparator (next.1.2.2 _ hlast)
    have hvalues : ∀ g ∈ next.2 :: more.map Prod.snd, g.name ∈ names → ∀ rest, Ends rest →
        read (g.value c ++ rest) = some v := fun g hg => hvalue g (List.mem_cons_of_mem f hg)
    rw [printMore_cons, List.append_assoc, List.append_assoc, ← List.append_assoc (f.value c),
      firstAt_print hnames next.2 (hvalues _ List.mem_cons_self) hlead hapart
        (ends_printMore more trail), ih hvalues hlead hapart]
    have hiff : (∃ name ∈ namesOf f (next :: more), name ∈ names) ↔
        f.name ∈ names ∨ ∃ name ∈ namesOf next.2 more, name ∈ names := by
      simp [namesOf]
    simp only [hiff]
    by_cases hname : f.name ∈ names <;> simp [hname]

/-! ### Values -/

/-- The kind name here, behind its mark if it has one. -/
def markedKind? (cs : List Char) : Option (List Char) :=
  (run? isKindChar (match cs with
    | '@' :: rest => rest
    | _ => cs)).map (·.1)

theorem keyedKind?_eq (cs : List Char) : keyedKind? cs =
    (do
      let (_, rest) ← run? Text.isDecimal (skipBlanks cs)
      markedKind? (skipBlanks (← mark? '-' rest))).or (markedKind? (skipBlanks cs)) := rfl

/-- A kind and its mark begin with neither a blank nor a digit, and name the kind. -/
theorem markedKind?_word (marked : Bool) (hrest : Ends rest) {cs : List Char}
    (hcs : cs = (if marked then ['@'] else []) ++ (c.kind.word.toList ++ rest)) :
    cs.head?.all (!Text.isBlank ·) = true ∧ cs.head?.all (!Text.isDecimal ·) = true ∧
      markedKind? cs = some c.kind.word.toList := by
  have hword := run?_word c.kind (hrest.not fun x hx => (not_isKindChar_of_isSeparator hx).1)
  obtain ⟨x, word, hcons⟩ := List.exists_cons_of_ne_nil (word_ne_nil c.kind)
  have hx : Text.isBlank x = false ∧ Text.isDecimal x = false ∧ x ≠ '@' := by
    cases h : c.kind <;> rw [h] at hcons <;> cases hcons <;> decide
  subst hcs
  cases marked with
  | true =>
    refine ⟨rfl, rfl, ?_⟩
    simp [markedKind?, hword]
  | false =>
    rw [hcons] at hword ⊢
    refine ⟨by simp [hx], by simp [hx], ?_⟩
    rw [if_neg Bool.false_ne_true, List.nil_append, List.cons_append, markedKind?,
      ← List.cons_append, hword]
    · rfl
    · intro more heq
      exact absurd (List.cons.inj heq).1 hx.2.2

/-- The kind of a field is read behind its number. -/
theorem keyedKind?_value (b : Blanks) (number : Option (Nat × Blanks × Blanks)) (marked : Bool)
    (hrest : Ends rest) :
    keyedKind? ((Field.kind b number marked).value c ++ rest) = some c.kind.word.toList := by
  generalize hcs : (if marked then ['@'] else []) ++ (c.kind.word.toList ++ rest) = cs
  obtain ⟨hblank, hdecimal, hnamed⟩ := markedKind?_word marked hrest hcs.symm
  have hskip : skipBlanks cs = cs := skipBlanks_solid hblank
  rw [keyedKind?_eq]
  unfold Field.value
  cases number with
  | none =>
    have hnone : run? Text.isDecimal cs = none := run?_eq_none hdecimal
    simp only [Option.elim_none, List.nil_append, List.append_assoc, hcs, skipBlanks_blanks, hskip,
      hnone, Option.bind_eq_bind, Option.bind_none, Option.none_or, hnamed]
  | some number =>
    obtain ⟨n, before, after⟩ := number
    have hends : (before.1 ++ '-' :: (after.1 ++ cs)).head?.all (!Text.isDecimal ·) = true :=
      head?_blanks_append (fun y hy => (Text.not_isWord_of_isBlank hy).2) before (by simp; decide)
    have hhyphen : mark? '-' (before.1 ++ '-' :: (after.1 ++ cs)) = some (after.1 ++ cs) :=
      mark?_blanks before (by decide) _
    simp only [Option.elim_some, List.append_assoc, List.cons_append, hcs, skipBlanks_blanks,
      skipBlanks_solid (numeral_solid n _), run?_numeral n hends, Option.bind_eq_bind,
      Option.bind_some, hhyphen, hskip, hnamed, Option.some_or]

/-! ### Key-value lines -/

/-- The numeral behind blanks. -/
def count? (cs : List Char) : Option (List Char) := (number? cs).map (·.1)

/-- Each field is read back by the reader of its name. -/
structure Field.ReadsBack (c : Capture) (f : Field) (rest : List Char) : Prop where
  kind : f.name = "capture" → keyedKind? (f.value c ++ rest) = some c.kind.word.toList
  text : f.name = "text" → keyedText? (f.value c ++ rest) = some c.text.toList
  row : f.name = "row" → count? (f.value c ++ rest) = some (numeral c.row)
  column : f.name = "col" ∨ f.name = "column" →
    count? (f.value c ++ rest) = some (numeral c.location.column)
  start : f.name = "start" →
    (pair? (f.value c ++ rest)).map (·.1) = some (numeral c.row, numeral c.location.column)

theorem Field.readsBack (htext : IsName c.text.toList) (f : Field) (hrest : Ends rest) :
    f.ReadsBack c rest := by
  have hcount : ∀ (b : Blanks) (n : Nat), count? (b.1 ++ (numeral n ++ rest)) = some (numeral n) := by
    intro b n
    rw [count?, number?_numeral b n (hrest.not fun x hx => (not_isKindChar_of_isSeparator hx).2)]
    rfl
  cases f with
  | kind b number marked =>
    exact ⟨fun _ => keyedKind?_value b number marked hrest, by simp [name], by simp [name],
      by simp [name], by simp [name]⟩
  | text b quote =>
    refine ⟨by simp [name], fun _ => ?_, by simp [name], by simp [name], by simp [name]⟩
    rw [value, List.append_assoc, List.cons_append, List.append_assoc]
    exact keyedText?_quoted htext b quote rest
  | row b =>
    refine ⟨by simp [name], by simp [name], fun _ => ?_, by simp [name], by simp [name]⟩
    rw [value, List.append_assoc]
    exact hcount b _
  | column b long =>
    refine ⟨?_, ?_, ?_, fun _ => ?_, ?_⟩
    case refine_4 =>
      rw [value, List.append_assoc]
      exact hcount b _
    all_goals cases long <;> simp [name]
  | start p =>
    refine ⟨by simp [name], by simp [name], by simp [name], by simp [name], fun _ => ?_⟩
    rw [value, pair?_print]
    rfl
  | stop p endRow endColumn =>
    exact ⟨by simp [name], by simp [name], by simp [name], by simp [name], by simp [name]⟩

/-- The keys of a key-value line are found where its fields stand. -/
theorem firstAt_keyValue (htext : IsName c.text.toList) (hnames : names ⊆ fieldNames) {v : α}
    (hvalue : ∀ f : Field, f.name ∈ names → ∀ rest, f.ReadsBack c rest →
      read (f.value c ++ rest) = some v) (s : KeyValueSpelling) :
    firstAt (behindKey names bounded read) none (s.print c) =
      if ∃ name ∈ namesOf s.first s.more, name ∈ names then some v else none := by
  refine firstAt_fields htext hnames (fun f _ hf rest hrest => hvalue f hf rest
    (f.readsBack htext hrest)) (colon_not_mem_blanks s.lead) ?_ s.trail
  rw [Option.or_none]
  cases hlast : s.lead.1.getLast? with
  | none => rfl
  | some x => exact (Text.not_isWord_of_isBlank (s.lead.2 x (List.mem_of_getLast? hlast))).1

/-- A key-value line is read back. -/
theorem keyValueFields?_print (s : KeyValueSpelling) (htext : IsName c.text.toList) :
    keyValueFields? (s.print c) = some ⟨c.kind.word.toList, numeral c.row,
      numeral c.location.column, c.text.toList⟩ := by
  have hkind : search (key "capture") false keyedKind? none (s.print c) =
      some c.kind.word.toList := by
    rw [search_eq, firstAt_keyValue htext (by decide)
      (fun f hf rest h => h.kind (List.mem_singleton.mp hf)), if_pos ⟨_, s.hasKind, by simp⟩]
  have hname : search (key "text") false keyedText? none (s.print c) = some c.text.toList := by
    rw [search_eq, firstAt_keyValue htext (by decide)
      (fun f hf rest h => h.text (List.mem_singleton.mp hf)), if_pos ⟨_, s.hasText, by simp⟩]
  have hstart : search (key "start") false (fun cs => (pair? cs).map (·.1)) none (s.print c) =
      if "start" ∈ namesOf s.first s.more then some (numeral c.row, numeral c.location.column)
      else none := by
    rw [search_eq, firstAt_keyValue htext (by decide)
      (fun f hf rest h => h.start (List.mem_singleton.mp hf))]
    simp
  have hrow : "row" ∈ namesOf s.first s.more →
      search (key "row") true count? none (s.print c) = some (numeral c.row) := by
    intro hmem
    rw [search_eq, firstAt_keyValue htext (by decide)
      (fun f hf rest h => h.row (List.mem_singleton.mp hf)), if_pos ⟨_, hmem, by simp⟩]
  have hcolumn : "col" ∈ namesOf s.first s.more ∨ "column" ∈ namesOf s.first s.more →
      keyValueFields?.searchColumn count? none (s.print c) = some (numeral c.location.column) := by
    intro hmem
    rw [searchColumn_eq, firstAt_keyValue htext (by decide)
      (fun f hf rest h => h.column (by simpa using hf)), if_pos]
    rcases hmem with hmem | hmem
    · exact ⟨_, hmem, by simp⟩
    · exact ⟨_, hmem, by simp⟩
  have hescape := unescapeQuotes_eq_self (htext.not_mem (by decide))
  unfold keyValueFields?
  simp only [hkind, hname, hstart, Option.bind_eq_bind, Option.bind_some]
  split
  · simp [hescape]
  · rename_i hnone
    obtain ⟨hhasRow, hhasColumn⟩ := s.hasPosition.resolve_left hnone
    have hrow := hrow hhasRow
    have hcolumn := hcolumn hhasColumn
    unfold count? at hrow hcolumn
    simp [hrow, hcolumn, hescape]

/-- The key-value dialect reads no line in which no kind is named. -/
theorem keyValueFields?_eq_none {line : List Char}
    (h : firstAt (behindKey ["capture"] false keyedKind?) none line = none) :
    keyValueFields? line = none := by
  unfold keyValueFields?
  rw [search_eq, h]
  rfl

end

end SymbolRename.Dialect
