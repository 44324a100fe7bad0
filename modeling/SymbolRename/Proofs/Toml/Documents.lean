import SymbolRename.Proofs.Toml.Values

/-!
# Reading back documents

A document is written as statements in a row: headers of tables, members with their settings, and
empty lines between the tables. `Adds` says what one statement makes of the document that was read
before it, `Builds` what statements in a row do. What is built is what `parse?` reads.
-/

namespace SymbolRename.Toml

/-! ### Members -/

section

variable {key : String} {v w : Toml} {members : Members}

theorem lookup_eq_none (h : key ∉ members.map Prod.fst) : members.lookup key = none := by
  rw [List.lookup_eq_none_iff]
  intro entry hentry
  rw [bne_iff_ne]
  rintro rfl
  exact h (List.mem_map_of_mem hentry)

/-- A new member comes last. -/
theorem setMember_of_not_mem (h : key ∉ members.map Prod.fst) :
    setMember key v members = members ++ [(key, v)] := by
  induction members with
  | nil => rfl
  | cons entry rest ih =>
    rw [List.map_cons, List.mem_cons, not_or] at h
    rw [setMember, if_neg (Ne.symm h.1), ih h.2, List.cons_append]

/-- The last member is set in its place. -/
theorem setMember_append_self (h : key ∉ members.map Prod.fst) :
    setMember key v (members ++ [(key, w)]) = members ++ [(key, v)] := by
  induction members with
  | nil => simp [setMember]
  | cons entry rest ih =>
    rw [List.map_cons, List.mem_cons, not_or] at h
    rw [List.cons_append, setMember, if_neg (Ne.symm h.1), ih h.2, List.cons_append]

theorem lookup_append_self (h : key ∉ members.map Prod.fst) :
    (members ++ [(key, v)]).lookup key = some v := by
  rw [List.lookup_append, lookup_eq_none h]
  simp

/-- A member is added after the others to the last table. -/
theorem change_addValue {name : String} {entries : Members} (hname : name ∉ members.map Prod.fst)
    (hkey : key ∉ entries.map Prod.fst) :
    change .implied (addValue [] key v) [name] .header
        (members ++ [(name, .table .header entries)]) =
      some (.header, members ++ [(name, .table .header (entries ++ [(key, v)]))]) := by
  have hadd : change .implied (addValue [] key v) [] .header entries =
      some (.header, entries ++ [(key, v)]) := by
    simp [change, addValue, addMember, lookup_eq_none hkey, setMember_of_not_mem hkey]
  rw [change, lookup_append_self hname]
  simp [hadd, setMember_append_self hname]

end

/-! ### Statements -/

/-- A line of a document, or several if a list or a string takes them. -/
inductive Statement
  | blank
  | header (name : String)
  | member (key : String) (v : Setting)
deriving DecidableEq, Repr

/-- How a statement is written. -/
def Statement.text : Statement → String
  | blank => "\n"
  | header name => "[" ++ name ++ "]\n"
  | member key v => line key v.written

/-- A name that needs no quotes. -/
def IsKey (name : String) : Prop :=
  name.toList ≠ [] ∧ ∀ c ∈ name.toList, Reader.isKeyChar c = true

open Reader

/-- What is known of the first character of a key. -/
theorem exists_cons_of_isKey {name : String} (h : IsKey name) :
    ∃ c cs, name.toList = c :: cs ∧ isKeyChar c = true := by
  obtain ⟨c, cs, hcons⟩ := List.exists_cons_of_ne_nil h.1
  exact ⟨c, cs, hcons, h.2 c (hcons ▸ List.mem_cons_self)⟩

theorem ne_of_isKeyChar {c d : Char} (hc : isKeyChar c = true) (hd : isKeyChar d = false) :
    c ≠ d := by
  rintro rfl
  rw [hc] at hd
  cases hd

/-- What a statement makes of a draft. -/
inductive Adds : Draft → Statement → Draft → Prop
  | blank (d : Draft) : Adds d .blank d
  | header {d : Draft} {name : String} (hkey : IsKey name) (hnew : name ∉ d.members.map Prod.fst) :
    Adds d (.header name) ⟨[name], d.members ++ [(name, .table .header [])]⟩
  | member {name key : String} {earlier entries : Members} {v : Setting} (hkey : IsKey key)
    (hsmall : v.IsSmall) (hname : name ∉ earlier.map Prod.fst)
    (hnew : key ∉ entries.map Prod.fst) :
    Adds ⟨[name], earlier ++ [(name, .table .header entries)]⟩ (.member key v)
      ⟨[name], earlier ++ [(name, .table .header (entries ++ [(key, v.value)]))]⟩

/-- What statements in a row make of a draft. -/
inductive Builds : Draft → List Statement → Draft → Prop
  | nil (d : Draft) : Builds d [] d
  | cons {d e f : Draft} {s : Statement} {rest : List Statement} (h : Adds d s e)
    (h' : Builds e rest f) : Builds d (s :: rest) f

theorem Builds.append {d e f : Draft} {first more : List Statement} (h : Builds d first e)
    (h' : Builds e more f) : Builds d (first ++ more) f := by
  induction h with
  | nil d => exact h'
  | cons hadds _ ih => exact .cons hadds (ih h')

/-- Members with names of their own are added in order. -/
theorem builds_members {name : String} {earlier : Members} (hname : name ∉ earlier.map Prod.fst)
    {settings : List (String × Setting)} (hkeys : ∀ s ∈ settings, IsKey s.1 ∧ s.2.IsSmall)
    {entries : Members} (hnodup : (entries.map Prod.fst ++ settings.map Prod.fst).Nodup) :
    Builds ⟨[name], earlier ++ [(name, .table .header entries)]⟩
      (settings.map fun s => .member s.1 s.2)
      ⟨[name], earlier ++
        [(name, .table .header (entries ++ settings.map fun s => (s.1, s.2.value)))]⟩ := by
  induction settings generalizing entries with
  | nil =>
    rw [List.map_nil, List.map_nil, List.append_nil]
    exact .nil _
  | cons s settings ih =>
    obtain ⟨hs, hrest⟩ := List.forall_mem_cons.mp hkeys
    rw [List.map_cons, List.append_cons] at hnodup
    have hnew : s.1 ∉ entries.map Prod.fst := by
      have hfirst := hnodup.of_append_left
      rw [List.nodup_append] at hfirst
      exact fun hmem => hfirst.2.2 _ hmem _ List.mem_cons_self rfl
    have hmore := @ih hrest (entries ++ [(s.1, s.2.value)]) (by simpa using hnodup)
    rw [List.append_assoc, List.singleton_append] at hmore
    exact .cons (.member hs.1 hs.2 hname hnew) hmore

/-- A table that was not there yet is added with its members. -/
theorem builds_table {d : Draft} {name : String} (hkey : IsKey name)
    (hname : name ∉ d.members.map Prod.fst) {settings : List (String × Setting)}
    (hkeys : ∀ s ∈ settings, IsKey s.1 ∧ s.2.IsSmall) (hnodup : (settings.map Prod.fst).Nodup) :
    Builds d (.header name :: settings.map fun s => .member s.1 s.2)
      ⟨[name], d.members ++
        [(name, .table .header (settings.map fun s => (s.1, s.2.value)))]⟩ :=
  .cons (.header hkey hname) (builds_members hname hkeys hnodup)

/-- A statement has a first character, which is no mark of the order of bytes. -/
theorem Adds.exists_text_eq_cons {d e : Draft} {s : Statement} (h : Adds d s e) :
    ∃ c cs, s.text.toList = c :: cs ∧ c ≠ byteOrderMark := by
  cases h with
  | blank d => exact ⟨_, [], rfl, by decide⟩
  | @header d name hkey hnew =>
    exact ⟨'[', name.toList ++ [']', '\n'], by simp [Statement.text], by decide⟩
  | @member name key earlier entries v hkey hsmall hname hnew =>
    obtain ⟨c, cs, hcons, hc⟩ := exists_cons_of_isKey hkey
    refine ⟨c, cs ++ " = ".toList ++ v.written.toList ++ ['\n'], ?_, ?_⟩
    · simp [Statement.text, line, ToString.toString, hcons]
    · exact ne_of_isKeyChar hc (by decide)

theorem Builds.length_le {d e : Draft} {l : List Statement} (h : Builds d l e) :
    l.length ≤ (l.flatMap fun s => s.text.toList).length := by
  induction h with
  | nil d => exact Nat.zero_le _
  | cons hadds _ ih =>
    obtain ⟨c, cs, hcons, -⟩ := hadds.exists_text_eq_cons
    rw [List.flatMap_cons, List.length_append, hcons, List.length_cons, List.length_cons]
    omega

namespace Reader

section

variable {rest : List Char} {name : String}

theorem take_isKey_false (h : IsKey name) {mark : String} {d : Char} {ds : List Char}
    (hmark : mark.toList = d :: ds) (hd : isKeyChar d = false) :
    Reads (take mark) [] (name.toList ++ rest) false := by
  obtain ⟨c, cs, hcons, hc⟩ := exists_cons_of_isKey h
  refine reads_take_false ?_
  simp [hmark, hcons, List.isPrefixOf, Ne.symm (ne_of_isKeyChar hc hd)]

theorem reads_key (h : IsKey name) (hrest : ∀ c ∈ rest.head?, isKeyChar c = false) :
    Reads key name.toList rest name := by
  refine (take_isKey_false h rfl (by decide)).look ?_
  refine (take_isKey_false h rfl (by decide)).look ?_
  refine (reads_takeRun h.2 hrest).answer ?_
  rw [if_neg (by simpa using h.1), String.ofList_toList]
  exact Reads.pure _ _

/-- A key of one part is read, with the blanks after it. -/
theorem reads_dottedKey (h : IsKey name) {gap : List Char} (hgap : ∀ c ∈ gap, isBlank c = true)
    {c : Char} (hblank : isBlank c = false) (hdot : c ≠ '.')
    (hend : ∀ d ∈ (gap ++ [c]).head?, isKeyChar d = false) (rest : List Char) :
    Reads dottedKey (name.toList ++ gap) (c :: rest) ([], name) := by
  have hkey : Reads key name.toList (gap ++ c :: rest) name := reads_key h (by
    cases gap with
    | nil => exact hend
    | cons d gap => exact hend)
  have hblanks : Reads blanks gap (c :: rest) () := reads_blanks hgap (by
    intro d hd
    cases hd
    exact hblank)
  have hnone : Reads (take ".") [] (c :: rest) false := reads_take_false (by
    simp [List.isPrefixOf, Ne.symm hdot])
  have hmore : ∀ fuel, Reads (moreKeys (fuel + 1)) gap (c :: rest) [] := fun fuel => by
    rw [moreKeys]
    exact hblanks.answer (hnone.look (Reads.pure _ _))
  refine hkey.bind (Reads.get ?_)
  exact (hmore _).answer (Reads.pure _ _)

theorem reads_update {d : Draft} {header path : List String} {members : Members}
    {f : TableOrigin → Members → Option (TableOrigin × Members)} {o : TableOrigin}
    (h : change .implied f path .header d.members = some (o, members)) (rest : List Char) :
    Reads (d.update header path f) [] rest ⟨header, members⟩ := by
  unfold Draft.update
  rw [h]
  exact Reads.pure _ _

/-! ### Each statement -/

theorem reads_blank (d : Draft) (rest : List Char) : Reads (statement d) ['\n'] rest d := by
  have hblanks : Reads blanks [] (['\n'] ++ rest) () :=
    reads_blanks (List.forall_mem_nil _) (by simp [isBlank])
  refine hblanks.look (Reads.get ?_)
  exact (reads_endOfLine rest).answer (Reads.pure _ _)

theorem not_isBlank_of_isKeyChar {c : Char} (h : isKeyChar c = true) : isBlank c = false := by
  have hspace := ne_of_isKeyChar h (d := ' ') (by decide)
  have htab := ne_of_isKeyChar h (d := '\t') (by decide)
  simp [isBlank, hspace, htab]

theorem reads_blanks_isKey (h : IsKey name) : Reads blanks [] (name.toList ++ rest) () := by
  obtain ⟨c, cs, hcons, hc⟩ := exists_cons_of_isKey h
  refine reads_blanks (List.forall_mem_nil _) ?_
  rw [hcons]
  intro d hd
  cases hd
  exact not_isBlank_of_isKeyChar hc

/-- A header is read up to the end of its line. -/
theorem reads_header {d : Draft} (hkey : IsKey name) (hnew : name ∉ d.members.map Prod.fst)
    (rest : List Char) : Reads (statement d) ('[' :: (name.toList ++ [']', '\n'])) rest
      ⟨[name], d.members ++ [(name, .table .header [])]⟩ := by
  have hadd : change .implied (addHeader name) [] .header d.members =
      some (.header, d.members ++ [(name, .table .header [])]) := by
    simp [change, addHeader, lookup_eq_none hnew, setMember_of_not_mem hnew]
  have hname : Reads dottedKey (name.toList ++ []) (']' :: ('\n' :: rest)) ([], name) :=
    reads_dottedKey hkey (List.forall_mem_nil _) (by decide) (by decide) (by simp [isKeyChar]) _
  have hheader : Reads (header d "]" addHeader) (name.toList ++ [']', '\n']) rest
      ⟨[name], d.members ++ [(name, .table .header [])]⟩ := by
    have hblanks : Reads blanks [] (name.toList ++ [']', '\n'] ++ rest) () := by
      rw [List.append_assoc]
      exact reads_blanks_isKey hkey
    rw [List.append_nil] at hname
    refine hblanks.look (hname.bind ?_)
    refine (reads_expect "]" _).bind ?_
    exact (reads_endOfLine rest).answer (reads_update hadd rest)
  have hblanks : Reads blanks [] ('[' :: (name.toList ++ [']', '\n']) ++ rest) () :=
    reads_blanks (List.forall_mem_nil _) (by simp [isBlank])
  have hlist : Reads (take "[[") [] ('[' :: (name.toList ++ [']', '\n']) ++ rest) false := by
    obtain ⟨c, cs, hcons, hc⟩ := exists_cons_of_isKey hkey
    have hne := ne_of_isKeyChar hc (d := '[') (by decide)
    exact reads_take_false (by simp [hcons, List.isPrefixOf, Ne.symm hne])
  refine hblanks.look (Reads.get ?_)
  rw [List.cons_append, List.head?_cons]
  dsimp only
  rw [if_neg (by decide)]
  refine hlist.look ?_
  exact (reads_take "[" _).bind hheader

/-- What a setting is written as begins with no blank. -/
theorem head?_written (v : Setting) :
    ∀ c ∈ (v.written.toList ++ rest).head?, isBlank c = false := by
  cases v with
  | string s =>
    obtain ⟨c, cs, hquoted, rfl | rfl⟩ := exists_quoted_eq_cons s
    · simp [Setting.written, hquoted, isBlank]
    · simp [Setting.written, hquoted, isBlank]
  | strings items =>
    unfold Setting.written quotedList
    dsimp only
    split <;> simp [isBlank]
  | boolean b => cases b <;> simp [Setting.written, isBlank]
  | count n =>
    rw [Setting.toList_written_count, List.head?_append_of_ne_nil _ Nat.toDigits_ne_nil]
    intro c hc
    have hdigit := Count.isDigit_of_mem_toDigits (List.mem_of_mem_head? hc)
    exact not_isBlank_of_isKeyChar (by simp [isKeyChar, Char.isAlphanum, hdigit])

/-- A member is read up to the end of the line of its value. -/
theorem reads_member {d : Draft} {key : String} {v : Setting} {members : Members}
    (hkey : IsKey key) (hsmall : v.IsSmall)
    (hadd : change .implied (addValue [] key v.value) d.header .header d.members =
      some (.header, members)) (rest : List Char) :
    Reads (statement d)
      (key.toList ++ [' '] ++ (['='] ++ ([' '] ++ (v.written.toList ++ ['\n'])))) rest
      ⟨d.header, members⟩ := by
  have hname : Reads dottedKey (key.toList ++ [' '])
      ('=' :: ([' '] ++ (v.written.toList ++ ['\n']) ++ rest)) ([], key) :=
    reads_dottedKey hkey (by simp [isBlank]) (by decide) (by decide) (by simp [isKeyChar]) _
  have hgap : Reads blanks [' '] (v.written.toList ++ ['\n'] ++ rest) () := by
    rw [List.append_assoc]
    exact reads_blanks (by simp [isBlank]) (head?_written v)
  have hvalue : Reads (value ((v.written.toList ++ ['\n'] ++ rest).length + 1) depthLimit)
      v.written.toList ('\n' :: rest) v.value := by
    refine reads_written 79 v hsmall ?_ rest
    rw [← String.length_toList, List.length_append, List.length_append]
    exact Nat.lt_of_lt_of_le (Nat.lt_succ_self _) (Nat.le_add_right _ _)
  have hmark : ∀ {mark : String} {m : Char} {ms : List Char}, mark.toList = m :: ms →
      isKeyChar m = false → Reads (take mark) [] (key.toList ++ [' '] ++
        (['='] ++ ([' '] ++ (v.written.toList ++ ['\n']))) ++ rest) false := by
    intro mark m ms hmark hm
    rw [List.append_assoc, List.append_assoc]
    exact take_isKey_false hkey hmark hm
  have hblanks : Reads blanks [] (key.toList ++ [' '] ++
      (['='] ++ ([' '] ++ (v.written.toList ++ ['\n']))) ++ rest) () := by
    rw [List.append_assoc, List.append_assoc]
    exact reads_blanks_isKey hkey
  obtain ⟨c, cs, hcons, hc⟩ := exists_cons_of_isKey hkey
  have hhead : (key.toList ++ [' '] ++ (['='] ++ ([' '] ++ (v.written.toList ++ ['\n']))) ++
      rest).head? = some c := by
    rw [hcons]
    rfl
  have hstart : ¬(c = '#' ∨ c = '\n' ∨ c = '\r') := by
    rintro (rfl | rfl | rfl) <;> exact absurd hc (by decide)
  refine hblanks.look (Reads.get ?_)
  rw [hhead]
  dsimp only
  rw [if_neg hstart]
  refine (hmark rfl (by decide)).look ?_
  refine (hmark rfl (by decide)).look ?_
  refine hname.bind ((reads_expect "=" _).bind ?_)
  refine hgap.bind (Reads.get ?_)
  refine hvalue.bind ?_
  exact (reads_endOfLine rest).answer (reads_update hadd rest)

/-- A statement is read, whatever follows. -/
theorem reads_statement {d e : Draft} {s : Statement} (h : Adds d s e) (rest : List Char) :
    Reads (statement d) s.text.toList rest e := by
  cases h with
  | blank d => exact reads_blank d rest
  | @header d name hkey hnew =>
    have htext : (Statement.header name).text.toList = '[' :: (name.toList ++ [']', '\n']) := by
      simp [Statement.text]
    rw [htext]
    exact reads_header hkey hnew rest
  | @member name key earlier entries v hkey hsmall hname hnew =>
    have htext : (Statement.member key v).text.toList =
        key.toList ++ [' '] ++ (['='] ++ ([' '] ++ (v.written.toList ++ ['\n']))) := by
      simp [Statement.text, line, ToString.toString]
    rw [htext]
    exact reads_member hkey hsmall (change_addValue hname hnew) rest

/-! ### Documents -/

/-- Statements are read one after the other, to the end. -/
theorem reads_statements {d e : Draft} {l : List Statement} (h : Builds d l e) {fuel : Nat}
    (hfuel : l.length < fuel) :
    Reads (statements fuel d) (l.flatMap fun s => s.text.toList) [] e := by
  induction h generalizing fuel with
  | nil d =>
    obtain ⟨fuel, rfl⟩ := Nat.exists_eq_add_one_of_ne_zero (Nat.ne_of_gt hfuel)
    rfl
  | @cons d e f s rest hadds _ ih =>
    obtain ⟨fuel, rfl⟩ := Nat.exists_eq_add_one_of_ne_zero (Nat.ne_of_gt (Nat.zero_lt_of_lt hfuel))
    have hrest := ih (Nat.lt_of_succ_lt_succ hfuel)
    have hmore : Reads atEnd [] ((s :: rest).flatMap (fun s => s.text.toList) ++ []) false := by
      obtain ⟨c, cs, hcons, -⟩ := hadds.exists_text_eq_cons
      rw [List.flatMap_cons, hcons]
      rfl
    rw [statements]
    refine hmore.look ?_
    rw [List.flatMap_cons]
    exact (reads_statement hadds _).bind hrest

end

end Reader

/-- What statements build is what is read from their text. -/
theorem parse?_of_builds {l : List Statement} {e : Draft} (h : Builds {} l e) :
    parse? (String.join (l.map Statement.text)) = some e.members := by
  have htext : (String.join (l.map Statement.text)).toList =
      l.flatMap fun s => s.text.toList := by
    rw [String.toList_join, List.flatMap_map]
  have hmark : (l.flatMap fun s => s.text.toList).head? ≠ some byteOrderMark := by
    cases h with
    | nil => exact nofun
    | cons hadds _ =>
      obtain ⟨c, cs, hcons, hc⟩ := hadds.exists_text_eq_cons
      rw [List.flatMap_cons, hcons]
      simpa using hc
  have hread := reads_statements h (Nat.lt_succ_of_le h.length_le)
  rw [Reads, List.append_nil] at hread
  unfold parse?
  dsimp only
  rw [htext, if_neg hmark]
  exact congrArg (Option.map _) hread

end SymbolRename.Toml
