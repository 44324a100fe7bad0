import SymbolRename.Batch
import SymbolRename.Proofs.Plan.Steps
import SymbolRename.Proofs.Rename.Substitution
import SymbolRename.Proofs.Rewrite.Renaming

/-!
# Temporary names are new to the project

Planning reads off the searched files every word that begins like a temporary name. A word
of code that could be a temporary name is therefore taken, and no plan allocates it.
-/

namespace SymbolRename

/-! ### Scanning a text -/

theorem Batch.lt_of_isTempChar {c : Char} (h : isTempChar c = true) : c.toNat < 0x80 := by
  simp only [isTempChar, Bool.or_eq_true, beq_iff_eq] at h
  rcases h with (h | rfl) | rfl
  · exact Char.lt_of_isAlphanum h
  · decide
  · decide

/-- The ASCII bytes of words are read as the characters of temporary names. -/
theorem Batch.isTempChar_ofNat {b : UInt8} (hb : b < 0x80) :
    isTempChar (Char.ofNat b.toNat) = isIdentifierByte b := by
  have hall : ∀ n < 128, isTempChar (Char.ofNat n) = isIdentifierByte n.toUInt8 := by
    decide +kernel
  have h := hall b.toNat (UInt8.lt_iff_toNat_lt.mp hb)
  rwa [show b.toNat.toUInt8 = b by simp] at h

/-- A run of name characters stops within a text that does not end with one. -/
theorem Batch.takeWhile_append_of_last {u rest : List Char}
    (hu : u.getLast?.any isTempChar = false) (hne : u ≠ []) :
    (u ++ rest).takeWhile isTempChar = u.takeWhile isTempChar := by
  rw [List.takeWhile_append, if_neg]
  intro hlength
  have hall : u.takeWhile isTempChar = u := (List.takeWhile_prefix _).eq_of_length hlength
  have hlast := List.getLast_mem hne
  rw [List.getLast?_eq_some_getLast hne, Option.any_some] at hu
  have hmem : isTempChar (u.getLast hne) = true := by
    refine List.mem_takeWhile_imp (l := u) ?_
    rw [hall]
    exact hlast
  rw [hu] at hmem
  cases hmem

/-- The characters of the mark are those of temporary names. -/
theorem Batch.isTempChar_tempMark : ∀ c ∈ Plan.tempMark.toList, isTempChar c = true :=
  List.all_eq_true.mp (by decide +kernel)

/-- Where the mark stands, the scan reads the whole run of name characters. -/
theorem Batch.tempNamesIn_mark {cs : List Char} (h : Plan.tempMark.toList <+: cs) :
    Plan.tempMark.toList ++ (cs.drop Plan.tempMark.toList.length).takeWhile isTempChar =
      cs.takeWhile isTempChar := by
  obtain ⟨rest, rfl⟩ := h
  rw [List.drop_left, List.takeWhile_append_of_pos isTempChar_tempMark]

/-- A run of name characters at the head of a text is found if it begins with the mark. -/
theorem Batch.mem_tempNamesIn_head {w v : List Char} (hmark : Plan.tempMark.toList <+: w)
    (hw : ∀ c ∈ w, isTempChar c = true) (hv : v.head?.any isTempChar = false) :
    String.ofList w ∈ tempNamesIn 0 (w ++ v) := by
  have hprefix : Plan.tempMark.toList <+: w ++ v := hmark.trans (List.prefix_append w v)
  obtain ⟨c, more, hcons⟩ : ∃ c more, w ++ v = c :: more := by
    obtain ⟨rest, hrest⟩ := hprefix
    exact ⟨'_', _, hrest.symm⟩
  have hname := tempNamesIn_mark hprefix
  rw [takeWhile_append_of_head hw hv] at hname
  rw [hcons, tempNamesIn, if_neg (Nat.lt_irrefl 0)]
  rw [hcons] at hprefix hname
  simp only [List.isPrefixOf_iff_prefix.mpr hprefix, if_true, hname]
  exact List.mem_cons_self

/-- One step of the scan before a run that begins in `rest`: what is found behind the character is
found, and what is then skipped still lies within the name characters in front of the run. -/
theorem Batch.exists_tempNamesIn_subset {c : Char} {u : List Char} (rest : List Char)
    (hu : (c :: u).getLast?.any isTempChar = false) {skip : Nat}
    (hskip : skip ≤ ((c :: u).takeWhile isTempChar).length) :
    ∃ next ≤ (u.takeWhile isTempChar).length,
      tempNamesIn next (u ++ rest) ⊆ tempNamesIn skip (c :: (u ++ rest)) := by
  have hhead : ((c :: u).takeWhile isTempChar).length - 1 ≤ (u.takeWhile isTempChar).length := by
    rw [List.takeWhile_cons]
    split <;> simp
  rw [tempNamesIn]
  split
  · exact ⟨skip - 1, by omega, List.Subset.refl _⟩
  · dsimp only
    split
    · rename_i hprefix
      rw [tempNamesIn_mark (List.isPrefixOf_iff_prefix.mp hprefix), ← List.cons_append,
        takeWhile_append_of_last hu (List.cons_ne_nil _ _)]
      exact ⟨_, hhead, List.subset_cons_self _ _⟩
    · exact ⟨0, Nat.zero_le _, List.Subset.refl _⟩

/-- The scan finds every run of name characters that begins with the mark. The induction is
on the text before the run; what the scan still skips lies within the run of name
characters at its head. -/
theorem Batch.mem_tempNamesIn {u w v : List Char} (hmark : Plan.tempMark.toList <+: w)
    (hw : ∀ c ∈ w, isTempChar c = true) (hu : u.getLast?.any isTempChar = false)
    (hv : v.head?.any isTempChar = false) {skip : Nat}
    (hskip : skip ≤ (u.takeWhile isTempChar).length) :
    String.ofList w ∈ tempNamesIn skip (u ++ (w ++ v)) := by
  induction u generalizing skip with
  | nil =>
    obtain rfl : skip = 0 := by simpa using hskip
    exact mem_tempNamesIn_head hmark hw hv
  | cons c u ih =>
    obtain ⟨next, hnext, hsub⟩ := exists_tempNamesIn_subset (w ++ v) hu hskip
    refine hsub (ih ?_ hnext)
    cases u with
    | nil => rfl
    | cons d u => rwa [List.getLast?_cons_cons] at hu

/-! ### Words of a content -/

theorem lt_of_not_isIdentifierByte {b : UInt8} (hb : isIdentifierByte b = false) : b < 0x80 := by
  refine UInt8.not_le.mp fun hle => ?_
  simp [isIdentifierByte, hle] at hb

/-- What is read behind a word does not go on with a temporary name. -/
theorem Batch.isTempChar_head {rest : Bytes}
    (hrest : ∀ b ∈ rest.head?, b < 0x80 → isIdentifierByte b = false) :
    (Utf8.decodeLossy rest).toList.head?.any isTempChar = false := by
  cases rest with
  | nil => simp [Utf8.decodeLossy, Utf8.units]
  | cons b rest =>
    by_cases hb : b < 0x80
    · rw [Utf8.toList_decodeLossy_cons hb, List.head?_cons, Option.any_some, isTempChar_ofNat hb]
      exact hrest b rfl hb
    · obtain ⟨c, cs, hcs, hc⟩ := Utf8.exists_toList_decodeLossy_cons (UInt8.not_lt.mp hb) rest
      rw [hcs, List.head?_cons, Option.any_some]
      refine Bool.eq_false_iff.mpr fun h => ?_
      exact absurd (lt_of_isTempChar h) (Nat.not_lt.mpr hc)

/-- What is read before a word does not end with a character of a temporary name. -/
theorem Batch.isTempChar_getLast {front : Bytes}
    (hfront : front.getLast?.any isIdentifierByte = false) :
    (Utf8.decodeLossy front).toList.getLast?.any isTempChar = false := by
  rcases List.eq_nil_or_concat front with rfl | ⟨front, b, rfl⟩
  · simp [Utf8.decodeLossy, Utf8.units]
  · have hb : isIdentifierByte b = false := by simpa using hfront
    have hascii := lt_of_not_isIdentifierByte hb
    rw [List.concat_eq_append, Utf8.toList_decodeLossy_append, Utf8.toList_decodeLossy_cons hascii]
    · simp [Utf8.decodeLossy, Utf8.units, isTempChar_ofNat hascii, hb]
    · rintro x ⟨⟩
      exact hascii

/-- The ASCII bytes at the head of a word end where no temporary name goes on. -/
theorem Batch.isTempChar_head_dropWhile {rest : Bytes}
    (hrest : rest.head?.any isIdentifierByte = false) (w : Bytes) :
    (Utf8.decodeLossy (w.dropWhile (· < 0x80) ++ rest)).toList.head?.any isTempChar = false := by
  refine isTempChar_head fun b hb hlt => ?_
  cases htail : w.dropWhile (· < 0x80) with
  | nil =>
    rw [htail, List.nil_append] at hb
    rw [hb] at hrest
    exact hrest
  | cons x tail =>
    have hx := List.head?_dropWhile_not (fun b : UInt8 => decide (b < 0x80)) w
    rw [htail] at hb hx
    obtain rfl := Option.some.inj hb
    simp [hlt] at hx

/-- The text around the ASCII bytes at the head of a word is read on its own. -/
theorem Batch.toList_decodeLossy_word {front w rest : Bytes} (hmark : bytes Plan.tempMark <+: w) :
    (Utf8.decodeLossy (front ++ w ++ rest)).toList =
      (Utf8.decodeLossy front).toList ++
        ((w.takeWhile (· < 0x80)).map (fun b => Char.ofNat b.toNat) ++
          (Utf8.decodeLossy (w.dropWhile (· < 0x80) ++ rest)).toList) := by
  have hsplit : w ++ rest = w.takeWhile (· < 0x80) ++ (w.dropWhile (· < 0x80) ++ rest) := by
    rw [← List.append_assoc, List.takeWhile_append_dropWhile]
  have hascii : ∀ b ∈ w.takeWhile (· < 0x80), b < 0x80 := fun b hb => by
    simpa using List.mem_takeWhile_imp hb
  rw [List.append_assoc, Utf8.toList_decodeLossy_append, hsplit,
    Utf8.toList_decodeLossy_ascii_append hascii]
  obtain ⟨more, rfl⟩ := hmark
  rintro x ⟨⟩
  decide

/-- A word that begins with the mark is read off up to its first byte past ASCII, be the content
a text or not. -/
theorem Batch.exists_tempName_of_mem_words {content w : Bytes} (h : w ∈ Bytes.words content)
    (hmark : bytes Plan.tempMark <+: w) :
    ∃ name ∈ tempNamesIn 0 (Utf8.decodeLossy content).toList,
      bytes name = w.takeWhile (· < 0x80) := by
  obtain ⟨⟨_, hword⟩, front, rest, rfl, hfront, hrest⟩ := Bytes.exists_of_mem_words h
  have hascii : ∀ b ∈ w.takeWhile (· < 0x80), b < 0x80 := fun b hb => by
    simpa using List.mem_takeWhile_imp hb
  obtain ⟨name, hname, hread⟩ := Utf8.exists_bytes_eq_of_ascii hascii
  have hhead : bytes Plan.tempMark <+: w.takeWhile (· < 0x80) := by
    obtain ⟨more, rfl⟩ := hmark
    rw [List.takeWhile_append_of_pos]
    · exact List.prefix_append _ _
    · decide +kernel
  have hbegins : Plan.tempMark.toList <+: name.toList := by
    have hchars : Plan.tempMark.toList =
        (bytes Plan.tempMark).map fun b => Char.ofNat b.toNat := by
      decide +kernel
    rw [hread, hchars]
    exact hhead.map _
  have hall : ∀ c ∈ name.toList, isTempChar c = true := by
    intro c hc
    rw [hread] at hc
    obtain ⟨b, hb, rfl⟩ := List.mem_map.mp hc
    rw [isTempChar_ofNat (hascii b hb)]
    exact hword b ((List.takeWhile_sublist _).subset hb)
  have hmem := mem_tempNamesIn hbegins hall (isTempChar_getLast hfront)
    (isTempChar_head_dropWhile hrest w) (Nat.zero_le _)
  rw [String.ofList_toList, hread, ← toList_decodeLossy_word hmark] at hmem
  exact ⟨name, hmem, hname⟩

/-- A temporary name that stands apart is read off. -/
theorem Batch.mem_tempNamesIn_of_mem_words {content : Bytes} {name : String}
    (htemp : Plan.IsTemp name) (h : bytes name ∈ Bytes.words content) :
    name ∈ tempNamesIn 0 (Utf8.decodeLossy content).toList := by
  obtain ⟨more, hmore⟩ := htemp.exists_bytes
  obtain ⟨found, hmem, hfound⟩ := exists_tempName_of_mem_words h ⟨more, hmore.symm⟩
  have hascii := lt_of_isValidIdentifier htemp.isValidIdentifier
  rw [List.takeWhile_eq_self_iff.mpr fun b hb => by simpa using hascii b hb] at hfound
  rwa [← bytes_injective hfound]

/-- A content with a temporary name holds the mark that planning looks for. -/
theorem Plan.IsTemp.contains_tempMark {name : String} (h : IsTemp name) {content : Bytes}
    (hword : bytes name ∈ Bytes.words content) :
    Bytes.contains (bytes tempMark) content = true := by
  obtain ⟨_, front, rest, rfl, _⟩ := Bytes.exists_of_mem_words hword
  obtain ⟨more, hname⟩ := h.exists_bytes
  refine Bytes.contains_iff.mpr ⟨front, more ++ rest, ?_⟩
  rw [hname]
  simp

/-- A temporary name that stands apart in a file that planning finds is taken. -/
theorem Batch.mem_takenNames_of_mem_words {f : Filter} {d : Disk} {roots : List Path} {path : Path}
    (hfinds : Search.Finds { disk := d } roots f path Plan.tempMark) {taken : List String}
    (htaken : takenNames f d roots = .ok taken) {content : Bytes}
    (hread : Store.readDisk d path = .ok content) {name : String} (htemp : Plan.IsTemp name)
    (hword : bytes name ∈ Bytes.words content) : name ∈ taken := by
  obtain ⟨found, hfound, htaken⟩ := bind_eq_ok_iff.mp htaken
  obtain rfl := Except.ok.inj htaken
  have hread' : Store.read { disk := d } path = .ok content := hread
  have hpath := hfinds found hfound content hread' (htemp.contains_tempMark hword)
  refine List.mem_flatMap.mpr ⟨path, hpath, ?_⟩
  rw [hread']
  exact mem_tempNamesIn_of_mem_words htemp hword

/-- A temporary name that is a word of code in a searched file is taken. -/
theorem Batch.mem_takenNames {f : Filter} {d : Disk} {roots files : List Path}
    (hlooks : Search.files f roots d = .ok files) (hspelled : ∀ path ∈ files,
      d.SpelledOnce files path) {taken : List String}
    (htaken : takenNames f d roots = .ok taken) {path : Path} (hpath : path ∈ files)
    {content : Bytes} (hread : Store.readDisk d path = .ok content)
    (hlegible : Rename.Legible f path content) {name : String} (htemp : Plan.IsTemp name)
    (huse : bytes name ∈ path.codeWords content) : name ∈ taken := by
  have hword : bytes name ∈ Bytes.words content := by
    rw [Path.codeWords, Lexer.codeWords_eq (Language.plain_syntactics hlegible.plain)] at huse
    exact path.mem_words_iff.mpr (.inl huse)
  have hfinds : Search.Finds { disk := d } roots f path Plan.tempMark := by
    have hread' : Store.read { disk := d } path = .ok content := hread
    have honce : ∀ q ∈ files, q.same path = true → q = path :=
      fun q hq hsame => hspelled q hq path hpath (.inl hsame)
    refine Search.finds_of_files (s := { disk := d }) hlooks hpath honce
      (fun content' hcontent' => ?_) (by decide +kernel)
    obtain rfl := Except.ok.inj (hread'.symm.trans hcontent')
    exact hlegible.searched
  exact mem_takenNames_of_mem_words hfinds htaken hread htemp hword

end SymbolRename
