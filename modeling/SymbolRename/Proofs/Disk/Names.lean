import SymbolRename.Proofs.Disk.Operations

/-!
# Names below a directory

A name joined to the path of a directory names the entry of this name in it, and making the
directory of this name makes nothing else.
-/

namespace SymbolRename

/-- A segment that is a name leads from a place to the entry of this name. -/
theorem Place.step_eq_append {s : String} (h : Path.stepOf? s = some (.name s)) (p : Place) :
    p.step s = p ++ [s] := by
  unfold Path.stepOf? at h
  unfold step
  split at h
  · cases h
  · rename_i hsilent
    rw [if_neg hsilent]
    split at h
    · cases h
    · rename_i hup
      rw [if_neg hup]

namespace Path

/-- A segment that names an entry. -/
structure IsName (s : String) : Prop where
  slash : '/' ∉ s.toList
  step : stepOf? s = some (.name s)

instance (s : String) : Decidable (IsName s) :=
  decidable_of_iff ('/' ∉ s.toList ∧ stepOf? s = some (.name s))
    ⟨fun ⟨h, h'⟩ => ⟨h, h'⟩, fun ⟨h, h'⟩ => ⟨h, h'⟩⟩

/-- A path to which names can be joined: it is not empty and ends with no slash. -/
structure IsBare (path : Path) : Prop where
  text : path.text ≠ ""
  last : path.text.toList.getLast? ≠ some '/'

theorem IsName.ne_empty {s : String} (h : IsName s) : s ≠ "" := by
  rintro rfl
  cases h.step

/-- A long segment names an entry. -/
theorem stepOf?_of_length {s : String} (h : 2 < s.length) : stepOf? s = some (.name s) := by
  have hne : ∀ other : String, other.length ≤ 2 → s ≠ other := by
    rintro other hother rfl
    omega
  unfold stepOf?
  rw [if_neg (not_or.mpr ⟨hne "" (by decide), hne "." (by decide)⟩), if_neg (hne ".." (by decide))]

theorem segmentsOf_cons {c : Char} (hc : c ≠ '/') {rest first : List Char}
    {more : List (List Char)} (h : segmentsOf rest = first :: more) :
    segmentsOf (c :: rest) = (c :: first) :: more := by
  rw [segmentsOf]
  · rw [h]
  · exact hc

/-- A slash separates the segments before it from those behind it. -/
theorem segmentsOf_append (xs ys : List Char) :
    segmentsOf (xs ++ '/' :: ys) = segmentsOf xs ++ segmentsOf ys := by
  induction xs with
  | nil => simp [segmentsOf]
  | cons c rest ih =>
    by_cases hc : c = '/'
    · subst hc
      rw [List.cons_append, segmentsOf, segmentsOf, ih, List.cons_append]
    · obtain ⟨first, more, hrest⟩ := List.exists_cons_of_ne_nil (segmentsOf_ne_nil rest)
      rw [hrest] at ih
      rw [List.cons_append, segmentsOf_cons hc ih, segmentsOf_cons hc hrest]
      rfl

/-- What has no slash lengthens the last segment. -/
theorem exists_segmentsOf_append (xs : List Char) {ys : List Char} (h : '/' ∉ ys) :
    ∃ init last, segmentsOf (xs ++ ys) = init ++ [last ++ ys] := by
  induction xs with
  | nil =>
    refine ⟨[], [], ?_⟩
    induction ys with
    | nil => rfl
    | cons c rest ih =>
      obtain ⟨hc, hrest⟩ := not_or.mp (mt List.mem_cons.mpr h)
      exact segmentsOf_cons (fun heq => hc heq.symm) (ih hrest)
  | cons c rest ih =>
    obtain ⟨init, last, hrest⟩ := ih
    by_cases hc : c = '/'
    · subst hc
      exact ⟨[] :: init, last, by rw [List.cons_append, segmentsOf, hrest]; rfl⟩
    · cases init with
      | nil => exact ⟨[], c :: last, segmentsOf_cons hc hrest⟩
      | cons first more => exact ⟨(c :: first) :: more, last, segmentsOf_cons hc hrest⟩

theorem segmentsOf_of_not_mem {cs : List Char} (h : '/' ∉ cs) : segmentsOf cs = [cs] := by
  induction cs with
  | nil => rfl
  | cons c rest ih =>
    obtain ⟨hc, hrest⟩ := not_or.mp (mt List.mem_cons.mpr h)
    exact segmentsOf_cons (fun heq => hc heq.symm) (ih hrest)

section Joined

variable {path : Path} {s : String}

theorem join_text (hpath : path.IsBare) (hs : IsName s) :
    (path.join ⟨s⟩).text = path.text ++ "/" ++ s := by
  have hrelative : (⟨s⟩ : Path).isAbsolute = false := by
    refine Bool.eq_false_iff.mpr fun habsolute => hs.slash ?_
    exact List.mem_of_mem_head? (beq_iff_eq.mp habsolute)
  unfold join
  rw [hrelative, if_neg Bool.false_ne_true, if_neg (not_or.mpr ⟨hpath.text, hpath.last⟩)]

theorem segments_join (hpath : path.IsBare) (hs : IsName s) :
    (path.join ⟨s⟩).segments = path.segments ++ [s] := by
  unfold segments
  rw [join_text hpath hs, String.toList_append, String.toList_append, List.append_assoc]
  show (segmentsOf (path.text.toList ++ '/' :: s.toList)).map String.ofList = _
  rw [segmentsOf_append, segmentsOf_of_not_mem hs.slash, List.map_append]
  simp

theorem isAbsolute_join (hpath : path.IsBare) (hs : IsName s) :
    (path.join ⟨s⟩).isAbsolute = path.isAbsolute := by
  have hne : path.text.toList ≠ [] := fun hnil => hpath.text (String.toList_eq_nil_iff.mp hnil)
  unfold isAbsolute
  rw [join_text hpath hs, String.toList_append, String.toList_append, List.append_assoc,
    List.head?_append_of_ne_nil _ hne]

theorem IsBare.join (hpath : path.IsBare) (hs : IsName s) : (path.join ⟨s⟩).IsBare := by
  have hne : s.toList ≠ [] := fun hnil => hs.ne_empty (String.toList_eq_nil_iff.mp hnil)
  constructor
  · rw [join_text hpath hs]
    intro hempty
    have hlist := congrArg String.toList hempty
    rw [String.toList_append] at hlist
    exact hne (List.append_eq_nil_iff.mp hlist).2
  · rw [join_text hpath hs, String.toList_append, List.getLast?_append_of_ne_nil _ hne]
    exact fun hlast => hs.slash (List.mem_of_mem_getLast? hlast)

theorem IsBare.withoutSlash_eq (hpath : path.IsBare) : Disk.withoutSlash path = path := by
  have hdrop : Text.dropTrailing (· == '/') path.text.toList = path.text.toList := by
    unfold Text.dropTrailing
    have hhead : ∀ c ∈ path.text.toList.reverse.head?, (c == '/') = false := by
      intro c hc
      rw [List.head?_reverse] at hc
      refine beq_eq_false_iff_ne.mpr ?_
      rintro rfl
      exact hpath.last hc
    cases hreverse : path.text.toList.reverse with
    | nil => simpa using hreverse
    | cons c rest =>
      rw [hreverse] at hhead
      rw [List.dropWhile_cons, hhead c rfl, if_neg Bool.false_ne_true, ← hreverse,
        List.reverse_reverse]
  unfold Disk.withoutSlash
  rw [hdrop, String.ofList_toList]
  simp [hpath.text]

end Joined

end Path

namespace Disk

variable {d e : Disk} {path : Path} {s : String}

/-- A joined name names an entry of the directory. -/
theorem target_join (d : Disk) (hpath : path.IsBare) (hs : Path.IsName s) :
    d.target (path.join ⟨s⟩) = d.target path ++ [s] := by
  unfold target
  rw [Path.segments_join hpath hs, Path.isAbsolute_join hpath hs, List.foldl_append]
  exact Place.step_eq_append hs.step _

/-- The name is that of an entry also when the path is empty or ends in a slash. -/
theorem target_join_name (d : Disk) (path : Path) {s : String} (hs : Path.IsName s) :
    d.target (path.join ⟨s⟩) = d.target path ++ [s] := by
  by_cases hbare : path.IsBare
  · exact target_join d hbare hs
  -- The name is appended to a last segment that is empty.
  have hstep : ∀ p : Place, p.step s = p ++ [s] := Place.step_eq_append hs.step
  have hrelative : (⟨s⟩ : Path).isAbsolute = false := by
    refine Bool.eq_false_iff.mpr fun habsolute => hs.slash ?_
    exact List.mem_of_mem_head? (beq_iff_eq.mp habsolute)
  have hloose : path.text = "" ∨ path.text.toList.getLast? = some '/' := by
    by_contra hnot
    exact hbare ⟨fun h => hnot (.inl h), fun h => hnot (.inr h)⟩
  have hjoin : path.join ⟨s⟩ = ⟨path.text ++ s⟩ := by
    unfold Path.join
    rw [hrelative, if_neg Bool.false_ne_true, if_pos hloose]
  have hsegments : ∃ init, path.segments = init ++ [""] ∧
      (path.join ⟨s⟩).segments = init ++ [s] := by
    unfold Path.segments
    rw [hjoin, String.toList_append]
    rcases hloose with hempty | hslash
    · refine ⟨[], by simp [hempty, Path.segmentsOf], ?_⟩
      rw [hempty, String.toList_empty, List.nil_append, Path.segmentsOf_of_not_mem hs.slash]
      simp
    · obtain ⟨xs, hxs⟩ := List.getLast?_eq_some_iff.mp hslash
      refine ⟨(Path.segmentsOf xs).map String.ofList, ?_, ?_⟩
      · rw [hxs, Path.segmentsOf_append]
        simp [Path.segmentsOf]
      · rw [hxs, List.append_assoc, List.singleton_append, Path.segmentsOf_append,
          Path.segmentsOf_of_not_mem hs.slash]
        simp
  have habsolute : (path.join ⟨s⟩).isAbsolute = path.isAbsolute := by
    rcases hloose with hempty | hslash
    · have hpath : path = ⟨""⟩ := congrArg Path.mk hempty
      rw [hjoin, hpath, String.empty_append, hrelative]
      rfl
    · have hne : path.text.toList ≠ [] := by
        rintro hnil
        simp [hnil] at hslash
      rw [hjoin]
      unfold Path.isAbsolute
      rw [String.toList_append, List.head?_append_of_ne_nil _ hne]
  obtain ⟨init, hpath, hjoined⟩ := hsegments
  have hsilent : ∀ p : Place, p.step "" = p := fun p => rfl
  unfold target
  rw [hpath, hjoined, habsolute]
  simp only [List.foldl_append, List.foldl_cons, List.foldl_nil, hstep, hsilent]

/-- Where a name in a directory leads is a matter of its length only. -/
theorem locate_join {p : Place} {mode : Nat} (hopen : d.open? path = .ok (p, .directory mode))
    (hpath : path.IsBare) (hs : Path.IsName s) :
    d.locate (path.join ⟨s⟩) =
      if (path.join ⟨s⟩).text.toList.contains '\x00' then .error .nulInName
      else if longestPath < (bytes (path.join ⟨s⟩).text).length then .error .nameTooLong
      else if longestName < (bytes s).length then .error .nameTooLong
      else .ok (p ++ [s]) := by
  obtain ⟨hlocate, hnode⟩ := open?_eq_ok_iff.mp hopen
  have hfolded : path.segments.foldlM d.follow (if path.isAbsolute then [] else d.here) = .ok p := by
    unfold locate at hlocate
    rw [if_neg hpath.text] at hlocate
    split at hlocate
    · cases hlocate
    split at hlocate
    · cases hlocate
    · exact hlocate
  have hfollow : d.follow p s =
      if longestName < (bytes s).length then .error .nameTooLong else .ok (p ++ [s]) := by
    have hstep := hs.step
    unfold Path.stepOf? at hstep
    unfold follow
    rw [hnode]
    dsimp only
    split at hstep
    · cases hstep
    · rename_i hsilent
      rw [if_neg hsilent]
      split at hstep
      · cases hstep
      · rename_i hup
        rw [if_neg hup]
  have hwhole : (path.segments ++ [s]).foldlM d.follow (if path.isAbsolute then [] else d.here) =
      d.follow p s := by
    rw [List.foldlM_append, hfolded]
    exact bind_pure (d.follow p s)
  unfold locate
  rw [if_neg (hpath.join hs).text, Path.segments_join hpath hs, Path.isAbsolute_join hpath hs,
    hwhole, hfollow]

/-- The path of a file ends with no slash. -/
theorem isBare_of_open? {p : Place} {content : Bytes} {mode : Nat}
    (h : d.open? path = .ok (p, .file content mode)) : path.IsBare := by
  obtain ⟨hlocate, hnode⟩ := open?_eq_ok_iff.mp h
  unfold locate at hlocate
  split at hlocate
  · cases hlocate
  rename_i hne
  refine ⟨hne, fun hslash => ?_⟩
  obtain ⟨xs, hxs⟩ := List.getLast?_eq_some_iff.mp hslash
  have hsegments : path.segments = (Path.segmentsOf xs).map String.ofList ++ [""] := by
    unfold Path.segments
    rw [hxs, Path.segmentsOf_append]
    simp [Path.segmentsOf]
  split at hlocate
  · cases hlocate
  split at hlocate
  · cases hlocate
  rw [hsegments, List.foldlM_append] at hlocate
  obtain ⟨q, _, hlast⟩ := bind_eq_ok_iff.mp hlocate
  obtain ⟨r, hfollow, hr⟩ := bind_eq_ok_iff.mp hlast
  obtain rfl := Except.ok.inj hr
  -- The empty segment behind the slash asks for a directory.
  unfold follow at hfollow
  split at hfollow
  · cases hfollow
  · cases hfollow
  · rename_i hdirectory
    rw [if_pos (.inl rfl)] at hfollow
    obtain rfl := Except.ok.inj hfollow
    cases hdirectory.symm.trans hnode

theorem locate_join_ne_missing {p : Place} {mode : Nat}
    (hopen : d.open? path = .ok (p, .directory mode)) (hpath : path.IsBare) (hs : Path.IsName s) :
    d.locate (path.join ⟨s⟩) ≠ .error .missing := by
  rw [locate_join hopen hpath hs]
  split
  · exact nofun
  · split
    · exact nofun
    · split <;> exact nofun

/-- A name in a directory leads to the same on disks with the same entry of this name. -/
theorem open?_join_eq {p : Place} {mode mode' : Nat}
    (hd : d.open? path = .ok (p, .directory mode)) (he : e.open? path = .ok (p, .directory mode'))
    (hpath : path.IsBare) (hs : Path.IsName s)
    (hnode : e.nodeAt? (p ++ [s]) = d.nodeAt? (p ++ [s])) :
    e.open? (path.join ⟨s⟩) = d.open? (path.join ⟨s⟩) := by
  have hlocate : e.locate (path.join ⟨s⟩) = d.locate (path.join ⟨s⟩) := by
    rw [locate_join hd hpath hs, locate_join he hpath hs]
  unfold Disk.open?
  rw [hlocate]
  cases hq : d.locate (path.join ⟨s⟩) with
  | error fault => rfl
  | ok q =>
    have hplace : q = p ++ [s] := by
      rw [eq_target_of_locate hq, target_join d hpath hs, eq_target_of_open? hd]
    simp only [bind, Except.bind, hplace, hnode]

/-- Making a directory in one that is there makes this one only, if it is missing. -/
theorem makeDirectories_join {p : Place} {mode : Nat}
    (hopen : d.open? path = .ok (p, .directory mode)) (hpath : path.IsBare) (hs : Path.IsName s)
    (h : d.makeDirectories (path.join ⟨s⟩) = .ok e) :
    e = d ∨ d.nodeAt? (d.target (path.join ⟨s⟩)) = none ∧
      e = d.put (d.target (path.join ⟨s⟩)) (.directory Node.directoryMode) := by
  have hbare := (hpath.join hs).withoutSlash_eq
  unfold makeDirectories at h
  rw [makeDirectoriesFrom, if_neg (hpath.join hs).text] at h
  cases hmake : d.makeDirectory (path.join ⟨s⟩) with
  | ok made =>
    rw [hmake] at h
    obtain rfl := Except.ok.inj h
    obtain ⟨q, hq, hmake⟩ := bind_eq_ok_iff.mp hmake
    rw [hbare] at hq
    obtain rfl := eq_target_of_locate hq
    cases hnode : d.nodeAt? (d.target (path.join ⟨s⟩)) with
    | some n =>
      rw [hnode] at hmake
      cases hmake
    | none =>
      rw [hnode] at hmake
      exact .inr ⟨rfl, (Except.ok.inj hmake).symm⟩
  | error fault =>
    have hother : fault ≠ .missing := by
      rintro rfl
      unfold makeDirectory at hmake
      rw [hbare] at hmake
      cases hlocate : d.locate (path.join ⟨s⟩) with
      | error reason =>
        rw [hlocate] at hmake
        obtain rfl := Except.error.inj hmake
        exact locate_join_ne_missing hopen hpath hs hlocate
      | ok q =>
        rw [hlocate] at hmake
        simp only [bind, Except.bind] at hmake
        split at hmake <;> cases hmake
    rw [hmake] at h
    have hthere : (if d.isDirectory (path.join ⟨s⟩) then Except.ok d else .error fault) = .ok e := by
      cases fault with
      | missing => exact absurd rfl hother
      | _ => exact h
    split at hthere
    · exact .inl (Except.ok.inj hthere).symm
    · cases hthere

/-- A directory that was made is there. -/
theorem open?_of_makeDirectory (hpath : path.IsBare) (h : d.makeDirectory path = .ok e) :
    ∃ mode, e.open? path = .ok (e.target path, .directory mode) := by
  have hgrows := grows_of_makeDirectory h
  unfold makeDirectory at h
  rw [hpath.withoutSlash_eq] at h
  obtain ⟨p, hlocate, h⟩ := bind_eq_ok_iff.mp h
  cases hnode : d.nodeAt? p with
  | some n =>
    rw [hnode] at h
    cases h
  | none =>
    rw [hnode] at h
    obtain rfl := Except.ok.inj h
    have hne : p ≠ [] := ne_nil_of_nodeAt? (d := d) (by simp [hnode])
    have hplace := eq_target_of_locate hlocate
    refine ⟨Node.directoryMode, open?_eq_ok_iff.mpr ⟨?_, ?_⟩⟩
    · rw [hgrows.target_eq, ← hplace]
      exact locate_of_directories hgrows.here.symm (fun q mode hq => hgrows.nodes q _ hq) hlocate
    · rw [hgrows.target_eq, ← hplace, nodeAt?_put hne, if_pos rfl]

/-- Directories that were made are there. -/
theorem open?_of_makeDirectories (hpath : path.IsBare) (h : d.makeDirectories path = .ok e) :
    ∃ mode, e.open? path = .ok (e.target path, .directory mode) := by
  have hthere : ∀ {d : Disk} {fault : FileFault},
      (if d.isDirectory path then Except.ok d else .error fault) = .ok e →
        ∃ mode, e.open? path = .ok (e.target path, .directory mode) := by
    intro d fault h
    split at h
    · rename_i hdirectory
      obtain rfl := Except.ok.inj h
      unfold isDirectory at hdirectory
      split at hdirectory
      · rename_i p mode hopen
        rw [eq_target_of_open? hopen] at hopen
        exact ⟨mode, hopen⟩
      · cases hdirectory
    · cases h
  unfold makeDirectories at h
  rw [makeDirectoriesFrom, if_neg hpath.text] at h
  split at h
  · rename_i hmade
    obtain rfl := Except.ok.inj h
    exact open?_of_makeDirectory hpath hmade
  · split at h
    · cases h
    · obtain ⟨above, _, h⟩ := bind_eq_ok_iff.mp h
      split at h
      · rename_i hmade
        obtain rfl := Except.ok.inj h
        exact open?_of_makeDirectory hpath hmade
      · exact hthere h
  · exact hthere h

end Disk

end SymbolRename
