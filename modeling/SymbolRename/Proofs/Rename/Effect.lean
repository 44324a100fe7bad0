import SymbolRename.Proofs.Disk.Rewritten
import SymbolRename.Proofs.Rename.Visits
import Mathlib.Logic.Relation

/-!
# What a rename does to one file

Whatever happens to the other files of a rename, the content of one file only changes where
the rename is applied to a spelling of it, and a file that is looked at is rewritten or
reported as a failure: `Rename.run_develops`.
-/

namespace SymbolRename

/-! ### Reading what was written -/

/-- What a path leads to after a file was replaced, it led to before, unless it is this file. -/
theorem Disk.open?_of_replace {d e : Disk} {file path : Path} {content : Bytes}
    (h : d.replace file content = .ok e) {r : Place} {n : Node} (hr : e.open? path = .ok (r, n)) :
    d.open? path = .ok (r, n) ∨ ∃ old mode, d.open? file = .ok (r, .file old mode) ∧
      d.open? path = .ok (r, .file old mode) ∧ n = .file content mode := by
  obtain ⟨p, q, old, mode, hreplaces⟩ := exists_replaces h
  obtain ⟨hlocate, hat⟩ := open?_eq_ok_iff.mp hr
  have hhere : e.here = d.here := by
    rw [hreplaces.result]
    rfl
  have hlocate' := locate_of_directories hhere (fun _ _ hs => hreplaces.directory_iff.mp hs) hlocate
  rw [hreplaces.nodeAt?_eq] at hat
  split at hat
  · rename_i hsame
    subst hsame
    refine .inr ⟨old, mode, hreplaces.opened, ?_, (Option.some.inj hat).symm⟩
    exact open?_eq_ok_iff.mpr ⟨hlocate', nodeAt?_of_open? hreplaces.opened⟩
  split at hat
  · cases hat
  · exact .inl (open?_eq_ok_iff.mpr ⟨hlocate', hat⟩)

/-- Both paths are spellings of one file. -/
def Store.Aliases (s : Store) (q path : Path) : Prop :=
  q.same path = true ∨ (s.disk.place? q).isSome = true ∧ s.disk.place? q = s.disk.place? path

instance (s : Store) (q path : Path) : Decidable (s.Aliases q path) := by
  unfold Store.Aliases
  infer_instance

/-- What is read past the overlay stands on the disk. -/
theorem Store.exists_open?_of_read {s : Store} {path : Path} {content : Bytes}
    (hnone : s.overlay.bind (·.content? path) = none) (hread : s.read path = .ok content) :
    ∃ p mode, s.disk.open? path = .ok (p, .file content mode) := by
  unfold read at hread
  rw [hnone] at hread
  split at hread
  · cases hread
  · exact readDisk_eq_open?.mp hread

/-- A file that is read after a write to the disk was read before, with the same content or
as the file that was written. -/
theorem Store.read_of_write_disk {s t : Store} (hreal : s.overlay = none) {q path : Path}
    {content c : Bytes} (h : s.write q content = .ok t) (hread : t.read path = .ok c)
    {was : Bytes} (hwas : s.read q = .ok was) :
    s.read path = .ok c ∨ s.Aliases q path ∧ s.read path = .ok was ∧ c = content := by
  obtain ⟨d, hreplace, rfl⟩ := exists_replace_of_write hreal h
  have hdisk : ∀ path content, s.read path = .ok content ↔
      s.unreadable.any (·.same path) = false ∧ readDisk s.disk path = .ok content := by
    intro path content
    unfold read
    rw [hreal]
    cases s.unreadable.any (·.same path) with
    | true => simp
    | false => simp
  have hafter : s.unreadable.any (·.same path) = false ∧ readDisk d path = .ok c := by
    unfold read at hread
    simp only [hreal] at hread
    cases hrefused : s.unreadable.any (·.same path) with
    | true =>
      rw [hrefused] at hread
      cases hread
    | false =>
      rw [hrefused] at hread
      exact ⟨rfl, hread⟩
  obtain ⟨r, mode, hopen⟩ := readDisk_eq_open?.mp hafter.2
  rcases Disk.open?_of_replace hreplace hopen with hsame | ⟨old, mode', hq, hpath, hfile⟩
  · exact .inl ((hdisk path c).mpr ⟨hafter.1, readDisk_eq_open?.mpr ⟨r, mode, hsame⟩⟩)
  · have hold : was = old := by
      have hreads := (hdisk q was).mp hwas
      obtain ⟨p', m', hq'⟩ := readDisk_eq_open?.mp hreads.2
      have hpair := Except.ok.inj (hq'.symm.trans hq)
      exact (Node.file.inj (Prod.mk.inj hpair).2).1
    subst hold
    refine .inr ⟨.inr ?_, (hdisk path was).mpr
      ⟨hafter.1, readDisk_eq_open?.mpr ⟨r, mode', hpath⟩⟩, (Node.file.inj hfile).1⟩
    have hplace := Disk.place?_eq_some_iff.mpr ⟨_, hq⟩
    rw [hplace, Disk.place?_eq_some_iff.mpr ⟨_, hpath⟩]
    exact ⟨rfl, rfl⟩

/-- A file that was read before a write to an overlay is read after it, with the content that was
written if this was under a spelling of its path. -/
theorem Store.read_of_write_overlay {s t : Store} (hdry : s.overlay.isSome = true)
    {q path : Path} {content c : Bytes} (h : s.write q content = .ok t)
    (hread : s.read path = .ok c) :
    t.read path = .ok (if q.same path then content else c) := by
  obtain ⟨o, ho⟩ := Option.isSome_iff_exists.mp hdry
  obtain ⟨_, rfl⟩ := eq_keep_of_write ho h
  unfold read at hread ⊢
  simp only [ho, Option.bind_some] at hread ⊢
  by_cases hrefused : s.unreadable.any (·.same path) = true
  · rw [if_pos hrefused] at hread
    cases hread
  · rw [if_neg hrefused] at hread ⊢
    by_cases hsame : q.same path = true
    · have hfound : (o.keep q content).content? path = some content := by
        unfold Overlay.content? Overlay.keep
        rw [List.find?_cons_of_pos (by simpa using hsame)]
        rfl
      rw [hfound, if_pos hsame]
    · rw [Overlay.content?_keep_of_not_same (Bool.not_eq_true _ ▸ hsame), if_neg hsame]
      exact hread

/-! ### The content of one file -/

/-- The content of the file of a path goes from one store to the other as the relation says:
through an overlay what was read can still be read, and what is read from a disk could be
read before. -/
structure Store.Develops (r : Bytes → Bytes → Prop) (path : Path) (s t : Store) : Prop where
  kind : t.overlay.isSome = s.overlay.isSome
  forward : s.overlay.isSome = true → ∀ c, s.read path = .ok c →
    ∃ c', t.read path = .ok c' ∧ r c c'
  backward : s.overlay = none → ∀ c', t.read path = .ok c' → ∃ c, s.read path = .ok c ∧ r c c'

theorem Store.Develops.of_read_eq {r : Bytes → Bytes → Prop} (hr : ∀ c, r c c) {path : Path}
    {s t : Store} (hkind : t.overlay.isSome = s.overlay.isSome)
    (hread : t.read path = s.read path) : Develops r path s t :=
  ⟨hkind, fun _ c hc => ⟨c, hread.trans hc, hr c⟩, fun _ c hc => ⟨c, hread.symm.trans hc, hr c⟩⟩

theorem Store.Develops.trans {r r' r'' : Bytes → Bytes → Prop}
    (hr : ∀ a b c, r a b → r' b c → r'' a c) {path : Path} {s t u : Store}
    (h : Develops r path s t) (h' : Develops r' path t u) : Develops r'' path s u := by
  refine ⟨h'.kind.trans h.kind, fun hdry c hc => ?_, fun hreal c hc => ?_⟩
  · obtain ⟨b, hb, hcb⟩ := h.forward hdry c hc
    obtain ⟨a, ha, hba⟩ := h'.forward (h.kind.trans hdry) b hb
    exact ⟨a, ha, hr _ _ _ hcb hba⟩
  · have hkind := h.kind
    rw [hreal, Option.isSome_none, Option.isSome_eq_false_iff, Option.isNone_iff_eq_none] at hkind
    obtain ⟨b, hb, hbc⟩ := h'.backward hkind c hc
    obtain ⟨a, ha, hab⟩ := h.backward hreal b hb
    exact ⟨a, ha, hr _ _ _ hab hbc⟩

theorem Store.Develops.mono {r r' : Bytes → Bytes → Prop} {path : Path} {s t : Store}
    (h : Develops r path s t)
    (hr : ∀ c c', s.read path = .ok c → t.read path = .ok c' → r c c' → r' c c') :
    Develops r' path s t := by
  refine ⟨h.kind, fun hdry c hc => ?_, fun hreal c' hc' => ?_⟩
  · obtain ⟨c', hc', hrel⟩ := h.forward hdry c hc
    exact ⟨c', hc', hr c c' hc hc' hrel⟩
  · obtain ⟨c, hc, hrel⟩ := h.backward hreal c' hc'
    exact ⟨c, hc, hr c c' hc hc' hrel⟩

theorem Store.Develops.rel {r : Bytes → Bytes → Prop} {path : Path} {s t : Store}
    (h : Develops r path s t) {c c' : Bytes} (hc : s.read path = .ok c)
    (hc' : t.read path = .ok c') : r c c' := by
  by_cases hreal : s.overlay = none
  · obtain ⟨b, hb, hrel⟩ := h.backward hreal c' hc'
    obtain rfl := Except.ok.inj (hc.symm.trans hb)
    exact hrel
  · obtain ⟨b, hb, hrel⟩ := h.forward (Option.isSome_iff_ne_none.mpr hreal) c hc
    obtain rfl := Except.ok.inj (hc'.symm.trans hb)
    exact hrel

/-- What can be read at both ends can be read in between. -/
theorem Store.Develops.exists_read {r r' : Bytes → Bytes → Prop} {path : Path} {s t u : Store}
    (h : Develops r path s t) (h' : Develops r' path t u) {c c' : Bytes}
    (hc : s.read path = .ok c) (hc' : u.read path = .ok c') : ∃ b, t.read path = .ok b := by
  by_cases hreal : s.overlay = none
  · have hkind := h.kind
    rw [hreal, Option.isSome_none, Option.isSome_eq_false_iff, Option.isNone_iff_eq_none] at hkind
    obtain ⟨b, hb, _⟩ := h'.backward hkind c' hc'
    exact ⟨b, hb⟩
  · obtain ⟨b, hb, _⟩ := h.forward (Option.isSome_iff_ne_none.mpr hreal) c hc
    exact ⟨b, hb⟩

/-- What is done once or not at all is done some times. -/
theorem Store.Develops.many {r : Bytes → Bytes → Prop} {path : Path} {s t : Store}
    (h : Develops (fun c c' => c' = c ∨ r c c') path s t) :
    Develops (Relation.ReflTransGen r) path s t := by
  refine h.mono fun c c' _ _ hrel => ?_
  rcases hrel with rfl | hrel
  · exact .refl
  · exact .single hrel

/-- A write only changes the file that it is for. -/
theorem Store.write_develops {s t : Store} {q : Path} {content was : Bytes}
    (h : s.write q content = .ok t) (hwas : s.read q = .ok was) (path : Path) :
    Develops (fun c c' => c' = c ∨ s.Aliases q path) path s t := by
  have hkind : t.overlay.isSome = s.overlay.isSome := by
    cases ho : s.overlay with
    | none =>
      obtain ⟨d, _, rfl⟩ := exists_replace_of_write ho h
      rw [ho]
    | some o =>
      obtain ⟨_, rfl⟩ := eq_keep_of_write ho h
      rfl
  refine ⟨hkind, fun hdry c hc => ?_, fun hreal c' hc' => ?_⟩
  · refine ⟨_, read_of_write_overlay hdry h hc, ?_⟩
    by_cases hsame : q.same path = true
    · exact .inr (.inl hsame)
    · exact .inl (if_neg hsame)
  · rcases read_of_write_disk hreal h hc' hwas with hsame | ⟨halias, hbefore, _⟩
    · exact ⟨c', hsame, .inl rfl⟩
    · exact ⟨was, hbefore, .inr halias⟩

namespace Rename

/-- Where a visit of a rename succeeds in the file of a path, its content goes on as the
relation says. -/
def Acts (e : Engine) (old new : String) (range : Option LineRange) (path : Path)
    (r : Bytes → Bytes → Prop) (v : Store × Path) : Prop :=
  ∀ t changes c c', inFile e v.1 v.2 old new range = .ok (t, changes) → v.1.Aliases v.2 path →
    v.1.read path = .ok c → t.read path = .ok c' → r c c'

theorem acts_iff {e : Engine} {old new : String} {range : Option LineRange} {path : Path}
    {r : Bytes → Bytes → Prop} {v : Store × Path} :
    (∀ result ∈ (inFile e v.1 v.2 old new range).toOption, v.1.Aliases v.2 path →
      ∀ c ∈ (v.1.read path).toOption, ∀ c' ∈ (result.1.read path).toOption, r c c') ↔
      Acts e old new range path r v := by
  constructor
  · intro h t changes c c' hfile halias hc hc'
    refine h (t, changes) (toOption_eq_some_iff.mpr hfile) halias c (toOption_eq_some_iff.mpr hc) c' ?_
    exact toOption_eq_some_iff.mpr hc'
  · intro h result hresult halias c hc c' hc'
    exact h result.1 result.2 c c' (toOption_eq_some_iff.mp hresult) halias
      (toOption_eq_some_iff.mp hc) (toOption_eq_some_iff.mp hc')

instance (e : Engine) (old new : String) (range : Option LineRange) (path : Path)
    (r : Bytes → Bytes → Prop) [∀ c c', Decidable (r c c')] (v : Store × Path) :
    Decidable (Acts e old new range path r v) := decidable_of_iff _ acts_iff

/-- Under another spelling a visit of a rename may leave the content of a path alone as well. -/
structure ActsOrSpares (e : Engine) (old new : String) (range : Option LineRange) (path : Path)
    (r : Bytes → Bytes → Prop) (v : Store × Path) : Prop where
  any : Acts e old new range path (fun c c' => c' = c ∨ r c c') v
  self : v.2 = path → Acts e old new range path r v

variable {e : Engine} {old new : String} {range : Option LineRange} {path : Path}
  {r : Bytes → Bytes → Prop}

theorem Acts.orSpares {v : Store × Path} (h : Acts e old new range path r v) :
    ActsOrSpares e old new range path r v :=
  ⟨fun t changes c c' hfile halias hc hc' => .inr (h t changes c c' hfile halias hc hc'),
    fun _ => h⟩

/-- One visit; if it is of the path itself, it succeeds, fails or stops everything. -/
theorem Progress.visit_develops {p : Progress} (hrunning : p.stopped = none) {q : Path}
    (hacts : ActsOrSpares e old new range path r (p.store, q)) :
    p.store.Develops (fun c c' => c' = c ∨ r c c') path (p.visit e old new range q).store ∧
      (q = path → (p.visit e old new range q).stopped = none →
        (∃ f ∈ (p.visit e old new range q).outcome.failures, f.path = path) ∨
          p.store.Develops r path (p.visit e old new range q).store) := by
  have halias : q = path → p.store.Aliases q path := by
    rintro rfl
    exact .inl (Overlay.same_self q)
  have hrefl : ∀ c : Bytes, c = c ∨ r c c := fun c => .inl rfl
  cases Progress.visited e old new range hrunning q with
  | unchanged hfile hstore _ _ =>
    rw [hstore]
    have hsame : p.store.Develops Eq path p.store := .of_read_eq (fun _ => rfl) rfl rfl
    refine ⟨.of_read_eq hrefl rfl rfl, fun hself _ => .inr (hsame.mono ?_)⟩
    exact fun c c' hc hc' _ => hacts.self hself _ _ _ _ hfile (halias hself) hc hc'
  | changed hfile _ hrewrites _ _ =>
    obtain ⟨content, found, rewritten, htext, _, _, _, hwrite⟩ := hrewrites.exists_text
    obtain ⟨was, hwas, _⟩ := bind_eq_ok_iff.mp htext
    have hdevelops := Store.write_develops hwrite (mapError_eq_ok_iff.mp hwas) path
    refine ⟨hdevelops.mono fun c c' hc hc' hrel => ?_, fun hself _ => .inr ?_⟩
    · exact hrel.elim .inl fun halias => hacts.any _ _ _ _ hfile halias hc hc'
    · refine hdevelops.mono fun c c' hc hc' _ => ?_
      exact hacts.self hself _ _ _ _ hfile (halias hself) hc hc'
  | failed _ _ hstore houtcome _ =>
    rw [hstore, houtcome]
    refine ⟨.of_read_eq hrefl rfl rfl, fun hself _ => .inl ?_⟩
    exact ⟨_, List.mem_append_right _ (List.mem_singleton.mpr rfl), hself⟩
  | stopped _ _ hstore _ hstopped =>
    rw [hstore]
    refine ⟨.of_read_eq hrefl rfl rfl, fun _ hnone => ?_⟩
    rw [hstopped] at hnone
    cases hnone

/-- No failure is forgotten. -/
theorem Progress.failures_visits (p : Progress) (paths : List Path) :
    p.outcome.failures ⊆ (paths.foldl (visit e old new range) p).outcome.failures := by
  induction paths generalizing p with
  | nil => exact List.Subset.refl _
  | cons q rest ih =>
    rw [List.foldl_cons]
    refine List.Subset.trans ?_ (ih _)
    cases hstopped : p.stopped with
    | some cause =>
      rw [visit_of_stopped (by rw [hstopped]; rfl)]
      exact List.Subset.refl _
    | none =>
      cases visited e old new range hstopped q with
      | unchanged _ _ houtcome _ => rw [houtcome]; exact List.Subset.refl _
      | changed _ _ _ houtcome _ => rw [houtcome]; exact List.Subset.refl _
      | failed _ _ _ houtcome _ => rw [houtcome]; exact List.subset_append_left _ _
      | stopped _ _ _ houtcome _ => rw [houtcome]; exact List.Subset.refl _

/-- Visits of many files; if the path is one of them, its visit succeeds, fails or stops
everything. The induction is on the files that are left. -/
theorem Progress.visits_develops {p : Progress} (hrunning : p.stopped = none) {paths : List Path}
    (hacts : ∀ v ∈ p.visits e old new range paths, ActsOrSpares e old new range path r v) :
    p.store.Develops (Relation.ReflTransGen r) path
        (paths.foldl (visit e old new range) p).store ∧
      (path ∈ paths → (paths.foldl (visit e old new range) p).stopped = none →
        (∃ f ∈ (paths.foldl (visit e old new range) p).outcome.failures, f.path = path) ∨
          p.store.Develops (Relation.TransGen r) path
            (paths.foldl (visit e old new range) p).store) := by
  induction paths generalizing p with
  | nil =>
    refine ⟨.of_read_eq (fun _ => .refl) rfl rfl, fun hmem => ?_⟩
    exact absurd hmem List.not_mem_nil
  | cons q rest ih =>
    rw [List.foldl_cons]
    obtain ⟨hone, hself⟩ := visit_develops hrunning (hacts _ List.mem_cons_self)
    have hmany := hone.many
    cases hstopped : (p.visit e old new range q).stopped with
    | some cause =>
      rw [foldl_visit_of_stopped (by rw [hstopped]; rfl)]
      refine ⟨hmany, fun _ hnone => ?_⟩
      rw [hstopped] at hnone
      cases hnone
    | none =>
      obtain ⟨hrest, hlater⟩ := ih hstopped fun v hv => hacts v (List.mem_cons_of_mem _ hv)
      refine ⟨hmany.trans (fun _ _ _ => .trans) hrest, fun hmem hnone => ?_⟩
      rcases List.mem_cons.mp hmem with hsame | hmem
      · rcases hself hsame.symm hstopped with ⟨f, hf, hpath⟩ | hacted
        · exact .inl ⟨f, failures_visits _ rest hf, hpath⟩
        · exact .inr (hacted.trans (fun _ _ _ h h' => .trans_left (.single h) h') hrest)
      · refine (hlater hmem hnone).imp_right fun hacted => ?_
        exact hmany.trans (fun _ _ _ => .trans_right) hacted

/-- The visits before a visit have taken the content of a file on. -/
theorem Progress.develops_of_mem_visits {p : Progress} {paths : List Path}
    (hacts : ∀ v ∈ p.visits e old new range paths, ActsOrSpares e old new range path r v) :
    ∀ v ∈ p.visits e old new range paths,
      p.store.Develops (Relation.ReflTransGen r) path v.1 := by
  induction paths generalizing p with
  | nil => exact fun v hv => absurd hv List.not_mem_nil
  | cons q rest ih =>
    obtain ⟨hfirst, hrest⟩ := List.forall_mem_cons.mp hacts
    refine List.forall_mem_cons.mpr ⟨.of_read_eq (fun _ => .refl) rfl rfl, fun v hv => ?_⟩
    have hlater := ih hrest v hv
    cases hstopped : p.stopped with
    | some cause => rwa [visit_of_stopped (by rw [hstopped]; rfl)] at hlater
    | none => exact (visit_develops hstopped hfirst).1.many.trans (fun _ _ _ => .trans) hlater

/-- When a rename looks at a file, it has taken the content of another on as its visits do. -/
theorem develops_of_mem_visits {s : Store} {scope : Scope}
    (hacts : ∀ v ∈ visits e s old new scope, ActsOrSpares e old new scope.range? path r v) :
    ∀ v ∈ visits e s old new scope, s.Develops (Relation.ReflTransGen r) path v.1 := by
  cases hpaths : candidates e s old scope with
  | error cause =>
    unfold visits
    rw [hpaths]
    exact fun v hv => absurd hv List.not_mem_nil
  | ok paths =>
    rw [visits_eq hpaths] at hacts ⊢
    exact Progress.develops_of_mem_visits
      (p := { store := s, remarks := searchRemarks e old paths scope }) hacts

/-- A rename takes the content of a file on as its visits do; a file that it looks at fails,
or the rename is carried out in it. -/
theorem run_develops {s : Store} {scope : Scope}
    (hacts : ∀ v ∈ visits e s old new scope, ActsOrSpares e old new scope.range? path r v) :
    s.Develops (Relation.ReflTransGen r) path (run e s old new scope).store ∧
      ∀ files, candidates e s old scope = .ok files → path ∈ files →
        (run e s old new scope).stopped = none →
        (∃ f ∈ (run e s old new scope).outcome.failures, f.path = path) ∨
          s.Develops (Relation.TransGen r) path (run e s old new scope).store := by
  rcases run_cases e s old new scope with ⟨cause, hrun⟩ | ⟨paths, hpaths, hrun⟩
  · rw [hrun]
    refine ⟨.of_read_eq (fun _ => .refl) rfl rfl, fun _ _ _ hnone => ?_⟩
    cases hnone
  · rw [visits_eq hpaths] at hacts
    rw [hrun]
    obtain ⟨hall, hself⟩ := Progress.visits_develops
      (p := { store := s, remarks := searchRemarks e old paths scope }) rfl hacts
    refine ⟨hall, fun files hfiles hmem hnone => ?_⟩
    obtain rfl := Except.ok.inj (hpaths.symm.trans hfiles)
    exact hself hmem hnone

end Rename

end SymbolRename
