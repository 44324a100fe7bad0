import SymbolRename.Proofs.Batch.Undo
import SymbolRename.Proofs.Search.Places
import SymbolRename.Proofs.Snapshot.Recovery

/-!
# What a run of a batch keeps

A run that saves files touches the files that it searches and its own snapshot, wherever it stops.
All entries of the snapshot are for direct paths, and their copies can be found:
`Batch.done_run`.
-/

namespace SymbolRename.Batch

/-- A run on the disk searches files outside of the places of an owner, and finds direct paths. -/
structure Fits (own : Place → Bool) (o : Options) (d : Disk) : Prop where
  apart : Search.Apart o.engine.filter.level (stepRoots o) own d
  starts : ∀ root ∈ stepRoots o, Search.IsStart d root
  named : ∀ p, own p = false → (d.nodeAt? p).isSome = true → p.IsNamed
  clear : d.ScratchClear own

variable {own : Place → Bool} {root : Place} {o : Options} {d e : Disk} {directory : Path}
  {s : Store} {h : Snapshot}

theorem Fits.keeps {may : Place → Prop} (hfits : Fits own o d) (hkeeps : d.Keeps own may e)
    (hprocess : e.process = d.process) : Fits own o e := by
  refine ⟨hfits.apart.congr ⟨hkeeps.here, hprocess⟩, fun root hroot => ?_, fun p hp hsome => ?_,
    hkeeps.scratchClear hprocess hfits.clear⟩
  · refine (hfits.starts root hroot).imp_right fun hnowhere p n hopen => ?_
    obtain ⟨m, hm⟩ := hkeeps.exists_open? (hfits.apart.starts root hroot).route hopen
    exact hnowhere p m hm
  · rw [hkeeps.isSome_nodeAt? hp] at hsome
    exact hfits.named p hp hsome

/-- A file that a search can find. -/
structure IsFound (own : Place → Bool) (d : Disk) (path : Path) : Prop where
  direct : path.IsDirect
  avoids : d.Avoids own path
  opens : ∃ p content mode, d.open? path = .ok (p, .file content mode)

/-- What the files that a step looks at were before. -/
theorem Fits.isFound {may : Place → Prop} (hfits : Fits own o d) (hkeeps : d.Keeps own may s.disk)
    (hprocess : s.disk.process = d.process) (hreal : s.overlay = none) {old : String}
    {files : List Path} (hfiles : Rename.candidates o.engine s old (scope o) = .ok files) :
    ∀ path ∈ files, s.disk.Clears own path ∧ IsFound own d path := by
  intro path hpath
  have hnow := hfits.keeps hkeeps hprocess
  have hclears := Search.clears_of_candidates hnow.apart (stepRoots_ne_nil o) hfiles path hpath
  obtain ⟨hdirect, p, content, mode, hopen⟩ := Search.isDirect_of_candidates hnow.apart
    (stepRoots_ne_nil o) hreal hnow.starts hnow.named hfiles hpath
  have havoids := (Snapshot.avoids_iff hkeeps.here).mp hclears.route
  refine ⟨hclears, hdirect, havoids, ?_⟩
  obtain ⟨n, hbefore⟩ := hkeeps.exists_open? havoids hopen
  have hown : own p = false := Disk.eq_target_of_open? hbefore ▸ Snapshot.own_target havoids
  rcases hkeeps.outside p hown with hsame | ⟨was, now, mode', hwas, _⟩
  · rw [Disk.nodeAt?_of_open? hopen, Disk.nodeAt?_of_open? hbefore] at hsame
    obtain rfl := Option.some.inj hsame
    exact ⟨p, content, mode, hbefore⟩
  · obtain rfl := Option.some.inj ((Disk.nodeAt?_of_open? hbefore).symm.trans hwas)
    exact ⟨p, was, mode', hbefore⟩

/-- What a run may touch: what it searches, and its snapshot. -/
def MayTouch (own : Place → Bool) (root p : Place) : Prop := own p = false ∨ root <+: p

/-- A run has touched nothing else, and its snapshot can be used. -/
structure Upheld (own : Place → Bool) (root : Place) (d : Disk) (directory : Path)
    (s : Store) (h : Snapshot) : Prop where
  real : s.overlay = none
  process : s.disk.process = d.process
  same : h.directory = directory
  stands : Snapshot.StandsAt own root s.disk directory
  keeps : d.Keeps own (MayTouch own root) s.disk
  loads : ∃ entries ⊆ h.entries, Snapshot.load s.disk directory = .ok ⟨directory, entries⟩
  stores : Snapshot.Stores directory root (IsFound own d) [] h.entries s.disk

theorem Upheld.called (hupheld : Upheld own root d directory s h) (hfits : Fits own o d)
    {number : Nat} {old : String} {files : List Path}
    (hfiles : Rename.candidates o.engine s old (scope o) = .ok files) {t : Snapshot.Taken}
    (ht : t = Snapshot.take s.disk h (label number) files) :
    Upheld own root d directory { s with disk := t.disk } t.snapshot := by
  have hfound := hfits.isFound hupheld.keeps hupheld.process hupheld.real hfiles
  have hstands : Snapshot.StandsAt own root s.disk h.directory := by
    rw [hupheld.same]
    exact hupheld.stands
  have hlabel := isName_label number
  have hcalled := Snapshot.called_take hstands hlabel fun path hpath =>
    (hfound path hpath).1.route
  have hstores := (Snapshot.stores_take hstands hlabel files).mono fun path hpath =>
    (hfound path hpath).2
  rw [hupheld.same] at hstores
  have hdirectory := Snapshot.directory_take s.disk h (label number) files
  have hsubset := Snapshot.subset_take s.disk h (label number) files
  rw [← ht] at hcalled hstores hdirectory hsubset
  obtain ⟨entries, hentries, hload⟩ := hupheld.loads
  have hputs : ∀ {may : Place → Prop}, s.disk.PutsOnly own may t.disk →
      (∀ p, may p → root <+: p) →
      (∃ entries ⊆ t.snapshot.entries, Snapshot.load t.disk directory = .ok ⟨directory, entries⟩) →
      Upheld own root d directory { s with disk := t.disk } t.snapshot := by
    intro may hputs hmay hloads
    have hkeeps := Disk.Keeps.of_putsOnly hputs
    refine ⟨hupheld.real, hputs.outside.process.trans hupheld.process,
      hdirectory.trans hupheld.same, hupheld.stands.puts hputs, ?_, hloads, ?_⟩
    · exact hupheld.keeps.trans (hkeeps.mono fun p hp => .inr (hmay p hp))
    · exact hupheld.stores.trans hstores hkeeps
  have hcopies : ∀ p, Snapshot.IsCopyPlace root (label number) p → root <+: p := by
    rintro p (rfl | ⟨name, rfl⟩)
    · exact List.prefix_append _ _
    · exact List.prefix_append _ _
  cases hcalled with
  | nothing _ _ hdisk hsnapshot =>
    rw [hdisk, hsnapshot]
    exact ⟨hupheld.real, hupheld.process, hupheld.same, hupheld.stands, hupheld.keeps,
      hupheld.loads, hupheld.stores⟩
  | saved new _ hsnapshot _ hmade _ hloaded =>
    refine hputs hmade (fun p hp => ?_) ⟨_, List.Subset.refl _, ?_⟩
    · rcases hp with hp | rfl
      · exact hcopies p hp
      · exact List.prefix_append _ _
    · rw [← hupheld.same, hloaded, hsnapshot]
  | failed _ hmade =>
    refine hputs hmade hcopies ⟨entries, List.Subset.trans hentries hsubset, ?_⟩
    rw [hupheld.stands.load_eq hmade (manifest_not_isCopyPlace root number), hload]

theorem Upheld.renamed (hupheld : Upheld own root d directory s h) (hfits : Fits own o d)
    (old new : String) :
    Upheld own root d directory (Rename.run o.engine s old new (scope o)).store h := by
  rcases Rename.run_cases o.engine s old new (scope o) with ⟨cause, hrun⟩ | ⟨files, hfiles, _⟩
  · rw [hrun]
    exact hupheld
  · have hfound := hfits.isFound hupheld.keeps hupheld.process hupheld.real hfiles
    have hclear := hupheld.keeps.scratchClear hupheld.process hfits.clear
    obtain ⟨hreal, hrewrites⟩ :
        (Rename.run o.engine s old new (scope o)).store.overlay = none ∧
          s.disk.RewritesOnly (fun q => ∃ path ∈ files, s.disk.target path = q)
            (Rename.run o.engine s old new (scope o)).store.disk :=
      Rename.run_rewritesOnly hupheld.real hclear hfiles fun path hpath => (hfound path hpath).1
    have hown : ∀ q, (∃ path ∈ files, s.disk.target path = q) → own q = false := by
      rintro q ⟨path, hpath, rfl⟩
      exact Snapshot.own_target (hfound path hpath).1.route
    have hkeeps : s.disk.Keeps own (MayTouch own root)
        (Rename.run o.engine s old new (scope o)).store.disk :=
      .of_rewritesOnly hrewrites fun q hq => .inl (hown q hq)
    obtain ⟨entries, hentries, hload⟩ := hupheld.loads
    refine ⟨hreal, hrewrites.view.process.trans hupheld.process, hupheld.same,
      hupheld.stands.rewrites hrewrites hown, hupheld.keeps.trans hkeeps, ⟨entries, hentries, ?_⟩,
      hupheld.stores.trans (Snapshot.stores_refl _ _ _ _ _) hkeeps⟩
    rw [← hload]
    refine Snapshot.load_congr (hrewrites.open?_eq fun hmanifest => ?_)
    have hout := hown _ hmanifest
    rw [hupheld.stands.target_manifest, hupheld.stands.owned] at hout
    cases hout

/-- Before the first step nothing has been touched. -/
theorem upheld_begin (hfits : Fits own o d) (hreal : o.dryRun = false)
    (hstands : Snapshot.StandsAt own root d directory)
    (hfresh : d.isFile (Snapshot.manifestPath directory) = false) :
    Upheld own root d directory (storeOf o d) ⟨directory, []⟩ := by
  refine ⟨?_, rfl, rfl, hstands, .refl _ _ _, ⟨[], List.Subset.refl _, ?_⟩,
    Snapshot.stores_refl _ _ _ _ _⟩
  · unfold storeOf
    rw [hreal, if_neg Bool.false_ne_true]
  · exact (Snapshot.protects_fresh hfresh hfits.clear).loads

/-- Different files that are found have copies of different names. -/
def KeysDiffer (own : Place → Bool) (d : Disk) : Prop :=
  ∀ p q, own p = false → own q = false → (d.nodeAt? p).isSome = true →
    (d.nodeAt? q).isSome = true → Snapshot.key p.toPath = Snapshot.key q.toPath → p = q

theorem KeysDiffer.keeps {may : Place → Prop} (hkeys : KeysDiffer own d)
    (hkeeps : d.Keeps own may e) : KeysDiffer own e := by
  intro p q hp hq hsome hsome'
  rw [hkeeps.isSome_nodeAt? hp] at hsome
  rw [hkeeps.isSome_nodeAt? hq] at hsome'
  exact hkeys p q hp hq hsome hsome'

/-- Entries for files that are found tell them apart. -/
theorem distinct_of_isFound (hkeys : KeysDiffer own d) {entries : List SnapshotEntry}
    (hfound : ∀ x ∈ entries, IsFound own d x.original) : Snapshot.Distinct d entries := by
  have hthere : ∀ x ∈ entries, own (d.target x.original) = false ∧
      (d.nodeAt? (d.target x.original)).isSome = true := by
    intro x hx
    obtain ⟨p, content, mode, hopen⟩ := (hfound x hx).opens
    refine ⟨Snapshot.own_target (hfound x hx).avoids, ?_⟩
    rw [← Disk.eq_target_of_open? hopen, Disk.nodeAt?_of_open? hopen]
    rfl
  constructor
  · intro x hx y hy hplace
    rw [(hfound x hx).direct.eq_toPath d, (hfound y hy).direct.eq_toPath d, hplace]
    exact Overlay.same_self _
  · intro x hx y hy hkey
    have hx' := (hfound x hx).direct.eq_toPath d
    have hy' := (hfound y hy).direct.eq_toPath d
    rw [hx', hy'] at hkey
    rw [hx', hy', hkeys _ _ (hthere x hx).1 (hthere y hy).1 (hthere x hx).2 (hthere y hy).2 hkey]

/-- What a run that saves files leaves: its snapshot can be read and covers what has changed, and
nothing else has been touched. -/
structure Done (own : Place → Bool) (root : Place) (d e : Disk) (directory : Path)
    (entries : List SnapshotEntry) : Prop where
  process : e.process = d.process
  keeps : d.Keeps own (MayTouch own root) e
  stands : Snapshot.StandsAt own root e directory
  loads : Snapshot.load e directory = .ok ⟨directory, entries⟩
  covers : Snapshot.Covers own d e entries
  stores : Snapshot.Stores directory root (IsFound own d) [] entries e

theorem done_run (hfits : Fits own o d) (hreal : o.dryRun = false)
    (hkeys : KeysDiffer own d) (hstands : Snapshot.StandsAt own root d directory)
    (hfresh : d.isFile (Snapshot.manifestPath directory) = false) {commitHook : Option CommitHook}
    {mappings : List Mapping} {interrupt : Bool} {st : State Snapshot}
    (hrun : run o Snapshot.hook commitHook mappings d ⟨directory, []⟩ interrupt = .ok st) :
    ∃ entries, Done own root d st.store.disk directory entries := by
  obtain ⟨p, hplan, _⟩ := bind_eq_ok_iff.mp hrun
  obtain ⟨ended, last, hended, hlast, hstore, hhook⟩ := exists_runUnder (fun _ => false)
    Snapshot.hook commitHook (⟨directory, []⟩ : Snapshot) interrupt hplan
  rw [runUnder_never, hrun] at hended
  obtain rfl := Except.ok.inj hended
  have hupheld : Upheld own root d directory last.store last.hook := by
    obtain ⟨log, told, hbegin⟩ := exists_begin o mappings p (storeOf o d)
      (⟨directory, []⟩ : Snapshot) interrupt
    have hpersists : Persists o Snapshot.hook fun st =>
        Upheld own root d directory st.store st.hook :=
      persists_of_calls (P := Upheld own root d directory) fun _ _ hupheld hfiles =>
        hupheld.called hfits hfiles rfl
    rw [hlast]
    refine (hpersists.run _ (fun stage _ hupheld => ?_) ?_).2
    · rw [runStep_store, runStep_hook]
      exact hupheld.renamed hfits stage.step.old stage.step.new
    · rw [hbegin]
      exact upheld_begin hfits hreal hstands hfresh
  have hfound : ∀ x ∈ last.hook.entries, IsFound own d x.original := fun x hx =>
    ((hupheld.stores x hx).resolve_left List.not_mem_nil).1
  have hprotects : ∃ entries, Snapshot.Protects own d last.store.disk directory entries := by
    have hdistinct := distinct_of_isFound hkeys hfound
    rw [hlast] at hdistinct ⊢
    have hundoable := undoable_begin hreal hstands (Snapshot.protects_fresh hfresh hfits.clear)
      hfits.apart mappings p interrupt
    exact @Undoable.runStepsUnder _ _ _ _ _ (fun _ => {}) _ _ hundoable hreal _ _ _ hdistinct
  obtain ⟨entries, hentries, hload⟩ := hupheld.loads
  obtain ⟨others, hothers⟩ := hprotects
  obtain ⟨_, rfl⟩ := Snapshot.mk.inj (Except.ok.inj (hload.symm.trans hothers.loads))
  rw [hstore]
  exact ⟨entries, hupheld.process, hupheld.keeps, hupheld.stands, hload, hothers.covers,
    fun x hx => hupheld.stores x (hentries hx)⟩

/-- The snapshot of a run is kept. -/
theorem Done.kept {entries : List SnapshotEntry} (h : Done own root d e directory entries)
    (habsolute : directory.isAbsolute = true) :
    Snapshot.Kept own root d e directory entries := by
  have hfound : ∀ x ∈ entries, IsFound own d x.original ∧
      Snapshot.IsCopy directory root e x.backup := fun x hx =>
    (h.stores x hx).resolve_left List.not_mem_nil
  refine ⟨h.stands.bare, habsolute, h.stands.opened, h.stands.owned, h.loads, h.covers.holds,
    fun x hx => ?_, fun x hx => ?_⟩
  · obtain ⟨hx', hcopy⟩ := hfound x hx
    exact ⟨hx'.direct.isAbsolute, hcopy.absolute.trans habsolute⟩
  · obtain ⟨hx', hcopy⟩ := hfound x (Snapshot.mem_of_mem_firstEntries hx)
    obtain ⟨names, hlocate⟩ := hcopy.located
    obtain ⟨p, content, mode, hopen⟩ := hx'.opens
    obtain rfl := Disk.eq_target_of_open? hopen
    obtain ⟨mode', hnode⟩ := (h.covers.saved x hx).2 content mode (Disk.nodeAt?_of_open? hopen)
    have hplace := Disk.eq_target_of_locate hlocate
    rw [h.keeps.target_eq] at hplace
    rw [← hplace] at hnode
    exact ⟨names, content, mode', Disk.open?_eq_ok_iff.mpr ⟨hlocate, hnode⟩⟩

end SymbolRename.Batch
