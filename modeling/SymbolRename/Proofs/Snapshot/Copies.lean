import SymbolRename.Proofs.Disk.Keeping
import SymbolRename.Proofs.Snapshot.Calls

/-!
# The copies of a snapshot

Each entry that a call adds, whether it fails or not, is for a file that it was asked for, and its
copy can be found: `Snapshot.stores_take`.
-/

namespace SymbolRename.Snapshot

/-- A copy can be found below a place, by a path that starts where that of the snapshot does. -/
structure IsCopy (directory : Path) (root : Place) (d : Disk) (backup : Path) : Prop where
  absolute : backup.isAbsolute = directory.isAbsolute
  located : ∃ names, d.locate backup = .ok (root ++ names)

/-- The entries that were added are for files of some sort, and their copies can be found. -/
def Stores (directory : Path) (root : Place) (sort : Path → Prop) (old new : List SnapshotEntry)
    (d : Disk) : Prop :=
  ∀ x ∈ new, x ∈ old ∨ sort x.original ∧ IsCopy directory root d x.backup

variable {own : Place → Bool} {root : Place} {directory : Path} {sort : Path → Prop} {d e : Disk}
  {label : String} {entries new last : List SnapshotEntry}

theorem stores_refl (directory : Path) (root : Place) (sort : Path → Prop)
    (entries : List SnapshotEntry) (d : Disk) : Stores directory root sort entries entries d :=
  fun _ hx => .inl hx

theorem IsCopy.keeps {may : Place → Prop} {backup : Path} (h : IsCopy directory root d backup)
    (hkeeps : d.Keeps own may e) : IsCopy directory root e backup := by
  obtain ⟨names, hlocate⟩ := h.located
  exact ⟨h.absolute, names, hkeeps.locate hlocate⟩

theorem Stores.trans {may : Place → Prop} (h : Stores directory root sort entries new d)
    (h' : Stores directory root sort new last e) (hkeeps : d.Keeps own may e) :
    Stores directory root sort entries last e := by
  intro x hx
  rcases h' x hx with hx | hx
  · exact (h x hx).imp_right fun ⟨hsort, hcopy⟩ => ⟨hsort, hcopy.keeps hkeeps⟩
  · exact .inr hx

theorem Stores.mono {sort' : Path → Prop} (h : Stores directory root sort entries new d)
    (hsort : ∀ path, sort path → sort' path) : Stores directory root sort' entries new d :=
  fun x hx => (h x hx).imp_right fun ⟨hpath, hcopy⟩ => ⟨hsort _ hpath, hcopy⟩

/-- A file that is copied gets an entry, and its copy can be found. -/
theorem Taken.stores_copy {t : Taken} (h : StandsAt own root t.disk t.snapshot.directory)
    (hlabel : Path.IsName label) (path : Path) :
    Stores t.snapshot.directory root (· = path) t.snapshot.entries
      (t.copy label path).snapshot.entries (t.copy label path).disk := by
  have hbackup : (t.snapshot.directory.join ⟨label⟩).join ⟨key path⟩ =
      copyPath t.snapshot.directory label path := rfl
  unfold copy
  rw [hbackup]
  split
  · exact stores_refl _ _ _ _ _
  · dsimp only
    split
    · exact stores_refl _ _ _ _ _
    · rename_i d hcopy
      obtain ⟨hlocate, hdirectory, p, content, mode, _, rfl⟩ := Disk.copy_eq_ok hcopy
      rw [h.target_copy hlabel] at hlocate hdirectory ⊢
      split
      · exact stores_refl _ _ _ _ _
      · intro x hx
        rcases List.mem_append.mp hx with hx | hx
        · exact .inl hx
        · obtain rfl := List.mem_singleton.mp hx
          have hputs := Disk.PutsOnly.put (h.owned _) hdirectory (.file content mode)
          have habsolute : (copyPath t.snapshot.directory label path).isAbsolute =
              t.snapshot.directory.isAbsolute := by
            unfold copyPath labelDirectory
            rw [Path.isAbsolute_join (h.bare.join hlabel) (isName_key path),
              Path.isAbsolute_join h.bare hlabel]
          exact .inr ⟨rfl, habsolute, _, (Disk.Keeps.of_putsOnly hputs).locate hlocate⟩

/-- Many files are copied; the induction is on the files that are left. -/
theorem Taken.stores_foldl {t : Taken} (h : StandsAt own root t.disk t.snapshot.directory)
    (hlabel : Path.IsName label) (files : List Path) :
    Stores t.snapshot.directory root (· ∈ files) t.snapshot.entries
      (files.foldl (copy label) t).snapshot.entries (files.foldl (copy label) t).disk := by
  induction files generalizing t with
  | nil => exact stores_refl _ _ _ _ _
  | cons path rest ih =>
    have hone := copy_copying h hlabel path
    have hstands : StandsAt own root (t.copy label path).disk
        (t.copy label path).snapshot.directory := by
      rw [hone.directory]
      exact h.puts hone.puts
    have hfirst : Stores t.snapshot.directory root (· ∈ path :: rest) t.snapshot.entries
        (t.copy label path).snapshot.entries (t.copy label path).disk :=
      (stores_copy h hlabel path).mono fun _ hsame => hsame ▸ List.mem_cons_self
    have hrest := (ih hstands).mono fun _ => List.mem_cons_of_mem path
    rw [hone.directory] at hrest
    exact hfirst.trans hrest (.of_putsOnly (foldl_copying hstands hlabel rest).puts)

/-- What a call saves, whether it fails or not. -/
theorem stores_take {s : Snapshot} (h : StandsAt own root d s.directory)
    (hlabel : Path.IsName label) (files : List Path) :
    Stores s.directory root (· ∈ files) s.entries (take d s label files).snapshot.entries
      (take d s label files).disk := by
  unfold take
  split
  · exact stores_refl _ _ _ _ _
  split
  · exact stores_refl _ _ _ _ _
  rename_i made hmake
  have hmade := h.makeDirectories hlabel hmake
  have hstands : StandsAt own root made s.directory := h.puts hmade
  have hstores := Taken.stores_foldl (t := { disk := made, snapshot := s }) hstands hlabel files
  generalize files.foldl (Taken.copy label) { disk := made, snapshot := s } = t at hstores ⊢
  unfold Taken.writeManifest
  split
  · exact hstores
  · dsimp only
    split
    · exact hstores
    · rename_i written hwrite
      obtain ⟨_, hdirectory, rfl⟩ := Disk.write_eq_ok hwrite
      have hputs := @Disk.PutsOnly.put (fun _ => true) t.disk _ rfl hdirectory
      exact hstores.trans (stores_refl _ _ _ _ _) (.of_putsOnly (hputs _))

theorem Taken.directory_copy (t : Taken) (label : String) (path : Path) :
    (t.copy label path).snapshot.directory = t.snapshot.directory := by
  unfold copy
  split
  · rfl
  · dsimp only
    split
    · rfl
    · split <;> rfl

theorem Taken.directory_foldl (t : Taken) (label : String) (files : List Path) :
    (files.foldl (copy label) t).snapshot.directory = t.snapshot.directory := by
  induction files generalizing t with
  | nil => rfl
  | cons path rest ih => exact (ih _).trans (t.directory_copy label path)

/-- A call stays in its snapshot. -/
theorem directory_take (d : Disk) (s : Snapshot) (label : String) (files : List Path) :
    (take d s label files).snapshot.directory = s.directory := by
  unfold take
  split
  · rfl
  split
  · rfl
  rename_i made _
  have hall := Taken.directory_foldl { disk := made, snapshot := s } label files
  unfold Taken.writeManifest
  split
  · exact hall
  · dsimp only
    split <;> exact hall

end SymbolRename.Snapshot
