import SymbolRename.Proofs.Disk.Routes
import SymbolRename.Proofs.Disk.Scratch

/-!
# Paths of places

The absolute path of a place leads to this place, and names that are joined to it lead below it.
Making the directory of such a path makes directories on the way to the place and nothing else:
`Disk.nodeAt?_of_makeDirectories`.
-/

namespace SymbolRename

namespace Place

/-- A place whose names can be written in a path. -/
def IsNamed (p : Place) : Prop := ∀ name ∈ p, Path.IsName name

instance (p : Place) : Decidable p.IsNamed :=
  inferInstanceAs (Decidable (∀ name ∈ p, Path.IsName name))

theorem isNamed_nil : IsNamed [] := fun _ h => absurd h List.not_mem_nil

variable {p q : Place} {s : String}

theorem IsNamed.append (hp : p.IsNamed) (hq : q.IsNamed) : IsNamed (p ++ q) := fun name hname =>
  (List.mem_append.mp hname).elim (hp name) (hq name)

theorem IsNamed.concat (hp : p.IsNamed) (hs : Path.IsName s) : IsNamed (p ++ [s]) :=
  hp.append fun _ hname => List.mem_singleton.mp hname ▸ hs

theorem IsNamed.of_prefix (hp : p.IsNamed) (h : q <+: p) : q.IsNamed := fun name hname =>
  hp name (h.subset hname)

/-- The path of a place is that of its names behind an empty one. -/
theorem toPath_eq (hp : p ≠ []) : p.toPath = Path.ofSegments ("" :: p) := by
  obtain ⟨name, rest, rfl⟩ := List.exists_cons_of_ne_nil hp
  unfold toPath Path.ofSegments
  rw [String.intercalate_cons_cons]
  rfl

theorem isAbsolute_toPath (p : Place) : p.toPath.isAbsolute = true := by
  unfold toPath Path.isAbsolute
  rw [String.toList_append]
  rfl

theorem segments_toPath (hp : p.IsNamed) (hne : p ≠ []) : p.toPath.segments = "" :: p := by
  rw [toPath_eq hne, Path.segments_ofSegments (List.cons_ne_nil _ _)]
  intro name hname
  rcases List.mem_cons.mp hname with rfl | hname
  · exact List.not_mem_nil
  · exact (hp name hname).slash

/-- The path of a place leads to it. -/
theorem target_toPath (d : Disk) (hp : p.IsNamed) : d.target p.toPath = p := by
  unfold Disk.target
  rw [isAbsolute_toPath, if_pos rfl]
  by_cases hne : p = []
  · subst hne
    rfl
  · rw [segments_toPath hp hne, List.foldl_cons]
    exact foldl_step_names hp []

/-- The path of a place that is not the root is one to which names can be joined. -/
theorem isBare_toPath (hp : p.IsNamed) (hne : p ≠ []) : p.toPath.IsBare := by
  obtain ⟨parent, name, rfl⟩ : ∃ parent name, p = parent ++ [name] :=
    ⟨_, _, (List.dropLast_append_getLast hne).symm⟩
  have hname := hp name (by simp)
  have hsuffix : name.toList <:+ (toPath (parent ++ [name])).text.toList := by
    unfold toPath
    rw [String.toList_append]
    exact (suffix_intercalate "/" name parent).trans (List.suffix_append _ _)
  have hsolid : name.toList ≠ [] := fun hnil => hname.ne_empty (String.toList_eq_nil_iff.mp hnil)
  obtain ⟨before, hbefore⟩ := hsuffix
  constructor
  · intro hempty
    rw [hempty] at hbefore
    exact hsolid (List.append_eq_nil_iff.mp hbefore).2
  · rw [← hbefore, List.getLast?_append_of_ne_nil _ hsolid]
    exact fun hlast => hname.slash (List.mem_of_mem_getLast? hlast)

/-- Joining a name leads to the entry of this name. -/
theorem join_toPath (hp : p.IsNamed) (hs : Path.IsName s) :
    p.toPath.join ⟨s⟩ = toPath (p ++ [s]) := by
  by_cases hne : p = []
  · subst hne
    have hrelative : (⟨s⟩ : Path).isAbsolute = false := by
      refine Bool.eq_false_iff.mpr fun habsolute => hs.slash ?_
      exact List.mem_of_mem_head? (beq_iff_eq.mp habsolute)
    unfold Path.join
    rw [hrelative, if_neg Bool.false_ne_true]
    simp [toPath]
  · have htext := Path.join_text (isBare_toPath hp hne) hs
    have hlonger : (toPath (p ++ [s])).text = p.toPath.text ++ "/" ++ s := by
      unfold toPath
      rw [String.intercalate_append_of_ne_nil hne (by simp)]
      simp [String.append_assoc]
    rw [← hlonger] at htext
    cases hjoin : p.toPath.join ⟨s⟩
    rw [hjoin] at htext
    exact congrArg Path.mk htext

theorem components_toPath (hp : p.IsNamed) :
    p.toPath.components = .root :: p.map Component.name := by
  have hsteps : ∀ names : List String, (∀ name ∈ names, Path.IsName name) →
      names.filterMap Path.stepOf? = names.map Component.name := by
    intro names hnames
    induction names with
    | nil => rfl
    | cons name rest ih =>
      rw [List.filterMap_cons, (hnames name List.mem_cons_self).step,
        ih fun other hother => hnames other (List.mem_cons_of_mem name hother), List.map_cons]
  by_cases hne : p = []
  · subst hne
    rfl
  · obtain ⟨name, rest, rfl⟩ := List.exists_cons_of_ne_nil hne
    unfold Path.components
    rw [segments_toPath hp hne]
    exact congrArg (Component.root :: ·) (hsteps _ hp)

theorem dropLastStep_concat (hp : p.IsNamed) (hs : Path.IsName s) :
    Path.dropLastStep (p ++ [s]) = p := by
  have hsolid : ∀ {name : String}, Path.IsName name → (Path.stepOf? name).isNone = false :=
    fun hname => by rw [hname.step]; rfl
  have hkept : p.reverse.dropWhile (fun name => (Path.stepOf? name).isNone) = p.reverse := by
    cases hreverse : p.reverse with
    | nil => rfl
    | cons name rest =>
      have hname := hp name (List.mem_reverse.mp (hreverse ▸ List.mem_cons_self))
      rw [List.dropWhile_cons, hsolid hname, if_neg Bool.false_ne_true]
  unfold Path.dropLastStep
  simp only [List.reverse_append, List.reverse_singleton, List.singleton_append,
    List.dropWhile_cons, hsolid hs, Bool.false_eq_true, if_false, List.drop_succ_cons,
    List.drop_zero]
  rw [hkept, List.reverse_reverse]

/-- The directory above an entry. -/
theorem parent?_toPath (hp : p.IsNamed) (hs : Path.IsName s) :
    (toPath (p ++ [s])).parent? = some p.toPath := by
  have hnamed := hp.concat hs
  have hne : p ++ [s] ≠ [] := by simp
  obtain ⟨c, cs, hcs⟩ : ∃ c cs, (p ++ [s]).map Component.name = c :: cs :=
    List.exists_cons_of_ne_nil (by simp)
  unfold Path.parent?
  rw [segments_toPath hnamed hne, components_toPath hnamed, hcs]
  show some (Path.mk ("/" ++ (Path.ofSegments (Path.dropLastStep (p ++ [s]))).text)) = _
  rw [dropLastStep_concat hp hs]
  rfl

theorem parent?_toPath_nil : (toPath []).parent? = none := by decide

theorem withoutSlash_toPath (hp : p.IsNamed) : Disk.withoutSlash p.toPath = p.toPath := by
  by_cases hne : p = []
  · subst hne
    decide
  · exact (isBare_toPath hp hne).withoutSlash_eq

end Place

namespace Disk

variable {d e : Disk} {p q : Place}

theorem makeDirectory_toPath (hp : p.IsNamed) (h : d.makeDirectory p.toPath = .ok e) :
    d.nodeAt? p = none ∧ e = d.put p (.directory Node.directoryMode) := by
  unfold makeDirectory at h
  rw [Place.withoutSlash_toPath hp] at h
  obtain ⟨r, hlocate, hmade⟩ := bind_eq_ok_iff.mp h
  rw [(eq_target_of_locate hlocate).trans (Place.target_toPath d hp)] at hmade
  cases hnode : d.nodeAt? p with
  | some n =>
    rw [hnode] at hmade
    cases hmade
  | none =>
    rw [hnode] at hmade
    exact ⟨rfl, (Except.ok.inj hmade).symm⟩

theorem nodeAt?_of_makeDirectory (hp : p.IsNamed) (h : d.makeDirectory p.toPath = .ok e)
    (q : Place) : e.nodeAt? q = d.nodeAt? q ∨ q <+: p ∧ d.nodeAt? q = none := by
  obtain ⟨hnone, rfl⟩ := makeDirectory_toPath hp h
  rw [nodeAt?_put (ne_nil_of_nodeAt? (d := d) (by simp [hnone]))]
  by_cases hq : q = p
  · exact .inr ⟨hq ▸ List.prefix_refl p, hq ▸ hnone⟩
  · exact .inl (if_neg hq)

theorem nodeAt?_of_makeDirectoriesFrom {fuel : Nat} (hp : p.IsNamed)
    (h : makeDirectoriesFrom fuel d p.toPath = .ok e) (q : Place) :
    e.nodeAt? q = d.nodeAt? q ∨ q <+: p ∧ d.nodeAt? q = none := by
  induction fuel generalizing d e p with
  | zero =>
    obtain rfl := Except.ok.inj h
    exact .inl rfl
  | succ fuel ih =>
    have hthere : ∀ {d : Disk} {fault : FileFault},
        (if d.isDirectory p.toPath then Except.ok d else .error fault) = .ok e → e = d := by
      intro d fault h
      split at h
      · exact (Except.ok.inj h).symm
      · cases h
    rw [makeDirectoriesFrom] at h
    split at h
    · obtain rfl := Except.ok.inj h
      exact .inl rfl
    · split at h
      · rename_i hmade
        obtain rfl := Except.ok.inj h
        exact nodeAt?_of_makeDirectory hp hmade q
      · -- Something above is missing: the root never is.
        rcases List.eq_nil_or_concat p with rfl | ⟨parent, name, rfl⟩
        · rw [Place.parent?_toPath_nil] at h
          cases h
        · rw [List.concat_eq_append] at h hthere hp ⊢
          have hparent := hp.of_prefix (List.prefix_append parent [name])
          rw [Place.parent?_toPath hparent (hp name (by simp))] at h
          obtain ⟨above, habove, h⟩ := bind_eq_ok_iff.mp h
          have hway := ih hparent habove
          have hfirst : above.nodeAt? q = d.nodeAt? q ∨ q <+: parent ++ [name] ∧ d.nodeAt? q = none :=
            hway.imp_right (And.imp_left fun hq => hq.trans (List.prefix_append _ _))
          split at h
          · rename_i hmade
            obtain rfl := Except.ok.inj h
            rcases nodeAt?_of_makeDirectory hp hmade q with hsame | ⟨hq, hnone⟩
            · rw [hsame]
              exact hfirst
            · exact .inr ⟨hq, hfirst.elim (fun hsame => hsame ▸ hnone) And.right⟩
          · rw [hthere h]
            exact hfirst
      · rw [hthere h]
        exact .inl rfl

/-- Making directories makes such as are missing on the way to the last. -/
theorem nodeAt?_of_makeDirectories (hp : p.IsNamed) (h : d.makeDirectories p.toPath = .ok e)
    (q : Place) : e.nodeAt? q = d.nodeAt? q ∨ q <+: p ∧ d.nodeAt? q = none :=
  nodeAt?_of_makeDirectoriesFrom hp h q

/-- A directory that is there need not be made. -/
theorem makeDirectories_of_open? {mode : Nat} (hp : p.IsNamed)
    (hopen : d.open? p.toPath = .ok (p, .directory mode)) : d.makeDirectories p.toPath = .ok d := by
  obtain ⟨hlocate, hnode⟩ := open?_eq_ok_iff.mp hopen
  have htext : p.toPath.text ≠ "" := by
    intro hempty
    unfold locate at hlocate
    rw [if_pos hempty] at hlocate
    cases hlocate
  have hmake : d.makeDirectory p.toPath = .error .exists := by
    unfold makeDirectory
    rw [Place.withoutSlash_toPath hp, hlocate]
    simp only [bind, Except.bind, hnode]
  have hdirectory : d.isDirectory p.toPath = true := by
    unfold isDirectory
    rw [hopen]
  unfold makeDirectories
  rw [makeDirectoriesFrom, if_neg htext, hmake]
  exact if_pos hdirectory

end Disk

end SymbolRename
