import SymbolRename.Proofs.Batch.Completion
import SymbolRename.Proofs.Batch.Substitution
import SymbolRename.Proofs.Rename.Independence

/-!
# Temporary names are words of no searched file

Planning reads the files that its search goes through, be they texts or not and spelled in one
way or in several. Every word in them that begins like a temporary name is found and avoided, so
none of the names that a plan allocates is a word of one of these files: `Batch.allocated_fresh`.
-/

namespace SymbolRename

section

variable {f : Filter} {d : Disk} {roots files : List Path} {path : Path} {content : Bytes}

/-- A file that a search goes through is found for a name that it contains, in some spelling. -/
theorem Search.exists_read_candidate (hfiles : Search.files f roots d = .ok files)
    (hpath : path ∈ files) (hsearched : isSearchable { disk := d } f path = true)
    (hread : Store.readDisk d path = .ok content) {name : String} (hname : name ≠ "")
    (hcontains : Bytes.contains (bytes name) content = true) {found : List Path}
    (hfound : candidates { disk := d } roots f [name] = .ok found) :
    ∃ q ∈ found, Store.read { disk := d } q = .ok content := by
  have hread : Store.read { disk := d } path = .ok content := hread
  obtain ⟨q, hq, hsame⟩ := PathSet.exists_same_ofList (List.mem_filter.mpr ⟨hpath, hsearched⟩)
  obtain ⟨other, hother⟩ := exists_read_of_walked hq
  obtain rfl := Store.eq_of_read_of_same hsame hother hread
  have hcandidates := candidates_eq_filter (s := { disk := d }) hfiles hname
  obtain rfl := Except.ok.inj (hcandidates.symm.trans hfound)
  refine ⟨q, List.mem_filter.mpr ⟨hq, ?_⟩, hother⟩
  rw [Store.mentions_eq hother, hcontains]

/-- A word that begins with the mark is taken, up to its first byte past ASCII. -/
theorem Batch.exists_taken_of_mem_words (hfiles : Search.files f roots d = .ok files)
    {taken : List String} (htaken : takenNames f d roots = .ok taken) (hpath : path ∈ files)
    (hsearched : Search.isSearchable { disk := d } f path = true)
    (hread : Store.readDisk d path = .ok content) {w : Bytes} (hword : w ∈ Bytes.words content)
    (hmark : bytes Plan.tempMark <+: w) : ∃ name ∈ taken, bytes name = w.takeWhile (· < 0x80) := by
  obtain ⟨found, hfound, htaken⟩ := bind_eq_ok_iff.mp htaken
  obtain rfl := Except.ok.inj htaken
  have hcontains : Bytes.contains (bytes Plan.tempMark) content = true := by
    obtain ⟨_, front, rest, rfl, _⟩ := Bytes.exists_of_mem_words hword
    obtain ⟨more, rfl⟩ := hmark
    exact Bytes.contains_iff.mpr ⟨front, more ++ rest, by simp⟩
  obtain ⟨q, hq, hreadq⟩ := Search.exists_read_candidate hfiles hpath hsearched hread
    (by decide +kernel) hcontains hfound
  obtain ⟨name, hname, hbytes⟩ := exists_tempName_of_mem_words hword hmark
  refine ⟨name, List.mem_flatMap.mpr ⟨q, hq, ?_⟩, hbytes⟩
  rwa [hreadq]

end

/-- The temporary names of a plan are fresh in the project it was made for. In each file that
planning searches, whatever its bytes, every word that begins with the mark of temporary names is
found, up to its first byte past ASCII, and no allocated name is what is found of a word. So no
allocated name is a word of such a file, where bytes past ASCII belong to words. -/
theorem Batch.allocated_fresh {f : Filter} {d : Disk} {roots : List Path} {mappings : List Mapping}
    {p : Plan} (hplan : plan f d roots mappings = .ok p) :
    ∃ files taken, Search.files f roots d = .ok files ∧ takenNames f d roots = .ok taken ∧
      ∀ path ∈ files, Search.isSearchable { disk := d } f path = true →
        ∀ content, Store.readDisk d path = .ok content →
          (∀ w ∈ Bytes.words content, bytes Plan.tempMark <+: w →
            ∃ name ∈ taken, bytes name = w.takeWhile (· < 0x80) ∧ name ∉ p.allocated) ∧
          ∀ name ∈ p.allocated, bytes name ∉ Bytes.words content := by
  obtain ⟨files, hfiles⟩ := exists_files_of_plan hplan
  obtain ⟨taken, htaken, rfl, hproper⟩ := plan_eq_ok hplan
  have hsound := Plan.sound_ofMappings hproper taken
  refine ⟨files, taken, hfiles, htaken, fun path hpath hsearched content hread => ?_⟩
  have hfound : ∀ w ∈ Bytes.words content, bytes Plan.tempMark <+: w →
      ∃ name ∈ taken, bytes name = w.takeWhile (· < 0x80) := fun w hword hmark =>
    exists_taken_of_mem_words hfiles htaken hpath hsearched hread hword hmark
  refine ⟨fun w hword hmark => ?_, fun name hname hword => ?_⟩
  · obtain ⟨name, hname, hbytes⟩ := hfound w hword hmark
    exact ⟨name, hname, hbytes, fun hallocated => (hsound.fresh name hallocated).2 hname⟩
  · -- An allocated name is ASCII, so all of it would be found.
    have htemp := hsound.temp name hname
    obtain ⟨more, hmore⟩ := htemp.exists_bytes
    obtain ⟨other, hother, hbytes⟩ := hfound _ hword ⟨more, hmore.symm⟩
    have hascii := lt_of_isValidIdentifier htemp.isValidIdentifier
    rw [List.takeWhile_eq_self_iff.mpr fun b hb => by simpa using hascii b hb] at hbytes
    obtain rfl := bytes_injective hbytes
    exact (hsound.fresh other hname).2 hother

/-- A name that goes on past ASCII keeps its beginning from being allocated, and one that goes on
with a sign does not. -/
theorem Batch.allocated_fresh_past_ascii :
    ∃ p, plan {} (sourceDisk "(__refactor_tmp_1779addb_0é) __refactor_tmp_1779addb_1$" [])
        [⟨"src"⟩] (swap "a" "b") = .ok p ∧
      p.allocated = ["__refactor_tmp_1779addb_0_1", "__refactor_tmp_1779addb_1"] ∧
      ∀ name ∈ p.allocated, bytes name ∉
        Bytes.words (bytes "(__refactor_tmp_1779addb_0é) __refactor_tmp_1779addb_1$") := by
  let text := "(__refactor_tmp_1779addb_0é) __refactor_tmp_1779addb_1$"
  have hplan : plan {} (sourceDisk text []) [⟨"src"⟩] (swap "a" "b") =
      .ok (Plan.ofMappings (swap "a" "b")
        ["__refactor_tmp_1779addb_0", "__refactor_tmp_1779addb_1$"]) := by
    decide +kernel
  have hlooks : Search.files {} [⟨"src"⟩] (sourceDisk text []) = .ok [⟨"src/a.js"⟩] := by
    decide +kernel
  obtain ⟨files, taken, hfiles, _, hfresh⟩ := allocated_fresh hplan
  obtain rfl := Except.ok.inj (hlooks.symm.trans hfiles)
  exact ⟨_, hplan, by decide +kernel,
    (hfresh _ List.mem_cons_self (by decide +kernel) (bytes text) (by decide +kernel)).2⟩

end SymbolRename
