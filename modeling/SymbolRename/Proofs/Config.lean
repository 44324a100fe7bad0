import SymbolRename.Config
import SymbolRename.Proofs.Disk.Keeping
import SymbolRename.Proofs.Fallible
import SymbolRename.Proofs.Text.Utf8
import SymbolRename.Proofs.Toml.Documents

/-!
# Saving a configuration and loading it

What is saved is a document with two tables (`Config.pieces`). Each of its statements can be cut out
of the text: what is left is the configuration in which exactly the members that are gone have their
defaults (`Config.without`). For that a member has to be left out of the text only where its default
says the same.
-/

namespace SymbolRename

open Toml

namespace Config

/-- The keys of a configuration: two tables and their members. -/
inductive Key
  | defaults
  | includes
  | excludes
  | extensions
  | level
  | color
  | snapshots
  | commit
  | query
  | command
  | queryFile
deriving DecidableEq, Repr

namespace Key

/-- How a key is written. -/
def name : Key → String
  | defaults => "defaults"
  | includes => "include"
  | excludes => "exclude"
  | extensions => "extensions"
  | level => "unrestricted_level"
  | color => "use_color"
  | snapshots => "create_snapshots"
  | commit => "commit"
  | query => "query"
  | command => "command"
  | queryFile => "query_file"

theorem name_injective : Function.Injective name := by
  intro k l h
  cases k <;> cases l <;> first
    | rfl
    | exact absurd h (by decide)

theorem isKey_name (k : Key) : IsKey k.name := by
  cases k <;> exact ⟨by decide, List.all_eq_true.mp (by decide)⟩

end Key

/-! ### The text in pieces -/

/-- What a key of a configuration is set to, if it is. -/
def setting (c : Config) : Key → Option Setting
  | .includes => some (.strings c.defaults.includes)
  | .excludes => some (.strings c.defaults.excludes)
  | .extensions => some (.strings c.defaults.extensions)
  | .level => some (.count c.defaults.level)
  | .color => c.defaults.color.map .boolean
  | .snapshots => some (.boolean c.defaults.snapshots)
  | .commit => some (.boolean c.defaults.commit)
  | .command => c.query.command.map .string
  | .queryFile => c.query.queryFile.map .string
  | .defaults | .query => none

/-- The members of the first table, in order. -/
def defaultsKeys : List Key :=
  [.includes, .excludes, .extensions, .level, .color, .snapshots, .commit]

/-- The members of the second table, in order. -/
def queryKeys : List Key := [.command, .queryFile]

/-- The statements of a table, each with the keys that it goes with. -/
def table (c : Config) (name : Key) (members : List Key) : List (List Key × Statement) :=
  ([name], .header name.name) :: members.filterMap fun k =>
    (c.setting k).map fun v => ([name, k], .member k.name v)

/-- The statements of a configuration, each with the keys that it goes with. -/
def pieces (c : Config) : List (List Key × Statement) :=
  c.table .defaults defaultsKeys ++ ([], .blank) :: c.table .query queryKeys

/-- The statements that are left without some keys. -/
def statementsWithout (gone : Finset Key) (c : Config) : List Statement :=
  (c.pieces.filter fun p => p.1.all (· ∉ gone)).map Prod.snd

/-- The text of a configuration without some of its keys. A table goes with its members. -/
def textWithout (gone : Finset Key) (c : Config) : String :=
  String.join ((c.statementsWithout gone).map Statement.text)

/-- The text of a table is its header and its members. -/
theorem join_table (c : Config) (name : Key) (members : List Key) :
    String.join (((c.table name members).map Prod.snd).map Statement.text) =
      "[" ++ name.name ++ "]\n" ++
        String.join
          (members.map fun k => (c.setting k).elim "" fun v => line k.name v.written) := by
  have hmembers : ∀ members : List Key,
      String.join (((members.filterMap fun k => (c.setting k).map fun v =>
        ([name, k], Statement.member k.name v)).map Prod.snd).map Statement.text) =
      String.join (members.map fun k => (c.setting k).elim "" fun v => line k.name v.written) := by
    intro members
    induction members with
    | nil => rfl
    | cons k rest ih =>
      rw [List.map_cons, String.join_cons, ← ih]
      cases hk : c.setting k with
      | none => simp [hk]
      | some v => simp [hk, Statement.text]
  rw [table, List.map_cons, List.map_cons, String.join_cons, hmembers]
  rfl

/-- What is saved is the text with all its keys. -/
theorem render_eq (c : Config) : c.render = c.textWithout ∅ := by
  have hall : c.statementsWithout ∅ = c.pieces.map Prod.snd := by
    rw [statementsWithout, List.filter_eq_self.mpr fun p _ => by simp]
  have htext : c.textWithout ∅ =
      String.join (((c.table .defaults defaultsKeys).map Prod.snd).map Statement.text) ++
        (Statement.blank.text ++
          String.join (((c.table .query queryKeys).map Prod.snd).map Statement.text)) := by
    rw [textWithout, hall, pieces, List.map_append, List.map_append, String.join_append,
      List.map_cons, List.map_cons, String.join_cons]
  have hfirst : "[defaults]\n" = "[" ++ "defaults" ++ "]\n" := by simp
  have hsecond : "\n[query]\n" = "\n" ++ ("[" ++ "query" ++ "]\n") := by simp
  rw [htext, join_table, join_table]
  unfold render
  dsimp only
  rewrite [hfirst, hsecond]
  simp only [defaultsKeys, queryKeys, setting, Key.name, Statement.text, Setting.written,
    List.map_cons, List.map_nil, String.join_cons, String.join_nil, String.append_assoc,
    String.append_empty, Option.elim_map, Option.elim_some, Function.comp_def]

/-! ### Defaults in the place of what is gone -/

/-- A value, or its default if its key is gone. -/
def valueOr {α : Type} (gone : Finset Key) (key : Key) (value default : α) : α :=
  if key ∈ gone then default else value

/-- The first table with the defaults of the members that are gone. -/
def defaultsWithout (gone : Finset Key) (d : Defaults) : Defaults :=
  let initial : Defaults := {}
  { includes := valueOr gone .includes d.includes initial.includes
    excludes := valueOr gone .excludes d.excludes initial.excludes
    extensions := valueOr gone .extensions d.extensions initial.extensions
    level := valueOr gone .level d.level initial.level
    color := valueOr gone .color d.color initial.color
    snapshots := valueOr gone .snapshots d.snapshots initial.snapshots
    commit := valueOr gone .commit d.commit initial.commit }

/-- The second table with the defaults of the members that are gone. -/
def queryWithout (gone : Finset Key) (q : QueryConfig) : QueryConfig :=
  let initial : QueryConfig := {}
  { command := valueOr gone .command q.command initial.command
    queryFile := valueOr gone .queryFile q.queryFile initial.queryFile }

/-- The configuration in which the keys that are gone have their defaults, and no others. -/
def without (gone : Finset Key) (c : Config) : Config :=
  { defaults := valueOr gone .defaults (defaultsWithout gone c.defaults) {}
    query := valueOr gone .query (queryWithout gone c.query) {} }

@[simp] theorem without_empty (c : Config) : c.without ∅ = c := rfl

/-! ### Building the tables -/

section

variable (gone : Finset Key) (c : Config)

/-- What a key is set to in the text that is left. -/
def settingLeft (k : Key) : Option Setting := if k ∈ gone then none else c.setting k

/-- The members that are left of a table. -/
def membersLeft (members : List Key) : List (String × Setting) :=
  members.filterMap fun k => (settingLeft gone c k).map fun v => (k.name, v)

/-- The members that are left, as they are read. -/
def entriesLeft (members : List Key) : Members :=
  (membersLeft gone c members).map fun s => (s.1, s.2.value)

/-- A table that is left, as it is read. -/
def tableLeft (name : Key) (members : List Key) : Members :=
  if name ∈ gone then [] else [(name.name, .table .header (entriesLeft gone c members))]

/-- A table is left with the members that are left, or not at all. -/
theorem statements_table (name : Key) (members : List Key) :
    ((c.table name members).filter fun p => p.1.all (· ∉ gone)).map Prod.snd =
      if name ∈ gone then []
      else .header name.name :: (membersLeft gone c members).map fun s => .member s.1 s.2 := by
  unfold table membersLeft
  split
  · rename_i hgone
    rw [List.filter_eq_nil_iff.mpr, List.map_nil]
    intro p hp
    simp only [List.mem_cons, List.mem_filterMap, Option.map_eq_some_iff] at hp
    rcases hp with rfl | ⟨k, -, v, -, rfl⟩
    · simp [hgone]
    · simp [hgone]
  · rename_i hstays
    rw [List.filter_cons_of_pos (by simp [hstays]), List.map_cons]
    refine congrArg _ ?_
    induction members with
    | nil => rfl
    | cons k rest ih =>
      by_cases hk : k ∈ gone
      · cases hv : c.setting k with
        | none => simpa [settingLeft, hk, hv] using ih
        | some v => simpa [settingLeft, hk, hv] using ih
      · cases hv : c.setting k with
        | none => simpa [settingLeft, hk, hv] using ih
        | some v => simpa [settingLeft, hk, hv, hstays] using ih

/-- The members that are left are named for different keys. -/
theorem nodup_membersLeft {members : List Key} (h : members.Nodup) :
    ((membersLeft gone c members).map Prod.fst).Nodup := by
  have hnames : (membersLeft gone c members).map Prod.fst =
      (members.filter fun k => (settingLeft gone c k).isSome).map Key.name := by
    unfold membersLeft
    induction members with
    | nil => rfl
    | cons k rest ih =>
      cases hv : settingLeft gone c k with
      | none => simpa [hv] using ih h.of_cons
      | some v => simpa [hv] using ih h.of_cons
  rw [hnames]
  exact (h.filter _).map Key.name_injective

/-- A member is found unless it is gone or not set. -/
theorem lookup_entriesLeft {members : List Key} {k : Key} (hk : k ∈ members) :
    (entriesLeft gone c members).lookup k.name = (settingLeft gone c k).map Setting.value := by
  cases hv : settingLeft gone c k with
  | none =>
    refine lookup_eq_none fun hmem => ?_
    simp only [entriesLeft, membersLeft, List.map_map, List.mem_map, List.mem_filterMap,
      Option.map_eq_some_iff] at hmem
    obtain ⟨-, ⟨l, -, v, hl, rfl⟩, hname⟩ := hmem
    rw [Key.name_injective hname, hv] at hl
    cases hl
  | some v =>
    unfold entriesLeft membersLeft
    induction members with
    | nil => cases hk
    | cons l rest ih =>
      by_cases hl : l = k
      · subst hl
        simp [hv]
      · have hne : (k.name == l.name) = false :=
          beq_eq_false_iff_ne.mpr fun hsame => hl (Key.name_injective hsame).symm
        have hrest := ih ((List.mem_cons.mp hk).resolve_left (Ne.symm hl))
        cases hw : settingLeft gone c l with
        | none => simpa [hw] using hrest
        | some w => simpa [hw, List.lookup_cons, hne] using hrest

end

/-! ### Reading what is left -/

section

variable {gone : Finset Key} {c : Config}

/-- What a key is set to is small enough to be read. -/
theorem isSmall_of_setting (h : c.defaults.level < levelLimit) {k : Key} {v : Setting}
    (hv : c.setting k = some v) : v.IsSmall := by
  have hsmall : Scalar.inRange c.defaults.level = true := by
    have hlimit : (levelLimit : Int) ≤ Nat.pow 2 128 := by decide
    have hlow : -(Nat.pow 2 127 : Int) ≤ 0 := by decide
    simp only [Scalar.inRange, Bool.and_eq_true, decide_eq_true_eq]
    omega
  cases k with
  | level =>
    cases hv
    exact hsmall
  | includes | excludes | extensions | snapshots | commit =>
    cases hv
    trivial
  | color | command | queryFile =>
    obtain ⟨_, -, rfl⟩ := Option.map_eq_some_iff.mp hv
    trivial
  | defaults | query => cases hv

/-- The settings that are left can be written and read. -/
theorem isSmall_membersLeft (h : c.defaults.level < levelLimit) {members : List Key} :
    ∀ s ∈ membersLeft gone c members, IsKey s.1 ∧ s.2.IsSmall := by
  intro s hs
  simp only [membersLeft, List.mem_filterMap, Option.map_eq_some_iff] at hs
  obtain ⟨k, -, v, hv, rfl⟩ := hs
  unfold settingLeft at hv
  split at hv
  · cases hv
  · exact ⟨k.isKey_name, isSmall_of_setting h hv⟩

/-- The statements that are left build the tables that are left. -/
theorem builds_statementsWithout (h : c.defaults.level < levelLimit) :
    ∃ header, Builds {} (c.statementsWithout gone)
      ⟨header, tableLeft gone c .defaults defaultsKeys ++ tableLeft gone c .query queryKeys⟩ := by
  have htable : ∀ (d : Reader.Draft) (name : Key) (members : List Key), members.Nodup →
      name.name ∉ d.members.map Prod.fst → ∃ header,
        Builds d (((c.table name members).filter fun p => p.1.all (· ∉ gone)).map Prod.snd)
          ⟨header, d.members ++ tableLeft gone c name members⟩ := by
    intro d name members hnodup hname
    rw [statements_table]
    unfold tableLeft
    split
    · rw [List.append_nil]
      exact ⟨d.header, .nil d⟩
    · exact ⟨_, builds_table name.isKey_name hname (isSmall_membersLeft h)
        (nodup_membersLeft gone c hnodup)⟩
  obtain ⟨header, hdefaults⟩ := htable {} .defaults defaultsKeys (by decide) (by simp)
  have hquery : Key.query.name ∉ (tableLeft gone c .defaults defaultsKeys).map Prod.fst := by
    unfold tableLeft
    split <;> simp [Key.name]
  obtain ⟨header', hquery⟩ := htable ⟨header, tableLeft gone c .defaults defaultsKeys⟩ .query
    queryKeys (by decide) hquery
  refine ⟨header', ?_⟩
  rw [statementsWithout, pieces, List.filter_append, List.map_append,
    List.filter_cons_of_pos (by simp), List.map_cons]
  exact hdefaults.append (.cons (.blank _) hquery)

/-- A member that is left is read, and one that is gone has its default. -/
theorem member_left {α : Type} {members : List Key} {k : Key} {read : Toml → Option α}
    {value default : α} (hk : k ∈ members)
    (h : member ((c.setting k).map Setting.value) read default = some value) :
    member ((entriesLeft gone c members).lookup k.name) read default =
      some (valueOr gone k value default) := by
  rw [lookup_entriesLeft gone c hk]
  unfold settingLeft valueOr
  split
  · rfl
  · exact h

theorem strings?_array (items : List String) :
    Toml.strings? (.array (items.map .string)) = some items := by
  show (items.map Toml.string).mapM Toml.string? = some items
  induction items with
  | nil => rfl
  | cons s rest ih => simp [List.mapM_cons, Toml.string?, ih]

theorem member_boolean (b : Option Bool) :
    member ((b.map Setting.boolean).map Setting.value) (fun v => v.boolean?.map some) none =
      some b := by
  cases b <;> rfl

theorem member_string (s : Option String) :
    member ((s.map Setting.string).map Setting.value) (fun v => v.string?.map some) none =
      some s := by
  cases s <;> rfl

theorem below?_integer {n limit : Nat} (h : n < limit) :
    Toml.below? limit (.integer n) = some n := if_pos h

/-- The first table is read from the members that are left. -/
theorem defaults?_left (h : c.defaults.level < levelLimit) :
    defaults? (.table .header (entriesLeft gone c defaultsKeys)) =
      some (defaultsWithout gone c.defaults) := by
  refine Option.bind_eq_some_iff.mpr
    ⟨_, member_left (k := .includes) (by decide) (strings?_array _), ?_⟩
  refine Option.bind_eq_some_iff.mpr
    ⟨_, member_left (k := .excludes) (by decide) (strings?_array _), ?_⟩
  refine Option.bind_eq_some_iff.mpr
    ⟨_, member_left (k := .extensions) (by decide) (strings?_array _), ?_⟩
  refine Option.bind_eq_some_iff.mpr
    ⟨_, member_left (k := .level) (by decide) (below?_integer h), ?_⟩
  refine Option.bind_eq_some_iff.mpr
    ⟨_, member_left (k := .color) (by decide) (member_boolean _), ?_⟩
  refine Option.bind_eq_some_iff.mpr ⟨_, member_left (k := .snapshots) (by decide) rfl, ?_⟩
  refine Option.bind_eq_some_iff.mpr ⟨_, member_left (k := .commit) (by decide) rfl, ?_⟩
  rfl

/-- The second table is read from the members that are left. -/
theorem query?_left :
    query? (.table .header (entriesLeft gone c queryKeys)) = some (queryWithout gone c.query) := by
  refine Option.bind_eq_some_iff.mpr
    ⟨_, member_left (k := .command) (by decide) (member_string _), ?_⟩
  refine Option.bind_eq_some_iff.mpr
    ⟨_, member_left (k := .queryFile) (by decide) (member_string _), ?_⟩
  rfl

/-- A table that is left is read, and one that is gone has its defaults. -/
theorem table_left {α : Type} {name : Key} {members : List Key} {read : Toml → Option α}
    {value default : α} {all : Members}
    (hall : all.lookup name.name = (tableLeft gone c name members).lookup name.name)
    (h : read (.table .header (entriesLeft gone c members)) = some value) :
    member (all.lookup name.name) read default = some (valueOr gone name value default) := by
  rw [hall]
  unfold tableLeft valueOr
  split
  · rfl
  · simpa [member] using h

/-- What is left is read as the configuration with defaults in the place of what is gone. -/
theorem parse?_textWithout (h : c.defaults.level < levelLimit) :
    parse? (c.textWithout gone) = some (c.without gone) := by
  obtain ⟨header, hbuilds⟩ := @builds_statementsWithout gone c h
  have hdefaults : (tableLeft gone c .defaults defaultsKeys ++
      tableLeft gone c .query queryKeys).lookup Key.defaults.name =
        (tableLeft gone c .defaults defaultsKeys).lookup Key.defaults.name := by
    have hother : (tableLeft gone c .query queryKeys).lookup Key.defaults.name = none := by
      unfold tableLeft
      split <;> rfl
    rw [List.lookup_append, hother, Option.or_none]
  have hquery : (tableLeft gone c .defaults defaultsKeys ++
      tableLeft gone c .query queryKeys).lookup Key.query.name =
        (tableLeft gone c .query queryKeys).lookup Key.query.name := by
    have hother : (tableLeft gone c .defaults defaultsKeys).lookup Key.query.name = none := by
      unfold tableLeft
      split <;> rfl
    rw [List.lookup_append, hother, Option.none_or]
  refine Option.bind_eq_some_iff.mpr ⟨_, parse?_of_builds hbuilds, ?_⟩
  refine Option.bind_eq_some_iff.mpr ⟨_, table_left hdefaults (defaults?_left h), ?_⟩
  refine Option.bind_eq_some_iff.mpr ⟨_, table_left hquery query?_left, ?_⟩
  rfl

end

/-! ### The file -/

section

variable {d e : Disk} {path : Path}

/-- A configuration that was written is loaded. -/
theorem loadFile_of_write {text : String} {c : Config} (h : d.write path (bytes text) = .ok e)
    (hc : parse? text = some c) : loadFile e path = .ok c := by
  unfold loadFile
  rw [(Disk.readText_of_write h).1]
  simp [hc, bind, Except.bind]

/-- A configuration is saved in a directory that is there, unless a directory has its name. -/
theorem exists_save {p : Place} {name : String} {mode : Nat} (hp : p.IsNamed)
    (hname : Path.IsName name) (hopen : d.open? p.toPath = .ok (p, .directory mode))
    (hlocate : d.locate (Place.toPath (p ++ [name])) = .ok (p ++ [name]))
    (hfree : ∀ mode, d.nodeAt? (p ++ [name]) ≠ some (.directory mode)) (c : Config) :
    ∃ e, save d (Place.toPath (p ++ [name])) c = .ok e := by
  have hwhere := Disk.locateForWrite_of_locate
    (Place.withoutSlash_toPath (hp.concat hname)) hlocate hfree
  unfold save Disk.write
  rw [Place.parent?_toPath hp hname, Option.elim_some, Disk.makeDirectories_of_open? hp hopen]
  simp only [bind, Except.bind, hwhere]
  exact ⟨_, rfl⟩

end

/-- Either a file is refused, whatever the configuration, or the configuration that is saved is
loaded again, and with keys cut out of its text exactly these have their defaults. -/
theorem loadFile_save {c : Config} (h : c.defaults.level < levelLimit) (d : Disk) (path : Path) :
    (∃ failure, ∀ other : Config, save d path other = .error failure) ∨
    ∃ e, save d path c = .ok e ∧ e.readText path = .ok (c.textWithout ∅) ∧
      loadFile e path = .ok c ∧
      ∀ gone : Finset Key, ∃ f, e.write path (bytes (c.textWithout gone)) = .ok f ∧
        loadFile f path = .ok (c.without gone) := by
  have hsave : ∀ other : Config, save d path other = Except.mapError .ofFile
      (path.parent?.elim (pure d) d.makeDirectories >>= fun d =>
        d.write path (bytes other.render)) := fun _ => rfl
  cases hmade : path.parent?.elim (pure d) d.makeDirectories with
  | error fault =>
    refine .inl ⟨.ofFile fault, fun other => ?_⟩
    rw [hsave, hmade]
    rfl
  | ok made =>
    have hwrite : ∀ other : Config, save d path other =
        (made.write path (bytes other.render)).mapError .ofFile := by
      intro other
      rw [hsave, hmade]
      rfl
    cases hdone : made.write path (bytes c.render) with
    | error fault =>
      refine .inl ⟨.ofFile fault, fun other => ?_⟩
      rw [hwrite, Disk.write_error hdone]
      rfl
    | ok e =>
      rw [render_eq] at hdone
      obtain ⟨hread, hagain⟩ := Disk.readText_of_write hdone
      refine .inr ⟨e, ?_, hread, ?_, fun gone => ?_⟩
      · rw [hwrite, render_eq, hdone]
        rfl
      · exact loadFile_of_write hdone (parse?_textWithout h)
      · obtain ⟨f, hf⟩ := hagain (bytes (c.textWithout gone))
        exact ⟨f, hf, loadFile_of_write hf (parse?_textWithout h)⟩

/-- Quotes, backslashes and control characters come back, and so do the defaults of a member and of
a table that are cut out. -/
theorem loadFile_save_escapes :
    ∃ e, save ⟨["p"], 7, [(["p"], .directory 0o755)]⟩ ⟨"/p/.refactor/config.toml"⟩
        ⟨⟨["a\"b\\c\n\x01", "'''"], [], ["rs"], 255, some true, false, true⟩,
          ⟨some "x '\"", none⟩⟩ = .ok e ∧
      loadFile e ⟨"/p/.refactor/config.toml"⟩ = .ok
        ⟨⟨["a\"b\\c\n\x01", "'''"], [], ["rs"], 255, some true, false, true⟩,
          ⟨some "x '\"", none⟩⟩ ∧
      ∃ f, e.write ⟨"/p/.refactor/config.toml"⟩ (bytes (textWithout {.snapshots, .query}
          ⟨⟨["a\"b\\c\n\x01", "'''"], [], ["rs"], 255, some true, false, true⟩,
            ⟨some "x '\"", none⟩⟩)) = .ok f ∧
        loadFile f ⟨"/p/.refactor/config.toml"⟩ = .ok
          ⟨⟨["a\"b\\c\n\x01", "'''"], [], ["rs"], 255, some true, true, true⟩, ⟨none, none⟩⟩ := by
  rcases loadFile_save
    (c := ⟨⟨["a\"b\\c\n\x01", "'''"], [], ["rs"], 255, some true, false, true⟩,
      ⟨some "x '\"", none⟩⟩) (by decide) ⟨["p"], 7, [(["p"], .directory 0o755)]⟩
    ⟨"/p/.refactor/config.toml"⟩ with ⟨failure, hrefused⟩ | ⟨e, hsaved, -, hloaded, hwithout⟩
  · have haccepted : (save ⟨["p"], 7, [(["p"], .directory 0o755)]⟩ ⟨"/p/.refactor/config.toml"⟩
        {}).isOk = true := by decide +kernel
    rw [hrefused] at haccepted
    cases haccepted
  · obtain ⟨f, hf, hleft⟩ := hwithout {.snapshots, .query}
    exact ⟨e, hsaved, hloaded, f, hf, hleft⟩

end Config

end SymbolRename
