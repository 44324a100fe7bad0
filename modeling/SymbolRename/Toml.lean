/-!
# TOML values

A document is built statement by statement, and every statement may add to tables
that stand there already. How a table came about decides what may still be added:
`Toml.change` follows a path of keys as far as that is allowed.
-/

namespace SymbolRename

/-- How a table came about. -/
inductive TableOrigin
  /-- By a header of its own, or as the document itself. -/
  | header
  /-- On the way to the table of a longer header. -/
  | implied
  /-- By a dotted key. -/
  | dotted
  /-- Between braces. -/
  | inline
deriving DecidableEq, Repr

/-- A TOML value. -/
inductive Toml
  | string (s : String)
  | integer (n : Int)
  /-- A number that is not whole, as it was written. -/
  | float (text : String)
  | boolean (b : Bool)
  /-- A date, a time of day or both, as it was written. -/
  | moment (text : String)
  | array (items : List Toml)
  | table (origin : TableOrigin) (members : List (String × Toml))
  /-- The tables of headers in double brackets: only the last can be added to. -/
  | tables (earlier : List Toml) (origin : TableOrigin) (members : List (String × Toml))
deriving Repr, Inhabited

namespace Toml

/-- The members of a table. -/
abbrev Members := List (String × Toml)

/-- The members with one of them set. -/
def setMember (key : String) (v : Toml) : Members → Members
  | [] => [(key, v)]
  | (k, w) :: rest => if k = key then (key, v) :: rest else (k, w) :: setMember key v rest

/-- A member that is set is found, and all others stay. -/
theorem lookup_setMember {key k : String} {v : Toml} {members : Members} :
    (setMember key v members).lookup k = if k = key then some v else members.lookup k := by
  induction members with
  | nil =>
    by_cases h : k = key
    · simp [setMember, h]
    · have hb : (k == key) = false := by simpa using h
      simp [setMember, List.lookup_cons, h, hb]
  | cons entry rest ih =>
    obtain ⟨r, w⟩ := entry
    by_cases hr : r = key
    · subst hr
      by_cases h : k = r
      · simp [setMember, h]
      · have hb : (k == r) = false := by simpa using h
        simp [setMember, List.lookup_cons, h, hb]
    · by_cases h : k = r
      · subst h
        simp [setMember, hr]
      · have hb : (k == r) = false := by simpa using h
        simp [setMember, List.lookup_cons, hr, hb, ih]

/-- Changes the table at the end of a path. Missing tables on the way are made with
the given origin. Nothing is added to a table between braces, and a dotted key adds
nothing to a table that has a header. -/
def change (made : TableOrigin)
    (f : TableOrigin → Members → Option (TableOrigin × Members)) :
    List String → TableOrigin → Members → Option (TableOrigin × Members)
  | [], origin, members => f origin members
  | key :: rest, origin, members => do
    let child ← match members.lookup key with
      | none => do
        let (o, ms) ← change made f rest made []
        some (table o ms)
      | some (table o ms) =>
        if o = .inline ∨ (made = .dotted ∧ o = .header) then none
        else do
          let (o, ms) ← change made f rest o ms
          some (table o ms)
      | some (tables earlier o ms) => do
        let (o, ms) ← change made f rest o ms
        some (tables earlier o ms)
      | some _ => none
    some (origin, setMember key child members)

/-- Gives a table a new member. After a dotted key, only a table that a dotted key
made takes one. -/
def addMember (key : String) (v : Toml) (afterDots : Bool) (origin : TableOrigin)
    (members : Members) : Option (TableOrigin × Members) :=
  if (afterDots && origin != .dotted) || (members.lookup key).isSome then none
  else some (origin, setMember key v members)

/-- Adds a value under a dotted key; the last key is the value's own. -/
def addValue (path : List String) (key : String) (v : Toml) :
    TableOrigin → Members → Option (TableOrigin × Members) :=
  change .dotted (addMember key v !path.isEmpty) path

/-- Gives a table a header. One that was only implied so far may get it. -/
def addHeader (key : String) (origin : TableOrigin) (members : Members) :
    Option (TableOrigin × Members) :=
  match members.lookup key with
  | none => some (origin, setMember key (table .header []) members)
  | some (table .implied ms) => some (origin, setMember key (table .header ms) members)
  | some _ => none

/-- Adds a table to a list of tables. -/
def addTable (key : String) (origin : TableOrigin) (members : Members) :
    Option (TableOrigin × Members) :=
  match members.lookup key with
  | none => some (origin, setMember key (tables [] .header []) members)
  | some (tables earlier o ms) =>
    some (origin, setMember key (tables (earlier ++ [table o ms]) .header []) members)
  | some _ => none

/-! ### Reading values -/

/-- The text of a string. -/
def string? : Toml → Option String
  | string s => some s
  | _ => none

/-- The truth value. -/
def boolean? : Toml → Option Bool
  | boolean b => some b
  | _ => none

/-- The whole number, if it is at least zero and below a limit. -/
def below? (limit : Nat) : Toml → Option Nat
  | integer (.ofNat n) => if n < limit then some n else none
  | _ => none

/-- The texts of a list of strings. -/
def strings? : Toml → Option (List String)
  | array items => items.mapM string?
  | _ => none

/-- Finds members by name. A list stands for a table with its members in the order of
the names; a moment has none of them. -/
def record? (names : List String) : Toml → Option (String → Option Toml)
  | table _ members => some fun name => members.lookup name
  | array items => some fun name => (names.zip items).lookup name
  | moment _ => some fun _ => none
  | _ => none

end Toml

end SymbolRename
