import SymbolRename.Digest.Sha256
import SymbolRename.Mapping
import SymbolRename.Text.Number

/-!
# Rename plans

A plan turns a mapping set into steps that are run one after the other. Mapping `i`
depends on the first other mapping whose old name is the new name of `i`: that one
has to run earlier, or it would pick up the names that `i` just wrote. Dependencies
form chains that end or close into a cycle; a cycle goes through temporary names.
-/

namespace SymbolRename

/-- One rename that a batch runs. -/
structure PlanStep where
  old : String
  new : String
  /-- The index of the mapping that the step belongs to. -/
  origin : Nat
  /-- The step is one half of a cycle member, through a temporary name. -/
  isTemp : Bool
deriving DecidableEq, Repr

/-- A mapping whose new name is the old name of several other mappings. -/
structure Ambiguity where
  mapping : Nat
  candidates : List Nat
  chosen : Nat
deriving DecidableEq, Repr

/-- The steps of a mapping set, with the dependencies that order them. -/
structure Plan where
  steps : List PlanStep := []
  dependsOn : List (Option Nat) := []
  /-- The closed chains, each from its lowest index on. -/
  cycles : List (List Nat) := []
  ambiguities : List Ambiguity := []
deriving DecidableEq, Repr

namespace Plan

/-- The beginning of every temporary name. -/
def tempMark : String := "__refactor_tmp_"

/-- The number of mappings that go through temporary names. -/
def circularRenames (p : Plan) : Nat := Count.total (p.cycles.map List.length)

/-- The number of the cycle that a mapping belongs to. -/
def cycleOf? (p : Plan) (mapping : Nat) : Option Nat :=
  p.cycles.findIdx? (·.contains mapping)

/-- A name that begins like a temporary name. -/
def isTempName (name : String) : Bool := Bytes.startsWith (bytes name) (bytes tempMark)

/-- The temporary names that the steps write, in order. -/
def tempNames (p : Plan) : List String :=
  (p.steps.filter fun s => s.isTemp && isTempName s.new).map (·.new)

/-- The other mappings whose old name is the new name of mapping `i`. -/
def candidates (mappings : List Mapping) (i : Nat) : List Nat :=
  match mappings[i]? with
  | none => []
  | some m =>
    (List.range mappings.length).filter fun j =>
      j != i && (mappings[j]?.any fun n => n.old == m.new)

/-- What each mapping depends on. -/
def dependencies (mappings : List Mapping) : List (Option Nat) :=
  (List.range mappings.length).map fun i => (candidates mappings i).head?

/-- The mappings with several candidates to depend on. -/
def ambiguitiesOf (mappings : List Mapping) : List Ambiguity :=
  (List.range mappings.length).filterMap fun i =>
    match candidates mappings i with
    | chosen :: other :: more => some ⟨i, chosen :: other :: more, chosen⟩
    | _ => none

/-- What mapping `i` depends on. -/
def next? (dependsOn : List (Option Nat)) (i : Nat) : Option Nat := dependsOn[i]?.join

/-- A cycle, listed from its lowest member on. -/
def fromLowest (cycle : List Nat) : List Nat :=
  let lowest := cycle.idxOf (cycle.min?.getD 0)
  cycle.drop lowest ++ cycle.take lowest

/-- What walks along dependencies have met so far. -/
structure Walks where
  visited : List Nat := []
  /-- The closed chains, in the order in which they were met. -/
  cycles : List (List Nat) := []
deriving DecidableEq, Repr

/-- Walks on from `node`, behind the `path` since the start, until the dependencies end, come
back to the path or reach what an earlier walk met. A walk goes on only from mappings that were
not visited, so it has at most `count` of them left. -/
def Walks.walk (dependsOn : List (Option Nat)) : Nat → Walks → List Nat → Option Nat → Walks
  | _, w, _, none => w
  | 0, w, _, some _ => w
  | count + 1, w, path, some current =>
    if path.contains current then
      { w with cycles := w.cycles ++ [fromLowest (path.drop (path.idxOf current))] }
    else if w.visited.contains current then w
    else
      walk dependsOn count { w with visited := current :: w.visited } (path ++ [current])
        (next? dependsOn current)

/-- Walks from a mapping, unless an earlier walk met it. -/
def Walks.start (dependsOn : List (Option Nat)) (w : Walks) (start : Nat) : Walks :=
  if w.visited.contains start then w
  else w.walk dependsOn (dependsOn.length + 1) [] (some start)

/-- Puts a cycle among others, behind those whose first members are not greater. -/
def insertCycle (cycle : List Nat) : List (List Nat) → List (List Nat)
  | [] => [cycle]
  | other :: rest =>
    if cycle.headD 0 < other.headD 0 then cycle :: other :: rest
    else other :: insertCycle cycle rest

/-- The closed chains, each from its lowest member on, in the order of these. -/
def cyclesOf (dependsOn : List (Option Nat)) : List (List Nat) :=
  let w := (List.range dependsOn.length).foldl (Walks.start dependsOn) {}
  w.cycles.foldl (fun sorted cycle => insertCycle cycle sorted) []

/-- The digest of a mapping set, which tells its order too. -/
def setHash (mappings : List Mapping) : String :=
  Sha256.hex (mappings.flatMap fun m => bytes m.old ++ 0 :: (bytes m.new ++ [Bytes.newline]))

/-- The name that is tried at the `attempt`-th attempt. -/
def tempCandidate (base : String) (attempt : Nat) : String :=
  if attempt = 0 then base else s!"{base}_{attempt}"

/-- The first candidate from `attempt` on that is not in use, among `fuel` many. -/
def firstFree (inUse : String → Bool) (base : String) : Nat → Nat → String
  | 0, attempt => tempCandidate base attempt
  | fuel + 1, attempt =>
    if inUse (tempCandidate base attempt) then firstFree inUse base fuel (attempt + 1)
    else tempCandidate base attempt

/-- The temporary name of a cycle member: the mark, eight digits of the set's
digest and the mapping's index, numbered on until no name in `used` equals it. -/
def tempName (hash : String) (used : List String) (mapping : Nat) : String :=
  let base := s!"{tempMark}{String.ofList (hash.toList.take 8)}_{mapping}"
  firstFree used.contains base (used.length + 1) 0

/-- Temporary names for the members of a cycle, each new name joining `used`. -/
def allocate (hash : String) : List String → List Nat → List String
  | _, [] => []
  | used, m :: rest =>
    let name := tempName hash used m
    name :: allocate hash (name :: used) rest

/-- What is put into the plan at one point of the emission. -/
inductive Pending
  | mapping (index : Nat)
  | cycle (id : Nat)
deriving DecidableEq, Repr

/-- What has been emitted so far. -/
structure Emission where
  steps : List PlanStep := []
  /-- The mappings whose steps are there. -/
  emitted : List Nat := []
  /-- The cycles whose steps are there. -/
  cycles : List Nat := []
  /-- Names that a temporary name must not equal. -/
  used : List String
deriving Repr

/-- The pending prerequisites of a mapping, itself first, up to one that is
emitted or belongs to a cycle; `count` bounds the length of the chain. -/
def prerequisites (dependsOn : List (Option Nat)) (cycleOf : Nat → Option Nat) (e : Emission) :
    Nat → Nat → List Pending
  | 0, _ => []
  | count + 1, i =>
    if e.emitted.contains i then []
    else match cycleOf i with
      | some id => if e.cycles.contains id then [] else [.cycle id]
      | none =>
        .mapping i ::
          match next? dependsOn i with
          | some j => prerequisites dependsOn cycleOf e count j
          | none => []

/-- Emits one pending item: a direct step, or both passes of a cycle. -/
def Emission.put (mappings : List Mapping) (cycles : List (List Nat)) (hash : String)
    (e : Emission) : Pending → Emission
  | .mapping i =>
    match mappings[i]? with
    | none => e
    | some m => { e with steps := e.steps ++ [⟨m.old, m.new, i, false⟩], emitted := i :: e.emitted }
  | .cycle id =>
    match cycles[id]? with
    | none => e
    | some members =>
      let names := allocate hash e.used members
      let member := fun i : Nat => (mappings[i]?.getD ⟨"", ""⟩ : Mapping)
      let away := (members.zip names).map fun (i, name) =>
        (⟨(member i).old, name, i, true⟩ : PlanStep)
      let home := (members.zip names).map fun (i, name) =>
        (⟨name, (member i).new, i, true⟩ : PlanStep)
      { steps := e.steps ++ away ++ home
        emitted := members ++ e.emitted
        cycles := id :: e.cycles
        used := names ++ e.used }

/-- Emits a mapping after its pending prerequisites. -/
def Emission.visit (mappings : List Mapping) (dependsOn : List (Option Nat))
    (cycles : List (List Nat)) (hash : String) (e : Emission) (i : Nat) : Emission :=
  let cycleOf := fun m => cycles.findIdx? (·.contains m)
  (prerequisites dependsOn cycleOf e mappings.length i).reverse.foldl
    (Emission.put mappings cycles hash) e

/-- The plan of a mapping set that was validated. -/
def ofMappings (mappings : List Mapping) (taken : List String) : Plan :=
  let dependsOn := dependencies mappings
  let cycles := cyclesOf dependsOn
  let start : Emission := { used := mappings.flatMap (fun m => [m.old, m.new]) ++ taken }
  let e := (List.range mappings.length).foldl
    (Emission.visit mappings dependsOn cycles (setHash mappings)) start
  ⟨e.steps, dependsOn, cycles, ambiguitiesOf mappings⟩

/-- Validates a mapping set and plans it; `taken` lists the names that the project
uses already and that no temporary name may equal. -/
def make (mappings : List Mapping) (taken : List String) : Except InputFault Plan := do
  Mapping.validate mappings
  return ofMappings mappings taken

end Plan

end SymbolRename
