import SymbolRename.Text.Bytes

/-!
# Patterns over bytes

A pattern denotes a set of byte sequences. `Pattern.accepts` decides membership;
`accepts_iff` says that it decides exactly what `Pattern.Denotes` defines.
-/

namespace SymbolRename

/-- A set of bytes: those in one of the ranges, or those in none of them. -/
structure ByteSet where
  negated : Bool
  ranges : List (UInt8 × UInt8)
deriving DecidableEq, Repr

namespace ByteSet

/-- The byte belongs to the set. -/
def contains (s : ByteSet) (b : UInt8) : Bool :=
  (s.ranges.any fun (low, high) => low ≤ b && b ≤ high) != s.negated

/-- All bytes. -/
def all : ByteSet := ⟨true, []⟩

/-- One byte. -/
def single (b : UInt8) : ByteSet := ⟨false, [(b, b)]⟩

/-- All bytes but one. -/
def allBut (b : UInt8) : ByteSet := ⟨true, [(b, b)]⟩

@[simp] theorem contains_all (b : UInt8) : all.contains b = true := rfl

@[simp] theorem contains_single {a b : UInt8} : (single a).contains b = true ↔ b = a := by
  simp only [contains, single, List.any_cons, List.any_nil, Bool.or_false, bne_iff_ne, ne_eq,
    Bool.not_eq_false, Bool.and_eq_true, decide_eq_true_eq]
  exact ⟨fun h => UInt8.le_antisymm h.2 h.1, fun h => by simp [h]⟩

end ByteSet

/-- A description of byte sequences. -/
inductive Pattern
  /-- Nothing at all. -/
  | empty
  /-- One byte of the set. -/
  | one (s : ByteSet)
  /-- Any number of bytes of the set. -/
  | many (s : ByteSet)
  | seq (p q : Pattern)
  | either (p q : Pattern)
deriving DecidableEq, Repr

namespace Pattern

/-- The sequences that a pattern describes. -/
inductive Denotes : Pattern → Bytes → Prop
  | empty : Denotes .empty []
  | one {s : ByteSet} {b : UInt8} : s.contains b = true → Denotes (.one s) [b]
  | many {s : ByteSet} {bs : Bytes} : (∀ b ∈ bs, s.contains b = true) → Denotes (.many s) bs
  | seq {p q : Pattern} {u v : Bytes} : Denotes p u → Denotes q v → Denotes (.seq p q) (u ++ v)
  | left {p q : Pattern} {u : Bytes} : Denotes p u → Denotes (.either p q) u
  | right {p q : Pattern} {u : Bytes} : Denotes q u → Denotes (.either p q) u

/-- Some run of bytes of the set leaves a rest that `next` accepts. -/
def runThen (s : ByteSet) (next : Bytes → Bool) : Bytes → Bool
  | [] => next []
  | b :: rest => next (b :: rest) || (s.contains b && runThen s next rest)

/-- Some beginning of the sequence that the pattern describes leaves a rest that
`next` accepts. -/
def matchThen : Pattern → (Bytes → Bool) → Bytes → Bool
  | empty, next, bs => next bs
  | one _, _, [] => false
  | one s, next, b :: rest => s.contains b && next rest
  | many s, next, bs => runThen s next bs
  | seq p q, next, bs => p.matchThen (q.matchThen next) bs
  | either p q, next, bs => p.matchThen next bs || q.matchThen next bs

/-- The pattern describes the whole sequence. -/
def accepts (p : Pattern) (bs : Bytes) : Bool := p.matchThen List.isEmpty bs

/-- Patterns one after the other. -/
def sequence (ps : List Pattern) : Pattern := ps.foldr .seq .empty

/-- The bytes of a text, one after the other. -/
def literal (bs : Bytes) : Pattern := sequence (bs.map fun b => .one (.single b))

theorem runThen_iff {s : ByteSet} {next : Bytes → Bool} {bs : Bytes} :
    runThen s next bs = true ↔
      ∃ u v, bs = u ++ v ∧ (∀ b ∈ u, s.contains b = true) ∧ next v = true := by
  induction bs with
  | nil =>
    constructor
    · exact fun h => ⟨[], [], rfl, by simp, h⟩
    · rintro ⟨u, v, h, -, hv⟩
      obtain ⟨rfl, rfl⟩ := List.append_eq_nil_iff.mp h.symm
      exact hv
  | cons b rest ih =>
    simp only [runThen, Bool.or_eq_true, Bool.and_eq_true, ih]
    constructor
    · rintro (h | ⟨hb, u, v, rfl, hu, hv⟩)
      · exact ⟨[], b :: rest, rfl, by simp, h⟩
      · exact ⟨b :: u, v, rfl, by simpa [hb] using hu, hv⟩
    · rintro ⟨u, v, h, hu, hv⟩
      cases u with
      | nil => exact .inl (by rw [h]; exact hv)
      | cons c u =>
        simp only [List.cons_append, List.cons.injEq] at h
        obtain ⟨rfl, rfl⟩ := h
        exact .inr ⟨hu b (by simp), u, v, rfl, fun x hx => hu x (by simp [hx]), hv⟩

theorem matchThen_iff {p : Pattern} {next : Bytes → Bool} {bs : Bytes} :
    p.matchThen next bs = true ↔ ∃ u v, bs = u ++ v ∧ Denotes p u ∧ next v = true := by
  induction p generalizing next bs with
  | empty =>
    constructor
    · exact fun h => ⟨[], bs, rfl, .empty, h⟩
    · rintro ⟨u, v, rfl, hu, hv⟩
      cases hu
      exact hv
  | one s =>
    constructor
    · intro h
      cases bs with
      | nil => simp [matchThen] at h
      | cons b rest =>
        simp only [matchThen, Bool.and_eq_true] at h
        exact ⟨[b], rest, rfl, .one h.1, h.2⟩
    · rintro ⟨u, v, rfl, hu, hv⟩
      cases hu with
      | one hb => simp [matchThen, hb, hv]
  | many s =>
    rw [matchThen, runThen_iff]
    constructor
    · rintro ⟨u, v, h, hu, hv⟩
      exact ⟨u, v, h, .many hu, hv⟩
    · rintro ⟨u, v, h, hu, hv⟩
      cases hu with
      | many hu => exact ⟨u, v, h, hu, hv⟩
  | seq p q ihp ihq =>
    rw [matchThen, ihp]
    constructor
    · rintro ⟨u, v, rfl, hu, hv⟩
      obtain ⟨w, z, rfl, hw, hz⟩ := ihq.mp hv
      exact ⟨u ++ w, z, by simp, .seq hu hw, hz⟩
    · rintro ⟨u, v, rfl, hu, hv⟩
      cases hu with
      | seq h₁ h₂ => exact ⟨_, _, by rw [List.append_assoc], h₁, ihq.mpr ⟨_, _, rfl, h₂, hv⟩⟩
  | either p q ihp ihq =>
    simp only [matchThen, Bool.or_eq_true, ihp, ihq]
    constructor
    · rintro (⟨u, v, h, hu, hv⟩ | ⟨u, v, h, hu, hv⟩)
      · exact ⟨u, v, h, .left hu, hv⟩
      · exact ⟨u, v, h, .right hu, hv⟩
    · rintro ⟨u, v, h, hu, hv⟩
      cases hu with
      | left hu => exact .inl ⟨u, v, h, hu, hv⟩
      | right hu => exact .inr ⟨u, v, h, hu, hv⟩

/-- Exactly the described sequences are accepted. -/
theorem accepts_iff {p : Pattern} {bs : Bytes} : p.accepts bs = true ↔ Denotes p bs := by
  rw [accepts, matchThen_iff]
  constructor
  · rintro ⟨u, v, rfl, hu, hv⟩
    rw [List.isEmpty_iff.mp hv, List.append_nil]
    exact hu
  · exact fun h => ⟨bs, [], by simp, h, rfl⟩

end Pattern

end SymbolRename
