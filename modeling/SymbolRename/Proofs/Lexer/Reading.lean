import SymbolRename.Proofs.Lexer.Renaming
import SymbolRename.Proofs.Lexer.Soundness

/-!
# Reading a part of a text

The lexer reads the front of a text in whole moves and stands before the rest of it in some state
(`Lexer.read?`). A part that is read without a word of code is passed over, and no use that a
rename may change begins in it: `Lexer.Passes.noUseIn`.
-/

namespace SymbolRename

/-- Reads a text that `rest` follows: its tokens and the state behind it. Nothing is read where a
move goes on behind the text. -/
def Lexer.read? (syn : Syntactics) (rest : Bytes) (s : State) (before : Bytes) :
    Bytes → Option (List Piece × State)
  | [] => some ([], s)
  | b :: more =>
    let w : Window := ⟨before, b :: (more ++ rest)⟩
    let m := s.move syn b w
    if more.length + 1 < m.width then none
    else (read? syn rest (s.after m) (w.advance m.width).before (more.drop (m.width - 1))).map
      fun (ps, t) => (⟨m.isWord, w.rest.take m.width⟩ :: ps, t)
termination_by text => text.length
decreasing_by simp only [List.length_drop, List.length_cons]; omega

/-- The state in which the lexer of a file stands behind a front of its content. -/
def Path.stateBehind? (path : Path) (front rest : Bytes) : Option Lexer.State :=
  (Lexer.read? (Language.ofPath path).syntactics rest {} [] front).map (·.2)

/-- The lexer of a file stands in code behind a front of its content. -/
def Path.meetsInCode (path : Path) (front rest : Bytes) : Bool :=
  (path.stateBehind? front rest).any fun s => s.mode = .code

/-- The offset of a position in a content. -/
def Location.offset? (content : Bytes) (l : Location) : Option Nat :=
  if l.line = 0 then none else (Rewrite.lineStarts content)[l.line - 1]?.map (· + l.column)

/-- No use of the name that a rename may change begins between two offsets. -/
def Lexer.NoUseIn (path : Path) (content : Bytes) (name : String) (start stop : Nat) : Prop :=
  ∀ c ∈ captures path content name, c.kind.isExcluded = false →
    ∃ offset ∈ c.location.offset? content, offset < start ∨ stop ≤ offset

instance (path : Path) (content : Bytes) (name : String) (start stop : Nat) :
    Decidable (Lexer.NoUseIn path content name start stop) := by
  unfold Lexer.NoUseIn
  infer_instance

/-! ### Reading in moves -/

section

variable {syn : Syntactics} {rest : Bytes} {s t : Lexer.State} {before text : Bytes}
  {ps : List Lexer.Piece}

/-- The first move is that for the first byte. -/
theorem Lexer.read?_move {more : Bytes} {b : UInt8} (hhead : text.head? = some b) {m : Move}
    (hmove : s.move syn b ⟨before, text ++ (more ++ rest)⟩ = m) (hwidth : m.width = text.length) :
    read? syn rest s before (text ++ more) =
      (read? syn rest (s.after m) (text.reverse ++ before) more).map
        fun (ps, t) => (⟨m.isWord, text⟩ :: ps, t) := by
  obtain ⟨tail, rfl⟩ := List.head?_eq_some_iff.mp hhead
  subst hmove
  rw [List.cons_append, read?, List.append_assoc]
  rw [List.cons_append] at hwidth
  simp [hwidth, Window.advance]

/-- What holds before any move, and also with one more move in front, holds of all that is
read. -/
theorem Lexer.read?_induction {motive : State → Bytes → Bytes → List Piece → State → Prop}
    (nil : ∀ s before, motive s before [] [] s)
    (move : ∀ {s before text more b m ps t}, text.head? = some b →
      s.move syn b ⟨before, text ++ (more ++ rest)⟩ = m → m.width = text.length →
      read? syn rest (s.after m) (text.reverse ++ before) more = some (ps, t) →
      motive (s.after m) (text.reverse ++ before) more ps t →
      motive s before (text ++ more) (⟨m.isWord, text⟩ :: ps) t)
    (h : read? syn rest s before text = some (ps, t)) : motive s before text ps t := by
  fun_induction read? syn rest s before text generalizing ps with
  | case1 s before =>
    obtain ⟨rfl, rfl⟩ := Prod.mk.inj (Option.some.inj h)
    exact nil s before
  | case2 => cases h
  | case3 s before b more w m hwidth =>
    rename_i ih
    obtain ⟨⟨qs, u⟩, hread, heq⟩ := Option.map_eq_some_iff.mp h
    obtain ⟨rfl, rfl⟩ := Prod.mk.inj heq
    have hpos := m.width_pos
    have hsplit := take_append_drop_pred b more hpos
    have htake : w.rest.take m.width = (b :: more).take m.width := by
      show (b :: more ++ rest).take m.width = _
      exact List.take_append_of_le_length (by rw [List.length_cons]; omega)
    have hnext : (w.advance m.width).before = ((b :: more).take m.width).reverse ++ before := by
      rw [← htake]
      rfl
    rw [hnext] at hread ih
    rw [htake]
    have hmove := @move s before ((b :: more).take m.width) (more.drop (m.width - 1)) b m qs u
      ?_ ?_ ?_ hread (ih hread)
    · rwa [hsplit] at hmove
    · obtain ⟨k, hk⟩ := Nat.exists_eq_succ_of_ne_zero hpos.ne'
      rw [hk]
      rfl
    · rw [← List.append_assoc, hsplit]
      rfl
    · rw [List.length_take, List.length_cons]
      omega

/-- What is read are the first tokens of the text, and the others follow. -/
theorem Lexer.tokens_of_read? (h : read? syn rest s before text = some (ps, t)) :
    tokens syn s before (text ++ rest) = ps ++ tokens syn t (text.reverse ++ before) rest ∧
      textOf ps = text := by
  refine read?_induction (motive := fun s before text ps t =>
    tokens syn s before (text ++ rest) = ps ++ tokens syn t (text.reverse ++ before) rest ∧
      textOf ps = text) (fun _ _ => ⟨rfl, rfl⟩) ?_ h
  intro s before text more b m ps t hhead hmove hwidth _ ih
  obtain ⟨htokens, htext⟩ := ih
  constructor
  · rw [List.append_assoc, tokens_append hhead hmove hwidth, htokens, List.reverse_append,
      List.append_assoc]
    rfl
  · show text ++ textOf ps = text ++ more
    rw [htext]

/-- A text is read part by part. -/
theorem Lexer.read?_append {a b : Bytes} (h : read? syn (b ++ rest) s before a = some (ps, t)) :
    read? syn rest s before (a ++ b) =
      (read? syn rest t (a.reverse ++ before) b).map fun (qs, u) => (ps ++ qs, u) := by
  refine read?_induction (motive := fun s before a ps t => read? syn rest s before (a ++ b) =
    (read? syn rest t (a.reverse ++ before) b).map fun (qs, u) => (ps ++ qs, u)) ?_ ?_ h
  · intro s before
    simp
  · intro s before text more c m ps t hhead hmove hwidth _ ih
    have hmove : s.move syn c ⟨before, text ++ (more ++ b ++ rest)⟩ = m := by
      rw [List.append_assoc]
      exact hmove
    rw [List.append_assoc, read?_move hhead hmove hwidth, ih, List.reverse_append,
      List.append_assoc, Option.map_map]
    rfl

end

/-! ### Where the uses of a name begin -/

section

variable {name : Bytes} {offset start : Nat}

theorem Rewrite.offsets_append (name : Bytes) (start : Nat) (ps qs : List Lexer.Piece) :
    offsets name start (ps ++ qs) =
      offsets name start ps ++ offsets name (start + (Lexer.textOf ps).length) qs := by
  induction ps generalizing start with
  | nil => rfl
  | cons p ps ih =>
    have hlength : start + (Lexer.textOf (p :: ps)).length =
        start + p.text.length + (Lexer.textOf ps).length := by
      show start + (p.text ++ Lexer.textOf ps).length = _
      rw [List.length_append, Nat.add_assoc]
    rw [List.cons_append, offsets, offsets, ih, hlength]
    split <;> rfl

/-- Pieces without a word of code have no offset of a name. -/
theorem Rewrite.offsets_eq_nil {ps : List Lexer.Piece} (h : ∀ p ∈ ps, p.isCode = false) :
    offsets name start ps = [] := by
  induction ps generalizing start with
  | nil => rfl
  | cons p ps ih =>
    rw [offsets, h p List.mem_cons_self, Bool.false_and, if_neg Bool.false_ne_true,
      ih fun q hq => h q (List.mem_cons_of_mem p hq)]

/-- A name begins within the pieces among which it is found. -/
theorem Rewrite.bounds_of_mem_offsets (hname : name ≠ []) {ps : List Lexer.Piece}
    (h : offset ∈ offsets name start ps) :
    start ≤ offset ∧ offset < start + (Lexer.textOf ps).length := by
  induction ps generalizing start with
  | nil => cases h
  | cons p ps ih =>
    have hlength : (Lexer.textOf (p :: ps)).length = p.text.length + (Lexer.textOf ps).length :=
      List.length_append
    have hlater : offset ∈ offsets name (start + p.text.length) ps →
        start ≤ offset ∧ offset < start + (Lexer.textOf (p :: ps)).length := by
      intro hmem
      obtain ⟨hstart, hstop⟩ := ih hmem
      omega
    rw [offsets] at h
    split at h
    · rename_i hplace
      rcases List.mem_cons.mp h with rfl | h
      · simp only [Bool.and_eq_true, beq_iff_eq] at hplace
        have hpos := List.length_pos_iff.mpr (hplace.2 ▸ hname)
        omega
      · exact hlater h
    · exact hlater h

/-- A span that stands behind a front of a text has the front's length as its offset. -/
theorem Rewrite.StandsApartAt.offset?_eq {content : Bytes} {o : Occurrence}
    (h : StandsApartAt content name o offset) : o.location.offset? content = some offset := by
  obtain ⟨front, rest, rfl, rfl, hends, _, _⟩ := h
  obtain ⟨hline, hstart⟩ := hends.lineStart (name ++ rest)
  have hcolumn := hends.column
  rw [Location.offset?, if_neg hline, hstart, Option.map_some]
  congr 1
  omega

end

section

variable {path : Path} {name : String} {front text rest : Bytes} {s t : Lexer.State}

theorem Path.meetsInCode_iff :
    path.meetsInCode front rest = true ↔
      ∃ s, path.stateBehind? front rest = some s ∧ s.mode = .code := by
  simp [meetsInCode, Option.any_eq_true]

/-- No use begins in pieces of a content that hold no word of code. -/
theorem Lexer.noUseIn_of_tokens (hname : name ≠ "") {content : Bytes} {ps qs rs : List Piece}
    (htokens : path.tokens content = ps ++ (qs ++ rs)) (hquiet : ∀ p ∈ qs, p.isCode = false) :
    NoUseIn path content name (textOf ps).length ((textOf ps).length + (textOf qs).length) := by
  intro c hc hkind
  obtain ⟨offset, hstands, hmem⟩ := standsApartAt_captures hname hc hkind
  refine ⟨offset, hstands.offset?_eq, ?_⟩
  have hne : bytes name ≠ [] := fun hnil => hname (bytes_eq_nil_iff.mp hnil)
  rw [htokens, Rewrite.offsets_append, Rewrite.offsets_append, Rewrite.offsets_eq_nil hquiet,
    List.nil_append] at hmem
  rcases List.mem_append.mp hmem with hmem | hmem
  · have hbounds := Rewrite.bounds_of_mem_offsets hne hmem
    omega
  · have hbounds := Rewrite.bounds_of_mem_offsets hne hmem
    omega

/-- The lexer reads a text that `rest` follows, and takes no word of code in it. -/
def Lexer.Passes (syn : Syntactics) (rest : Bytes) (s : State) (before text : Bytes) (t : State) :
    Prop :=
  ∃ ps, read? syn rest s before text = some (ps, t) ∧ ∀ p ∈ ps, p.isCode = false

theorem Lexer.Passes.nil (syn : Syntactics) (rest : Bytes) (s : State) (before : Bytes) :
    Passes syn rest s before [] s := ⟨[], by rw [read?], nofun⟩

/-- A move that takes no word of code, and then the rest of a text. -/
theorem Lexer.Passes.move {syn : Syntactics} {before more : Bytes} {b : UInt8} {m : Move}
    (text : Bytes) (hhead : text.head? = some b) (hmove : s.move syn b ⟨before, text ++ (more ++ rest)⟩ = m)
    (hwidth : m.width = text.length) (hm : m.isWord = false)
    (h : Passes syn rest (s.after m) (text.reverse ++ before) more t) :
    Passes syn rest s before (text ++ more) t := by
  obtain ⟨ps, hread, hquiet⟩ := h
  refine ⟨⟨m.isWord, text⟩ :: ps, by rw [read?_move hhead hmove hwidth, hread]; rfl, ?_⟩
  intro p hp
  rcases List.mem_cons.mp hp with rfl | hp
  · exact hm
  · exact hquiet p hp

/-- A move that takes no word of code. -/
theorem Lexer.Passes.of_move {syn : Syntactics} {before : Bytes} {b : UInt8} {m : Move}
    (hhead : text.head? = some b) (hmove : s.move syn b ⟨before, text ++ rest⟩ = m)
    (hwidth : m.width = text.length) (hm : m.isWord = false) :
    Passes syn rest s before text (s.after m) := by
  have hpasses := move text hhead hmove hwidth hm (nil syn rest (s.after m) (text.reverse ++ before))
  rwa [List.append_nil] at hpasses

/-- Two texts are passed over one after the other. -/
theorem Lexer.Passes.append {syn : Syntactics} {before a b : Bytes} {u : State}
    (h : Passes syn (b ++ rest) s before a t) (hnext : Passes syn rest t (a.reverse ++ before) b u) :
    Passes syn rest s before (a ++ b) u := by
  obtain ⟨ps, hread, hquiet⟩ := h
  obtain ⟨qs, hreadNext, hquietNext⟩ := hnext
  refine ⟨ps ++ qs, by rw [read?_append hread, hreadNext]; rfl, fun p hp => ?_⟩
  rcases List.mem_append.mp hp with hp | hp
  · exact hquiet p hp
  · exact hquietNext p hp

/-- The tokens of a file around a part that is passed over. -/
theorem Lexer.Passes.tokens_eq (hmeets : path.stateBehind? front (text ++ rest) = some s)
    (h : Passes (Language.ofPath path).syntactics rest s front.reverse text t) :
    ∃ ps qs rs, path.tokens (front ++ (text ++ rest)) = ps ++ (qs ++ rs) ∧ textOf ps = front ∧
      textOf qs = text ∧ textOf rs = rest ∧ ∀ p ∈ qs, p.isCode = false := by
  obtain ⟨⟨ps, u⟩, hread, rfl⟩ := Option.map_eq_some_iff.mp hmeets
  obtain ⟨qs, hpart, hquiet⟩ := h
  obtain ⟨htokens, hfront⟩ := tokens_of_read? hread
  obtain ⟨hlater, htext⟩ := tokens_of_read? hpart
  rw [List.append_nil, hlater] at htokens
  exact ⟨ps, qs, _, htokens, hfront, htext, textOf_tokens _ _ _ _, hquiet⟩

/-- No use begins in a part that is passed over. -/
theorem Lexer.Passes.noUseIn (hname : name ≠ "")
    (hmeets : path.stateBehind? front (text ++ rest) = some s)
    (h : Passes (Language.ofPath path).syntactics rest s front.reverse text t) :
    NoUseIn path (front ++ (text ++ rest)) name front.length (front.length + text.length) := by
  obtain ⟨ps, qs, rs, htokens, rfl, rfl, rfl, hquiet⟩ := h.tokens_eq hmeets
  exact noUseIn_of_tokens hname htokens hquiet

/-- Behind a part that is read the lexer stands in the state that it leads to. -/
theorem Path.stateBehind?_append {qs : List Lexer.Piece}
    (hmeets : path.stateBehind? front (text ++ rest) = some s)
    (h : Lexer.read? (Language.ofPath path).syntactics rest s front.reverse text = some (qs, t)) :
    path.stateBehind? (front ++ text) rest = some t := by
  obtain ⟨⟨ps, u⟩, hread, rfl⟩ := Option.map_eq_some_iff.mp hmeets
  unfold stateBehind?
  rw [Lexer.read?_append hread, List.append_nil, h]
  rfl

theorem Lexer.Passes.stateBehind? (hmeets : path.stateBehind? front (text ++ rest) = some s)
    (h : Passes (Language.ofPath path).syntactics rest s front.reverse text t) :
    path.stateBehind? (front ++ text) rest = some t := by
  obtain ⟨qs, hpart, _⟩ := h
  exact Path.stateBehind?_append hmeets hpart

end

end SymbolRename
