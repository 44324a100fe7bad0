import SymbolRename.Diff

/-!
# Differences are edit scripts

The kept and removed lines of a difference are the old lines, its kept and added lines the new
ones: `Diff.side_blocks`. Joining, moving and grouping blocks keep both sides, wherever a shortest
path is found.
-/

namespace SymbolRename.Diff

/-- The lines of a block, unless its tag is left out. -/
def Block.shown (skip : Tag) (b : Block) : List Line := if b.tag = skip then [] else b.lines

/-- One of the two texts of a difference: its lines without the added or without the removed ones. -/
def side (skip : Tag) (bs : List Block) : List Line := bs.flatMap (Block.shown skip)

@[simp] theorem side_nil (skip : Tag) : side skip [] = [] := rfl

@[simp] theorem side_cons (skip : Tag) (b : Block) (bs : List Block) :
    side skip (b :: bs) = b.shown skip ++ side skip bs := List.flatMap_cons

@[simp] theorem side_append (skip : Tag) (bs cs : List Block) :
    side skip (bs ++ cs) = side skip bs ++ side skip cs := List.flatMap_append

theorem side_block (skip tag : Tag) (lines : List Line) :
    side skip (block tag lines) = Block.shown skip ⟨tag, lines⟩ := by
  unfold block
  cases lines with
  | nil => simp [Block.shown]
  | cons line lines => simp

/-- A block is one block at most, so its order does not matter. -/
theorem reverse_block (tag : Tag) (lines : List Line) : (block tag lines).reverse = block tag lines := by
  unfold block
  split <;> rfl

/-- Kept lines are on both sides. -/
theorem Block.shown_keep {skip : Tag} (h : skip ≠ .keep) (lines : List Line) :
    shown skip ⟨.keep, lines⟩ = lines := if_neg h.symm

theorem Block.shown_of_keep {skip : Tag} (h : skip ≠ .keep) {b : Block} (hb : b.tag = .keep) :
    b.shown skip = b.lines := by
  unfold shown
  rw [hb, if_neg h.symm]

/-! ### Common lines -/

theorem take_commonHead (a b : List Line) : a.take (commonHead a b) = b.take (commonHead a b) := by
  fun_induction commonHead a b with
  | case1 a as bs ih => rw [List.take_succ_cons, List.take_succ_cons, ih]
  | case2 => rw [List.take_zero, List.take_zero]
  | case3 => rw [List.take_zero, List.take_zero]

theorem drop_commonTail (a b : List Line) :
    a.drop (a.length - commonTail a b) = b.drop (b.length - commonTail a b) := by
  have h := congrArg List.reverse (take_commonHead a.reverse b.reverse)
  rwa [List.reverse_take, List.reverse_take, List.reverse_reverse, List.reverse_reverse,
    List.length_reverse, List.length_reverse] at h

/-! ### Both sides are kept -/

section

variable {skip : Tag}

theorem side_change (h : skip ≠ .keep) (old new : List Line) :
    side skip (block .remove old ++ block .add new) = if skip = .add then old else new := by
  rw [side_append, side_block, side_block]
  cases skip with
  | keep => exact absurd rfl h
  | remove => simp [Block.shown]
  | add => simp [Block.shown]

theorem side_script (h : skip ≠ .keep) (fuel : Nat) (old new : List Line) :
    side skip (script fuel old new) = if skip = .add then old else new := by
  induction fuel generalizing old new with
  | zero => exact side_change h old new
  | succ fuel ih =>
    rw [script]
    generalize hhead : commonHead old new = head
    generalize htail : commonTail (old.drop head) (new.drop head) = tail
    have hfront := take_commonHead old new
    have hback := drop_commonTail (old.drop head) (new.drop head)
    rw [hhead] at hfront
    rw [htail] at hback
    rw [side_append, side_append, side_block, side_block, Block.shown_keep h, Block.shown_keep h]
    generalize hold : (old.drop head).take ((old.drop head).length - tail) = old'
    generalize hnew : (new.drop head).take ((new.drop head).length - tail) = new'
    -- What is between the common ends is split anywhere.
    refine (congrArg (old.take head ++ · ++ _) (?_ : _ = if skip = .add then old' else new')).trans ?_
    · by_cases hempty : old'.isEmpty = true ∨ new'.isEmpty = true
      · rw [if_pos hempty]
        exact side_change h old' new'
      · rw [if_neg hempty]
        cases middle old' new' ((old'.length + new'.length + 1) / 2 + 1) 0 [] [] with
        | none => exact side_change h old' new'
        | some point =>
          simp only [side_append, ih]
          split <;> exact List.take_append_drop _ _
    · rw [← hold, ← hnew]
      split
      · rw [List.append_assoc, List.take_append_drop, List.take_append_drop]
      · rw [hfront, hback, List.append_assoc, List.take_append_drop, List.take_append_drop]

theorem side_joinKept (h : skip ≠ .keep) (bs : List Block) :
    side skip (joinKept bs) = side skip bs := by
  induction bs with
  | nil => rfl
  | cons b rest ih =>
    rw [joinKept, side_cons, ← ih]
    cases joinKept rest with
    | nil => simp
    | cons c more =>
      simp only
      split
      · rename_i hkeep
        rw [side_cons, side_cons, Block.shown_keep h, Block.shown_of_keep h hkeep.1,
          Block.shown_of_keep h hkeep.2, List.append_assoc]
      · rfl

/-- All blocks in their order. -/
def Focus.whole (f : Focus) : List Block := f.before.reverse ++ f.this :: f.after

/-- Blocks of different changes can change places: only one of them is on each side. -/
theorem Block.shown_append_comm {b c : Block} (h : skip ≠ .keep) (hb : b.tag ≠ .keep)
    (hc : c.tag ≠ .keep) (hne : b.tag ≠ c.tag) : b.shown skip ++ c.shown skip =
      c.shown skip ++ b.shown skip := by
  unfold shown
  by_cases hskip : b.tag = skip
  · rw [if_pos hskip, List.nil_append, List.append_nil]
  · have hother : c.tag = skip := by
      cases htag : b.tag <;> cases htag' : c.tag <;> cases skip <;> simp_all
    rw [if_pos hother, List.nil_append, List.append_nil]

/-- Lines that a block has in common with the kept lines before or after it change their places
with it. -/
theorem Block.shown_turn (skip tag : Tag) (shared front : List Line) :
    shared ++ shown skip ⟨tag, front ++ shared⟩ = shown skip ⟨tag, shared ++ front⟩ ++ shared := by
  unfold shown
  split <;> simp

/-- A block may change its place with a neighbour of a different change. -/
theorem Focus.side_swap (h : skip ≠ .keep) {b c : Block} (hb : b.tag ≠ .keep) (hc : c.tag ≠ .keep)
    (hne : b.tag ≠ c.tag) (before after : List Block) :
    side skip (Focus.whole ⟨before, c, b :: after⟩) =
      side skip (Focus.whole ⟨b :: before, c, after⟩) := by
  simp only [whole, side_append, side_cons, List.reverse_cons, side_nil, List.append_nil,
    List.append_assoc]
  rw [← List.append_assoc (b.shown skip), Block.shown_append_comm h hb hc hne, List.append_assoc]

/-- A block that moves up keeps its tag and both sides. -/
theorem Focus.side_up (h : skip ≠ .keep) (fuel : Nat) (f : Focus) (hf : f.this.tag ≠ .keep) :
    side skip (up fuel f).whole = side skip f.whole ∧ (up fuel f).this.tag = f.this.tag := by
  induction fuel generalizing f with
  | zero => exact ⟨rfl, rfl⟩
  | succ fuel ih =>
    have hgo : ∀ g : Focus, side skip g.whole = side skip f.whole → g.this.tag = f.this.tag →
        side skip (up fuel g).whole = side skip f.whole ∧ (up fuel g).this.tag = f.this.tag := by
      intro g hside htag
      obtain ⟨hside', htag'⟩ := ih g (htag ▸ hf)
      exact ⟨hside'.trans hside, htag'.trans htag⟩
    obtain ⟨before, ⟨tag, lines⟩, after⟩ := f
    rw [up]
    cases before with
    | nil => exact ⟨rfl, rfl⟩
    | cons prev more =>
      simp only
      split
      · rename_i hkeep
        split
        · split
          · rename_i hempty
            refine hgo _ ?_ rfl
            simp [whole, Block.shown_of_keep h hkeep, List.isEmpty_iff.mp hempty]
          · exact ⟨rfl, rfl⟩
        · refine hgo _ ?_ rfl
          have hprev := List.take_append_drop (prev.lines.length - commonTail prev.lines lines)
            prev.lines
          have hthis := List.take_append_drop (lines.length - commonTail prev.lines lines) lines
          rw [← drop_commonTail] at hthis
          generalize prev.lines.take _ = kept at hprev ⊢
          generalize prev.lines.drop _ = shared at hprev hthis ⊢
          generalize lines.take _ = front at hthis ⊢
          have hturn : side skip more.reverse ++ kept ++
                (Block.shown skip ⟨tag, shared ++ front⟩ ++ (shared ++ side skip after)) =
              side skip (Focus.whole ⟨prev :: more, ⟨tag, lines⟩, after⟩) := by
            have hcommon := Block.shown_turn skip tag shared front
            simp only [whole, List.reverse_cons, side_append, side_cons, side_nil,
              Block.shown_of_keep h hkeep, ← hprev, ← hthis, List.append_nil, List.append_assoc]
            rw [← List.append_assoc (Block.shown skip _) shared, ← hcommon, List.append_assoc]
          rw [← hturn]
          cases after with
          | nil =>
            simp [whole, side_block, reverse_block, Block.shown_keep h]
          | cons next rest =>
            simp only
            split
            · rename_i hnext
              simp [whole, side_block, reverse_block, Block.shown_keep h, Block.shown_of_keep h hnext]
            · simp [whole, side_block, reverse_block, Block.shown_keep h]
      · rename_i hprev
        split
        · rename_i hsame
          refine hgo _ ?_ hsame
          simp only [whole, side_append, side_cons, List.reverse_cons, side_nil, Block.shown, hsame]
          split <;> simp
        · rename_i hother
          exact hgo _ (side_swap h hprev hf hother more after) rfl

/-- A block that moves down keeps its tag and both sides. -/
theorem Focus.side_down (h : skip ≠ .keep) (fuel : Nat) (f : Focus) (hf : f.this.tag ≠ .keep) :
    side skip (down fuel f).whole = side skip f.whole ∧ (down fuel f).this.tag = f.this.tag := by
  induction fuel generalizing f with
  | zero => exact ⟨rfl, rfl⟩
  | succ fuel ih =>
    have hgo : ∀ g : Focus, side skip g.whole = side skip f.whole → g.this.tag = f.this.tag →
        side skip (down fuel g).whole = side skip f.whole ∧ (down fuel g).this.tag = f.this.tag := by
      intro g hside htag
      obtain ⟨hside', htag'⟩ := ih g (htag ▸ hf)
      exact ⟨hside'.trans hside, htag'.trans htag⟩
    obtain ⟨before, ⟨tag, lines⟩, after⟩ := f
    rw [down]
    cases after with
    | nil => exact ⟨rfl, rfl⟩
    | cons next more =>
      simp only
      split
      · rename_i hkeep
        split
        · split
          · rename_i hempty
            refine hgo _ ?_ rfl
            simp [whole, Block.shown_of_keep h hkeep, List.isEmpty_iff.mp hempty]
          · exact ⟨rfl, rfl⟩
        · refine hgo _ ?_ rfl
          have hnext := List.take_append_drop (commonHead next.lines lines) next.lines
          have hthis := List.take_append_drop (commonHead next.lines lines) lines
          rw [← take_commonHead] at hthis
          generalize next.lines.take _ = shared at hnext hthis ⊢
          generalize next.lines.drop _ = kept at hnext ⊢
          generalize lines.drop _ = back at hthis ⊢
          have hturn : side skip before.reverse ++ shared ++
                (Block.shown skip ⟨tag, back ++ shared⟩ ++ (kept ++ side skip more)) =
              side skip (Focus.whole ⟨before, ⟨tag, lines⟩, next :: more⟩) := by
            have hcommon := Block.shown_turn skip tag shared back
            simp only [whole, side_append, side_cons, Block.shown_of_keep h hkeep, ← hnext, ← hthis,
              List.append_assoc]
            rw [← List.append_assoc shared, hcommon, List.append_assoc]
          rw [← hturn]
          cases before with
          | nil => simp [whole, side_block, Block.shown_keep h]
          | cons prev rest =>
            simp only
            split
            · rename_i hprev
              simp [whole, side_block, Block.shown_keep h, Block.shown_of_keep h hprev]
            · simp [whole, side_block, Block.shown_keep h]
      · rename_i hnext
        split
        · rename_i hsame
          refine hgo _ ?_ hsame
          simp only [whole, side_append, side_cons, Block.shown, hsame]
          split <;> simp
        · rename_i hother
          exact hgo _ (side_swap h hnext hf hother before more).symm rfl

theorem side_compact (h : skip ≠ .keep) {tag : Tag} (htag : tag ≠ .keep) (reach fuel : Nat)
    (before bs : List Block) :
    side skip (compact tag reach fuel before bs) = side skip (before.reverse ++ bs) := by
  induction fuel generalizing before bs with
  | zero => rfl
  | succ fuel ih =>
    cases bs with
    | nil => rw [compact, List.append_nil]
    | cons b rest =>
      rw [compact]
      split
      · rename_i hb
        have hchange : b.tag ≠ .keep := hb ▸ htag
        obtain ⟨hup, hsame⟩ := Focus.side_up h reach ⟨before, b, rest⟩ hchange
        obtain ⟨hdown, _⟩ := Focus.side_down h reach _ (hsame ▸ hchange)
        rw [ih, List.reverse_cons, List.append_assoc]
        exact hdown.trans hup
      · rw [ih, List.reverse_cons, List.append_assoc]
        rfl

theorem side_grouped (h : skip ≠ .keep) (removed added : List Line) (bs : List Block) :
    side skip (grouped removed added bs) =
      (if skip = .add then removed else added) ++ side skip bs := by
  induction bs generalizing removed added with
  | nil => rw [grouped, side_change h, side_nil, List.append_nil]
  | cons b rest ih =>
    obtain ⟨tag, lines⟩ := b
    rw [grouped]
    cases tag with
    | keep =>
      simp only [side_append _ (block .remove removed ++ _), side_change h, side_cons, ih]
      split <;> simp
    | remove =>
      simp only [ih, side_cons, Block.shown]
      cases skip with
      | keep => exact absurd rfl h
      | remove => simp
      | add => simp
    | add =>
      simp only [ih, side_cons, Block.shown]
      cases skip with
      | keep => exact absurd rfl h
      | remove => simp
      | add => simp

/-- The blocks of a difference turn the old lines into the new ones. -/
theorem side_blocks (h : skip ≠ .keep) (old new : List Line) :
    side skip (blocks old new) = if skip = .add then old else new := by
  have hremove : Tag.remove ≠ .keep := by decide
  have hadd : Tag.add ≠ .keep := by decide
  unfold blocks
  simp only [side_grouped h, side_compact h hremove, side_compact h hadd, side_joinKept h,
    side_script h, ite_self, List.nil_append, List.reverse_nil]

end

/-- A difference shows lines of the two texts. -/
theorem mem_lines {old new : List Char} {tag : Tag} {line : Line}
    (h : (tag, line) ∈ lines old new) : line ∈ splitLines old ∨ line ∈ splitLines new := by
  obtain ⟨b, hb, hline⟩ := List.mem_flatMap.mp h
  obtain ⟨shown, hline, heq⟩ := List.mem_map.mp hline
  obtain rfl : shown = line := (Prod.mk.inj heq).2
  have hside : ∀ skip, b.tag ≠ skip → shown ∈ side skip (blocks (splitLines old) (splitLines new)) := by
    intro skip hskip
    refine List.mem_flatMap.mpr ⟨b, hb, ?_⟩
    rwa [Block.shown, if_neg hskip]
  by_cases hadded : b.tag = .add
  · have hmem := hside .remove (by rw [hadded]; decide)
    rw [side_blocks (by decide), if_neg (by decide)] at hmem
    exact .inr hmem
  · have hmem := hside .add hadded
    rw [side_blocks (by decide), if_pos rfl] at hmem
    exact .inl hmem

end SymbolRename.Diff
