import SymbolRename.Proofs.Text.Decimal
import SymbolRename.Proofs.Toml.Strings

/-!
# Reading back what settings are written as

A setting is a string, a list of strings, a truth value or a number. Each is written in one way,
and what is written is read as the value it stands for, up to the end of the line.
-/

namespace SymbolRename.Toml

/-- What a member can be set to. -/
inductive Setting
  | string (s : String)
  | strings (items : List String)
  | boolean (b : Bool)
  | count (n : Nat)
deriving DecidableEq, Repr

namespace Setting

/-- The value that a setting stands for. -/
def value : Setting → Toml
  | string s => .string s
  | strings items => .array (items.map .string)
  | boolean b => .boolean b
  | count n => .integer n

/-- How a setting is written. -/
def written : Setting → String
  | string s => quoted s
  | strings items => quotedList items
  | boolean b => if b then "true" else "false"
  | count n => toString n

theorem toList_written_count (n : Nat) : (count n).written.toList = Nat.toDigits 10 n := by
  simp [written, ToString.toString, Nat.repr]

/-- A number is small enough to be read. -/
def IsSmall : Setting → Prop
  | count n => Scalar.inRange n = true
  | _ => True

end Setting

/-! ### Numerals -/

namespace Scalar

theorem digitIn?_of_isDigit {c : Char} (h : c.isDigit = true) :
    digitIn? 10 c = some (c.toNat - 48) := by
  have hdigit := h
  simp only [Char.isDigit, Bool.and_eq_true, decide_eq_true_eq] at hdigit
  have hhigh : c.toNat ≤ 57 := hdigit.2
  unfold digitIn?
  rw [if_pos (show '0' ≤ c ∧ c ≤ '9' from hdigit), Option.filter_some, if_pos]
  simp only [decide_eq_true_eq]
  omega

/-- Digits without underscores are taken one by one. -/
theorem ungroup?_of_isDigit {cs : List Char} (hne : cs ≠ []) (h : ∀ c ∈ cs, c.isDigit = true) :
    ungroup? 10 cs = some (cs.map fun c => c.toNat - 48) := by
  induction cs with
  | nil => exact absurd rfl hne
  | cons c rest ih =>
    have hc := digitIn?_of_isDigit (h c List.mem_cons_self)
    cases rest with
    | nil => simp [ungroup?, hc]
    | cons d rest =>
      have hd : d ≠ '_' := by
        rintro rfl
        exact absurd (h '_' (by simp)) (by decide)
      have hrest := ih (List.cons_ne_nil d rest) fun e he => h e (List.mem_cons_of_mem c he)
      rw [ungroup?]
      · simp [hc, hrest]
      · simp
      · simpa using hd

/-- The digits of a numeral stand for its number. -/
theorem ofDigits_toDigits (n : Nat) :
    ofDigits 10 ((Nat.toDigits 10 n).map fun c => c.toNat - 48) = n := by
  have hfold : ∀ (cs : List Char) (value : Nat),
      (cs.map fun c => c.toNat - 48).foldl (fun n d => n * 10 + d) value =
        Nat.ofDigitChars 10 cs value := by
    intro cs
    induction cs with
    | nil => exact fun _ => rfl
    | cons c rest ih =>
      intro value
      rw [List.map_cons, List.foldl_cons, ih, Nat.ofDigitChars_cons, Nat.mul_comm]
      rfl
  rw [ofDigits, hfold, Nat.ofDigitChars_ten_toDigits]

/-- No zero leads the digits of a number but zero itself. -/
theorem head?_toDigits {n : Nat} (h : n ≠ 0) : ∀ c ∈ (Nat.toDigits 10 n).head?, c ≠ '0' := by
  induction n using Nat.strongRecOn with
  | ind n ih =>
    by_cases hsmall : n < 10
    · rw [Nat.toDigits_of_lt_base hsmall]
      interval_cases n <;> simp_all [Nat.digitChar]
    · rw [Nat.toDigits_of_base_le (by decide) (by omega),
        List.head?_append_of_ne_nil _ Nat.toDigits_ne_nil]
      exact ih (n / 10) (by omega) (by omega)

/-- A number is read back from its digits. -/
theorem decimal?_toDigits (n : Nat) : decimal? (Nat.toDigits 10 n) = some n := by
  have hungroup := ungroup?_of_isDigit (@Nat.toDigits_ne_nil n 10) fun c hc =>
    Count.isDigit_of_mem_toDigits hc
  unfold decimal?
  rw [hungroup, Option.bind_eq_bind, Option.bind_some, if_neg, ofDigits_toDigits]
  rintro ⟨hlong, hhead⟩
  have hzero : n ≠ 0 := by
    rintro rfl
    revert hlong
    decide
  rw [List.head?_map, Option.map_eq_some_iff] at hhead
  obtain ⟨c, hc, hsame⟩ := hhead
  have hdigit := Count.isDigit_of_mem_toDigits (List.mem_of_mem_head? hc)
  simp only [Char.isDigit, Bool.and_eq_true, decide_eq_true_eq] at hdigit
  have hlow : 48 ≤ c.toNat := hdigit.1
  exact head?_toDigits hzero c hc (Char.ext (UInt32.toNat_inj.mp (show c.toNat = 48 by omega)))

/-- A whole number without a sign is read from digits. -/
theorem integer?_of_isDigit {cs : List Char} {n : Nat} (hcs : ∀ c ∈ cs, c.isDigit = true)
    (hn : decimal? cs = some n) (hsmall : inRange n = true) : integer? cs = some (n : Int) := by
  have hnot : ∀ {d : Char}, d.isDigit = false → d ∉ cs := by
    intro d hd hmem
    rw [hcs d hmem] at hd
    cases hd
  have hsign : splitSign cs = (false, cs) := by
    unfold splitSign
    split
    · exact absurd List.mem_cons_self (hnot (by decide))
    · exact absurd List.mem_cons_self (hnot (by decide))
    · rfl
  unfold integer?
  split
  · exact absurd (by simp) (hnot (d := 'x') (by decide))
  · exact absurd (by simp) (hnot (d := 'o') (by decide))
  · exact absurd (by simp) (hnot (d := 'b') (by decide))
  · rw [hsign]
    dsimp only
    rw [hn, Option.bind_eq_bind, Option.bind_eq_bind, Option.bind_some, Option.pure_def,
      Option.map_some, Option.bind_some]
    exact if_pos hsmall

/-- A number is read back from its numeral. -/
theorem parse?_toDigits {n : Nat} (h : inRange n = true) :
    parse? (Nat.toDigits 10 n) = some (.integer n) := by
  have hdigits : ∀ c ∈ Nat.toDigits 10 n, c.isDigit = true :=
    fun c hc => Count.isDigit_of_mem_toDigits hc
  have hnot : ∀ {cs : List Char}, (∃ c ∈ cs, c.isDigit = false) → Nat.toDigits 10 n ≠ cs := by
    rintro cs ⟨c, hc, hd⟩ rfl
    rw [hdigits c hc] at hd
    cases hd
  unfold parse?
  rw [if_neg (hnot ⟨'t', by decide, by decide⟩), if_neg (hnot ⟨'f', by decide, by decide⟩),
    integer?_of_isDigit hdigits (decimal?_toDigits n) h]

end Scalar

namespace Reader

section

variable {cs rest : List Char} {c : Char} {v : Toml} (fuel depth : Nat)

/-! ### Scalars -/

/-- A plain scalar is read up to the end of its line. -/
theorem reads_scalar (hcs : ∀ c ∈ cs, isScalarChar c = true) (hv : Scalar.parse? cs = some v)
    (rest : List Char) : Reads scalar cs ('\n' :: rest) v := by
  have hrun : Reads (takeRun isScalarChar) cs ('\n' :: rest) cs := reads_takeRun hcs (by
    intro c hc
    cases hc
    decide)
  have htime : Reads (timeAfter cs) [] ('\n' :: rest) [] := by
    refine Reads.get ?_
    split
    · rename_i heq
      cases heq
    · exact Reads.pure _ _
  refine hrun.answer (htime.look ?_)
  rw [List.append_nil, hv]
  exact Reads.pure _ _

/-- A value that begins with none of the marks is a plain scalar. -/
theorem Reads.value_scalar (h : Reads scalar (c :: cs) rest v) (hc : isScalarChar c = true) :
    Reads (value (fuel + 1) depth) (c :: cs) rest v := by
  have hmark : ∀ {mark : String} {d : Char} {ds : List Char}, mark.toList = d :: ds →
      isScalarChar d = false → mark.toList.isPrefixOf (c :: cs ++ rest) = false := by
    intro mark d ds hcons hd
    have hne : d ≠ c := by
      rintro rfl
      rw [hc] at hd
      cases hd
    simp [hcons, List.isPrefixOf, hne]
  rw [value]
  refine (reads_take_false (hmark rfl (by decide))).look ?_
  refine (reads_take_false (hmark rfl (by decide))).look ?_
  refine (reads_take_false (hmark rfl (by decide))).look ?_
  refine (reads_take_false (hmark rfl (by decide))).look ?_
  refine (reads_take_false (hmark rfl (by decide))).look ?_
  refine (reads_take_false (hmark rfl (by decide))).look ?_
  exact h

/-! ### Lists -/

/-- What a string is written as begins with a quote. -/
theorem exists_quoted_eq_cons (s : String) :
    ∃ c cs, (quoted s).toList = c :: cs ∧ (c = '"' ∨ c = '\x27') := by
  unfold quoted
  dsimp only
  rw [String.toList_ofList]
  repeat' split
  all_goals first
    | exact ⟨_, _, rfl, .inl rfl⟩
    | exact ⟨_, _, rfl, .inr rfl⟩

/-- Blanks and line feeds before a string are passed over. -/
theorem reads_filler_quoted {gap : List Char} (hgap : ∀ c ∈ gap, c = ' ' ∨ c = '\n') (s : String)
    (rest : List Char) : Reads filler gap ((quoted s).toList ++ rest) () := by
  obtain ⟨c, cs, hquoted, rfl | rfl⟩ := exists_quoted_eq_cons s
  · rw [hquoted]
    exact reads_filler hgap (by decide) (by decide) (by decide) (by decide) _
  · rw [hquoted]
    exact reads_filler hgap (by decide) (by decide) (by decide) (by decide) _

/-- The text of an item and the comma after it, on a line of its own. -/
def itemLine (s : String) : List Char := "\n    ".toList ++ ((quoted s).toList ++ [','])

/-- Several items stand on lines of their own. -/
theorem toList_quotedList_of_two {items : List String} (h : 2 ≤ items.length) :
    (quotedList items).toList = '[' :: (items.flatMap itemLine ++ ['\n', ']']) := by
  have hlines : ∀ items : List String,
      '\n' :: (items.flatMap fun s => ("    " ++ quoted s ++ ",\n").toList) =
        items.flatMap itemLine ++ ['\n'] := by
    intro items
    induction items with
    | nil => rfl
    | cons s items ih => simpa [itemLine] using ih
  unfold quotedList
  split
  · simp at h
  · simp at h
  · have hjoin := congrArg (· ++ [']']) (hlines items)
    simpa [String.toList_join, List.flatMap_map] using hjoin

theorem length_le_quotedList (items : List String) : items.length ≤ (quotedList items).length := by
  rcases items with _ | ⟨s, _ | ⟨t, items⟩⟩
  · exact Nat.zero_le _
  · rw [quotedList, String.length_append, String.length_append]
    exact Nat.le_add_left 1 _
  · have hlines : ∀ items : List String, items.length ≤ (items.flatMap itemLine).length := by
      intro items
      have hmap : (items.map fun s => (itemLine s).length).length = items.length :=
        List.length_map _
      rw [List.length_flatMap, ← hmap]
      refine List.length_le_sum_of_one_le _ fun n hn => ?_
      obtain ⟨s, -, rfl⟩ := List.mem_map.mp hn
      simp [itemLine]
    have hall := hlines (s :: t :: items)
    have htwo : 2 ≤ (s :: t :: items).length := by simp
    have htext := congrArg List.length (toList_quotedList_of_two htwo)
    rw [String.length_toList, List.length_cons, List.length_append] at htext
    omega

/-- What is read after an item. -/
def afterItem (fuel : Nat) (v : Toml) : Reader (List Toml) := do
  filler
  if ← take "," then return v :: (← items fuel depth)
  else
    expect "]"
    return [v]

/-- A string among the items is read first. -/
theorem Reads.items_quoted {gap : List Char} (hgap : ∀ c ∈ gap, c = ' ' ∨ c = '\n') {s : String}
    {more : List Char} {vs : List Toml}
    (hmore : ∀ c ∈ (more ++ rest).head?, c ≠ '"' ∧ c ≠ '\x27')
    (h : Reads (afterItem depth (fuel + 1) (.string s)) more rest vs) :
    Reads (items (fuel + 2) depth) (gap ++ ((quoted s).toList ++ more)) rest vs := by
  have hfiller : Reads filler gap ((quoted s).toList ++ more ++ rest) () := by
    rw [List.append_assoc]
    exact reads_filler_quoted hgap s (more ++ rest)
  have hclose : Reads (take "]") [] ((quoted s).toList ++ more ++ rest) false := by
    obtain ⟨c, cs, hquoted, rfl | rfl⟩ := exists_quoted_eq_cons s
    · rw [hquoted]
      exact reads_take_false rfl
    · rw [hquoted]
      exact reads_take_false rfl
  rw [items]
  refine hfiller.bind (hclose.look ?_)
  exact (reads_quoted fuel depth s hmore).bind h

/-- Items on lines of their own are read up to the bracket after them. -/
theorem reads_itemLines {items : List String} {fuel : Nat} (h : items.length < fuel)
    (rest : List Char) : Reads (Reader.items fuel depth) (items.flatMap itemLine ++ ['\n', ']'])
      rest (items.map .string) := by
  induction items generalizing fuel with
  | nil =>
    obtain ⟨fuel, rfl⟩ := Nat.exists_eq_add_one_of_ne_zero (Nat.ne_of_gt h)
    have hfiller : Reads filler ['\n'] ([']'] ++ rest) () :=
      reads_filler (by simp) (by decide) (by decide) (by decide) (by decide) rest
    rw [Reader.items]
    exact hfiller.bind ((reads_take "]" rest).answer (Reads.pure _ _))
  | cons s items ih =>
    rw [List.length_cons] at h
    obtain ⟨fuel, rfl⟩ : ∃ k, fuel = k + 2 := ⟨fuel - 2, by omega⟩
    have hgap : ∀ c ∈ "\n    ".toList, c = ' ' ∨ c = '\n' := by simp
    have hfiller : Reads filler [] (',' :: (items.flatMap itemLine ++ ['\n', ']'] ++ rest)) () :=
      reads_filler (List.forall_mem_nil _) (by decide) (by decide) (by decide) (by decide) _
    have hafter : Reads (afterItem depth (fuel + 1) (.string s))
        (',' :: (items.flatMap itemLine ++ ['\n', ']'])) rest ((s :: items).map .string) := by
      refine hfiller.look ?_
      refine (reads_take "," _).bind ?_
      exact (ih (by omega)).answer (Reads.pure _ _)
    have hread := Reads.items_quoted fuel depth hgap (by simp) hafter
    simpa [itemLine] using hread

/-- A list of strings is read back from the way it is written. -/
theorem reads_quotedList (items : List String) {fuel : Nat} (h : items.length + 1 < fuel)
    (rest : List Char) : Reads (value fuel (depth + 1)) (quotedList items).toList rest
      (.array (items.map .string)) := by
  obtain ⟨fuel, rfl⟩ : ∃ k, fuel = k + 2 := ⟨fuel - 2, by omega⟩
  have hopen : ∀ {items : List String} {text : List Char},
      Reads (Reader.items (fuel + 1) depth) text rest (items.map .string) →
        Reads (value (fuel + 2) (depth + 1)) ('[' :: text) rest (.array (items.map .string)) := by
    intro items text hitems
    rw [value]
    refine (reads_take_false rfl).look ?_
    refine (reads_take_false rfl).look ?_
    refine (reads_take_false rfl).look ?_
    refine (reads_take_false rfl).look ?_
    refine (reads_take "[" _).bind ?_
    rw [if_neg (Nat.succ_ne_zero depth)]
    exact hitems.answer (Reads.pure _ _)
  have hclose : Reads filler [] (']' :: rest) () :=
    reads_filler (List.forall_mem_nil _) (by decide) (by decide) (by decide) (by decide) rest
  rcases items with _ | ⟨s, _ | ⟨t, items⟩⟩
  · have hnone : Reads (Reader.items (fuel + 1) depth) [']'] rest [] := by
      rw [Reader.items]
      exact hclose.look ((reads_take "]" rest).answer (Reads.pure _ _))
    exact hopen hnone
  · obtain ⟨fuel, rfl⟩ : ∃ k, fuel = k + 1 := ⟨fuel - 1, by simp at h; omega⟩
    have hafter : Reads (afterItem depth (fuel + 1) (.string s)) [']'] rest [.string s] := by
      refine hclose.look ?_
      refine (reads_take_false rfl).look ?_
      exact (reads_expect "]" rest).answer (Reads.pure _ _)
    have htext : (quotedList [s]).toList = '[' :: ([] ++ ((quoted s).toList ++ [']'])) := by
      simp [quotedList]
    rw [htext]
    exact hopen (Reads.items_quoted fuel depth (List.forall_mem_nil _) (by simp) hafter)
  · rw [toList_quotedList_of_two (by simp)]
    exact hopen (reads_itemLines depth (by simpa using h) rest)

/-! ### Settings -/

/-- A setting is read back from the way it is written. -/
theorem reads_written (v : Setting) (hv : v.IsSmall) {fuel : Nat} (h : v.written.length < fuel)
    (rest : List Char) :
    Reads (value (fuel + 1) (depth + 1)) v.written.toList ('\n' :: rest) v.value := by
  cases v with
  | string s => exact reads_quoted fuel (depth + 1) s (by simp)
  | strings items =>
    have hlength := length_le_quotedList items
    have hfuel : (quotedList items).length < fuel := h
    exact reads_quotedList depth items (by omega) _
  | boolean b =>
    cases b with
    | false =>
      have hvalue : Scalar.parse? ['f', 'a', 'l', 's', 'e'] = some (.boolean false) := by
        rw [Scalar.parse?, if_neg (by decide), if_pos (by decide)]
      have hread := reads_scalar (by simp [isScalarChar, Char.isAlphanum]) hvalue rest
      exact hread.value_scalar fuel _ (by decide)
    | true =>
      have hvalue : Scalar.parse? ['t', 'r', 'u', 'e'] = some (.boolean true) := by
        rw [Scalar.parse?, if_pos (by decide)]
      have hread := reads_scalar (by simp [isScalarChar, Char.isAlphanum]) hvalue rest
      exact hread.value_scalar fuel _ (by decide)
  | count n =>
    have hscalar : ∀ c ∈ Nat.toDigits 10 n, isScalarChar c = true := by
      intro c hc
      simp [isScalarChar, Char.isAlphanum, Count.isDigit_of_mem_toDigits hc]
    have hread := reads_scalar hscalar (Scalar.parse?_toDigits hv) rest
    rw [Setting.toList_written_count]
    obtain ⟨c, cs, hcons⟩ := List.exists_cons_of_ne_nil (@Nat.toDigits_ne_nil n 10)
    rw [hcons] at hread hscalar ⊢
    exact hread.value_scalar fuel _ (hscalar c List.mem_cons_self)

end

end Reader

end SymbolRename.Toml
