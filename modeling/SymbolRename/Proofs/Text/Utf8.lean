import SymbolRename.Text.Utf8
import Mathlib.Tactic.IntervalCases

/-!
# Texts and their bytes

The bytes of a text are the encodings of its characters, one after the other, and the
readers give the text back. A byte below `0x80` is a character of its own wherever it
stands, so a run of such bytes can be replaced by another without spoiling a text.
-/

namespace SymbolRename

theorem bytes_ofList (cs : List Char) :
    bytes (String.ofList cs) = cs.flatMap String.utf8EncodeChar := by
  simp [bytes, List.utf8Encode, List.data_toByteArray]

/-- The bytes of a text are the encodings of its characters. -/
theorem bytes_eq_flatMap (s : String) : bytes s = s.toList.flatMap String.utf8EncodeChar := by
  have h := bytes_ofList s.toList
  rwa [String.ofList_toList] at h

@[simp] theorem bytes_append (s t : String) : bytes (s ++ t) = bytes s ++ bytes t := by
  simp [bytes_eq_flatMap]

@[simp] theorem bytes_empty : bytes "" = [] := by simp [bytes_eq_flatMap]

/-- Different texts have different bytes. -/
theorem bytes_injective {s t : String} (h : bytes s = bytes t) : s = t := by
  have hdata : s.toUTF8.data = t.toUTF8.data := Array.toList_inj.mp h
  exact String.toByteArray_inj.mp (ByteArray.ext hdata)

theorem bytes_eq_nil_iff {s : String} : bytes s = [] ↔ s = "" := by
  rw [← bytes_empty]
  exact ⟨bytes_injective, fun h => by rw [h]⟩

/-! ### Single characters -/

theorem Char.lt_of_isAlphanum {c : Char} (h : c.isAlphanum = true) : c.toNat < 0x80 := by
  have hletters : ((c.isUpper || c.isLower) || c.isDigit) = true := h
  rw [Bool.or_eq_true, Bool.or_eq_true] at hletters
  rcases hletters with (h | h) | h
  · have hle : c.val ≤ 'Z'.val := of_decide_eq_true h |>.2
    exact Nat.lt_of_le_of_lt (UInt32.le_iff_toNat_le.mp hle) (by decide)
  · have hle : c.val ≤ 'z'.val := of_decide_eq_true (Bool.and_eq_true_iff.mp h).2
    exact Nat.lt_of_le_of_lt (UInt32.le_iff_toNat_le.mp hle) (by decide)
  · have hle : c.val ≤ '9'.val := of_decide_eq_true (Bool.and_eq_true_iff.mp h).2
    exact Nat.lt_of_le_of_lt (UInt32.le_iff_toNat_le.mp hle) (by decide)

/-- The encoding of an ASCII character is its number. -/
theorem Utf8.encode_of_lt {c : Char} (h : c.toNat < 0x80) :
    String.utf8EncodeChar c = [c.toNat.toUInt8] := by
  have hle : c.val.toNat ≤ 0x7f := Nat.le_of_lt_succ h
  unfold String.utf8EncodeChar
  simp only [hle, if_true]
  rfl

/-- What the encoding of a character is made of, by the number of its bytes. -/
theorem Utf8.encode_cases (c : Char) :
    (c.toNat < 0x80 ∧ String.utf8EncodeChar c = [UInt8.ofNat c.toNat]) ∨
    (0x80 ≤ c.toNat ∧ c.toNat < 0x800 ∧ String.utf8EncodeChar c =
      [UInt8.ofNat (c.toNat / 64 + 0xc0), UInt8.ofNat (c.toNat % 64 + 0x80)]) ∨
    (0x800 ≤ c.toNat ∧ c.toNat < 0x10000 ∧ String.utf8EncodeChar c =
      [UInt8.ofNat (c.toNat / 4096 + 0xe0), UInt8.ofNat (c.toNat / 64 % 64 + 0x80),
        UInt8.ofNat (c.toNat % 64 + 0x80)]) ∨
    (0x10000 ≤ c.toNat ∧ c.toNat < 0x110000 ∧ String.utf8EncodeChar c =
      [UInt8.ofNat (c.toNat / 262144 + 0xf0), UInt8.ofNat (c.toNat / 4096 % 64 + 0x80),
        UInt8.ofNat (c.toNat / 64 % 64 + 0x80), UInt8.ofNat (c.toNat % 64 + 0x80)]) := by
  have hvalid : c.toNat < 0x110000 := by
    rcases c.valid with h | ⟨_, h⟩ <;> simp only [Char.toNat] <;> omega
  have hnat : c.val.toNat = c.toNat := rfl
  unfold String.utf8EncodeChar
  simp only [hnat]
  by_cases h1 : c.toNat ≤ 0x7f
  · exact .inl ⟨by omega, by rw [if_pos h1]⟩
  by_cases h2 : c.toNat ≤ 0x7ff
  · have hmod : c.toNat / 64 % 32 = c.toNat / 64 := Nat.mod_eq_of_lt (by omega)
    exact .inr (.inl ⟨by omega, by omega, by rw [if_neg h1, if_pos h2, hmod]⟩)
  by_cases h3 : c.toNat ≤ 0xffff
  · have hmod : c.toNat / 4096 % 16 = c.toNat / 4096 := Nat.mod_eq_of_lt (by omega)
    exact .inr (.inr (.inl ⟨by omega, by omega, by rw [if_neg h1, if_neg h2, if_pos h3, hmod]⟩))
  · have hmod : c.toNat / 262144 % 8 = c.toNat / 262144 := Nat.mod_eq_of_lt (by omega)
    exact .inr (.inr (.inr ⟨by omega, by omega, by
      rw [if_neg h1, if_neg h2, if_neg h3, hmod]⟩))

theorem Utf8.toNat_ofNat {n : Nat} (h : n < 256) : (UInt8.ofNat n).toNat = n :=
  UInt8.toNat_ofNat_of_lt' h

/-- Past ASCII every byte of an encoding stands at `0x80` or higher. -/
private theorem Utf8.le_ofNat {n : Nat} (hlow : 0x80 ≤ n) (hn : n < 256) :
    0x80 ≤ UInt8.ofNat n := by
  rw [UInt8.le_iff_toNat_le, toNat_ofNat hn]
  exact hlow

/-- The encoding of a character past ASCII has no ASCII byte. -/
theorem Utf8.le_of_mem_encode {c : Char} (h : 0x80 ≤ c.toNat) {b : UInt8}
    (hb : b ∈ String.utf8EncodeChar c) : 0x80 ≤ b := by
  rcases encode_cases c with ⟨_, _⟩ | ⟨_, _, he⟩ | ⟨_, _, he⟩ | ⟨_, _, he⟩
  · omega
  all_goals
    simp only [he, List.mem_cons, List.not_mem_nil, or_false] at hb
  · rcases hb with rfl | rfl <;> exact le_ofNat (by omega) (by omega)
  · rcases hb with rfl | rfl | rfl <;> exact le_ofNat (by omega) (by omega)
  · rcases hb with rfl | rfl | rfl | rfl <;> exact le_ofNat (by omega) (by omega)

/-- A continuation byte adds its six bits. -/
private theorem Utf8.continuations_cons (value count : Nat) {n : Nat} (hn : n < 64)
    (rest : Bytes) :
    continuations value (count + 1) (UInt8.ofNat (n + 0x80) :: rest) =
      ((continuations (value * 64 + n) count rest).1,
        (continuations (value * 64 + n) count rest).2.1 + 1,
        (continuations (value * 64 + n) count rest).2.2) := by
  have hb : (UInt8.ofNat (n + 0x80)).toNat = n + 0x80 := toNat_ofNat (by omega)
  have hcont : isContinuation (UInt8.ofNat (n + 0x80)) = true := by
    simp only [isContinuation, Bool.and_eq_true, decide_eq_true_eq, UInt8.le_iff_toNat_le, hb]
    exact ⟨Nat.le_add_left 0x80 n, Nat.add_le_add_right (Nat.le_of_lt_succ hn) 0x80⟩
  simp only [continuations, hcont, if_true, hb, Nat.add_sub_cancel]

private theorem Utf8.lead?_two {n : Nat} (hlow : 2 ≤ n) (hhigh : n < 32) :
    lead? (UInt8.ofNat (n + 0xc0)) = some ⟨1, n, 0x80, 0xbf⟩ := by
  interval_cases n <;> rfl

private theorem Utf8.lead?_three {n : Nat} (h : n < 16) :
    lead? (UInt8.ofNat (n + 0xe0)) =
      some ⟨2, n, if n = 0 then 0xa0 else 0x80, if n = 13 then 0x9f else 0xbf⟩ := by
  interval_cases n <;> rfl

private theorem Utf8.lead?_four {n : Nat} (h : n < 5) :
    lead? (UInt8.ofNat (n + 0xf0)) =
      some ⟨3, n, if n = 0 then 0x90 else 0x80, if n = 4 then 0x8f else 0xbf⟩ := by
  interval_cases n <;> rfl

/-- Reading at a leading byte whose first further byte is in range. -/
private theorem Utf8.next_of_lead {n m count payload : Nat} {low high : UInt8} (hn : n < 256)
    (hat : 0x80 ≤ n) (hlead : lead? (UInt8.ofNat n) = some ⟨count + 1, payload, low, high⟩)
    (hm : m < 64) (hlow : low.toNat ≤ m + 0x80) (hhigh : m + 0x80 ≤ high.toNat) (more : Bytes) :
    next (UInt8.ofNat n) (UInt8.ofNat (m + 0x80) :: more) =
      (if (continuations (payload * 64 + m) count more).2.2 then
        some (Char.ofNat (continuations (payload * 64 + m) count more).1) else none,
      (continuations (payload * 64 + m) count more).2.1 + 1) := by
  have hb : (UInt8.ofNat (m + 0x80)).toNat = m + 0x80 := toNat_ofNat (by omega)
  have hnot : ¬ UInt8.ofNat n < 0x80 := UInt8.not_lt.mpr (le_ofNat hat hn)
  have hrange : (low ≤ UInt8.ofNat (m + 0x80) && UInt8.ofNat (m + 0x80) ≤ high) = true := by
    simp only [Bool.and_eq_true, decide_eq_true_eq, UInt8.le_iff_toNat_le, hb]
    exact ⟨hlow, hhigh⟩
  simp only [next, hnot, if_false, hlead, hrange, if_true, hb, Nat.add_sub_cancel]

/-- Reading an encoded character gives the character and leaves what follows. -/
theorem Utf8.next_encode (c : Char) (rest : Bytes) :
    ∃ b more, String.utf8EncodeChar c = b :: more ∧
      next b (more ++ rest) = (some c, more.length) := by
  have hof : Char.ofNat c.toNat = c := Char.ofNat_toNat c
  have hvalid : c.toNat < 0xd800 ∨ 0xdfff < c.toNat := by
    rcases c.valid with h | ⟨h, _⟩
    · exact .inl h
    · exact .inr h
  rcases encode_cases c with ⟨h, he⟩ | ⟨hl, hh, he⟩ | ⟨hl, hh, he⟩ | ⟨hl, hh, he⟩
  · refine ⟨_, _, he, ?_⟩
    have hb : (UInt8.ofNat c.toNat).toNat = c.toNat := toNat_ofNat (by omega)
    have hlt : UInt8.ofNat c.toNat < 0x80 := by
      rw [UInt8.lt_iff_toNat_lt, hb]
      exact h
    simp [next, hlt, hb, hof]
  · refine ⟨_, _, he, ?_⟩
    have hvalue : c.toNat / 64 * 64 + c.toNat % 64 = c.toNat := by omega
    have hlead := lead?_two (n := c.toNat / 64) (by omega) (by omega)
    have hnext := next_of_lead (m := c.toNat % 64) (by omega) (by omega) hlead (by omega)
      (Nat.le_add_left _ _) (by show _ ≤ 0xbf; omega) rest
    simpa [continuations, hvalue, hof] using hnext
  · refine ⟨_, _, he, ?_⟩
    have hvalue : (c.toNat / 4096 * 64 + c.toNat / 64 % 64) * 64 + c.toNat % 64 = c.toNat := by
      omega
    have hlead := lead?_three (n := c.toNat / 4096) (by omega)
    have hnext := next_of_lead (m := c.toNat / 64 % 64) (by omega) (by omega) hlead (by omega)
      (by split <;> simp; omega) (by split <;> simp <;> omega)
      (UInt8.ofNat (c.toNat % 64 + 0x80) :: rest)
    rw [continuations_cons _ 0 (Nat.mod_lt _ (by omega))] at hnext
    simpa [continuations, hvalue, hof] using hnext
  · refine ⟨_, _, he, ?_⟩
    have hvalue : ((c.toNat / 262144 * 64 + c.toNat / 4096 % 64) * 64 + c.toNat / 64 % 64) * 64
        + c.toNat % 64 = c.toNat := by
      omega
    have hlead := lead?_four (n := c.toNat / 262144) (by omega)
    have hnext := next_of_lead (m := c.toNat / 4096 % 64) (by omega) (by omega) hlead (by omega)
      (by split <;> simp; omega) (by split <;> simp <;> omega)
      (UInt8.ofNat (c.toNat / 64 % 64 + 0x80) :: UInt8.ofNat (c.toNat % 64 + 0x80) :: rest)
    rw [continuations_cons _ 1 (Nat.mod_lt _ (by omega)),
      continuations_cons _ 0 (Nat.mod_lt _ (by omega))] at hnext
    simpa [continuations, hvalue, hof] using hnext

/-! ### Reading a text back -/

theorem Utf8.units_append_encode (c : Char) (rest : Bytes) :
    units (String.utf8EncodeChar c ++ rest) = some c :: units rest := by
  obtain ⟨b, more, he, hnext⟩ := next_encode c rest
  rw [he, List.cons_append, units, hnext, List.drop_left]

/-- The units of a text are its characters. -/
theorem Utf8.units_flatMap_encode (cs : List Char) :
    units (cs.flatMap String.utf8EncodeChar) = cs.map some := by
  induction cs with
  | nil => simp [units]
  | cons c cs ih => rw [List.flatMap_cons, units_append_encode, ih, List.map_cons]

/-- The strict reader gives every text back. -/
@[simp] theorem Utf8.decode?_bytes (s : String) : decode? (bytes s) = some s := by
  have hall : ∀ cs : List Char, (cs.map some).mapM id = some cs := by
    intro cs
    induction cs with
    | nil => rfl
    | cons c cs ih => simp [ih]
  rw [decode?, bytes_eq_flatMap, units_flatMap_encode, hall, Option.map_some,
    String.ofList_toList]

/-- The forgiving reader gives every text back. -/
@[simp] theorem Utf8.decodeLossy_bytes (s : String) : decodeLossy (bytes s) = s := by
  simp [decodeLossy, bytes_eq_flatMap, units_flatMap_encode, Function.comp_def]

/-! ### Writing a text back -/

theorem Utf8.toNat_charOfNat {n : Nat} (h : n.isValidChar) : (Char.ofNat n).toNat = n := by
  rw [Char.ofNat, dif_pos h]
  rfl

/-- What a leading byte promises, by the number of further bytes. -/
inductive Utf8.Leads (b : UInt8) (lead : Lead) : Prop
  | two (hfurther : lead.further = 1) (hb : b.toNat = lead.payload + 0xc0)
      (hpayload : 2 ≤ lead.payload ∧ lead.payload < 32)
  | three (hfurther : lead.further = 2) (hb : b.toNat = lead.payload + 0xe0)
      (hpayload : lead.payload < 16) (hlow : lead.payload = 0 → 0xa0 ≤ lead.low.toNat)
      (hhigh : lead.payload = 13 → lead.high.toNat ≤ 0x9f)
  | four (hfurther : lead.further = 3) (hb : b.toNat = lead.payload + 0xf0)
      (hpayload : lead.payload < 5) (hlow : lead.payload = 0 → 0x90 ≤ lead.low.toNat)
      (hhigh : lead.payload = 4 → lead.high.toNat ≤ 0x8f)

theorem Utf8.leads {b : UInt8} {lead : Lead} (h : lead? b = some lead) :
    Leads b lead ∧ 0x80 ≤ lead.low.toNat ∧ lead.high.toNat ≤ 0xbf := by
  unfold lead? at h
  simp only [Bool.and_eq_true, decide_eq_true_eq, UInt8.le_iff_toNat_le, beq_iff_eq] at h
  split at h
  · rename_i hb
    obtain rfl := Option.some.inj h
    refine ⟨.two rfl ?_ ?_, Nat.le_refl 0x80, Nat.le_refl 0xbf⟩ <;> simp at hb ⊢ <;> omega
  split at h
  · subst b
    obtain rfl := Option.some.inj h
    exact ⟨.three rfl rfl (by decide) (by decide) (by decide), by decide, by decide⟩
  split at h
  · subst b
    obtain rfl := Option.some.inj h
    exact ⟨.three rfl rfl (by decide) (by decide) (by decide), by decide, by decide⟩
  split at h
  · rename_i hfirst hlast hb
    obtain rfl := Option.some.inj h
    rw [← UInt8.toNat_inj] at hfirst hlast
    refine ⟨.three rfl ?_ ?_ ?_ ?_, Nat.le_refl 0x80, Nat.le_refl 0xbf⟩ <;> simp at hfirst hlast hb ⊢ <;> omega
  split at h
  · subst b
    obtain rfl := Option.some.inj h
    exact ⟨.four rfl rfl (by decide) (by decide) (by decide), by decide, by decide⟩
  split at h
  · rename_i hfirst hb
    obtain rfl := Option.some.inj h
    rw [← UInt8.toNat_inj] at hfirst
    refine ⟨.four rfl ?_ ?_ ?_ ?_, Nat.le_refl 0x80, Nat.le_refl 0xbf⟩ <;> simp at hfirst hb ⊢ <;> omega
  split at h
  · subst b
    obtain rfl := Option.some.inj h
    exact ⟨.four rfl rfl (by decide) (by decide) (by decide), by decide, by decide⟩
  · cases h

/-- Continuation bytes that are all there. -/
theorem Utf8.continuations_eq_true {value count : Nat} {rest : Bytes}
    (h : (continuations value (count + 1) rest).2.2 = true) :
    ∃ m more, m < 64 ∧ rest = UInt8.ofNat (m + 0x80) :: more ∧
      (continuations (value * 64 + m) count more).2.2 = true := by
  cases rest with
  | nil => cases h
  | cons b more =>
    unfold continuations at h
    split at h
    · rename_i hb
      simp only [isContinuation, Bool.and_eq_true, decide_eq_true_eq, UInt8.le_iff_toNat_le] at hb
      have hlow : 0x80 ≤ b.toNat := hb.1
      have hhigh : b.toNat ≤ 0xbf := hb.2
      refine ⟨b.toNat - 0x80, more, by omega, ?_, h⟩
      rw [Nat.sub_add_cancel hlow, UInt8.ofNat_toNat]
    · cases h

/-- Bytes are known by their numbers. -/
theorem Utf8.eq_ofNat {b : UInt8} {n : Nat} (h : b.toNat = n) : b = UInt8.ofNat n := by
  rw [← h, UInt8.ofNat_toNat]

section

variable {payload m m₁ m₂ : Nat}

theorem Utf8.encode_two (hpayload : 2 ≤ payload ∧ payload < 32) (hm : m < 64) :
    String.utf8EncodeChar (Char.ofNat (payload * 64 + m)) =
      [UInt8.ofNat (payload + 0xc0), UInt8.ofNat (m + 0x80)] := by
  have hchar := toNat_charOfNat (n := payload * 64 + m) (.inl (by omega))
  rcases encode_cases (Char.ofNat (payload * 64 + m)) with
    ⟨_, _⟩ | ⟨_, _, he⟩ | ⟨_, _, _⟩ | ⟨_, _, _⟩
  · omega
  · rw [he, hchar, show (payload * 64 + m) / 64 = payload by omega,
      show (payload * 64 + m) % 64 = m by omega]
  · omega
  · omega

/-- Neither an overlong form nor a surrogate. -/
theorem Utf8.encode_three (hpayload : payload < 16) (hm : m < 64) (hm₁ : m₁ < 64)
    (hsmall : payload = 0 → 0xa0 ≤ m + 0x80) (hgap : payload = 13 → m + 0x80 ≤ 0x9f) :
    String.utf8EncodeChar (Char.ofNat ((payload * 64 + m) * 64 + m₁)) =
      [UInt8.ofNat (payload + 0xe0), UInt8.ofNat (m + 0x80), UInt8.ofNat (m₁ + 0x80)] := by
  have hvalid : ((payload * 64 + m) * 64 + m₁).isValidChar := by
    unfold Nat.isValidChar
    omega
  have hchar := toNat_charOfNat hvalid
  rcases encode_cases (Char.ofNat ((payload * 64 + m) * 64 + m₁)) with
    ⟨_, _⟩ | ⟨_, _, _⟩ | ⟨_, _, he⟩ | ⟨_, _, _⟩
  · omega
  · omega
  · rw [he, hchar, show ((payload * 64 + m) * 64 + m₁) / 4096 = payload by omega,
      show ((payload * 64 + m) * 64 + m₁) / 64 % 64 = m by omega,
      show ((payload * 64 + m) * 64 + m₁) % 64 = m₁ by omega]
  · omega

/-- Neither an overlong form nor past the last character. -/
theorem Utf8.encode_four (hpayload : payload < 5) (hm : m < 64) (hm₁ : m₁ < 64) (hm₂ : m₂ < 64)
    (hsmall : payload = 0 → 0x90 ≤ m + 0x80) (hlarge : payload = 4 → m + 0x80 ≤ 0x8f) :
    String.utf8EncodeChar (Char.ofNat (((payload * 64 + m) * 64 + m₁) * 64 + m₂)) =
      [UInt8.ofNat (payload + 0xf0), UInt8.ofNat (m + 0x80), UInt8.ofNat (m₁ + 0x80),
        UInt8.ofNat (m₂ + 0x80)] := by
  have hvalid : (((payload * 64 + m) * 64 + m₁) * 64 + m₂).isValidChar := by
    unfold Nat.isValidChar
    omega
  have hchar := toNat_charOfNat hvalid
  rcases encode_cases (Char.ofNat (((payload * 64 + m) * 64 + m₁) * 64 + m₂)) with
    ⟨_, _⟩ | ⟨_, _, _⟩ | ⟨_, _, _⟩ | ⟨_, _, he⟩
  · omega
  · omega
  · omega
  · rw [he, hchar,
      show (((payload * 64 + m) * 64 + m₁) * 64 + m₂) / 262144 = payload by omega,
      show (((payload * 64 + m) * 64 + m₁) * 64 + m₂) / 4096 % 64 = m by omega,
      show (((payload * 64 + m) * 64 + m₁) * 64 + m₂) / 64 % 64 = m₁ by omega,
      show (((payload * 64 + m) * 64 + m₁) * 64 + m₂) % 64 = m₂ by omega]

end

/-- A character that was read from several bytes is encoded as these. -/
theorem Utf8.encode_of_leads {b : UInt8} {lead : Lead} (hleads : Leads b lead) {m : Nat}
    (hm : m < 64) (hlow : lead.low.toNat ≤ m + 0x80) (hhigh : m + 0x80 ≤ lead.high.toNat)
    {more : Bytes}
    (hok : (continuations (lead.payload * 64 + m) (lead.further - 1) more).2.2 = true) :
    String.utf8EncodeChar
        (Char.ofNat (continuations (lead.payload * 64 + m) (lead.further - 1) more).1) =
      b :: UInt8.ofNat (m + 0x80) ::
        more.take (continuations (lead.payload * 64 + m) (lead.further - 1) more).2.1 := by
  obtain ⟨further, payload, low, high⟩ := lead
  cases hleads with
  | two hfurther hb hpayload =>
    obtain rfl : further = 1 := hfurther
    rw [eq_ofNat hb]
    exact encode_two hpayload hm
  | three hfurther hb hpayload hsmall hgap =>
    obtain rfl : further = 2 := hfurther
    obtain ⟨m₁, rest, hm₁, rfl, _⟩ := continuations_eq_true hok
    rw [show 2 - 1 = 0 + 1 from rfl, continuations_cons _ 0 hm₁, eq_ofNat hb]
    exact encode_three hpayload hm hm₁ (fun h => (hsmall h).trans hlow)
      fun h => hhigh.trans (hgap h)
  | four hfurther hb hpayload hsmall hlarge =>
    obtain rfl : further = 3 := hfurther
    obtain ⟨m₁, rest, hm₁, rfl, hnext⟩ := continuations_eq_true hok
    obtain ⟨m₂, rest, hm₂, rfl, _⟩ := continuations_eq_true hnext
    rw [show 3 - 1 = 1 + 1 from rfl, continuations_cons _ 1 hm₁, continuations_cons _ 0 hm₂,
      eq_ofNat hb]
    exact encode_four hpayload hm hm₁ hm₂ (fun h => (hsmall h).trans hlow)
      fun h => hhigh.trans (hlarge h)

/-- A character that was read is encoded as the bytes that were read. -/
theorem Utf8.encode_of_next {b : UInt8} {rest : Bytes} {c : Char} {n : Nat}
    (h : next b rest = (some c, n)) : String.utf8EncodeChar c = b :: rest.take n := by
  unfold next at h
  split at h
  · rename_i hb
    obtain ⟨hc, rfl⟩ := Prod.mk.inj h
    obtain rfl := Option.some.inj hc
    have hlt : b.toNat < 0x80 := UInt8.lt_iff_toNat_lt.mp hb
    have hchar := toNat_charOfNat (n := b.toNat) (.inl (by omega))
    rw [encode_of_lt (by rw [hchar]; exact hlt), hchar]
    simp
  · split at h
    · cases h
    · cases h
    · rename_i lead d more hlead
      split at h
      · rename_i hrange
        simp only [Bool.and_eq_true, decide_eq_true_eq, UInt8.le_iff_toNat_le] at hrange
        obtain ⟨hleads, hlow, hhigh⟩ := leads hlead
        have hd : d = UInt8.ofNat (d.toNat - 0x80 + 0x80) := eq_ofNat (by omega)
        obtain ⟨hc, rfl⟩ := Prod.mk.inj h
        split at hc
        · rename_i hok
          obtain rfl := Option.some.inj hc
          rw [encode_of_leads hleads (by omega) (by omega) (by omega) hok, ← hd]
          rfl
        · cases hc
      · cases h

/-- A text that was read is encoded as the bytes that were read. -/
theorem Utf8.bytes_of_decode? {b : Bytes} {s : String} (h : decode? b = some s) : bytes s = b := by
  obtain ⟨cs, hcs, rfl⟩ := Option.map_eq_some_iff.mp h
  rw [bytes_ofList]
  clear h
  fun_induction units b generalizing cs with
  | case1 =>
    obtain rfl : cs = [] := by simpa using hcs.symm
    rfl
  | case2 b rest ih =>
    cases hnext : next b rest with
    | mk unit count =>
      simp only [hnext] at hcs ih
      cases unit with
      | none => simp at hcs
      | some c =>
        obtain ⟨more, hmore, rfl⟩ : ∃ more, (units (rest.drop count)).mapM id = some more ∧
            c :: more = cs := by
          simpa [Option.bind_eq_some_iff] using hcs
        rw [List.flatMap_cons, ih more hmore, encode_of_next hnext, List.cons_append,
          List.take_append_drop]

/-! ### Runs of ASCII bytes -/

/-- The bytes are those of a text. -/
def Utf8.IsText (b : Bytes) : Prop := ∃ s, b = bytes s

theorem Utf8.isText_iff {b : Bytes} : IsText b ↔ ∃ cs : List Char, b = cs.flatMap String.utf8EncodeChar := by
  constructor
  · rintro ⟨s, rfl⟩
    exact ⟨s.toList, bytes_eq_flatMap s⟩
  · rintro ⟨cs, rfl⟩
    exact ⟨String.ofList cs, (bytes_ofList cs).symm⟩

theorem Utf8.IsText.append {u v : Bytes} (hu : IsText u) (hv : IsText v) : IsText (u ++ v) := by
  obtain ⟨s, rfl⟩ := hu
  obtain ⟨t, rfl⟩ := hv
  exact ⟨s ++ t, (bytes_append s t).symm⟩

/-- An ASCII byte inside a text is a character of its own. -/
theorem Utf8.split_at_ascii {cs : List Char} {u v : Bytes} {b : UInt8} (hb : b < 0x80)
    (h : cs.flatMap String.utf8EncodeChar = u ++ b :: v) :
    ∃ before c after, cs = before ++ c :: after ∧
      u = before.flatMap String.utf8EncodeChar ∧ String.utf8EncodeChar c = [b] ∧
      v = after.flatMap String.utf8EncodeChar := by
  induction cs generalizing u with
  | nil => simp at h
  | cons c cs ih =>
    rw [List.flatMap_cons] at h
    rcases List.append_eq_append_iff.mp h with ⟨u', rfl, hrest⟩ | ⟨tail, henc, hrest⟩
    · obtain ⟨before, c', after, rfl, rfl, hc', rfl⟩ := ih hrest
      exact ⟨c :: before, c', after, rfl, rfl, hc', rfl⟩
    · cases tail with
      | nil =>
        rw [List.nil_append] at hrest
        obtain ⟨before, c', after, rfl, hu, hc', rfl⟩ := ih (u := []) hrest.symm
        refine ⟨c :: before, c', after, rfl, ?_, hc', rfl⟩
        rw [List.flatMap_cons, ← hu, henc, List.append_nil, List.append_nil]
      | cons b' tail =>
        obtain ⟨rfl, rfl⟩ := List.cons.inj hrest
        have hascii : c.toNat < 0x80 := by
          by_contra hge
          have hmem : b ∈ String.utf8EncodeChar c := by rw [henc]; simp
          exact UInt8.not_le.mpr hb (le_of_mem_encode (Nat.le_of_not_lt hge) hmem)
        rw [encode_of_lt hascii] at henc
        cases u with
        | nil =>
          obtain ⟨rfl, rfl⟩ := List.cons.inj henc
          exact ⟨[], c, cs, rfl, rfl, encode_of_lt hascii, rfl⟩
        | cons x u =>
          have hlen := congrArg List.length henc
          simp at hlen

/-- A run of ASCII bytes is a text. -/
theorem Utf8.isText_of_ascii {w : Bytes} (h : ∀ b ∈ w, b < 0x80) : IsText w := by
  induction w with
  | nil => exact ⟨"", bytes_empty.symm⟩
  | cons b w ih =>
    have hb : b.toNat < 0x80 := UInt8.lt_iff_toNat_lt.mp (h b List.mem_cons_self)
    have hvalid : b.toNat.isValidChar := .inl (by omega)
    have hchar := toNat_charOfNat hvalid
    have hone : IsText [b] := by
      refine isText_iff.mpr ⟨[Char.ofNat b.toNat], ?_⟩
      rw [List.flatMap_cons, encode_of_lt (by rw [hchar]; exact hb), hchar]
      simp
    exact hone.append (ih fun x hx => h x (List.mem_cons_of_mem b hx))

/-- What follows a run of ASCII bytes at the head of a text is a text. -/
theorem Utf8.IsText.of_ascii_append {w v : Bytes} (hw : ∀ b ∈ w, b < 0x80)
    (h : IsText (w ++ v)) : IsText v := by
  induction w with
  | nil => exact h
  | cons b w ih =>
    obtain ⟨cs, hcs⟩ := isText_iff.mp h
    obtain ⟨_, _, after, _, _, _, hafter⟩ :=
      split_at_ascii (u := []) (hw b List.mem_cons_self) hcs.symm
    exact ih (fun x hx => hw x (List.mem_cons_of_mem b hx)) (isText_iff.mpr ⟨after, hafter⟩)

/-- A run of ASCII bytes parts a text into texts. -/
theorem Utf8.IsText.split {u w v : Bytes} (h : IsText (u ++ w ++ v)) (hne : w ≠ [])
    (hw : ∀ b ∈ w, b < 0x80) : IsText u ∧ IsText v := by
  obtain ⟨b, rest, rfl⟩ := List.exists_cons_of_ne_nil hne
  obtain ⟨cs, hcs⟩ := isText_iff.mp h
  rw [List.append_assoc, List.cons_append] at hcs
  obtain ⟨before, _, after, _, hu, _, hafter⟩ := split_at_ascii (hw b List.mem_cons_self) hcs.symm
  exact ⟨isText_iff.mpr ⟨before, hu⟩, .of_ascii_append
    (fun x hx => hw x (List.mem_cons_of_mem b hx)) (isText_iff.mpr ⟨after, hafter⟩)⟩

/-- Replacing a run of ASCII bytes by another leaves a text. -/
theorem Utf8.IsText.replace {u w v : Bytes} (h : IsText (u ++ w ++ v)) (hne : w ≠ [])
    (hw : ∀ b ∈ w, b < 0x80) {w' : Bytes} (hw' : ∀ b ∈ w', b < 0x80) :
    IsText (u ++ w' ++ v) :=
  ((h.split hne hw).1.append (isText_of_ascii hw')).append (h.split hne hw).2

/-! ### Bytes in front of an ASCII byte -/

/-- Nothing that begins with an ASCII byte continues a character. -/
theorem Utf8.continuations_append (value count : Nat) {a rest : Bytes}
    (hrest : ∀ b ∈ rest.head?, b < 0x80) :
    continuations value count (a ++ rest) = continuations value count a ∧
      (continuations value count a).2.1 ≤ a.length := by
  induction count generalizing value a with
  | zero => exact ⟨by simp only [continuations], Nat.zero_le _⟩
  | succ count ih =>
    cases a with
    | nil =>
      refine ⟨?_, Nat.zero_le _⟩
      cases rest with
      | nil => rfl
      | cons b rest =>
        have hb : isContinuation b = false := by
          simp [isContinuation, UInt8.not_le.mpr (hrest b rfl)]
        simp [continuations, hb]
    | cons b a =>
      rw [List.cons_append, continuations, continuations]
      split
      · obtain ⟨heq, hle⟩ := ih (value * 64 + (b.toNat - 0x80)) (a := a)
        rw [heq]
        exact ⟨rfl, Nat.succ_le_succ hle⟩
      · exact ⟨rfl, Nat.zero_le _⟩

/-- A unit does not reach into what begins with an ASCII byte. -/
theorem Utf8.next_append (b : UInt8) {a rest : Bytes} (hrest : ∀ b ∈ rest.head?, b < 0x80) :
    next b (a ++ rest) = next b a ∧ (next b a).2 ≤ a.length := by
  by_cases hb : b < 0x80
  · simp only [next, hb, if_true]
    exact ⟨trivial, Nat.zero_le _⟩
  · simp only [next, hb, if_false]
    cases hlead : lead? b with
    | none => exact ⟨by cases a <;> cases rest <;> rfl, by cases a <;> exact Nat.zero_le _⟩
    | some lead =>
      cases a with
      | nil =>
        refine ⟨?_, Nat.zero_le _⟩
        cases rest with
        | nil => rfl
        | cons c rest =>
          have hlow : (0x80 : UInt8) ≤ lead.low := by
            unfold lead? at hlead
            repeat' split at hlead
            all_goals cases hlead
            all_goals dsimp only; decide
          have hc : ¬ lead.low ≤ c := fun hle =>
            absurd (UInt8.le_trans hlow hle) (UInt8.not_le.mpr (hrest c rfl))
          simp [hc]
      | cons c a =>
        obtain ⟨heq, hle⟩ := continuations_append (lead.payload * 64 + (c.toNat - 0x80))
          (lead.further - 1) (a := a) hrest
        simp only [List.cons_append, heq]
        split
        · exact ⟨trivial, Nat.succ_le_succ hle⟩
        · exact ⟨trivial, Nat.zero_le _⟩

/-- The units in front of an ASCII byte are read on their own. -/
theorem Utf8.units_append {a rest : Bytes} (hrest : ∀ b ∈ rest.head?, b < 0x80) :
    units (a ++ rest) = units a ++ units rest := by
  fun_induction units a with
  | case1 => rfl
  | case2 b a ih =>
    obtain ⟨heq, hle⟩ := next_append b (a := a) hrest
    rw [List.cons_append, units, heq, List.drop_append_of_le_length hle, ih]
    rfl

theorem Utf8.toList_decodeLossy_append {a rest : Bytes} (hrest : ∀ b ∈ rest.head?, b < 0x80) :
    (decodeLossy (a ++ rest)).toList = (decodeLossy a).toList ++ (decodeLossy rest).toList := by
  simp [decodeLossy, units_append hrest]

theorem Utf8.toList_decodeLossy_cons {b : UInt8} (hb : b < 0x80) (rest : Bytes) :
    (decodeLossy (b :: rest)).toList = Char.ofNat b.toNat :: (decodeLossy rest).toList := by
  simp [decodeLossy, units, next, hb]

/-- ASCII bytes are read one by one, whatever follows. -/
theorem Utf8.toList_decodeLossy_ascii_append {w : Bytes} (hw : ∀ b ∈ w, b < 0x80) (rest : Bytes) :
    (decodeLossy (w ++ rest)).toList =
      w.map (fun b => Char.ofNat b.toNat) ++ (decodeLossy rest).toList := by
  induction w with
  | nil => rfl
  | cons b w ih =>
    obtain ⟨hb, hw⟩ := List.forall_mem_cons.mp hw
    rw [List.cons_append, toList_decodeLossy_cons hb, ih hw]
    rfl

/-- ASCII bytes are those of a text, with one character for each. -/
theorem Utf8.exists_bytes_eq_of_ascii {w : Bytes} (hw : ∀ b ∈ w, b < 0x80) :
    ∃ text : String, bytes text = w ∧ text.toList = w.map fun b => Char.ofNat b.toNat := by
  obtain ⟨text, rfl⟩ := isText_of_ascii hw
  refine ⟨text, rfl, ?_⟩
  have hread := toList_decodeLossy_ascii_append hw []
  rw [List.append_nil, decodeLossy_bytes] at hread
  rw [hread]
  simp [decodeLossy, units]

/-- What is read at a byte past ASCII is no ASCII character. -/
theorem Utf8.exists_toList_decodeLossy_cons {b : UInt8} (hb : 0x80 ≤ b) (rest : Bytes) :
    ∃ c cs, (decodeLossy (b :: rest)).toList = c :: cs ∧ 0x80 ≤ c.toNat := by
  cases hnext : next b rest with
  | mk unit count =>
    refine ⟨unit.getD '\ufffd', _, by rw [decodeLossy, units, hnext]; simp; rfl, ?_⟩
    cases unit with
    | none =>
      rw [Option.getD_none]
      decide
    | some c =>
      rw [Option.getD_some]
      by_contra hlt
      have hone := encode_of_next hnext
      rw [encode_of_lt (by omega)] at hone
      have hbyte : UInt8.ofNat c.toNat = b := (List.cons.inj hone).1
      rw [← hbyte, UInt8.le_iff_toNat_le, toNat_ofNat (by omega)] at hb
      exact hlt hb

end SymbolRename
