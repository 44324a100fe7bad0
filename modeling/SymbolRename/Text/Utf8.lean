import SymbolRename.Text.Bytes

/-!
# Reading bytes as UTF-8 text

`Utf8.next` reads one unit: a character, or the longest run of bytes that begins
a character without finishing it. The strict reader `decode?` refuses any such
run; the forgiving reader `decodeLossy` writes one replacement character for it.
-/

namespace SymbolRename.Utf8

/-- A continuation byte carries six bits under the mark `10`. -/
def isContinuation (b : UInt8) : Bool := 0x80 ≤ b && b ≤ 0xbf

/-- What a leading byte promises: the number of further bytes, the payload bits of
the leading byte, and the range allowed for the first further byte. -/
structure Lead where
  further : Nat
  payload : Nat
  low : UInt8
  high : UInt8

/-- The leading bytes of two-, three- and four-byte characters. The narrowed
ranges keep out overlong forms, surrogates and values past the last character. -/
def lead? (b : UInt8) : Option Lead :=
  if 0xc2 ≤ b && b ≤ 0xdf then some ⟨1, b.toNat - 0xc0, 0x80, 0xbf⟩
  else if b == 0xe0 then some ⟨2, 0, 0xa0, 0xbf⟩
  else if b == 0xed then some ⟨2, 0xd, 0x80, 0x9f⟩
  else if 0xe1 ≤ b && b ≤ 0xef then some ⟨2, b.toNat - 0xe0, 0x80, 0xbf⟩
  else if b == 0xf0 then some ⟨3, 0, 0x90, 0xbf⟩
  else if 0xf1 ≤ b && b ≤ 0xf3 then some ⟨3, b.toNat - 0xf0, 0x80, 0xbf⟩
  else if b == 0xf4 then some ⟨3, 4, 0x80, 0x8f⟩
  else none

/-- Reads up to `count` continuation bytes, adding six bits each; the answer is
the value, the number of bytes read and whether all of them were there. -/
def continuations (value : Nat) : Nat → Bytes → Nat × Nat × Bool
  | 0, _ => (value, 0, true)
  | _ + 1, [] => (value, 0, false)
  | count + 1, b :: rest =>
    if isContinuation b then
      let (v, n, ok) := continuations (value * 64 + (b.toNat - 0x80)) count rest
      (v, n + 1, ok)
    else (value, 0, false)

/-- The unit at the head of `b :: rest`: its character, unless it is malformed,
and the number of bytes of `rest` that belong to it. -/
def next (b : UInt8) (rest : Bytes) : Option Char × Nat :=
  if b < 0x80 then (some (Char.ofNat b.toNat), 0)
  else match lead? b, rest with
    | none, _ => (none, 0)
    | some _, [] => (none, 0)
    | some lead, c :: more =>
      if lead.low ≤ c && c ≤ lead.high then
        let (v, n, ok) :=
          continuations (lead.payload * 64 + (c.toNat - 0x80)) (lead.further - 1) more
        (if ok then some (Char.ofNat v) else none, n + 1)
      else (none, 0)

/-- The characters and malformed runs of a byte sequence, in order. -/
def units : Bytes → List (Option Char)
  | [] => []
  | b :: rest => (next b rest).1 :: units (rest.drop (next b rest).2)
termination_by b => b.length
decreasing_by simp only [List.length_drop, List.length_cons]; omega

/-- The text that the bytes spell, if every byte belongs to a character. -/
def decode? (b : Bytes) : Option String := ((units b).mapM id).map String.ofList

/-- The text with one replacement character for each malformed run. -/
def decodeLossy (b : Bytes) : String :=
  String.ofList ((units b).map (·.getD '\ufffd'))

end SymbolRename.Utf8
