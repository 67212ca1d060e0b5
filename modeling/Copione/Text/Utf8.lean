/-!
# Lossy UTF-8

Bytes become characters one at a time. A maximal ill-formed sequence becomes one
replacement character; a sequence that later bytes could complete has no character yet.
-/
namespace Copione.Utf8

def replacement : Char := '\uFFFD'

/-- What the first byte of a longer sequence says: its own bits, how many bytes come after
the second one, and the range of the second byte. -/
structure Lead where
  bits : Nat
  tail : Nat
  low : UInt8
  high : UInt8

/-- The ranges leave out overlong forms, surrogates, and values past the last code point. -/
def lead? (b : UInt8) : Option Lead :=
  if b < 0xC2 then none
  else if b < 0xE0 then some ⟨b.toNat % 32, 0, 0x80, 0xBF⟩
  else if b == 0xE0 then some ⟨0, 1, 0xA0, 0xBF⟩
  else if b == 0xED then some ⟨13, 1, 0x80, 0x9F⟩
  else if b < 0xF0 then some ⟨b.toNat % 16, 1, 0x80, 0xBF⟩
  else if b == 0xF0 then some ⟨0, 2, 0x90, 0xBF⟩
  else if b < 0xF4 then some ⟨b.toNat % 8, 2, 0x80, 0xBF⟩
  else if b == 0xF4 then some ⟨4, 2, 0x80, 0x8F⟩
  else none

/-- Adds `n` more continuation bytes to the bits read so far. -/
def extend? (bits : Nat) : Nat → List UInt8 → Option (Char × List UInt8)
  | 0, rest => some (Char.ofNat bits, rest)
  | _ + 1, [] => none
  | n + 1, b :: rest =>
    if 0x80 ≤ b ∧ b ≤ 0xBF then extend? (bits * 64 + b.toNat % 64) n rest
    else some (replacement, b :: rest)

/-- The first character and the bytes after it. There is none at the end of the bytes, or
when the bytes are only the beginning of a character. -/
def first? : List UInt8 → Option (Char × List UInt8)
  | [] => none
  | b :: rest =>
    if b < 0x80 then some (Char.ofNat b.toNat, rest)
    else
      match lead? b, rest with
      | none, _ => some (replacement, rest)
      | some _, [] => none
      | some l, c :: more =>
        if l.low ≤ c ∧ c ≤ l.high then extend? (l.bits * 64 + c.toNat % 64) l.tail more
        else some (replacement, rest)

end Copione.Utf8
