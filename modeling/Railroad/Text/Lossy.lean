/-!
# Lossy decoding

Bytes are read as UTF-8.  Where no character can be read, the bytes that might have begun one
are shown as a single replacement character.
-/

namespace Railroad.Text

/-- Stands for bytes that are no character. -/
def replacement : Char := '\uFFFD'

/-- What the first byte of a character says about the following ones. -/
structure Lead where
  /-- How many bytes follow. -/
  count : Nat
  /-- The highest bits of the code point. -/
  bits : Nat
  /-- The bounds of the next byte. -/
  low : Nat
  high : Nat

def lead? (byte : Nat) : Option Lead :=
  if byte < 0xC2 then none
  else if byte < 0xE0 then some ⟨1, byte - 0xC0, 0x80, 0xBF⟩
  else if byte = 0xE0 then some ⟨2, 0, 0xA0, 0xBF⟩
  else if byte = 0xED then some ⟨2, 0xD, 0x80, 0x9F⟩
  else if byte < 0xF0 then some ⟨2, byte - 0xE0, 0x80, 0xBF⟩
  else if byte = 0xF0 then some ⟨3, 0, 0x90, 0xBF⟩
  else if byte < 0xF4 then some ⟨3, byte - 0xF0, 0x80, 0xBF⟩
  else if byte = 0xF4 then some ⟨3, 4, 0x80, 0x8F⟩
  else none

/-- Reads the following bytes of a character, as far as they fit. -/
def follow (code low high : Nat) : Nat → List UInt8 → Char × List UInt8
  | 0, rest => (Char.ofNat code, rest)
  | _ + 1, [] => (replacement, [])
  | count + 1, byte :: rest =>
      if low ≤ byte.toNat ∧ byte.toNat ≤ high then
        follow (code * 64 + (byte.toNat - 0x80)) 0x80 0xBF count rest
      else (replacement, byte :: rest)

theorem length_follow_le (code low high count : Nat) (bytes : List UInt8) :
    (follow code low high count bytes).2.length ≤ bytes.length := by
  induction count generalizing code low high bytes with
  | zero => exact Nat.le_refl _
  | succ count ih =>
      cases bytes with
      | nil => exact Nat.le_refl _
      | cons byte rest =>
          unfold follow
          split
          · exact Nat.le_succ_of_le (ih _ _ _ rest)
          · exact Nat.le_refl _

/-- Reads the character that begins with this byte. -/
def decodeFirst (byte : UInt8) (rest : List UInt8) : Char × List UInt8 :=
  if byte.toNat < 0x80 then (Char.ofNat byte.toNat, rest)
  else
    match lead? byte.toNat with
    | none => (replacement, rest)
    | some lead => follow lead.bits lead.low lead.high lead.count rest

theorem length_decodeFirst_le (byte : UInt8) (rest : List UInt8) :
    (decodeFirst byte rest).2.length ≤ rest.length := by
  unfold decodeFirst
  split
  · exact Nat.le_refl _
  · split
    · exact Nat.le_refl _
    · exact length_follow_le _ _ _ _ rest

/-- The characters of the bytes. -/
def decodeLossy : List UInt8 → List Char
  | [] => []
  | byte :: rest => (decodeFirst byte rest).1 :: decodeLossy (decodeFirst byte rest).2
termination_by bytes => bytes.length
decreasing_by exact Nat.lt_succ_of_le (length_decodeFirst_le byte rest)

end Railroad.Text
