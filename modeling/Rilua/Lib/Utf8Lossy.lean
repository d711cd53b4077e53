import Mathlib.Init
import Mathlib.Data.Nat.Notation

/-! Lossy decoding of UTF-8: a byte sequence that is no UTF-8 is decoded with a replacement character for
    each maximal invalid part. -/

namespace Lib

def isContinuation (b : UInt8) : Bool := b &&& 0xC0 == 0x80

/-- Whether a three- or four-byte sequence that starts with `b₀` may go on with `b₁`. -/
def isSecondByte (b₀ b₁ : UInt8) : Bool :=
  if b₀ = 0xE0 then 0xA0 ≤ b₁ && b₁ ≤ 0xBF
  else if b₀ = 0xED then 0x80 ≤ b₁ && b₁ ≤ 0x9F
  else if b₀ = 0xF0 then 0x90 ≤ b₁ && b₁ ≤ 0xBF
  else if b₀ = 0xF4 then 0x80 ≤ b₁ && b₁ ≤ 0x8F
  else isContinuation b₁

/-- The length of the longest prefix of an invalid sequence that a valid sequence could start with; at
    least 1. -/
def invalidLength : List UInt8 → ℕ
  | b₀ :: b₁ :: bs =>
    if 0xE0 ≤ b₀ && b₀ ≤ 0xF4 && isSecondByte b₀ b₁ then
      if 0xF0 ≤ b₀ && bs.head?.any isContinuation then 3 else 2
    else 1
  | _ => 1

/-- The characters of `bytes`; `fuel` bounds their number. -/
def lossyChars : ℕ → List UInt8 → List Char
  | 0, _ => []
  | _ + 1, [] => []
  | fuel + 1, bytes =>
    match bytes.toByteArray.utf8DecodeChar? 0 with
    | some c => c :: lossyChars fuel (bytes.drop c.utf8Size)
    | none => Char.ofNat 0xFFFD :: lossyChars fuel (bytes.drop (invalidLength bytes))

/-- The string with the given bytes, as far as they are UTF-8. -/
def fromUtf8Lossy (bytes : List UInt8) : String :=
  match String.fromUTF8? bytes.toByteArray with
  | some s => s
  | none => String.ofList (lossyChars bytes.length bytes)

/-- The bytes of a string are decoded to the string. -/
theorem fromUtf8Lossy_toByteArray (s : String) : fromUtf8Lossy s.toByteArray.data.toList = s := by
  have hbytes : s.toByteArray.data.toList.toByteArray = s.toByteArray :=
    ByteArray.ext (by rw [List.data_toByteArray, Array.toArray_toList])
  have hvalid : String.fromUTF8? s.toByteArray = some s := by
    rw [String.fromUTF8?, dif_pos s.isValidUTF8]
    rfl
  rw [fromUtf8Lossy, hbytes, hvalid]

end Lib
