/-!
# UTF-8

Bytes as characters. A malformed part is a longest beginning of a character that
nothing completes, or a byte that begins none.
-/

namespace ElementWrappers.Text

/-- The bits that the first byte of a long character gives, and the ranges in
which its further bytes lie. -/
def leadByte? (b : Nat) : Option (Nat × List (Nat × Nat)) :=
  let tail := (0x80, 0xBF)
  if 0xC2 ≤ b ∧ b ≤ 0xDF then some (b - 0xC0, [tail])
  else if b = 0xE0 then some (0, [(0xA0, 0xBF), tail])
  else if b = 0xED then some (0xD, [(0x80, 0x9F), tail])
  else if 0xE1 ≤ b ∧ b ≤ 0xEF then some (b - 0xE0, [tail, tail])
  else if b = 0xF0 then some (0, [(0x90, 0xBF), tail, tail])
  else if 0xF1 ≤ b ∧ b ≤ 0xF3 then some (b - 0xF0, [tail, tail, tail])
  else if b = 0xF4 then some (4, [(0x80, 0x8F), tail, tail])
  else none

/-- The code point whose further bytes lie in the given ranges, if they all come,
and the bytes after those that came. -/
def readTail (bits : Nat) : List (Nat × Nat) → List UInt8 → Option Nat × List UInt8
  | [], bytes => (some bits, bytes)
  | _ :: _, [] => (none, [])
  | (low, high) :: ranges, b :: bytes =>
    if low ≤ b.toNat ∧ b.toNat ≤ high then readTail (bits * 64 + (b.toNat - 0x80)) ranges bytes
    else (none, b :: bytes)

theorem length_readTail_le (bits : Nat) (ranges : List (Nat × Nat)) (bytes : List UInt8) :
    (readTail bits ranges bytes).2.length ≤ bytes.length := by
  fun_induction readTail bits ranges bytes with
  | case1 => exact Nat.le_refl _
  | case2 => exact Nat.le_refl _
  | case3 _ _ _ _ _ _ _ ih => exact Nat.le_succ_of_le ih
  | case4 => exact Nat.le_refl _

/-- The characters of some bytes; nothing stands for a malformed part. -/
def characters (bytes : List UInt8) : List (Option Char) :=
  match bytes with
  | [] => []
  | b :: rest =>
    if b.toNat < 0x80 then some (Char.ofNat b.toNat) :: characters rest
    else
      match leadByte? b.toNat with
      | none => none :: characters rest
      | some (bits, ranges) =>
        have := length_readTail_le bits ranges rest
        (readTail bits ranges rest).1.map Char.ofNat ::
          characters (readTail bits ranges rest).2
termination_by bytes.length

/-- The text of well-formed bytes. -/
def decode? (bytes : List UInt8) : Option String :=
  let cs := characters bytes
  if cs.all Option.isSome then some (String.ofList (cs.filterMap id)) else none

/-- The text of any bytes, with a replacement character for each malformed part. -/
def decodeLossy (bytes : List UInt8) : String :=
  String.ofList ((characters bytes).map fun c => c.getD '\uFFFD')

def encode (text : String) : List UInt8 := text.toList.flatMap String.utf8EncodeChar

end ElementWrappers.Text
