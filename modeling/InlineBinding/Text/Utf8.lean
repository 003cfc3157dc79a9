import InlineBinding.Text.Basic

/-!
# UTF-8

Decoding tells where the first malformed sequence starts and what is wrong with it. The first
byte of a sequence fixes its length and the bounds of its second byte, which keep out overlong
forms, surrogates and code points past the last one.
-/
namespace InlineBinding.Text

abbrev Bytes := List UInt8

namespace Utf8

inductive Fault where
  | start
  | continuation
  | truncated
  deriving DecidableEq

/-- `offset` counts the bytes before the malformed sequence, `byte` is its first one. -/
structure Malformed where
  byte : UInt8
  offset : Nat
  fault : Fault
  deriving DecidableEq

def Fault.reason : Fault → Text
  | start => "invalid start byte".toList
  | continuation => "invalid continuation byte".toList
  | truncated => "unexpected end of data".toList

def Malformed.message (m : Malformed) : Text :=
  "'utf-8' codec can't decode byte 0x".toList ++ (Nat.toDigits 16 m.byte.toNat).leftpad 2 '0' ++
    " in position ".toList ++ digits m.offset ++ ": ".toList ++ m.fault.reason

/-- Number of continuation bytes, bounds of the first of them, and the bits of the lead byte. -/
structure Lead where
  more : Nat
  low : Nat
  high : Nat
  bits : Nat

def lead? (b : Nat) : Option Lead :=
  if b < 0x80 then some ⟨0, 0, 0, b⟩
  else if b < 0xc2 then none
  else if b < 0xe0 then some ⟨1, 0x80, 0xbf, b - 0xc0⟩
  else if b = 0xe0 then some ⟨2, 0xa0, 0xbf, 0⟩
  else if b = 0xed then some ⟨2, 0x80, 0x9f, 0xd⟩
  else if b < 0xf0 then some ⟨2, 0x80, 0xbf, b - 0xe0⟩
  else if b = 0xf0 then some ⟨3, 0x90, 0xbf, 0⟩
  else if b < 0xf4 then some ⟨3, 0x80, 0xbf, b - 0xf0⟩
  else if b = 0xf4 then some ⟨3, 0x80, 0x8f, 4⟩
  else none

/-- Reads `more` continuation bytes, the first between the given bounds. -/
def tail : (more low high bits : Nat) → Bytes → Except Fault Nat
  | 0, _, _, bits, _ => .ok bits
  | _ + 1, _, _, _, [] => .error .truncated
  | more + 1, low, high, bits, b :: rest =>
    if low ≤ b.toNat && b.toNat ≤ high then
      tail more 0x80 0xbf (bits * 64 + (b.toNat - 0x80)) rest
    else .error .continuation

def decodeFrom : (offset skip : Nat) → Bytes → Except Malformed Text
  | _, _, [] => .ok []
  | offset, 0, b :: rest =>
    match lead? b.toNat with
    | none => .error ⟨b, offset, .start⟩
    | some l =>
      match tail l.more l.low l.high l.bits rest with
      | .error fault => .error ⟨b, offset, fault⟩
      | .ok code => (Char.ofNat code :: ·) <$> decodeFrom (offset + 1) l.more rest
  | offset, skip + 1, _ :: rest => decodeFrom (offset + 1) skip rest

def decode (bytes : Bytes) : Except Malformed Text := decodeFrom 0 0 bytes

def encode (s : Text) : Bytes := s.flatMap String.utf8EncodeChar

@[simp] theorem decode_nil : decode [] = .ok [] := rfl

@[simp] theorem encode_nil : encode [] = [] := rfl

end Utf8

/-- Line ends of all three kinds become a line feed. -/
def unifyLines : Text → Text
  | '\r' :: '\n' :: s => '\n' :: unifyLines s
  | '\r' :: s => '\n' :: unifyLines s
  | c :: s => c :: unifyLines s
  | [] => []

end InlineBinding.Text
