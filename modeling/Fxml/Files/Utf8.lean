import Fxml.Text.CharClass

/-! Bytes as text: the UTF-8 encoding, with reports of what is wrong. -/

namespace Fxml.Utf8

inductive Reason where
  | invalidStart
  | invalidContinuation
  | unexpectedEnd
deriving DecidableEq

def Reason.text : Reason → String
  | invalidStart => "invalid start byte"
  | invalidContinuation => "invalid continuation byte"
  | unexpectedEnd => "unexpected end of data"

/-- A sequence that is no character: where it starts, its first byte, and how many bytes of it were
right so far.
-/
structure Error where
  start : Nat
  first : UInt8
  length : Nat
  reason : Reason
deriving DecidableEq

def Error.message (e : Error) : String :=
  let place :=
    if e.length = 1 then
      "byte 0x" ++ String.ofList (Text.hexDigits 2 e.first.toNat) ++ " in position "
        ++ toString e.start
    else "bytes in position " ++ toString e.start ++ "-" ++ toString (e.start + e.length - 1)
  "'utf-8' codec can't decode " ++ place ++ ": " ++ e.reason.text

/-- A character under way: how many bytes are missing, between which bounds the next one lies, and
the value of the bits so far.
-/
structure Pending where
  start : Nat
  first : UInt8
  seen : Nat
  missing : Nat
  low : Nat
  high : Nat
  value : Nat

def lead? (pos : Nat) (b : UInt8) : Option Pending :=
  let n := b.toNat
  let more (missing low high value : Nat) : Option Pending :=
    some ⟨pos, b, 1, missing, low, high, value⟩
  if n < 0xC2 then none
  else if n < 0xE0 then more 1 0x80 0xBF (n - 0xC0)
  else if n < 0xF0 then
    more 2 (if n = 0xE0 then 0xA0 else 0x80) (if n = 0xED then 0x9F else 0xBF) (n - 0xE0)
  else if n < 0xF5 then
    more 3 (if n = 0xF0 then 0x90 else 0x80) (if n = 0xF4 then 0x8F else 0xBF) (n - 0xF0)
  else none

/-- Decodes bytes from a position on; `pending` is the character under way. -/
def decodeFrom (pos : Nat) (pending : Option Pending) : List UInt8 → Except Error (List Char)
  | [] =>
    match pending with
    | none => .ok []
    | some p => .error ⟨p.start, p.first, p.seen, .unexpectedEnd⟩
  | b :: rest =>
    match pending with
    | none =>
      if b.toNat < 0x80 then
        (decodeFrom (pos + 1) none rest).map (Char.ofNat b.toNat :: ·)
      else
        match lead? pos b with
        | some p => decodeFrom (pos + 1) (some p) rest
        | none => .error ⟨pos, b, 1, .invalidStart⟩
    | some p =>
      if p.low ≤ b.toNat && b.toNat ≤ p.high then
        let value := p.value * 64 + b.toNat % 64
        if p.missing ≤ 1 then
          (decodeFrom (pos + 1) none rest).map (Char.ofNat value :: ·)
        else
          let next := { p with
            seen := p.seen + 1, missing := p.missing - 1, low := 0x80, high := 0xBF, value }
          decodeFrom (pos + 1) (some next) rest
      else .error ⟨p.start, p.first, p.seen, .invalidContinuation⟩

def decode (bytes : List UInt8) : Except Error String :=
  (decodeFrom 0 none bytes).map String.ofList

def encode (text : String) : List UInt8 := text.toUTF8.toList

end Fxml.Utf8
