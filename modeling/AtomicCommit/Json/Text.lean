import AtomicCommit.Json.Fault
import AtomicCommit.Text.Utf8

/-! Strings of JSON texts: reading with and without checking, and writing. -/

namespace AtomicCommit.Json

open Utf8 (byte)

def quoteMark : UInt8 := 0x22
def escapeMark : UInt8 := 0x5C
def unicodeMark : UInt8 := 0x75

def hexDigit (b : UInt8) : Option Nat :=
  if 0x30 ≤ b ∧ b ≤ 0x39 then some (b.toNat - 0x30)
  else if 0x61 ≤ b ∧ b ≤ 0x66 then some (b.toNat - 0x57)
  else if 0x41 ≤ b ∧ b ≤ 0x46 then some (b.toNat - 0x37)
  else none

def hexUnit (a b c d : UInt8) : Option Nat := do
  return (← hexDigit a) * 0x1000 + (← hexDigit b) * 0x100 + (← hexDigit c) * 0x10 + (← hexDigit d)

def shortEscape (b : UInt8) : Option UInt8 :=
  if b = 0x22 ∨ b = 0x5C ∨ b = 0x2F then some b
  else if b = 0x62 then some 0x08
  else if b = 0x66 then some 0x0C
  else if b = 0x6E then some 0x0A
  else if b = 0x72 then some 0x0D
  else if b = 0x74 then some 0x09
  else none

def isHighSurrogate (unit : Nat) : Bool := decide (0xD800 ≤ unit ∧ unit ≤ 0xDBFF)

def isLowSurrogate (unit : Nat) : Bool := decide (0xDC00 ≤ unit ∧ unit ≤ 0xDFFF)

def paired (high low : Nat) : Char :=
  Char.ofNat (0x10000 + (high - 0xD800) * 0x400 + (low - 0xDC00))

def escape : Bytes → Except Fault (Bytes × Nat)
  | [] => .error .endInString
  | mark :: rest =>
    if mark = unicodeMark then
      match rest with
      | a :: b :: c :: d :: rest =>
        match hexUnit a b c d with
        | none => .error .badEscape
        | some unit =>
          if isLowSurrogate unit then .error .loneSurrogate
          else if isHighSurrogate unit then
            match rest with
            | [] => .error .endInString
            | [e] => .error (if e = escapeMark then .endInString else .unpairedSurrogate)
            | e :: u :: rest =>
              if e ≠ escapeMark ∨ u ≠ unicodeMark then .error .unpairedSurrogate
              else match rest with
                | a :: b :: c :: d :: _ =>
                  match hexUnit a b c d with
                  | none => .error .badEscape
                  | some low =>
                    if isLowSurrogate low then .ok (Utf8.encodeChar (paired unit low), 11)
                    else .error .loneSurrogate
                | _ => .error .endInString
          else .ok (Utf8.encodeChar (Char.ofNat unit), 5)
      | _ => .error .endInString
    else match shortEscape mark with
      | some b => .ok ([b], 1)
      | none => .error .badEscape

/-- The unescaped bytes up to the closing quote and what follows it, after `owed` bytes are passed
by as part of an escape. -/
def stringBytes : Nat → Bytes → Except Fault (Bytes × Bytes)
  | _, [] => .error .endInString
  | owed + 1, _ :: rest => stringBytes owed rest
  | 0, b :: rest =>
    if b = quoteMark then .ok ([], rest)
    else if b = escapeMark then
      match escape rest with
      | .error fault => .error fault
      | .ok (meant, length) =>
        (stringBytes length rest).map fun (bytes, rest) => (meant ++ bytes, rest)
    else if b < 0x20 then .error .controlInString
    else (stringBytes 0 rest).map fun (bytes, rest) => (b :: bytes, rest)

def readString (input : Bytes) : Except Fault (String × Bytes) :=
  match stringBytes 0 input with
  | .error fault => .error fault
  | .ok (bytes, rest) =>
    match Utf8.decode? bytes with
    | some text => .ok (text, rest)
    | none => .error .notUnicode

/-- How many bytes an escape takes in a string that nobody reads: its letter and digits are
checked, what they stand for is not. -/
def skippedEscape : Bytes → Except Fault Nat
  | [] => .error .endInString
  | mark :: rest =>
    if mark = unicodeMark then
      match rest with
      | a :: b :: c :: d :: _ => if (hexUnit a b c d).isSome then .ok 5 else .error .badEscape
      | _ => .error .endInString
    else if (shortEscape mark).isSome then .ok 1
    else .error .badEscape

def skipStringAfter : Nat → Bytes → Except Fault Bytes
  | _, [] => .error .endInString
  | owed + 1, _ :: rest => skipStringAfter owed rest
  | 0, b :: rest =>
    if b = quoteMark then .ok rest
    else if b = escapeMark then
      match skippedEscape rest with
      | .error fault => .error fault
      | .ok length => skipStringAfter length rest
    else if b < 0x20 then .error .controlInString
    else skipStringAfter 0 rest

def skipString (input : Bytes) : Except Fault Bytes := skipStringAfter 0 input

def escapedChar (c : Char) : List Char :=
  if c = '"' ∨ c = '\\' then ['\\', c]
  else if c = '\x08' then ['\\', 'b']
  else if c = '\x0c' then ['\\', 'f']
  else if c = '\n' then ['\\', 'n']
  else if c = '\r' then ['\\', 'r']
  else if c = '\t' then ['\\', 't']
  else if c.toNat < 0x20 then
    ['\\', 'u', '0', '0', Nat.digitChar (c.toNat / 16), Nat.digitChar (c.toNat % 16)]
  else [c]

def writeString (text : String) : List Char :=
  ['"'] ++ text.toList.flatMap escapedChar ++ ['"']

end AtomicCommit.Json
