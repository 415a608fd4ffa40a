import RenameAudit.Bytes
/-!
# Text.Utf8 — text from octets that may not be well-formed

A character is one octet below `80`, or a leading octet with one, two or three continuations (`80`–`BF`).  The second
octet is limited further after some leading octets, so that no character is longer than it need be and none is beyond
the last one or a surrogate.  Octets that begin a character but do not complete it stand together for one replacement
character, and so does each octet that begins none.
-/
namespace RenameAudit
namespace Utf8

/-- The character in the place of octets that write none. -/
def replacement : Char := '\ufffd'

/-- Whether an octet lies between two others. -/
def isWithin (first last : Nat) (b : UInt8) : Bool :=
  first ≤ b.toNat && b.toNat ≤ last

/-- Whether an octet continues a character. -/
def isContinuation (b : UInt8) : Bool :=
  isWithin 0x80 0xBF b

/-- Whether an octet may follow a leading octet. -/
def mayFollow (lead b : UInt8) : Bool :=
  match lead.toNat with
  | 0xE0 => isWithin 0xA0 0xBF b
  | 0xED => isWithin 0x80 0x9F b
  | 0xF0 => isWithin 0x90 0xBF b
  | 0xF4 => isWithin 0x80 0x8F b
  | _ => isContinuation b

/-- The character that payloads of six bits write after the payload of a leading octet. -/
def charOf (lead : Nat) (continuations : List UInt8) : Char :=
  Char.ofNat (continuations.foldl (fun n b => n * 64 + b.toNat % 64) lead)

/-- The text of an octet string. -/
def decodeReplacing : Bytes → List Char
  | [] => []
  | a :: rest =>
    if a.toNat < 0x80 then Char.ofNat a.toNat :: decodeReplacing rest
    else if isWithin 0xC2 0xF4 a then
      match rest with
      | [] => [replacement]
      | b :: rest' =>
        if !mayFollow a b then replacement :: decodeReplacing (b :: rest')
        else if a.toNat < 0xE0 then charOf (a.toNat % 32) [b] :: decodeReplacing rest'
        else
          match rest' with
          | [] => [replacement]
          | c :: rest'' =>
            if !isContinuation c then replacement :: decodeReplacing (c :: rest'')
            else if a.toNat < 0xF0 then charOf (a.toNat % 16) [b, c] :: decodeReplacing rest''
            else
              match rest'' with
              | [] => [replacement]
              | d :: rest''' =>
                if !isContinuation d then replacement :: decodeReplacing (d :: rest''')
                else charOf (a.toNat % 8) [b, c, d] :: decodeReplacing rest'''
    else replacement :: decodeReplacing rest
termination_by b => b.length

/-- The text of an octet string that is well-formed. -/
def decode? (bytes : ByteArray) : Option String :=
  String.fromUTF8? bytes

end Utf8
end RenameAudit
