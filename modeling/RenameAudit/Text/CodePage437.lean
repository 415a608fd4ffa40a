import RenameAudit.Bytes
/-!
# Text.CodePage437 — the character set of the first personal computers

The lower half is ASCII.
-/
namespace RenameAudit
namespace CodePage437

/-- The upper half. -/
def upper : List Char :=
  ("ÇüéâäàåçêëèïîìÄÅÉæÆôöòûùÿÖÜ¢£¥₧ƒáíóúñÑªº¿⌐¬½¼¡«»░▒▓│┤╡╢╖╕╣║╗╝╜╛┐└┴┬├─┼╞╟╚╔╩╦╠═╬╧╨╤╥╙╘╒╓╫╪┘┌█▄▌▐▀" ++
    "αßΓπΣσ\u00b5τΦΘΩδ∞φε∩≡±≥≤⌠⌡÷≈°∙\u00b7√ⁿ²■\u00a0").toList

/-- The character of an octet. -/
def charOf (b : UInt8) : Char :=
  if b.toNat < 128 then Char.ofNat b.toNat else upper.getD (b.toNat - 128) ' '

/-- The text of an octet string. -/
def decode (bytes : Bytes) : List Char :=
  bytes.map charOf

end CodePage437
end RenameAudit
