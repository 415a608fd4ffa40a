import RenameAudit.Text.Digits
import RenameAudit.Text.Split
/-!
# Naming.Rules — conventions of the new names

A placeholder name is a prefix and a number; the number identifies the member until someone names it.  The rules have
the prefixes of placeholders for methods and fields, the mark of classes that are yet to be named, and the exceptions
that the class naming check makes.
-/
namespace RenameAudit

-- Powers of numbers are those of the core library, whatever else is imported.
attribute [local instance (high)] instPowNat

/-- Conventions of the new names. -/
structure NamingRules where
  methodPrefixes : List String
  fieldPrefixes : List String
  unnamedMarker : String
  fakeInterfaces : List String
  underscoreExempt : List String
  deriving DecidableEq, Repr

namespace NamingRules

/-- The conventions that hold where nothing else is said. -/
def default : NamingRules where
  methodPrefixes := ["func_", "m_"]
  fieldPrefixes := ["field_", "f_"]
  unnamedMarker := "C_"
  fakeInterfaces := ["IPBanList", "IPBanEntry", "IOWorker"]
  underscoreExempt := ["net/minecraft/util/datafix/versions/"]

/-- The number of a placeholder name: the digits between the first prefix that fits and the next underscore, as a number
of 64 bits. -/
def placeholderId? (prefixes : List String) (name : String) : Option Nat :=
  (prefixes.findSome? fun p => Text.after? p.toList name.toList).bind fun rest =>
    Text.number? (2 ^ (64 : Nat)) (rest.takeWhile (· != '_'))

/-- The number of a method's placeholder name. -/
def methodId? (r : NamingRules) (name : String) : Option Nat :=
  placeholderId? r.methodPrefixes name

/-- The number of a field's placeholder name. -/
def fieldId? (r : NamingRules) (name : String) : Option Nat :=
  placeholderId? r.fieldPrefixes name

/-- Whether a method's name begins as a placeholder does. -/
def isMethodPlaceholder (r : NamingRules) (name : String) : Bool :=
  r.methodPrefixes.any fun p => Text.startsWith p name.toList

end NamingRules
end RenameAudit
