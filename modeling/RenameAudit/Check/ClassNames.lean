import RenameAudit.Check.Context
import RenameAudit.Text.Upper
/-!
# Check.ClassNames — rules for the new names of classes

A renamed class keeps its depth of nesting and its outer class.  Interfaces, apart from annotations, begin with `I`, and
other classes do not look as if they were interfaces; enumerations do not begin with `Enum`; underscores are left to
exempt packages and to the mark of unnamed classes, which is a problem itself; and subclasses of listed types have the
listed suffix.  Classes with a number for a name and classes that keep their names have to meet the first two rules only.
-/
namespace RenameAudit
namespace ClassNames

open Std

/-- The last part of a class name: after the package and after the outer classes. -/
def simpleName (name : String) : List Char :=
  let inPackage := match Text.splitLast? '/' name.toList with
    | some (_, last) => last
    | none => name.toList
  match Text.splitLast? '$' inPackage with
  | some (_, last) => last
  | none => inPackage

/-- Whether a name is a number, as those of anonymous classes are. -/
def isNumber (cs : List Char) : Bool :=
  !cs.isEmpty && cs.all Text.isDigit

/-- Whether a name begins with `I` and a capital letter. -/
def looksLikeInterface : List Char → Bool
  | 'I' :: c :: _ => Text.isUpper c
  | _ => false

/-- The problem with the nesting of a renamed class. -/
def nestingProblems (t : RenameTable) (old mapped : String) : List String :=
  if old.toList.count '$' ≠ mapped.toList.count '$' then ["Inner"]
  else
    match Text.splitLast? '$' old.toList, Text.splitLast? '$' mapped.toList with
    | some (originalOuter, _), some (outer, _) =>
      let expected := t.mapClassChars originalOuter
      if String.ofList outer = expected then [] else ["Parent: " ++ expected]
    | _, _ => []

/-- The problem with an underscore or the mark of unnamed classes. -/
def hasUnderscore (rules : NamingRules) (mapped : String) (simple : List Char) : Bool :=
  let exempt := rules.underscoreExempt.any fun p => Text.startsWith p mapped.toList
  (simple.contains '_' && !exempt) ||
    (rules.unnamedMarker != "" && Text.containsText rules.unnamedMarker.toList simple)

/-- The suffix that the name of a class must have: that of the first listed type among its ancestors. -/
def requiredSuffix? (ctx : CheckContext) (suffixes : SuffixTable) (name : String) : Option String :=
  let ancestors := (ctx.dir.ancestors name).map ctx.table.mapClass
  (suffixes.entries.find? fun (ancestor, _) => ancestors.contains ancestor).map (·.2)

/-- The problem with a suffix. -/
def suffixProblems (ctx : CheckContext) (name : String) (simple : List Char) : List String :=
  match ctx.suffixes.bind fun suffixes => requiredSuffix? ctx suffixes name with
  | some suffix => if suffix.toList.isSuffixOf simple then [] else ["Suffix: " ++ suffix]
  | none => []

/-- The problems with the last part of a new name. -/
def simpleNameProblems (ctx : CheckContext) (name mapped : String) (simple : List Char) : List String :=
  let access := ctx.dir.accessOf name
  let isInterface := Access.isInterface access
  let text := String.ofList simple
  (if isInterface && !Access.isAnnotation access && !Text.startsWith "I" simple then ["Interface"] else []) ++
  (if !isInterface && looksLikeInterface simple && !ctx.naming.fakeInterfaces.contains text then ["Fake Interface"]
    else []) ++
  (if Access.isEnum access && Text.startsWith "Enum" simple then ["Enum"] else []) ++
  (if hasUnderscore ctx.naming mapped simple then ["Underscore"] else []) ++
  suffixProblems ctx name simple

/-- The problems with the new name of a class. -/
def problems (ctx : CheckContext) (name : String) : List String :=
  let mapped := ctx.table.mapClass name
  let simple := simpleName mapped
  nestingProblems ctx.table name mapped ++
    if isNumber simple || name == mapped then [] else simpleNameProblems ctx name mapped simple

/-- The findings for the classes under audit. -/
def findings (ctx : CheckContext) : List Finding :=
  Finding.sorted (ctx.dir.owned.filterMap fun name =>
    match problems ctx name with
    | [] => none
    | ps => some (.misnamedClass (ctx.table.mapClass name) ps))

/-- The findings for classes whose entries still have the mark of unnamed classes, each once. -/
def unnamedFindings (ctx : CheckContext) : List Finding :=
  let marker := ctx.naming.unnamedMarker
  if marker = "" then []
  else
    let names := (ctx.table.classEntries.map (·.2)).filter fun mapped =>
      Text.containsText marker.toList mapped.toList
    (ExtTreeSet.ofList names : ExtTreeSet String).toList.map .unnamedClass

end ClassNames
end RenameAudit
