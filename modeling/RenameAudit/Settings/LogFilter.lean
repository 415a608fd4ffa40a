import RenameAudit.Settings.Basic
import RenameAudit.Settings.FieldMatch
import RenameAudit.Text.Alphanumeric
import RenameAudit.Text.Blank
import RenameAudit.Text.Digits
import RenameAudit.Text.Split
/-!
# Settings.LogFilter — what is logged

A filter is a list of directives with commas between them.  A directive gives a level to all of the log or to one target,
and may be limited to a span and to fields:

    level        target        target=level        target[span{field=value}]=level

A target without level is logged whole.  A filter is refused as a whole when one of its directives is none.
-/
namespace RenameAudit

/-- How much is logged, from nothing to everything. -/
inductive LogLevel where
  | off | error | warn | info | debug | trace
  deriving DecidableEq, Repr

namespace LogLevel

/-- The name of a level. -/
def name : LogLevel → String
  | off => "off"
  | error => "error"
  | warn => "warn"
  | info => "info"
  | debug => "debug"
  | trace => "trace"

/-- All levels; the place of a level is its number. -/
def all : List LogLevel :=
  [off, error, warn, info, debug, trace]

/-- The level of a name in any case, or of a number, which may have a plus sign. -/
def parse (text : List Char) : Option LogLevel :=
  let digits := match text with
    | '+' :: rest => rest
    | cs => cs
  match Text.number? all.length digits with
  | some n => all[n]?
  | none => all.find? fun l => l.name.toList == text.map Char.toLower

end LogLevel

/-- One directive of a filter. -/
structure LogDirective where
  target : Option String
  span : Option String
  fields : List FieldMatch
  level : LogLevel
  deriving DecidableEq, Repr

namespace LogDirective

/-- The directive for all of the log. -/
def ofLevel (level : LogLevel) : LogDirective :=
  ⟨none, none, [], level⟩

/-- The text of a directive. -/
def text (d : LogDirective) : String :=
  let fields := if d.fields.isEmpty then "" else "\x7b" ++ ",".intercalate (d.fields.map (·.text)) ++ "\x7d"
  let span := if d.span.isNone && d.fields.isEmpty then "" else "[" ++ d.span.getD "" ++ fields ++ "]"
  let place := d.target.getD "" ++ span
  if d.target.isNone && span = "" then d.level.name else place ++ "=" ++ d.level.name

/-! ## Order -/

/-- What makes a directive specific: the length of its target, whether it names a span, and the number of its fields. -/
def specificity (d : LogDirective) : Option Nat × Nat × Nat :=
  (d.target.map (·.utf8ByteSize), d.span.toList.length, d.fields.length)

/-- The order of lists of fields, by the first two that differ. -/
def fieldOrder : List FieldMatch → List FieldMatch → Ordering
  | [], [] => .eq
  | [], _ :: _ => .lt
  | _ :: _, [] => .gt
  | f :: fs, g :: gs => (f.order g).then (fieldOrder fs gs)

/-- The order of directives, the most specific first. -/
def order (d e : LogDirective) : Ordering :=
  let (target, span, fields) := d.specificity
  let (target', span', fields') := e.specificity
  let specific := (compare target target').then ((compare span span').then (compare fields fields'))
  let equal := ((compare d.target e.target).then (compare d.span e.span)).then (fieldOrder d.fields e.fields)
  (specific.then equal).swap

/-- A directive put in its place among others; it replaces one of the same target, span and fields. -/
def insert (d : LogDirective) : List LogDirective → List LogDirective
  | [] => [d]
  | e :: rest =>
    match order d e with
    | .lt => d :: e :: rest
    | .eq => d :: rest
    | .gt => e :: insert d rest

/-! ## Reading -/

/-- Where the reading of a directive has come to; a number is the place where the current part begins. -/
inductive Stage where
  | start
  | name (begin : Nat)
  | span (begin : Nat)
  | field (begin : Nat)
  | fields
  | target
  | level (begin : Nat)
  deriving DecidableEq, Repr

/-- Whether a directive may begin with a character: with a letter or a number of any script, or with one of three signs. -/
def mayOpen (c : Char) : Bool :=
  c == '-' || c == ':' || c == '_' || Text.isAlphanumeric c

/-- The text between two places, where no character is cut. -/
def between (text : String) (first last : Nat) : Option String :=
  String.fromUTF8? (text.toUTF8.extract first last)

/-- A directive after one more character, which stands at a place. -/
def step (text : String) (i : Nat) (c : Char) : LogDirective × Stage → Option (LogDirective × Stage)
  | (d, .start) =>
    if c = '[' then some (d, .span (i + 1)) else if mayOpen c then some (d, .name i) else none
  | (d, .name begin) =>
    if c = '=' then (between text begin i).map fun name => ({ d with target := some name }, .level (i + 1))
    else if c = '[' then (between text begin i).map fun name => ({ d with target := some name }, .span (i + 1))
    else some (d, .name begin)
  | (d, .target) => if c = '=' then some (d, .level (i + 1)) else none
  | (d, .span begin) =>
    if c = ']' then (between text begin i).map fun span => ({ d with span := some span }, .target)
    else if c = '\x7b' then
      (between text begin i).map fun span => ({ d with span := if span = "" then none else some span }, .field (i + 1))
    else some (d, .span begin)
  | (d, .field begin) =>
    if c = '\x7d' then
      (between text begin i).bind fun field =>
        if field = "" then none
        else (FieldMatch.parse field.toList).map fun field => ({ d with fields := d.fields ++ [field] }, .fields)
    else some (d, .field begin)
  | (d, .fields) => if c = ']' then some (d, .target) else none
  | (d, .level begin) => some (d, .level begin)

/-- A directive after more characters, of which the first stands at a place.  A character takes as many places as octets. -/
def read (text : String) (i : Nat) (s : LogDirective × Stage) : List Char → Option (LogDirective × Stage)
  | [] => some s
  | c :: cs => (step text i c s).bind fun s => read text (i + c.utf8Size) s cs

/-- A directive when its text is at its end. -/
def finish (text : String) : LogDirective × Stage → Option LogDirective
  | (d, .name begin) =>
    (between text begin text.utf8ByteSize).map fun name =>
      match LogLevel.parse name.toList with
      | some level => { d with target := none, level }
      | none => { d with target := some name }
  | (d, .level begin) =>
    (between text begin text.utf8ByteSize).bind fun name =>
      if name = "" then some d else (LogLevel.parse name.toList).map fun level => { d with level }
  | (d, .target) => some d
  | _ => none

/-- The directive of a text.  White space at the ends is no part of what is read, but places are counted in the whole
text, so that white space at the start belongs to the first part and white space at the end to the last. -/
def parse (text : List Char) : Option LogDirective :=
  (read (String.ofList text) 0 (ofLevel .trace, .start) (Text.trim text)).bind (finish (String.ofList text))

end LogDirective

namespace LogFilter

/-- Whether a directive applies to every span. -/
def isStatic (d : LogDirective) : Bool :=
  d.span.isNone && d.fields.all (·.value.isNone)

/-- Whether a directive has to be tested in each span. -/
def isDynamic (d : LogDirective) : Bool :=
  d.span.isSome || !d.fields.isEmpty

/-- Directives in their order, of which a later one replaces an earlier one for the same part of the log. -/
def ordered (directives : List LogDirective) : List LogDirective :=
  directives.foldl (fun kept d => d.insert kept) []

/-- The directives of a filter, first those that apply to every span. -/
def arranged (directives : List LogDirective) : List LogDirective :=
  let (dynamic, plain) := directives.partition isDynamic
  ordered (plain ++ dynamic.filter isStatic) ++ ordered dynamic

/-- The filter of a text. -/
def parse (text : List Char) : Option (List LogDirective) :=
  (((Text.splitOn ',' text).filter (!·.isEmpty)).mapM LogDirective.parse).map arranged

/-- The text of a filter. -/
def text (filter : List LogDirective) : String :=
  ",".intercalate (filter.map (·.text))

end LogFilter

namespace LogSettings

/-- The level setting as a filter: the name of a level in any case, where `warning` stands for `warn` and nothing for
`info`, or else directives. -/
def filterText (s : LogSettings) : List Char :=
  let text := Text.trim s.level.toList
  let lower := text.map Char.toLower
  if text.isEmpty then "info".toList
  else if lower = "warning".toList then "warn".toList
  else if ["trace", "debug", "info", "warn", "error"].any (·.toList == lower) then lower
  else text

/-- What is logged by the level setting alone: `info` where it is no filter. -/
def ownFilter (s : LogSettings) : List LogDirective :=
  (LogFilter.parse s.filterText).getD [.ofLevel .info]

/-- What is logged when the surroundings ask for a filter too.  It comes after that of the level setting; where the two
together are no filter, it stands alone, and where it is none, it does not count. -/
def filter (s : LogSettings) (asked : Option String) : List LogDirective :=
  let asked := Text.trim (asked.getD "").toList
  if asked.isEmpty then s.ownFilter
  else ((LogFilter.parse (s.filterText ++ ',' :: asked)).or (LogFilter.parse asked)).getD s.ownFilter

end LogSettings
end RenameAudit
