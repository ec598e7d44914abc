import AggregateRules.Fault
import AggregateRules.Fields
import AggregateRules.Policy.Basic
import AggregateRules.Toml.Parse

/-!
# Policy/Schema — what a document says about the policy

The document knows one section, `aggregate`, and the section one field, `factory_overwrite`, whose
choices are `allow` and `reject`.  Either may be missing.  A table is visited in the order of its
names, and the first thing that is wrong is the fault: so a misspelt section, field or choice never
passes for the default.

Two other spellings are understood.  A section may give its fields by position, as an array; and a
choice may be the one name of a table whose content is empty.
-/

namespace AggregateRules

/-- The choice of a given name. -/
def Overwrite.named (name : String) : Except PolicyFault Overwrite :=
  if name = "allow" then .ok .allow
  else if name = "reject" then .ok .reject
  else .error (.unknownVariant name)

/-- Whether a content is empty, as what stands under a choice must be. -/
def Toml.Value.isEmptyContainer : Toml.Value → Bool
  | .array [] | .table [] => true
  | _ => false

/-- The choice that a content makes. -/
def Overwrite.ofContent : Toml.Value → Except PolicyFault Overwrite
  | .string name => Overwrite.named name
  | .table [(name, inside)] => do
      let choice ← Overwrite.named name
      if inside.isEmptyContainer then return choice else throw .illTyped
  | _ => throw .illTyped

namespace Policy

/-- The name of the one section. -/
def sectionName : String := "aggregate"

/-- The name of the one field. -/
def fieldName : String := "factory_overwrite"

/-- The name under which a date-time appears where named contents are expected. -/
def dateTimeName : String := "$__toml_private_datetime"

/-- Visit one field of the section. -/
def visitField (p : Policy) (field : String × Toml.Value) : Except PolicyFault Policy :=
  if field.1 = fieldName then do return { p with overwrite := ← Overwrite.ofContent field.2 }
  else throw (.unknownField field.1 fieldName)

/-- The policy of a section. -/
def ofSection : Toml.Value → Except PolicyFault Policy
  | .table entries => (Fields.ofPairs entries).foldlM visitField {}
  | .array [] => return {}
  | .array (first :: _) => do return { overwrite := ← Overwrite.ofContent first }
  | .dateTime _ => throw (.unknownField dateTimeName fieldName)
  | _ => throw .illTyped

/-- Visit one entry of the document. -/
def visitSection (_ : Policy) (entry : String × Toml.Value) : Except PolicyFault Policy :=
  if entry.1 = sectionName then ofSection entry.2
  else throw (.unknownField entry.1 sectionName)

/-- The policy of a document. -/
def ofDocument (document : Toml.Document) : Except PolicyFault Policy :=
  (Fields.ofPairs document).foldlM visitSection {}

/-- The policy that a text spells out. -/
def ofText (text : String) : Except PolicyFault Policy :=
  match Toml.parse text with
  | some document => ofDocument document
  | none => .error .malformed

/-- Why a file could not be read, in the words of the system. -/
inductive FileTrouble where
  | notFound
  | isDirectory
  | notText
  deriving DecidableEq

/-- The words. -/
def FileTrouble.reason : FileTrouble → String
  | notFound => "No such file or directory (os error 2)"
  | isDirectory => "Is a directory (os error 21)"
  | notText => "stream did not contain valid UTF-8"

/-- The policy in a file, given what reading the file gave. -/
def ofFile (path : String) : Except FileTrouble ByteArray → Except PolicyFault Policy
  | .error trouble => .error (.unreadable path trouble.reason)
  | .ok bytes =>
      match String.fromUTF8? bytes with
      | some text => ofText text
      | none => .error (.unreadable path FileTrouble.notText.reason)

end Policy

end AggregateRules
