import TreeSchema.Path.Basic
import TreeSchema.Value.Basic

/-!
# Errors in schema sources

What can be wrong with a source, where it is wrong, and how that is said.
-/

namespace TreeSchema

/-- The words that may head a directive. -/
inductive Directive where
  | enum | tuple | array | dictionary | oneof | ref | optional
deriving DecidableEq

namespace Directive

def name : Directive → String
  | enum => "enum"
  | tuple => "tuple"
  | array => "array"
  | dictionary => "dictionary"
  | oneof => "oneof"
  | ref => "ref"
  | optional => "optional"

def ofName? (s : String) : Option Directive :=
  if s = "enum" then some enum
  else if s = "tuple" then some tuple
  else if s = "array" then some array
  else if s = "dictionary" then some dictionary
  else if s = "oneof" then some oneof
  else if s = "ref" then some ref
  else if s = "optional" then some optional
  else none

/-- The arguments that a directive takes, in words. -/
def arity : Directive → String
  | enum => "at least one member"
  | tuple | array | oneof => "at least one type"
  | dictionary | optional => "exactly one type"
  | ref => "exactly one label"

theorem ofName?_name (d : Directive) : ofName? d.name = some d := by
  cases d <;> rfl

theorem eq_name_of_ofName? {s : String} {d : Directive} (h : ofName? s = some d) :
    s = d.name := by
  unfold ofName? at h
  repeat' split at h
  all_goals simp_all [name]
  all_goals subst h
  all_goals simp_all

end Directive

/-- What is wrong with a source. -/
inductive Fault where
  | invalidRoot (found : Kind)
  | missingSchema
  | invalidVersion
  | invalidLetBlock (found : Kind)
  | unknownType (name : String)
  | unknownDirective (name : String)
  | invalidDirective (found : Kind)
  | emptyDirective
  | invalidArity (directive : Directive) (found : Nat)
  | invalidEnumMember (found : Kind)
  | misplacedOptional
  | invalidReference (found : Kind)
  | undefinedLabel (label : String)
  | unguardedRecursion (label : String)
  | invalidShape (found : Kind)
deriving DecidableEq

def Fault.message : Fault → String
  | invalidRoot found => "schema source must be an object, found " ++ found.name
  | missingSchema => "schema source has no `schema` key"
  | invalidVersion => "`spartan` must be 1"
  | invalidLetBlock found =>
    "`let` must be an object of label definitions, found " ++ found.name
  | unknownType name => "unknown type name " ++ Text.quoted name
  | unknownDirective name => "unknown directive " ++ Text.quoted name
  | invalidDirective found => "directive must be a string, found " ++ found.name
  | emptyDirective => "empty array is not a schema type"
  | invalidArity directive found =>
    "`" ++ directive.name ++ "` expects " ++ directive.arity ++ ", found " ++ Numeral.text found
  | invalidEnumMember found =>
    "enum members must be null, boolean, number or string, found " ++ found.name
  | misplacedOptional => "`optional` is only allowed as the value of an object field"
  | invalidReference found => "`ref` expects a label name, found " ++ found.name
  | undefinedLabel label => "undefined label " ++ Text.quoted label
  | unguardedRecursion label =>
    "label " ++ Text.quoted label ++
      " refers to itself without an enclosing object, array, tuple or dictionary"
  | invalidShape found => found.name ++ " is not a schema type"

/-- A fault and the place in the source that shows it. -/
structure SchemaError where
  fault : Fault
  path : Path
deriving DecidableEq

namespace SchemaError

def text (e : SchemaError) : String :=
  e.fault.message ++ " at " ++ e.path.text

/-- The same error, its path taken from a place in a larger source. -/
def under (base : Path) (e : SchemaError) : SchemaError :=
  { e with path := base ++ e.path }

end SchemaError

end TreeSchema
