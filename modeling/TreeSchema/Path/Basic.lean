import TreeSchema.Number.Numeral
import TreeSchema.Text.Quoted

/-!
# Paths

A path leads from the root of a tree to one of its parts: a key at each mapping,
an index at each sequence. It is written as `$` and its steps: `.key` where the
key is an identifier, `["key"]` with the key quoted where it is not, and `[3]`
for an index.
-/

namespace TreeSchema

/-- A step from a tree to one of its direct parts. -/
inductive Step where
  | key (name : String)
  | index (position : Nat)
deriving DecidableEq

/-- The steps from a root to a part. -/
abbrev Path := List Step

namespace Path

/-- A letter, digit, underscore or dollar sign. -/
def isWordChar (c : Char) : Bool :=
  c.isAlphanum || c == '_' || c == '$'

/-- The key is a word that does not begin with a digit, and so needs no quotes. -/
def isIdentifier (key : String) : Bool :=
  match key.toList with
  | [] => false
  | c :: cs => (isWordChar c && !c.isDigit) && cs.all isWordChar

end Path

/-- The text of a step, as characters. -/
def Step.chars : Step → List Char
  | key name =>
    if Path.isIdentifier name then '.' :: name.toList
    else '[' :: Text.quotedChars name.toList ++ [']']
  | index position => '[' :: Numeral.digits position ++ [']']

def Step.text (step : Step) : String :=
  .ofList step.chars

namespace Path

/-- The text of a path, as characters. -/
def chars (path : Path) : List Char :=
  '$' :: path.flatMap Step.chars

/-- The text of a path. -/
def text (path : Path) : String :=
  .ofList path.chars

end Path

end TreeSchema
