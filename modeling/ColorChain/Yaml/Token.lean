import ColorChain.Text.Utf8

/-!
# Tokens of a YAML text
-/

namespace ColorChain.Yaml

/-- The tokens of a text. The starts and ends of block collections stand for changes of
indentation; the end of the list of tokens is the end of the text. -/
inductive Token where
  | version (major minor : Nat)
  | handle (name : List Char) (expansion : Text.Bytes)
  | documentStart
  | documentEnd
  | blockSequence
  | blockMapping
  | blockEnd
  | flowSequence
  | flowSequenceEnd
  | flowMapping
  | flowMappingEnd
  | item
  | comma
  | key
  | value
  | aliasOf (name : List Char)
  | anchor (name : List Char)
  | tag (handle : List Char) (suffix : Text.Bytes)
  | scalar (plain : Bool) (text : List Char)
deriving DecidableEq, Repr

end ColorChain.Yaml
