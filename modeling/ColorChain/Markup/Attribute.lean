import ColorChain.Markup.Event

/-!
# Attributes

The attributes of a tag, read leniently: what is no attribute is passed over and reading goes on
where one could begin again.
-/

namespace ColorChain.Markup

open Text

def isQuote (b : UInt8) : Bool := b == 0x22 || b == 0x27

/-- The attributes in the bytes of a tag after those with the names `seen`. A name without a value
is passed over, and so is a value without quotes or under a name already seen. A round drops at
least one byte, so `fuel` need not exceed the number of bytes. -/
def attributesWith : Nat → List Bytes → Bytes → List (Bytes × Bytes)
  | 0, _, _ => []
  | fuel + 1, seen, bs =>
    match bs.dropWhile isSpace with
    | [] => []
    | k :: rest =>
      let key := k :: rest.takeWhile fun b => b != 0x3D && !isSpace b
      match (rest.dropWhile fun b => b != 0x3D && !isSpace b).dropWhile isSpace with
      | [] => []
      | 0x3D :: value =>
        let repeated := seen.contains key
        match value.dropWhile isSpace with
        | [] => []
        | quote :: value =>
          if isQuote quote then
            let content := value.takeWhile (· != quote)
            let after := value.dropWhile (· != quote)
            if repeated then attributesWith fuel seen after
            else if after = [] then []
            else (key, content) :: attributesWith fuel (key :: seen) (after.drop 1)
          else
            let seen := if repeated then seen else key :: seen
            attributesWith fuel seen ((quote :: value).dropWhile (!isSpace ·))
      | other => attributesWith fuel seen other

/-- The attributes of a tag in order, each name once. -/
def Tag.attributeList (tag : Tag) : List (Bytes × Bytes) :=
  attributesWith tag.attributes.length [] tag.attributes

/-- The bytes of the attribute with the given name. -/
def Tag.attribute? (tag : Tag) (name : String) : Option Bytes :=
  (tag.attributeList.find? (·.1 = ascii name)).map (·.2)

end ColorChain.Markup
