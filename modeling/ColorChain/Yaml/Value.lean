/-!
# Values

What a YAML document says, free of how it is laid out: its scalars have types and its aliases are
replaced by what they stand for.
-/

namespace ColorChain.Yaml

inductive Value where
  | null
  | boolean (b : Bool)
  | integer (n : Int)
  | floating (x : Float)
  | string (s : String)
  | sequence (items : List Value)
  | mapping (entries : List (Value × Value))
  /-- A value with a local tag. -/
  | tagged (tag : String) (content : Value)
deriving Repr, Inhabited

namespace Value

mutual

/-- Whether two values are the same key. Any two NaNs are, and the order of entries does not
count. -/
def same : Value → Value → Bool
  | null, null => true
  | boolean b, boolean c => b == c
  | integer m, integer n => m == n
  | floating x, floating y => x == y || (x.isNaN && y.isNaN)
  | string s, string t => s == t
  | sequence xs, sequence ys => sameAll xs ys
  | mapping xs, mapping ys => xs.length == ys.length && allIn xs ys
  | tagged s x, tagged t y => s == t && same x y
  | _, _ => false

def sameAll : List Value → List Value → Bool
  | [], [] => true
  | x :: xs, y :: ys => same x y && sameAll xs ys
  | _, _ => false

/-- Whether every entry of the first mapping is one of the second. -/
def allIn : List (Value × Value) → List (Value × Value) → Bool
  | [], _ => true
  | (key, value) :: xs, ys => ys.any (fun y => same key y.1 && same value y.2) && allIn xs ys

end

/-- Whether no key occurs twice. -/
def distinctKeys : List (Value × Value) → Bool
  | [] => true
  | (key, _) :: rest => !rest.any (fun entry => same key entry.1) && distinctKeys rest

/-- The value without the tag it may have. -/
def untag : Value → Value
  | tagged _ content => content
  | value => value

end Value

end ColorChain.Yaml
