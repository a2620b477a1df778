import ColorChain.Yaml.Token

/-!
# Nodes

The tree of a document as its tokens give it, with anchors, aliases and tags in place.
-/

namespace ColorChain.Yaml

/-- What stands before the content of a node. The tag is written out in full. -/
structure Properties where
  anchor? : Option (List Char) := none
  tag? : Option Text.Bytes := none
deriving DecidableEq, Repr

/-- A node of a document, its aliases given by `ν`. -/
inductive Node (ν : Type) where
  | aliasOf (target : ν)
  | scalar (properties : Properties) (plain : Bool) (text : List Char)
  | sequence (properties : Properties) (items : List (Node ν))
  | mapping (properties : Properties) (entries : List (Node ν × Node ν))

/-- A node as written, its aliases given by names. -/
abbrev NamedNode := Node (List Char)

/-- The node that is left out. -/
def Node.absent {ν : Type} : Node ν := .scalar {} true []

/-- What the handles of tags stand for. -/
abbrev Handles := List (List Char × Text.Bytes)

/-- The handles that no directive has to explain. -/
def standardHandles : Handles :=
  [(['!'], Text.encode ['!']), (['!', '!'], Text.encodeString "tag:yaml.org,2002:")]

/-- A tag in full, if its handle is known. -/
def fullTag? (handles : Handles) (handle : List Char) (suffix : Text.Bytes) :
    Option Text.Bytes :=
  if handle = [] then some suffix
  else (handles.find? (·.1 = handle)).map fun (_, expansion) => expansion ++ suffix

/-- The properties at the head of the tokens: an anchor and a tag in any order. -/
def properties? (handles : Handles) (ts : List Token) : Option (Properties × List Token) :=
  match ts with
  | .anchor name :: .tag handle suffix :: rest | .tag handle suffix :: .anchor name :: rest =>
    (fullTag? handles handle suffix).map fun tag =>
      ({ anchor? := some name, tag? := some tag }, rest)
  | .anchor name :: rest => some ({ anchor? := some name }, rest)
  | .tag handle suffix :: rest =>
    (fullTag? handles handle suffix).map fun tag => ({ tag? := some tag }, rest)
  | _ => some ({}, ts)

/-- Whether the tokens go on in a block collection without the node that could stand here. -/
def lacksBlockNode : List Token → Bool
  | .key :: _ => true
  | .value :: _ => true
  | .blockEnd :: _ => true
  | _ => false

/-- Whether the tokens go on in a flow mapping without the node that could stand here. -/
def lacksFlowNode (closing : Token) : List Token → Bool
  | .comma :: _ => true
  | t :: _ => t = closing
  | [] => false

mutual

/-- The node at the head of the tokens. Block collections count if `block`; a sequence may stand at
the column of the mapping around it if `flush`. Every second call reads a token, so `fuel` need not
exceed twice their number. -/
def node (handles : Handles) (block flush : Bool) : Nat → List Token → Option (NamedNode × List Token)
  | 0, _ => none
  | _ + 1, .aliasOf name :: rest => some (.aliasOf name, rest)
  | fuel + 1, ts => do
    let (properties, rest) ← properties? handles ts
    let sequence (parsed : Option (List NamedNode × List Token)) : Option (NamedNode × List Token) :=
      parsed.map fun (items, rest) => (.sequence properties items, rest)
    let mapping (parsed : Option (List (NamedNode × NamedNode) × List Token)) : Option (NamedNode × List Token) :=
      parsed.map fun (entries, rest) => (.mapping properties entries, rest)
    let bare := properties.anchor?.isNone && properties.tag?.isNone
    match rest with
    | .item :: _ =>
      if flush then sequence (flushSequence handles fuel rest)
      else if bare then none else some (.scalar properties true [], rest)
    | .scalar plain text :: rest => some (.scalar properties plain text, rest)
    | .flowSequence :: rest => sequence (flowSequence handles true fuel rest)
    | .flowMapping :: rest => mapping (flowMapping handles true fuel rest)
    | .blockSequence :: inner =>
      if block then sequence (blockSequence handles fuel inner)
      else if bare then none else some (.scalar properties true [], rest)
    | .blockMapping :: inner =>
      if block then mapping (blockMapping handles fuel inner)
      else if bare then none else some (.scalar properties true [], rest)
    | _ => if bare then none else some (.scalar properties true [], rest)

/-- The items of a block sequence. -/
def blockSequence (handles : Handles) : Nat → List Token → Option (List NamedNode × List Token)
  | 0, _ => none
  | fuel + 1, .item :: rest => do
    let absent := match rest with
      | .item :: _ => true
      | .blockEnd :: _ => true
      | _ => false
    let (item, rest) ← if absent then some (.absent, rest) else node handles true false fuel rest
    let (items, rest) ← blockSequence handles fuel rest
    return (item :: items, rest)
  | _ + 1, .blockEnd :: rest => some ([], rest)
  | _ + 1, _ => none

/-- The items of a sequence at the column of the mapping around it, which ends where no item
follows. -/
def flushSequence (handles : Handles) : Nat → List Token → Option (List NamedNode × List Token)
  | 0, _ => none
  | fuel + 1, .item :: rest => do
    let absent := match rest with
      | .item :: _ => true
      | _ => lacksBlockNode rest
    let (item, rest) ← if absent then some (.absent, rest) else node handles true false fuel rest
    let (items, rest) ← flushSequence handles fuel rest
    return (item :: items, rest)
  | _ + 1, rest => some ([], rest)

/-- The entries of a block mapping. -/
def blockMapping (handles : Handles) : Nat → List Token → Option (List (NamedNode × NamedNode) × List Token)
  | 0, _ => none
  | fuel + 1, .key :: rest => do
    let (key, rest) ←
      if lacksBlockNode rest then some (.absent, rest) else node handles true true fuel rest
    let (value, rest) ←
      match rest with
      | .value :: rest =>
        if lacksBlockNode rest then some (.absent, rest) else node handles true true fuel rest
      | _ => some (.absent, rest)
    let (entries, rest) ← blockMapping handles fuel rest
    return ((key, value) :: entries, rest)
  | _ + 1, .blockEnd :: rest => some ([], rest)
  | _ + 1, _ => none

/-- The items of a flow sequence. A key among them is a mapping of one entry. -/
def flowSequence (handles : Handles) (first : Bool) : Nat → List Token → Option (List NamedNode × List Token)
  | 0, _ => none
  | _ + 1, .flowSequenceEnd :: rest => some ([], rest)
  | fuel + 1, ts => do
    let rest ← match first, ts with
      | true, ts => some ts
      | false, .comma :: rest => some rest
      | false, _ => none
    match rest with
    | .flowSequenceEnd :: rest => return ([], rest)
    | .key :: rest =>
      let (entry, rest) ← flowEntry handles fuel rest
      let (items, rest) ← flowSequence handles false fuel rest
      return (.mapping {} [entry] :: items, rest)
    | rest =>
      let (item, rest) ← node handles false false fuel rest
      let (items, rest) ← flowSequence handles false fuel rest
      return (item :: items, rest)

/-- The entry after the key mark in a flow sequence. Where no key follows the mark, the token that
does is dropped. -/
def flowEntry (handles : Handles) : Nat → List Token → Option ((NamedNode × NamedNode) × List Token)
  | 0, _ => none
  | fuel + 1, ts => do
    let absent := match ts with
      | .value :: _ => true
      | _ => lacksFlowNode .flowSequenceEnd ts
    let (key, rest) ←
      if absent then some (.absent, ts.drop 1) else node handles false false fuel ts
    match rest with
    | .value :: rest =>
      let (value, rest) ←
        if lacksFlowNode .flowSequenceEnd rest then some (.absent, rest)
        else node handles false false fuel rest
      return ((key, value), rest)
    | _ => return ((key, .absent), rest)

/-- The entries of a flow mapping. -/
def flowMapping (handles : Handles) (first : Bool) :
    Nat → List Token → Option (List (NamedNode × NamedNode) × List Token)
  | 0, _ => none
  | _ + 1, .flowMappingEnd :: rest => some ([], rest)
  | fuel + 1, ts => do
    let rest ← match first, ts with
      | true, ts => some ts
      | false, .comma :: rest => some rest
      | false, _ => none
    match rest with
    | .flowMappingEnd :: rest => return ([], rest)
    | .key :: rest =>
      let absent := match rest with
        | .value :: _ => true
        | _ => lacksFlowNode .flowMappingEnd rest
      let (key, rest) ←
        if absent then some (.absent, rest) else node handles false false fuel rest
      let (value, rest) ←
        match rest with
        | .value :: rest =>
          if lacksFlowNode .flowMappingEnd rest then some (.absent, rest)
          else node handles false false fuel rest
        | _ => some (.absent, rest)
      let (entries, rest) ← flowMapping handles false fuel rest
      return ((key, value) :: entries, rest)
    | rest =>
      let (key, rest) ← node handles false false fuel rest
      let (entries, rest) ← flowMapping handles false fuel rest
      return ((key, .absent) :: entries, rest)

end

/-- The directives before a document: the handles they explain, and whether there are any. A version
is given at most once and is 1.1 or 1.2, and no handle is explained twice. -/
def directives? (versioned : Bool) (handles : Handles) :
    List Token → Option (Handles × Bool × List Token)
  | .version major minor :: rest =>
    if versioned || major ≠ 1 || (minor ≠ 1 && minor ≠ 2) then none
    else (directives? true handles rest).map fun (handles, _, rest) => (handles, true, rest)
  | .handle name expansion :: rest =>
    if handles.any (·.1 = name) then none
    else (directives? versioned (handles ++ [(name, expansion)]) rest).map
      fun (handles, _, rest) => (handles, true, rest)
  | rest => some (handles, false, rest)

/-- Whether an explicit document is over before it has any content. -/
def lacksDocument : List Token → Bool
  | [] => true
  | .version .. :: _ => true
  | .handle .. :: _ => true
  | .documentStart :: _ => true
  | .documentEnd :: _ => true
  | _ => false

/-- The root of the one document that the tokens form. -/
def NamedNode.ofTokens? (ts : List Token) : Option NamedNode := do
  let (handles, explained, rest) ← directives? false [] ts
  let handles := handles ++ standardHandles
  let fuel := 2 * ts.length + 2
  let (root, rest) ←
    match rest with
    | [] => none
    | .documentStart :: rest =>
      if lacksDocument rest then some (.absent, rest) else node handles true false fuel rest
    | _ => if explained then none else node handles true false fuel rest
  if rest.all (· = .documentEnd) then return root else none

end ColorChain.Yaml
