/-!
# Command line grammars

A command has options, at most one kind of operand, and commands below it. Reading arguments follows
the usual conventions: `--name value` or `--name=value`, single letters in clusters, everything an
operand after `--`. A negative number is a value only where the grammar says so.
-/

namespace ColorChain.CommandLine

/-- What an option takes. -/
inductive OptionKind where
  /-- Nothing, and it is given at most once. -/
  | switch
  /-- Nothing, and it is given any number of times. -/
  | counter
  /-- A value that passes a check, once. -/
  | value (check : String → Bool)

structure OptionRule where
  name : String
  short? : Option Char := none
  kind : OptionKind
  required : Bool := false
  /-- Its value may be a negative number. -/
  negative : Bool := false

/-- The arguments that are no options: one, or at least one if `many`. -/
structure OperandRule where
  name : String
  check : String → Bool
  many : Bool := false
  /-- They may be negative numbers. -/
  negative : Bool := false

/-- A command. One with commands below it needs one of them. -/
structure Command where
  name : String
  aliases : List String := []
  options : List OptionRule := []
  operand? : Option OperandRule := none
  /-- It can be asked for its version. -/
  versioned : Bool := false
  commands : List Command := []

/-- Why arguments give no match: they are wrong, or they ask for a page. -/
inductive Stop where
  | usage
  | help
  | version
deriving DecidableEq, Repr

/-- What arguments say: the commands from the outermost on, and the values of options and operands
in order. An option without a value has an empty one. -/
structure Match where
  path : List String := []
  values : List (String × String) := []

namespace Match

/-- The values of an option or operand. -/
def all (m : Match) (name : String) : List String := (m.values.filter (·.1 = name)).map (·.2)

def value? (m : Match) (name : String) : Option String := (m.all name).head?

def has (m : Match) (name : String) : Bool := m.values.any (·.1 = name)

end Match

/-- How far the arguments of one command were read: its values, newest first, the option that waits
for its value, and whether only operands follow. -/
structure Level where
  values : List (String × String) := []
  pending? : Option OptionRule := none
  operandsOnly : Bool := false

namespace Level

def has (l : Level) (name : String) : Bool := l.values.any (·.1 = name)

/-- Records a value that must be the only one of its name. -/
def addOnce (l : Level) (name text : String) (check : String → Bool) : Except Stop Level :=
  if l.has name ∨ !check text then .error .usage
  else .ok { l with values := (name, text) :: l.values, pending? := none }

/-- Records an option that takes no value, or waits for the value of one that does. -/
def addOption (l : Level) (rule : OptionRule) : Except Stop Level :=
  match rule.kind with
  | .switch => l.addOnce rule.name "" fun _ => true
  | .counter => .ok { l with values := (rule.name, "") :: l.values }
  | .value _ => .ok { l with pending? := some rule }

/-- Records an option with the value attached to it. -/
def addAttached (l : Level) (rule : OptionRule) (text : String) : Except Stop Level :=
  match rule.kind with
  | .value check => l.addOnce rule.name text check
  | _ => .error .usage

end Level

/-- Whether the characters are digits, with at most one point and then one exponent without a sign,
neither of them first and the exponent not last. -/
def isNumber (first point exponent : Bool) : List Char → Bool
  | [] => true
  | c :: cs =>
    if c.isDigit then isNumber false point exponent cs
    else if c = '.' ∧ !first ∧ !point ∧ !exponent then isNumber false true exponent cs
    else if (c = 'e' ∨ c = 'E') ∧ !first ∧ !exponent ∧ cs ≠ [] then isNumber false point true cs
    else false

namespace Command

/-- Records an operand. -/
def addOperand (c : Command) (l : Level) (text : String) : Except Stop Level :=
  match c.operand? with
  | none => .error .usage
  | some rule =>
    if rule.many then
      if rule.check text then .ok { l with values := (rule.name, text) :: l.values }
      else .error .usage
    else l.addOnce rule.name text rule.check

/-- Whether a negative number can be a value at this place. -/
def allowsNegative (c : Command) (l : Level) : Bool :=
  l.pending?.any (·.negative)
    || c.operand?.any fun rule => rule.negative && (rule.many || !l.has rule.name)

/-- Reads an argument after its two dashes. -/
def readLong (c : Command) (l : Level) (body : List Char) : Except Stop Level :=
  let name := String.ofList (body.takeWhile (· ≠ '='))
  let attached? := match body.dropWhile (· ≠ '=') with
    | _ :: text => some (String.ofList text)
    | [] => none
  match c.options.find? (·.name = name), attached? with
  | some rule, some text => l.addAttached rule text
  | some rule, none => l.addOption rule
  | none, some _ => .error .usage
  | none, none =>
    if name = "help" then .error .help
    else if name = "version" ∧ c.versioned then .error .version
    else .error .usage

/-- Reads the letters of an argument after its dash. An option with a value takes the letters after
it, without an equals sign in front of them. -/
def readShort (c : Command) (l : Level) : List Char → Except Stop Level
  | [] => .ok l
  | letter :: rest =>
    match c.options.find? (·.short? = some letter) with
    | some rule =>
      match rule.kind, rest with
      | .value _, '=' :: text => l.addAttached rule (String.ofList text)
      | .value _, [] => l.addOption rule
      | .value _, text => l.addAttached rule (String.ofList text)
      | _, rest => (l.addOption rule).bind fun l => c.readShort l rest
    | none =>
      if letter = 'h' then .error .help
      else if letter = 'V' ∧ c.versioned then .error .version
      else .error .usage

/-- Reads an argument that is a value or an operand. -/
def readPlain (c : Command) (l : Level) (text : String) : Except Stop Level :=
  match l.pending? with
  | some rule => l.addAttached rule text
  | none => c.addOperand l text

/-- Reads an argument that names no command. An option that waits for its value does not wait past
another option. -/
def readArgument (c : Command) (l : Level) (text : String) : Except Stop Level :=
  if l.operandsOnly then c.addOperand l text
  else
    match text.toList with
    | ['-', '-'] => if l.pending?.isSome then .error .usage else .ok { l with operandsOnly := true }
    | '-' :: '-' :: body => if l.pending?.isSome then .error .usage else c.readLong l body
    | '-' :: letter :: rest =>
      if isNumber true false false (letter :: rest) && c.allowsNegative l then c.readPlain l text
      else if l.pending?.isSome then .error .usage
      else c.readShort l (letter :: rest)
    | _ => c.readPlain l text

/-- The match of a command whose arguments end here. -/
def finish (c : Command) (l : Level) : Except Stop Match :=
  let missing := c.options.any (fun rule => rule.required && !l.has rule.name)
    || c.operand?.any fun rule => !l.has rule.name
  if l.pending?.isSome || !c.commands.isEmpty || missing then .error .usage
  else .ok { values := l.values.reverse }

/-- The command below with a name. -/
def command? (c : Command) (name : String) : Option Command :=
  c.commands.find? fun sub => sub.name = name || sub.aliases.contains name

/-- The page for the command that names lead to. -/
def helpFor (c : Command) : List String → Stop
  | [] => .help
  | name :: rest =>
    match c.command? name with
    | some sub => sub.helpFor rest
    | none => if name = "help" ∧ !c.commands.isEmpty ∧ rest = [] then .help else .usage

/-- What arguments say to a command. -/
def parseFrom (c : Command) (l : Level) : List String → Except Stop Match
  | [] => c.finish l
  | text :: rest =>
    let free := !l.operandsOnly && l.pending?.isNone && !c.commands.isEmpty
    match if free then c.command? text else none with
    | some sub => do
      let m ← sub.parseFrom {} rest
      return ⟨sub.name :: m.path, l.values.reverse ++ m.values⟩
    | none =>
      if free && text == "help" then .error (c.helpFor rest)
      else do
        let l ← c.readArgument l text
        c.parseFrom l rest

def parse (c : Command) (arguments : List String) : Except Stop Match := c.parseFrom {} arguments

end Command

end ColorChain.CommandLine
