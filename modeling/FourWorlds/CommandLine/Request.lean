import FourWorlds.CommandLine.Options

/-! # Requests made on the command line

Arguments are read one after another, and the first one that decides the outcome ends the reading:
a request for help or for the version, or anything that is not allowed. Parameters take a value, in
the same argument or in the next one; switches take none. None may be given twice, and nothing else
may be given.

* `Request`: what a list of arguments asks for.
* `OptionName`: what a name on the command line stands for.
* `Request.ofArguments`: reads a list of arguments. -/

namespace FourWorlds

/-- What a list of arguments asks for. -/
inductive Request where
  /-- A run with options. -/
  | run (options : Options)
  /-- The summary of the arguments. -/
  | shortHelp
  /-- The full description of the arguments. -/
  | longHelp
  /-- The version. -/
  | version
  /-- Nothing: the arguments are not allowed. -/
  | refused
  deriving DecidableEq, Repr

/-- What a name on the command line stands for. -/
inductive OptionName where
  /-- An option that takes a value. -/
  | parameter (parameter : Parameter)
  /-- An option that takes no value. -/
  | switch (switch : Switch)
  /-- An option that ends the reading. -/
  | request (request : Request)
  deriving DecidableEq, Repr

/-- What a name of several letters stands for. -/
def OptionName.ofLong? (name : List Char) : Option OptionName :=
  [("turns", .parameter .turns), ("seed", .parameter .seed), ("echo", .switch .echo),
    ("notation", .parameter .style), ("markdown-help", .switch .markdownHelp),
    ("help", .request .longHelp), ("version", .request .version)].lookup (String.ofList name)

/-- What a name of one letter stands for. -/
def OptionName.ofShort? (name : Char) : Option OptionName :=
  [('t', .parameter .turns), ('s', .parameter .seed), ('e', .switch .echo),
    ('n', .parameter .style), ('h', .request .shortHelp), ('V', .request .version)].lookup name

namespace Request

/-- How far the arguments have been read. -/
structure Reading where
  /-- The options set so far. -/
  options : Options := {}
  /-- The parameters given so far. -/
  parameters : List Parameter := []
  /-- The switches given so far. -/
  switches : List Switch := []
  deriving DecidableEq, Repr

/-- The reading after the value of a parameter, unless it was given before or is no such value. -/
def Reading.assign (reading : Reading) (parameter : Parameter) (text : List Char) :
    Option Reading := do
  if parameter ∈ reading.parameters then none
  else
    let options ← reading.options.assign text parameter
    some { reading with options := options, parameters := parameter :: reading.parameters }

/-- The reading after a switch, unless it was given before. -/
def Reading.turnOn (reading : Reading) (switch : Switch) : Option Reading :=
  if switch ∈ reading.switches then none
  else some { reading with
    options := reading.options.turnOn switch, switches := switch :: reading.switches }

/-- What an argument does. -/
inductive Effect where
  /-- The reading goes on with the next argument. -/
  | proceed (reading : Reading)
  /-- The next argument is the value of a parameter. -/
  | await (parameter : Parameter) (reading : Reading)
  /-- The reading ends. -/
  | stop (request : Request)
  deriving DecidableEq, Repr

/-- The reading goes on, if it is still allowed to. -/
def Effect.ofOption : Option Reading → Effect
  | some reading => proceed reading
  | none => stop .refused

/-- What a long name does, with the value attached to it, if any. -/
def longEffect (reading : Reading) (name : List Char) (value : Option (List Char)) : Effect :=
  match OptionName.ofLong? name, value with
  | some (.parameter parameter), some text => .ofOption (reading.assign parameter text)
  | some (.parameter parameter), none => .await parameter reading
  | some (.switch switch), none => .ofOption (reading.turnOn switch)
  | some (.request request), none => .stop request
  | _, _ => .stop .refused

/-- The part of a long argument after its first equals sign, if it has one. -/
def attachedValue? (text : List Char) : Option (List Char) :=
  match text.dropWhile (· ≠ '=') with
  | [] => none
  | _ :: value => some value

/-- What a row of short names does. The rest of the row after a parameter is its value, and an
equals sign before that value does not belong to it. -/
def shortEffect (reading : Reading) : List Char → Effect
  | [] => .proceed reading
  | c :: rest =>
    match OptionName.ofShort? c with
    | some (.parameter parameter) =>
      match rest with
      | [] => .await parameter reading
      | '=' :: value => .ofOption (reading.assign parameter value)
      | value => .ofOption (reading.assign parameter value)
    | some (.switch switch) =>
      match reading.turnOn switch with
      | some reading => shortEffect reading rest
      | none => .stop .refused
    | some (.request request) => .stop request
    | none => .stop .refused

/-- What an argument does where no value is awaited. -/
def effect (reading : Reading) : List Char → Effect
  | '-' :: '-' :: text => longEffect reading (text.takeWhile (· ≠ '=')) (attachedValue? text)
  | '-' :: c :: rest => shortEffect reading (c :: rest)
  | _ => .stop .refused

/-- Whether an argument can be the value of the parameter before it: it must not look like names. -/
def isValue : List Char → Bool
  | '-' :: _ :: _ => false
  | _ => true

/-- What the arguments ask for, from some point of the reading on. Two dashes end the options, so
nothing may follow them. -/
def ofRest (reading : Reading) : List (List Char) → Request
  | [] => .run reading.options
  | ['-', '-'] :: rest => if rest.isEmpty then .run reading.options else .refused
  | argument :: rest =>
    match effect reading argument, rest with
    | .stop request, _ => request
    | .proceed reading, rest => ofRest reading rest
    | .await _ _, [] => .refused
    | .await parameter reading, value :: rest =>
      if isValue value then
        match reading.assign parameter value with
        | some reading => ofRest reading rest
        | none => .refused
      else .refused

/-- What the arguments of the command line ask for. -/
def ofArguments (arguments : List String) : Request := ofRest {} (arguments.map String.toList)

end Request

end FourWorlds
