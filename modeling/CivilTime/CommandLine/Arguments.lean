import CivilTime.Atlas.Choice
import CivilTime.Atlas.LocalDateTime
import CivilTime.Text.Cut

/-! The arguments of the command line.
Options may stand anywhere behind the command. A long option takes its value behind an equals sign
or from the next argument, a short one also from the rest of its own. Two hyphens end the options.
A request for a notice about the program is met as soon as the arguments in front of it are found to
be good, whatever follows it and whatever is missing.
-/

namespace CivilTime.CommandLine

/-- What the program can be asked to say of itself. -/
inductive Notice where
  | help
  | version
  deriving DecidableEq, Repr, Inhabited

/-- What an option expects behind it. -/
inductive OptionKind where
  /-- Nothing. -/
  | flag
  /-- A value that does not look like an option. -/
  | value
  /-- A value of any form. -/
  | anyValue
  /-- Nothing, since the option asks for a notice. -/
  | notice (notice : Notice)
  deriving DecidableEq, Repr, Inhabited

/-- An option of a command. -/
structure OptionSpec where
  name : String
  short : Option Char
  kind : OptionKind
  deriving DecidableEq, Repr, Inhabited

/-- The options that every command has. -/
def commonOptions : List OptionSpec :=
  [⟨"verbose", some 'v', .flag⟩, ⟨"help", some 'h', .notice .help⟩]

/-- The options in front of the command. -/
def leadingOptions : List OptionSpec :=
  ⟨"version", some 'V', .notice .version⟩ :: commonOptions

/-- The options of a compilation. -/
def compileOptions : List OptionSpec :=
  [⟨"output", some 'o', .value⟩, ⟨"serial", none, .flag⟩, ⟨"zone", none, .value⟩,
    ⟨"strict", none, .flag⟩] ++ commonOptions

/-- The options of a lookup. -/
def lookupOptions : List OptionSpec :=
  [⟨"instant", none, .anyValue⟩, ⟨"local", none, .anyValue⟩, ⟨"disambiguation", none, .value⟩] ++
    commonOptions

/-- Why no command is run. -/
inductive Refusal where
  /-- The arguments do not make up a command. -/
  | usage
  /-- A notice was asked for. -/
  | notice (notice : Notice)
  deriving DecidableEq, Repr, Inhabited

/-- An argument with its role. -/
inductive Item where
  | flag (name : String)
  | value (name : String) (text : String)
  | plain (text : String)
  | notice (notice : Notice)
  deriving DecidableEq, Repr, Inhabited

/-- What an argument begins: complete items, and an option that still needs its value. -/
structure Scanned where
  items : List Item
  pending : Option OptionSpec
  deriving DecidableEq, Repr, Inhabited

/-- An option with the value that its argument holds. -/
def scanOption (spec : OptionSpec) (attached : Option (List Char)) : Except Refusal Scanned :=
  match spec.kind, attached with
  | .notice notice, none => .ok { items := [.notice notice], pending := none }
  | .flag, none => .ok { items := [.flag spec.name], pending := none }
  | .notice _, some _ | .flag, some _ => .error .usage
  | _, none => .ok { items := [], pending := some spec }
  | _, some text => .ok { items := [.value spec.name (String.ofList text)], pending := none }

/-- A long option. -/
def scanLong (specs : List OptionSpec) (text : List Char) : Except Refusal Scanned :=
  let (name, attached) :=
    match Text.cutAt? (· == '=') text with
    | some (name, value) => (name, some value)
    | none => (text, none)
  match specs.find? (·.name.toList == name) with
  | some spec => scanOption spec attached
  | none => .error .usage

/-- Short options written together. The value of an option is the rest of the argument, where an
equals sign may stand in front. -/
def scanShort (specs : List OptionSpec) : List Char → Except Refusal Scanned
  | [] => .ok { items := [], pending := none }
  | c :: rest =>
    match specs.find? (·.short == some c) with
    | none => .error .usage
    | some spec =>
      match spec.kind with
      | .notice notice => .ok { items := [.notice notice], pending := none }
      | .flag => do
        let scanned ← scanShort specs rest
        pure { scanned with items := .flag spec.name :: scanned.items }
      | _ =>
        match rest with
        | [] => scanOption spec none
        | '=' :: text => scanOption spec (some text)
        | text => scanOption spec (some text)

/-- Whether an argument has the form of an option. -/
def looksLikeOption (argument : String) : Bool :=
  match argument.toList with
  | '-' :: _ :: _ => true
  | _ => false

/-- An argument that is not the value of the one in front of it. -/
def scanArgument (specs : List OptionSpec) (argument : String) : Except Refusal Scanned :=
  match argument.toList with
  | '-' :: '-' :: text => scanLong specs text
  | '-' :: c :: text => scanShort specs (c :: text)
  | _ => .ok { items := [.plain argument], pending := none }

/-- Whether an argument can be the value of the option in front of it. -/
def canBeValue (spec : OptionSpec) (argument : String) : Bool :=
  spec.kind == .anyValue || !looksLikeOption argument

/-- The first notice that is asked for. -/
def noticeOf? (items : List Item) : Option Notice :=
  items.findSome? fun
    | .notice notice => some notice
    | _ => none

/-- The roles of arguments up to a request for a notice, given the option in front of them that
still needs its value. -/
def scan (specs : List OptionSpec) : Option OptionSpec → List String → Except Refusal (List Item)
  | none, [] => .ok []
  | some _, [] => .error .usage
  | some spec, argument :: rest =>
    if canBeValue spec argument then do
      let items ← scan specs none rest
      pure (.value spec.name argument :: items)
    else .error .usage
  | none, argument :: rest =>
    if argument = "--" then .ok (rest.map .plain)
    else do
      let scanned ← scanArgument specs argument
      if (noticeOf? scanned.items).isSome then pure scanned.items
      else
        let items ← scan specs scanned.pending rest
        pure (scanned.items ++ items)

/-- The arguments that are no options and no values. -/
def plainTexts (items : List Item) : List String :=
  items.filterMap fun
    | .plain text => some text
    | _ => none

/-- The values of an option. -/
def values (name : String) (items : List Item) : List String :=
  items.filterMap fun
    | .value other text => if other = name then some text else none
    | _ => none

/-- How often a flag is set. -/
def flagCount (name : String) (items : List Item) : Nat := items.count (.flag name)

/-- An option that may be set once. -/
def atMostOne : List String → Except Refusal (Option String)
  | [] => .ok none
  | [text] => .ok (some text)
  | _ => .error .usage

/-- A flag that may be set once. -/
def switch (name : String) (items : List Item) : Except Refusal Bool :=
  match flagCount name items with
  | 0 => .ok false
  | 1 => .ok true
  | _ => .error .usage

/-- A value that has to be of some form. -/
def require : Option α → Except Refusal α
  | some value => .ok value
  | none => .error .usage

/-- A path, which is not empty. -/
def path (text : String) : Except Refusal String :=
  if text.isEmpty then .error .usage else .ok text

/-- Stops at a request for a notice. -/
def giveNotice (items : List Item) : Except Refusal Unit :=
  match noticeOf? items with
  | some notice => .error (.notice notice)
  | none => .ok ()

/-- What a lookup asks about. -/
inductive Subject where
  | instant (instant : Int)
  | localTime (time : LocalDateTime)
  deriving DecidableEq, Repr, Inhabited

inductive Command where
  /-- Compiles sources into an artifact. -/
  | compile (inputs : List String) (output : String) (serial : Bool) (zones : List String)
      (strict : Bool)
  /-- Looks up an instant or a time of the wall clock. -/
  | lookup (artifact zone : String) (subject : Subject) (choice : Disambiguation)
  /-- Prints a zone. -/
  | dump (artifact zone : String)
  deriving DecidableEq, Repr, Inhabited

/-- A command and how much is said while it runs. -/
structure Invocation where
  verbosity : Nat
  command : Command
  deriving DecidableEq, Repr, Inhabited

/-- The artifact and the zone of a query, as far as they are given. -/
def queryTexts (items : List Item) : Except Refusal (List String) :=
  match plainTexts items with
  | [] => .ok []
  | artifact :: rest => do
    let artifact ← path artifact
    if 1 < rest.length then throw .usage
    pure (artifact :: rest)

/-- The artifact and the zone of a query. -/
def artifactAndZone : List String → Except Refusal (String × String)
  | [artifact, zone] => .ok (artifact, zone)
  | _ => .error .usage

/-- A compilation. -/
def compileCommand (items : List Item) : Except Refusal Command := do
  let inputs ← (plainTexts items).mapM path
  let output ← (← atMostOne (values "output" items)).mapM path
  let serial ← switch "serial" items
  let strict ← switch "strict" items
  giveNotice items
  if inputs.isEmpty then throw .usage
  let output ← require output
  pure (.compile inputs output serial (values "zone" items) strict)

/-- An instant in seconds. -/
def instantOf (text : String) : Except Refusal Int :=
  require (Text.numeral? .signed64 text.toList)

/-- A time of the wall clock. -/
def localTimeOf (text : String) : Except Refusal LocalDateTime :=
  require (LocalDateTime.parse? text)

/-- A choice among instants. -/
def choiceOf (word : String) : Except Refusal Disambiguation :=
  require (Disambiguation.parse? word)

/-- The subject of a lookup: an instant or a time, but not both. -/
def subjectOf : Option Int → Option LocalDateTime → Except Refusal Subject
  | some instant, none => .ok (.instant instant)
  | none, some time => .ok (.localTime time)
  | _, _ => .error .usage

/-- A lookup. -/
def lookupCommand (items : List Item) : Except Refusal Command := do
  let texts ← queryTexts items
  let instant ← (← atMostOne (values "instant" items)).mapM instantOf
  let time ← (← atMostOne (values "local" items)).mapM localTimeOf
  let choice ← (← atMostOne (values "disambiguation" items)).mapM choiceOf
  giveNotice items
  let (artifact, zone) ← artifactAndZone texts
  let subject ← subjectOf instant time
  pure (.lookup artifact zone subject (choice.getD .compatible))

/-- A printout. -/
def dumpCommand (items : List Item) : Except Refusal Command := do
  let texts ← queryTexts items
  giveNotice items
  let (artifact, zone) ← artifactAndZone texts
  pure (.dump artifact zone)

/-- A command of the command line: its options and its meaning. -/
structure CommandSpec where
  name : String
  options : List OptionSpec
  command : List Item → Except Refusal Command

/-- The commands. -/
def commands : List CommandSpec :=
  [⟨"compile", compileOptions, compileCommand⟩, ⟨"lookup", lookupOptions, lookupCommand⟩,
    ⟨"dump", commonOptions, dumpCommand⟩]

/-- Whether arguments behind the word `help` name at most one command. -/
def isHelpTopic : List String → Bool
  | [] => true
  | [name] => name = "help" || commands.any (·.name == name)
  | _ => false

/-- The verbosity of a command: its own flags, or those in front of it where it has none. -/
def verbosityOf (leading : Nat) (items : List Item) : Nat :=
  match flagCount "verbose" items with
  | 0 => leading
  | own => own

/-- The command of a name with its arguments. -/
def parseCommand (leading : Nat) (name : String) (arguments : List String)
    : Except Refusal Invocation :=
  if name = "help" then .error (if isHelpTopic arguments then .notice .help else .usage)
  else
    match commands.find? (·.name == name) with
    | none => .error .usage
    | some spec => do
      let items ← scan spec.options none arguments
      let command ← spec.command items
      pure { verbosity := verbosityOf leading items, command }

/-- Reads the options in front of the command, and the command. -/
def parseFrom (leading : List Item) : List String → Except Refusal Invocation
  | [] => .error .usage
  | argument :: rest =>
    if argument = "--" then .error .usage
    else if looksLikeOption argument then do
      let scanned ← scanArgument leadingOptions argument
      giveNotice scanned.items
      parseFrom (leading ++ scanned.items) rest
    else parseCommand (flagCount "verbose" leading) argument rest

/-- The invocation that arguments make up. -/
def parse (arguments : List String) : Except Refusal Invocation := parseFrom [] arguments

end CivilTime.CommandLine
