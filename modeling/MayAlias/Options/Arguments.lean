import MayAlias.Options

/-!
# Reading options from arguments

Arguments are read in two phases.  The first goes from left to right, tells options, values and the
procedure apart, and checks every value.  A value that is attached to its option, as in
`--name=value`, is checked at once; one that stands by itself only when the argument behind it has
been recognised.  The second phase looks at the call as a whole: an option that takes a value needs
one, and only a query may be given more than once.

`Options.parse` applies a call to options that may be set already; a call with an error changes
nothing.
-/

namespace MayAlias

/-- What is wrong with a list of arguments, or what it asks for instead of a run. -/
inductive ArgumentError where
  | unknownArgument
  /-- A flag with a value. -/
  | tooManyValues
  /-- A value that is not one of the words allowed. -/
  | invalidValue
  /-- A value that cannot be read. -/
  | valueValidation
  /-- An option without its value. -/
  | emptyValue
  /-- An option given more than once. -/
  | unexpectedMultipleUsage
  | displayHelp
  | displayVersion
deriving DecidableEq

/-- What can be given as an argument. -/
inductive OptionName where
  | summary
  | maxPasses
  | query
  | dumpPts
  | dumpDot
  | dumpFacts
  | dumpStats
  | procedure
deriving DecidableEq

namespace OptionName

/-- The options that take a value, with their names on the command line. -/
def valued : List (String × OptionName) :=
  [("summary", summary), ("max-passes", maxPasses), ("alias", query), ("dump-pts", dumpPts),
    ("dump-dot", dumpDot), ("dump-facts", dumpFacts)]

/-- Only queries may be given several times. -/
def repeatable (name : OptionName) : Bool := name = query

/-- The value of a decimal digit. -/
def digit? (c : Char) : Option Nat :=
  if '0'.toNat ≤ c.toNat ∧ c.toNat ≤ '9'.toNat then some (c.toNat - '0'.toNat) else none

/-- The number written by one or more decimal digits. -/
def natural? (cs : List Char) : Option Nat :=
  if cs.isEmpty then none
  else cs.foldl (fun n? c => do some ((← n?) * 10 + (← digit? c))) (some 0)

/-- An integer with an optional sign. -/
def integer? : List Char → Option Int
  | '+' :: cs => (natural? cs).map fun n => (n : Int)
  | '-' :: cs => (natural? cs).map fun n => -(n : Int)
  | cs => (natural? cs).map fun n => (n : Int)

/-- A limit on the number of passes: an integer that fits into 32 bits without a sign. -/
def passLimit? (text : String) : Option Nat :=
  match integer? text.toList with
  | some n => if 0 ≤ n ∧ n < 4294967296 then some n.toNat else none
  | none => none

/-- Reads the value of an option. -/
def setting (name : OptionName) (text : String) : Except ArgumentError Setting :=
  match name with
  | summary =>
    match SummaryRule.ofName? text with
    | some kind => .ok (.summary kind)
    | none => .error .invalidValue
  | maxPasses =>
    match passLimit? text with
    | some limit => .ok (.maxPasses limit)
    | none => .error .valueValidation
  | query =>
    match Query.parse text with
    | .ok q => .ok (.query q)
    | .error _ => .error .valueValidation
  | dumpPts => .ok (.pointsTo text)
  | dumpDot => .ok (.dot text)
  | dumpFacts => .ok (.facts text)
  | dumpStats => .ok .statistics
  | procedure => .ok (.procedure text)

end OptionName

/-! ## Words -/

/-- An argument by its form. -/
inductive ArgumentForm where
  /-- `--`, behind which nothing is an option. -/
  | separator
  /-- `--name` or `--name=value` -/
  | long (name : String) (value : Option String)
  /-- `-x…`, by its first letter. -/
  | short (letter : Char)
  /-- Anything else. -/
  | plain

namespace ArgumentForm

/-- The part before the first equals sign and the part behind it. -/
def splitEquals : List Char → List Char × Option (List Char)
  | [] => ([], none)
  | c :: rest =>
    if c = '=' then ([], some rest)
    else
      let (name, value) := splitEquals rest
      (c :: name, value)

/-- The form of an argument. -/
def ofText (text : String) : ArgumentForm :=
  match text.toList with
  | ['-', '-'] => separator
  | '-' :: '-' :: cs =>
    let (name, value) := splitEquals cs
    long (String.ofList name) (value.map String.ofList)
  | '-' :: c :: _ => short c
  | _ => plain

end ArgumentForm

/-! ## First phase -/

/-- An argument that has been recognised, with its value as far as it has one. -/
structure Mention where
  name : OptionName
  setting : Option Setting

/-- How far the arguments have been read. -/
structure Scan where
  /-- What has been read and checked, in order. -/
  mentions : List Mention := []
  /-- The last argument recognised, whose value is not checked yet. -/
  pending : Option (OptionName × Option String) := none
  /-- Does the last option still wait for its value? -/
  waiting : Bool := false
  /-- Is everything behind `--`? -/
  literal : Bool := false
  /-- Has the procedure been given? -/
  hasProcedure : Bool := false

namespace Scan

/-- Checks the value of the last argument. -/
def settle (s : Scan) : Except ArgumentError Scan :=
  match s.pending with
  | none => .ok s
  | some (name, none) =>
    .ok { s with mentions := s.mentions ++ [⟨name, none⟩], pending := none }
  | some (name, some text) => do
    let setting ← name.setting text
    .ok { s with mentions := s.mentions ++ [⟨name, some setting⟩], pending := none }

/-- Takes up a recognised argument, after the value before it has been checked. -/
def push (s : Scan) (name : OptionName) (value : Option String) (waiting : Bool) :
    Except ArgumentError Scan := do
  let s ← s.settle
  .ok { s with pending := some (name, value), waiting }

/-- Takes up the procedure; there is at most one. -/
def positional (s : Scan) (text : String) : Except ArgumentError Scan := do
  if s.hasProcedure then .error .unknownArgument
  else
    let s ← s.push .procedure (some text) false
    .ok { s with hasProcedure := true }

/-- Gives the value for which the last option waits. -/
def fill (s : Scan) (text : String) : Scan :=
  { s with pending := s.pending.map fun (name, _) => (name, some text), waiting := false }

/-- A request that ends the reading, unless the value before it is wrong. -/
def request (s : Scan) (display : ArgumentError) : Except ArgumentError Scan := do
  let _ ← s.settle
  .error display

/-- An option that takes a value.  An attached value is checked at once, otherwise the option waits
for the next argument. -/
def valued (s : Scan) (name : OptionName) : Option String → Except ArgumentError Scan
  | none => s.push name none true
  | some text => do
    let s ← s.push name (some text) false
    s.settle

/-- A long option. -/
def long (s : Scan) (name : String) (value : Option String) : Except ArgumentError Scan :=
  match OptionName.valued.lookup name with
  | some option => s.valued option value
  | none =>
    if name ∈ ["dump-stats", "help", "version"] then
      if value.isSome then .error .tooManyValues
      else if name = "help" then s.request .displayHelp
      else if name = "version" then s.request .displayVersion
      else s.push .dumpStats (some "") false
    else .error .unknownArgument

/-- A short option. -/
def short (s : Scan) (letter : Char) : Except ArgumentError Scan :=
  if letter = 'h' then s.request .displayHelp
  else if letter = 'V' then s.request .displayVersion
  else .error .unknownArgument

/-- Reads one argument. -/
def step (s : Scan) (text : String) : Except ArgumentError Scan :=
  if s.literal then s.positional text
  else match ArgumentForm.ofText text with
    | .separator => .ok { s with literal := true }
    | .long name value => s.long name value
    | .short letter => s.short letter
    | .plain => if s.waiting then .ok (s.fill text) else s.positional text

/-- Reads all arguments. -/
def all (s : Scan) : List String → Except ArgumentError Scan
  | [] => s.settle
  | text :: rest => do
    let s ← s.step text
    s.all rest

end Scan

/-! ## Second phase -/

/-- Has the option a value somewhere in the call? -/
def hasValue (mentions : List Mention) (name : OptionName) : Bool :=
  mentions.any fun m => m.name = name && m.setting.isSome

/-- What is wrong with an option over the whole call. -/
def usageError? (mentions : List Mention) (name : OptionName) : Option ArgumentError :=
  if !hasValue mentions name then some .emptyValue
  else if 1 < mentions.countP (fun m => m.name = name) && !name.repeatable then
    some .unexpectedMultipleUsage
  else none

/-- What is wrong with the call as a whole.  A last option that still waits for its value comes
first, then the options in the order of their first mention. -/
def callError? (s : Scan) : Option ArgumentError :=
  let names := s.mentions.map Mention.name
  let unfinished := s.waiting && (names.getLast?.map fun n => !hasValue s.mentions n).getD false
  if unfinished then some .emptyValue
  else names.eraseDups.findSome? (usageError? s.mentions)

/-- The settings of a call, in order. -/
def settingsOf (args : List String) : Except ArgumentError (List Setting) := do
  let s ← Scan.all {} args
  match callError? s with
  | some e => .error e
  | none => .ok (s.mentions.filterMap Mention.setting)

/-- The options after a call. -/
def Options.parse (o : Options) (args : List String) : Except ArgumentError Options := do
  let settings ← settingsOf args
  .ok (settings.foldl Options.set o)

end MayAlias
