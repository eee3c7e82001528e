import Make24.CommandLine.Argument
import Make24.Log.Level

namespace Make24.CommandLine
open Log

/-- Where the digits of the round come from. -/
inductive Supply where
  | listed (text : String)
  | seeded (seed : UInt64)
  | random
  deriving DecidableEq, Repr

/-- What the arguments ask for. -/
inductive Request where
  | play (supply : Supply) (expression : Option String) (level : Level)
  | version
  | help
  | misuse
  deriving DecidableEq, Repr

/-- A plus sign may come first. The number fits into 64 bits. -/
def seedOfString? (text : String) : Option UInt64 :=
  let digits :=
    match text.toList with
    | '+' :: digits => digits
    | digits => digits
  if digits.isEmpty || digits.any (fun c => !c.isDigit) then none
  else
    let value := digits.foldl (fun n c => 10 * n + (c.toNat - '0'.toNat)) 0
    if value < UInt64.size then some (UInt64.ofNat value) else none

/-- What the arguments up to some point have set. -/
structure Given where
  digits : Option String
  seed : Option UInt64
  level : Option Level
  expression : Option String

namespace Given

def empty : Given := ⟨none, none, none, none⟩

/-- Sets an option. It may not be set yet, and the value has to fit. -/
def set? (given : Given) (setting : Setting) (value : String) : Option Given :=
  match setting, given with
  | .digits, { digits := none, .. } => some { given with digits := some value }
  | .seed, { seed := none, .. } =>
    (seedOfString? value).map (fun seed => { given with seed := some seed })
  | .level, { level := none, .. } =>
    (Level.ofName? value).map (fun level => { given with level := some level })
  | _, _ => none

def answer? (given : Given) (text : String) : Option Given :=
  match given.expression with
  | none => some { given with expression := some text }
  | some _ => none

/-- A round has one supply of digits. Only warnings and errors are shown by default. -/
def request (given : Given) : Request :=
  let level := given.level.getD .warn
  match given.digits, given.seed with
  | some text, none => .play (.listed text) given.expression level
  | none, some seed => .play (.seeded seed) given.expression level
  | none, none => .play .random given.expression level
  | some _, some _ => .misuse

/-- Behind the separator every argument is positional. -/
def readPositional (given : Given) : List String → Request
  | [] => given.request
  | text :: arguments =>
    match given.answer? text with
    | some given => given.readPositional arguments
    | none => .misuse

/-- Reads arguments from left to right, up to the first mistake or to a request for version or
help. An option without a value takes the next argument. -/
def read (given : Given) : List String → Request
  | [] => given.request
  | argument :: arguments =>
    match Argument.ofString argument with
    | .separator => given.readPositional arguments
    | .positional text =>
      match given.answer? text with
      | some given => given.read arguments
      | none => .misuse
    | .option setting (some value) =>
      match given.set? setting value with
      | some given => given.read arguments
      | none => .misuse
    | .option setting none =>
      match arguments with
      | [] => .misuse
      | value :: arguments =>
        if isHyphenated value then .misuse
        else
          match given.set? setting value with
          | some given => given.read arguments
          | none => .misuse
    | .version => .version
    | .help => .help
    | .unknown => .misuse

end Given

def Request.ofArguments (arguments : List String) : Request :=
  Given.empty.read arguments

end Make24.CommandLine
