namespace Make24.CommandLine

/-- An option that takes a value. -/
inductive Setting where
  | digits
  | seed
  | level
  deriving DecidableEq, Repr

/-- One argument, read on its own. -/
inductive Argument where
  | separator
  | positional (text : String)
  | option (setting : Setting) (value : Option String)
  | version
  | help
  | unknown
  deriving DecidableEq, Repr

/-- The argument looks like an option. A lone hyphen does not. -/
def isHyphenated (text : String) : Bool :=
  match text.toList with
  | '-' :: _ :: _ => true
  | _ => false

namespace Argument

/-- The letter of an option may be followed by its value, with or without an equals sign. Version
and help end the reading, whatever letters follow. -/
def short (letter : Char) (more : List Char) : Argument :=
  let value :=
    match more with
    | [] => none
    | '=' :: value => some (String.ofList value)
    | value => some (String.ofList value)
  match letter with
  | 'd' => .option .digits value
  | 's' => .option .seed value
  | 'l' => .option .level value
  | 'V' => .version
  | 'h' => .help
  | _ => .unknown

/-- The name of an option, which may not be shortened, and its value behind an equals sign. -/
def long (text : List Char) : Argument :=
  let name := String.ofList (text.takeWhile (· != '='))
  let value :=
    match text.dropWhile (· != '=') with
    | [] => none
    | _ :: value => some (String.ofList value)
  match name, value with
  | "digits", value => .option .digits value
  | "seed", value => .option .seed value
  | "log-level", value => .option .level value
  | "version", none => .version
  | "help", none => .help
  | _, _ => .unknown

def ofString (text : String) : Argument :=
  match text.toList with
  | ['-', '-'] => .separator
  | '-' :: '-' :: name => long name
  | '-' :: letter :: more => short letter more
  | _ => .positional text

end Argument

end Make24.CommandLine
