namespace Make24.Log

inductive Level where
  | error
  | warn
  | info
  | debug
  | trace
  deriving DecidableEq, Repr

namespace Level

/-- Lower is more severe. -/
def rank : Level → Nat
  | .error => 0
  | .warn => 1
  | .info => 2
  | .debug => 3
  | .trace => 4

def admits (threshold level : Level) : Bool :=
  level.rank ≤ threshold.rank

/-- The name by which a command line asks for a level. -/
def name : Level → String
  | .error => "error"
  | .warn => "warn"
  | .info => "info"
  | .debug => "debug"
  | .trace => "trace"

def label : Level → String
  | .error => "ERROR"
  | .warn => "WARN"
  | .info => "INFO"
  | .debug => "DEBUG"
  | .trace => "TRACE"

def all : List Level :=
  [.error, .warn, .info, .debug, .trace]

def ofName? (text : String) : Option Level :=
  all.find? (fun level => level.name == text)

end Level

end Make24.Log
