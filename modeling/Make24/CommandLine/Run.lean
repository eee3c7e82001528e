import Make24.CommandLine.Request
import Make24.Round
import Make24.Text.Line

namespace Make24.CommandLine
open Log

inductive Ending where
  | informed
  | judged (verdict : Verdict)
  | misused
  | failed (message : String)

def Ending.exitCode : Ending → Nat
  | .informed => 0
  | .judged verdict => if verdict.isCorrect then 0 else 1
  | .misused | .failed _ => 2

/-- What the command has written to standard output and to its log. -/
structure Output where
  text : String
  events : List Event

structure Report where
  output : Output
  ending : Ending

/-- A round whose prompt is shown and whose answer is still to come, unless it was an argument. -/
structure Table where
  round : Round
  expression : Option String
  level : Level

/-- Where a run stands when its arguments are read. -/
inductive Opening where
  | over (report : Report)
  | asking (output : Output) (table : Table)

def versionText : String := "twentyfour 0.1.0\n"

def helpText : String :=
  "Deal four digits and check an expression that uses each of them once to make 24\n\n" ++
  "Usage: twentyfour [OPTIONS] [EXPRESSION]\n\n" ++
  "  -d, --digits <DIGITS>        Use these digits instead of random ones\n" ++
  "  -s, --seed <SEED>            Seed for the digit generator\n" ++
  "  -l, --log-level <LOG_LEVEL>  error, warn, info, debug or trace (default: warn)\n" ++
  "  -h, --help                   Print help\n" ++
  "  -V, --version                Print version\n"

/-- The log is set up only after a listed deal is read, so that reading it leaves no events. -/
def Supply.round (supply : Supply) (fresh : Random.Key) :
    Except DealFault (Logged (Except GameFault Round)) :=
  match supply with
  | .listed text => (Deal.parse text).value.map Round.start
  | .seeded seed => .ok do
    let source ← Random.Source.seeded seed
    return (← Round.draw source).1
  | .random => .ok do
    return (← Round.draw ⟨fresh, 0⟩).1

/-- Deals the round and shows its prompt. `fresh` keys the random digits. -/
def deal (supply : Supply) (expression : Option String) (level : Level) (fresh : Random.Key) :
    Opening :=
  match supply.round fresh with
  | .error fault => .over ⟨⟨"", []⟩, .failed ("Invalid digit list: " ++ fault.message)⟩
  | .ok ⟨.error fault, events⟩ =>
    .over ⟨⟨"", visible level events⟩, .failed ("Failed to deal digits: " ++ fault.message)⟩
  | .ok ⟨.ok round, events⟩ =>
    .asking ⟨round.prompt ++ "\n", visible level (events ++ [.dealt round.deal.toList])⟩
      ⟨round, expression, level⟩

def opening (arguments : List String) (fresh : Random.Key) : Opening :=
  match Request.ofArguments arguments with
  | .play supply expression level => deal supply expression level fresh
  | .version => .over ⟨⟨versionText, []⟩, .informed⟩
  | .help => .over ⟨⟨helpText, []⟩, .informed⟩
  | .misuse => .over ⟨⟨"", []⟩, .misused⟩

/-- The expression argument, or else the first line of the input, with its line feed. -/
def Table.answer? (table : Table) (input : List UInt8) : Option String :=
  match table.expression with
  | some expression => some expression
  | none => Text.decode? (Text.firstLine input)

def Table.close (table : Table) (input : List UInt8) : Report :=
  match table.answer? input with
  | some answer =>
    let ⟨verdict, events⟩ := table.round.judge answer
    ⟨⟨verdict.message ++ "\n", visible table.level events⟩, .judged verdict⟩
  | none =>
    ⟨⟨"", []⟩,
      .failed "Failed to read expression from stdin: stream did not contain valid UTF-8"⟩

/-- One run of the command from its arguments and its standard input. -/
def run (arguments : List String) (fresh : Random.Key) (input : List UInt8) : Report :=
  match opening arguments fresh with
  | .over report => report
  | .asking output table =>
    let report := table.close input
    ⟨⟨output.text ++ report.output.text, output.events ++ report.output.events⟩, report.ending⟩

/-- A record's message as the log shows it: continuation lines are indented. -/
def logText (event : Event) : String :=
  String.ofList (event.message.toList.flatMap fun c =>
    if c = '\n' then ['\n', ' ', ' ', ' ', ' '] else [c])

end Make24.CommandLine
