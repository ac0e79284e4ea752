import MayAlias.Alias.Answer
import MayAlias.Cfg.Load
import MayAlias.Host
import MayAlias.Options.Arguments
import MayAlias.Report.Dot
import MayAlias.Report.Facts
import MayAlias.Report.Statistics

/-!
# The command

A run of the command reads its options, loads a procedure, analyses it, answers the queries and
writes the reports.  It reaches files and the terminal through a `Host`, so that it can be run
against any of these.
-/

namespace MayAlias

namespace Command

/-- The line that names the program and its version. -/
def version : String := "pta v0.1.0\n"

/-- How the command is used. -/
def usage : String := "pta [OPTIONS] PROCEDURE"

/-- The text that explains the options. -/
def help : String :=
  version ++ "\nUSAGE:\n    " ++ usage ++ "\n\nOPTIONS:\n"
    ++ "        --summary <last-visited|join-exits>    The graph that answers the queries\n"
    ++ "        --max-passes <N>                       Give up after this many passes\n"
    ++ "        --alias <QUERY>                        A query `a~b` or `a.f~b`, repeatable\n"
    ++ "        --dump-stats                           Write the statistics\n"
    ++ "        --dump-pts <FILE|stdout>               Write the points-to listing\n"
    ++ "        --dump-dot <FILE|stdout>               Write the summary in DOT\n"
    ++ "        --dump-facts <FILE|stdout>             Write the facts of every node\n"
    ++ "    -h, --help                                 Show this text\n"
    ++ "    -V, --version                              Show the version\n"

/-- Arguments given as a JSON array of strings; anything else gives none. -/
def argumentsOf (flags : String) : List String :=
  match Json.texts flags with
  | .ok args => args
  | .error _ => []

/-- The options of a run: the preset arguments come first, those of the call after them. -/
def optionsOf (flags : String) (args : List String) : Except ArgumentError Options := do
  let preset ← ({} : Options).parse (argumentsOf flags)
  preset.parse args

/-- The lines that answer the queries. -/
def answers (g : Graph) (queries : List Query) : String :=
  String.join (queries.map fun q =>
    q.render ++ ": " ++ (if g.answer q then "true" else "false") ++ "\n")

/-- The reports that a run writes, in order, with their destinations. -/
def reports (o : Options) (r : Analysis.Result Nat) : List (String × String) :=
  [o.pointsTo.map fun path => (path, Report.pointsTo r.sites r.summary),
    o.facts.map fun path => (path, Report.facts Cfg.inspectNode r),
    o.dot.map fun path => (path, Report.dot r.sites r.summary)].filterMap id

variable {m : Type → Type} [Monad m]

/-- Writes a report to a file, or to the standard output if that is its destination. -/
def writeReport (host : Host m) (path text : String) : m (Except FileFault Unit) := do
  if path = "stdout" then
    host.print text
    return .ok ()
  else host.save path text

/-- Writes reports in order, up to the first that cannot be written. -/
def writeReports (host : Host m) : List (String × String) → m (Except FileFault Unit)
  | [] => pure (.ok ())
  | (path, text) :: rest => do
    match ← writeReport host path text with
    | .ok () => writeReports host rest
    | .error fault => pure (.error fault)

/-- Analyses a procedure and reports on it. -/
def analyse (host : Host m) (o : Options) (g : Cfg) : m (Except String Unit) := do
  match Analysis.run g.toFlow o.summary o.maxPasses with
  | .error e =>
    return .error ("analysis of " ++ g.name ++ " failed: " ++ e.message Cfg.inspectNode)
  | .ok r =>
    host.print (answers r.summary o.queries)
    match ← writeReports host (reports o r) with
    | .error fault => return .error ("failed to dump results: " ++ fault.message)
    | .ok () =>
      if o.statistics then host.print (Report.statistics r)
      return .ok ()

/-- Runs with given options; an error is told in words. -/
def runWith (host : Host m) (o : Options) : m (Except String Unit) := do
  match o.procedure with
  | none => return .error ("no procedure given, usage: " ++ usage)
  | some path =>
    match Cfg.load (← host.fetch path) with
    | .error e =>
      return .error ("failed to load procedure " ++ path ++ ": " ++ e.message path)
    | .ok g => analyse host o g

/-- The exit code of a run that could not start. -/
def refuse (host : Host m) : ArgumentError → m UInt32
  | .displayVersion => do
    host.print version
    return 0
  | .displayHelp => do
    host.print help
    return 0
  | _ => do
    host.printError ("error: invalid arguments, usage: " ++ usage ++ "\n")
    return 2

/-- Runs the command with the preset arguments and those of the call, and gives the exit code. -/
def run (host : Host m) (flags : String) (args : List String) : m UInt32 := do
  match optionsOf flags args with
  | .error e => refuse host e
  | .ok o =>
    match ← runWith host o with
    | .ok () => return 0
    | .error reason =>
      host.printError ("error: " ++ reason ++ "\n")
      return 1

end Command

end MayAlias
