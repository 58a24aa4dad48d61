import FlatXor.CommandLine
import FlatXor.FailureTable

/-!
# The program

The program reads its command line and then its settings, on top of which it lays what
the command line asks for. All output is made before any of it is written, so a run
that fails writes nothing but its report.
-/
namespace FlatXor

/-- What a run looks at besides its arguments. -/
structure Surroundings where
  /-- The environment variable for the step limit. -/
  stepLimit : Option String
  /-- What there is at a path. -/
  contentAt : String → FileContent

/-- What a run leaves behind. -/
structure RunResult where
  exitCode : Nat
  output : String
  /-- The report of what went wrong, without a line end. -/
  report : String
  deriving Repr, DecidableEq

/-- Why a run fails: what it was about to do, and what stood in the way. -/
structure Failure where
  context : String
  cause : Option String
  deriving Repr, DecidableEq

namespace Failure

def render (f : Failure) : String :=
  match f.cause with
  | none => s!"Error: {f.context}"
  | some cause => s!"Error: {f.context}\n\nCaused by:\n    {cause}"

end Failure

namespace OutputSettings

/-- The settings with what a request asks for. -/
def override (o : OutputSettings) (r : CodesRequest) : OutputSettings where
  format := r.format.getD o.format
  declaration := if r.static then .static else o.declaration
  index := r.index || o.index

end OutputSettings

namespace SearchSettings

/-- The settings with what a request asks for. -/
def override (s : SearchSettings) (r : CodesRequest) : SearchSettings where
  maxSteps := r.maxSteps.getD s.maxSteps
  detectOscillation := !r.noOscillationCheck && s.detectOscillation

end SearchSettings

/-- The family of all candidates for the parameters, under the given limits. There is
none when the search has no end. -/
def CodeFamily.generate (p : CodeParams) (limits : SearchLimits) :
    Option (Except SearchError CodeFamily) :=
  ((Search.ofParams p limits.detectOscillation).run limits.maxSteps).map
    fun r => r.map CodeFamily.ofOutcome

namespace Program

def name : String := "goldilocks"

def version : String := "0.1.0"

def usage : String :=
  "Generate Goldilocks flat-XOR erasure code tables\n\n" ++
  s!"Usage: {name} [OPTIONS] codes [--format c|json] [--static] [--index]\n" ++
  "           [--max-steps N] [--no-oscillation-check] PARITIES ARITY\n" ++
  s!"       {name} [OPTIONS] failure-combs FRAGMENTS DEPTH\n\n" ++
  "Options: -c, --config FILE   --log-level LEVEL   -h, --help   -V, --version\n"

def succeed (output : String) : RunResult := ⟨0, output, ""⟩

def fail (context : String) (cause : Option String) : RunResult :=
  ⟨1, "", (Failure.mk context cause).render⟩

/-- Writes a code family. A search without an end gives no result. -/
def codes (settings : Settings) (r : CodesRequest) : Option RunResult :=
  match CodeParams.ofCounts r.parities r.arity with
  | .error e => some (fail "invalid code parameters" e.message)
  | .ok p =>
    match CodeFamily.generate p (settings.search.override r).limits with
    | none => none
    | some (.error e) => some (fail s!"no code family for {p.render}" e.message)
    | some (.ok f) => some (succeed (f.render (settings.output.override r)))

/-- Writes a failure table. -/
def failures (fragments depth : Nat) : RunResult :=
  match FailureTable.ofCounts fragments depth with
  | .error e => fail "invalid failure table parameters" e.message
  | .ok t => succeed t.render

def perform (settings : Settings) : Command → Option RunResult
  | .codes r => codes settings r
  | .failures fragments depth => some (failures fragments depth)

/-- A whole run. There is no result when the search has no end. -/
def run (args : List String) (s : Surroundings) : Option RunResult :=
  match Invocation.parse args s.stepLimit with
  | .error .help => some (succeed usage)
  | .error .version => some (succeed s!"{name} {version}\n")
  | .error (.wrong e) => some ⟨2, "", s!"error: {e.message}"⟩
  | .ok invocation =>
    match Settings.load s.contentAt invocation.config with
    | .error _ => some (fail "failed to load config" none)
    | .ok settings => perform settings invocation.command

end Program

end FlatXor
