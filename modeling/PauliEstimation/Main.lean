import PauliEstimation.Estimator.Report

namespace PauliEstimation.Estimator

/-- Three decimal places of a number of milliseconds, in seconds. -/
def secondsText (milliseconds : Nat) : String := Decimal.withPoint 3 milliseconds ++ " s"

/-- The system's number of an error. Those without one count as errors of the device. -/
def systemError : IO.Error → SystemError
  | .alreadyExists _ n _ | .otherError n _ | .resourceBusy n _ | .resourceVanished n _
  | .unsupportedOperation n _ | .hardwareFault n _ | .unsatisfiedConstraints n _
  | .illegalOperation n _ | .protocolError n _ | .timeExpired n _ | .interrupted _ n _
  | .noFileOrDirectory _ n _ | .invalidArgument _ n _ | .permissionDenied _ n _
  | .resourceExhausted _ n _ | .inappropriateType _ n _ | .noSuchThing _ n _ => ⟨n.toNat⟩
  | .unexpectedEof | .userError _ => ⟨5⟩

/-- Writes the lines of a file. What goes wrong becomes a failure. -/
def writeTable (path : String) (lines : List String) : IO (Option Failure) := do
  match ← (IO.FS.Handle.mk path .write).toBaseIO with
  | .error e => return some (Failure.creating path (systemError e))
  | .ok file =>
    match ← (do lines.forM file.putStrLn; file.flush : IO Unit).toBaseIO with
    | .error e => return some (Failure.ofSystem (systemError e))
    | .ok () => return none

def fail (f : Failure) : IO UInt32 := do
  f.lines.forM IO.eprintln
  return 1

def runAndPrint (o : Options) : IO UInt32 := do
  let start ← IO.monoMsNow
  match estimate o ampleFuel with
  | none => fail ⟨"out of fuel", []⟩
  | some (.error f) => fail f
  | some (.ok r) =>
    r.termLines.forM IO.println
    let elapsed := (← IO.monoMsNow) - start
    IO.println (r.energyLine ++ ", " ++ secondsText elapsed)
    r.noteLines.forM IO.println
    match o.out with
    | none => return 0
    | some path => match ← writeTable path r.csvLines with
      | none => return 0
      | some f => fail f

end PauliEstimation.Estimator

open PauliEstimation Estimator in
def main (args : List String) : IO UInt32 := do
  match Request.ofArgs args with
  | .run o => runAndPrint o
  | .help => usage.forM IO.println; return 0
  | .version => IO.println version; return 0
  | .badUsage reason => IO.eprintln ("error: " ++ reason); return 2
