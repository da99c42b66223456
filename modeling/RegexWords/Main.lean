import RegexWords.CommandLine

/-!
# The program

The outer layer of the command line: it hands over the arguments and prints what comes back.
Values without end are printed one by one.
-/

namespace RegexWords

/-- Prints the values of an enumeration as they come. -/
partial def stream {ω : Type} [Outcome ω] (text : ω → String) (e : Enumeration ω) : IO Unit := do
  match e.next with
  | (none, _) => return
  | (some outcome, e) =>
    IO.print (text outcome)
    stream text e

/-- Prints the values of a request that have no end. -/
def streamRequest (r : Request) : IO Unit :=
  match Pattern.ofText r.pattern with
  | .error _ => return
  | .ok p =>
    match r.format with
    | .lines => stream (fun (value : String) => value ++ "\n") (.ofPattern p {})
    | .tree => stream (fun (tree : Provenance) => tree.snapshot.outline) (.ofPattern p {})
    | .json | .treeJson => stream (fun (_ : String) => "") (.ofPattern p {})

end RegexWords

open RegexWords in
/-- Runs the command line. -/
def main (arguments : List String) : IO UInt32 := do
  let invocation := Invocation.ofArguments arguments
  match invocation.report? with
  | some report =>
    IO.print report.output
    IO.eprint report.errors
    return UInt32.ofNat report.status
  | none =>
    if let .request r := invocation then streamRequest r
    return 0
