import PubSub.Machine
import PubSub.Script.Journal
import PubSub.Script.Meaning

/-!
# Runs of scripts

The operations of a script are performed one after another. Before the next operation starts, all
threads that the last one has set going have come to rest.
-/
namespace PubSub.Script

/-- How deep posts may nest, and how many turns an operation may take. -/
def depthLimit : Nat := 1000000
def turnLimit : Nat := 1000000000

/-- What an operation answered, and what happened meanwhile on the driving thread and on others. -/
structure Report where
  answer : Answer
  log : List Line
  wlog : List Line

def Report.document (r : Report) : Text.Document :=
  .fields ([("r", reply r.answer)] ++ unlessEmpty "log" (r.log.map .items)
    ++ unlessEmpty "wlog" (r.wlog.map .items))

/-- Performs an operation on the driving thread until all threads rest: what it answers, if it came
to its end, and the world after that. -/
def answer? (w : World Session) (operation : Operation) : Option Answer × World Session :=
  let m : Machine Session Answer :=
    ⟨w, [behaviour.run depthLimit .main (perform 0 operation)], .empty, .empty⟩
  let m := m.settle behaviour depthLimit turnLimit
  (m.results.head?.join, m.world)

def start : World Session := .start .empty

/-- Performs one operation and reports what happened meanwhile. -/
def report? (trace sort : Bool) (w : World Session) (operation : Operation) :
    Option (Report × World Session) :=
  let (answer, w) := answer? { w with history := [] } operation
  let entries := w.history.reverse
  let others := lines trace false entries
  answer.map fun answer =>
    (⟨answer, lines trace true entries, if sort then sorted others else others⟩, w)

/-- Performs the operations of a script in their order. -/
def reports? (trace sort : Bool) : World Session → List Operation → Option (List Report)
  | _, [] => some []
  | w, operation :: rest =>
    match report? trace sort w operation with
    | none => none
    | some (report, w) => (reports? trace sort w rest).map (report :: ·)

end PubSub.Script
