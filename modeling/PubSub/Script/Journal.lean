import PubSub.History
import PubSub.Script.Reply

/-!
# Journals

The part of a history that a script shows, entry by entry as a list of cells.
-/
namespace PubSub.Script

open Text (Document)

abbrev Line := List Document

def cells (values : List String) : Line := values.map .text

def levelName : Level → String
  | .debug => "DEBUG"
  | .warn => "WARN"
  | .error => "ERROR"

def logTexts (r : LogRecord) : List String :=
  ["log", levelName r.level, r.target, r.message] ++ r.fields.map fun f => f.1 ++ "=" ++ f.2

/-- What the log writer logs about a failure. -/
def failureRecord (f : Failure) : LogRecord :=
  { level := .error
    target := "typebus"
    message := match f.cause with
      | .panicked _ => "handler panicked"
      | .abandoned _ => "delivery abandoned"
      | .error _ => "handler failed"
    fields := [("bus", f.site.bus), ("subscriber", f.site.subscriber), ("method", f.site.method),
      ("event_type", f.site.eventType), ("event", f.site.event), ("cause", f.cause.message)] }

/-- The line for an occurrence, if it has one. Log records are shown only in a `trace`. -/
def line? (trace : Bool) : Occurrence → Option Line
  | .listed owner handlers => some (cells ("handlers" :: owner.label :: handlers))
  | .declared _ type collected =>
    some (cells ("declare" :: type.label :: collected.map Topic.name))
  | .called invocation object =>
    let s := invocation.subscription
    some (cells ["call", s.id.owner.label, s.method, s.topic.label, object.describe])
  | .reported _ _ (.custom label _ _) failure =>
    some (cells ("fail" :: label :: failureTexts failure))
  | .reported _ _ .log failure =>
    if trace then some (cells (logTexts (failureRecord failure))) else none
  | .logged record => if trace then some (cells (logTexts record)) else none
  | .worked label => some (cells ["job", label])
  | .nested operation answer => some [.text "nested", .text operation, reply answer]
  | .selected _ _ => none
  | .answered _ _ => none
  | .ended _ _ => none
  | .submitted _ => none
  | .dropped _ _ => none
  | .settled _ => none

/-- The lines of a history, of the driving thread if `main`, else of all other threads. -/
def lines (trace main : Bool) (entries : List Entry) : List Line :=
  entries.filterMap fun e =>
    if (e.thread = .main) = (main = true) then line? trace e.occurrence else none

/-- The order of lines, cell by cell and by code points. -/
def sorted (ls : List Line) : List Line :=
  let precedes (s s' : String) : Bool := s.toList.lex s'.toList fun c c' => c.toNat < c'.toNat
  ls.mergeSort fun a b => !(b.map Document.sortText).lex (a.map Document.sortText) precedes

end PubSub.Script
