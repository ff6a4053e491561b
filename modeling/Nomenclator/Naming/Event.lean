import Nomenclator.Hierarchy.Basic

/-!
# What a naming run reports

The events of a run in the order in which they happen, and how they are written
down. Asking the hierarchy about a class is an event too. It leaves a trace
when the class is not known, and, if answers are remembered, when a class is
asked about for the first time.

Specification: `SPEC_FULL.md` §10, logging.
-/

namespace Nomenclator

/-- Something that happens in a run. -/
inductive Event where
  /-- The hierarchy was asked about a class. -/
  | asked (className : String)
  /-- A rule named a field. -/
  | ruleMatched (className field newName : String)
  /-- The name of an enumeration constant was recovered. -/
  | constantRecovered (className field constant : String)
  /-- The static initializer of an enumeration cannot be decoded. -/
  | undecodable (className : String) (cause : Malformed)
  /-- A class was named. -/
  | classNamed (className newName : String)
  /-- A field was named. -/
  | fieldNamed (className field newName : String)
  /-- A method was named. -/
  | methodNamed (className : String) (key : MethodKey) (newName : String)
  /-- A method took the name of the one it overrides. -/
  | methodInherited (className : String) (key : MethodKey) (newName : String)
  /-- All members that classes define themselves have been named. -/
  | definitionsDone (classes fields methods nextMember : Nat)
  /-- All overriding methods have been named. -/
  | propagationDone (methods : Nat)
  deriving DecidableEq

/-! ## Traces -/

/-- How important an entry of a trace is. -/
inductive TraceLevel where
  | trace
  | debug
  | warn
  deriving DecidableEq, Repr

/-- The label of a level. -/
def TraceLevel.label : TraceLevel → String
  | trace => "TRACE"
  | debug => "DEBUG"
  | warn => "WARN"

/-- An entry of a trace: the part of the program that speaks, the level and the
    fields of the entry, its message among them. -/
structure TraceEntry where
  target : String
  level : TraceLevel
  fields : List (String × String)
  deriving DecidableEq, Repr

namespace TraceEntry

/-- An entry of the naming run. -/
def naming (level : TraceLevel) (message : String) (fields : List (String × String)) :
    TraceEntry :=
  ⟨"survey.intermediary", level, fields ++ [("message", message)]⟩

/-- An entry of the recovery of enumeration constants. -/
def enumeration (level : TraceLevel) (message : String) (fields : List (String × String)) :
    TraceEntry :=
  ⟨"survey.enum", level, fields ++ [("message", message)]⟩

/-- An entry of the class hierarchy. -/
def provider (message : String) (fields : List (String × String)) : TraceEntry :=
  ⟨"survey.provider", .trace, fields ++ [("message", message)]⟩

/-- No layer knows the class. -/
def unknownClass (className : String) : TraceEntry :=
  provider "no provider knows class" [("class", className)]

/-- The answer about a class is remembered from now on. -/
def remembered (className : String) (found : Bool) : TraceEntry :=
  provider "cache fill" [("class", className), ("found", if found then "true" else "false")]

end TraceEntry

/-- The entry for an event other than asking the hierarchy. -/
def Event.entry? : Event → Option TraceEntry
  | asked _ => none
  | ruleMatched className field newName =>
    some (.naming .trace "field rule matched"
      [("class", className), ("field", field), ("name", newName)])
  | constantRecovered className field constant =>
    some (.enumeration .trace "recovered enum constant"
      [("class", className), ("field", field), ("constant", constant)])
  | undecodable className cause =>
    some (.enumeration .warn "skipping enum with undecodable static initializer"
      [("class", className), ("error", cause.message)])
  | classNamed className newName =>
    some (.naming .trace "class" [("class", className), ("name", newName)])
  | fieldNamed className field newName =>
    some (.naming .trace "field" [("class", className), ("field", field), ("name", newName)])
  | methodNamed className key newName =>
    some (.naming .trace "method"
      [("class", className), ("method", key.name), ("descriptor", key.descriptor),
       ("name", newName)])
  | methodInherited className key newName =>
    some (.naming .trace "inherited"
      [("class", className), ("method", key.name), ("descriptor", key.descriptor),
       ("name", newName)])
  | definitionsDone classes fields methods nextMember =>
    some (.naming .debug "definition pass complete"
      [("classes", toString classes), ("fields", toString fields), ("methods", toString methods),
       ("next_member", toString nextMember)])
  | propagationDone methods =>
    some (.naming .debug "propagation pass complete" [("propagated", toString methods)])

namespace Hierarchy

/-- The entries for asking about a class whose answer is not remembered. -/
def askedEntries (hierarchy : Hierarchy) (className : String) : List TraceEntry :=
  if hierarchy.knows className then [] else [.unknownClass className]

/-- The trace of events over a hierarchy without a cache. -/
def trace (hierarchy : Hierarchy) : List Event → List TraceEntry
  | [] => []
  | .asked className :: events => hierarchy.askedEntries className ++ hierarchy.trace events
  | event :: events => event.entry?.toList ++ hierarchy.trace events

/-- The trace of events over a hierarchy whose answers are remembered; the
    classes in `remembered` have been asked about before. -/
def cachedTrace (hierarchy : Hierarchy) (remembered : List String) :
    List Event → List TraceEntry
  | [] => []
  | .asked className :: events =>
    if className ∈ remembered then hierarchy.cachedTrace remembered events
    else
      hierarchy.askedEntries className ++
        .remembered className (hierarchy.knows className) ::
        hierarchy.cachedTrace (className :: remembered) events
  | event :: events => event.entry?.toList ++ hierarchy.cachedTrace remembered events

end Hierarchy

end Nomenclator
