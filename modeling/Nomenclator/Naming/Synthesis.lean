import Nomenclator.Hierarchy.Layer
import Nomenclator.Naming.Progress
import Nomenclator.Text.Lowercase

/-!
# Naming runs

A run names everything in a set of classes that may be named and has no name
yet. It goes through the classes that are not excluded in the order of their
names without regard to case, five times: field rules, enumeration constants,
class names, the members that classes define, and the methods that override
another.

Specification: `SPEC_FULL.md` §4.3; the counters persist as in §10, configuration.
-/

namespace Nomenclator

/-- What a run leaves for the next one, and what it did. -/
structure Outcome where
  nextMember : UInt32 := 0
  nextClass : UInt32 := 0
  tally : Tally := {}
  deriving DecidableEq, Repr

/-- The settings for the next run: its numbers go on where those of the last run
    ended. -/
def Settings.record (settings : Settings) (outcome : Outcome) : Settings :=
  { settings with nextMember := outcome.nextMember, nextClass := outcome.nextClass }

namespace Progress

/-- The classes of a run in their order. -/
def classesInOrder (conventions : Conventions) (settings : Settings)
    (classes : List SourceClass) : List SourceClass :=
  (classes.filter fun source => !settings.excludes source.name).mergeSort fun a b =>
    (Text.compareIgnoringCase conventions.lower a.name b.name).isLE

/-- The start of a run. -/
def start (settings : Settings) (renames : Renames) : Progress :=
  { renames, nextMember := settings.nextMember.toNat, nextClass := settings.nextClass.toNat }

/-- Field rules for all classes. -/
def rulesPass (settings : Settings) (classes : List SourceClass) (progress : Progress) :
    Progress :=
  classes.foldl (applyRulesToClass settings.fieldRules) progress

/-- Enumeration constants of all classes. -/
def constantsPass (settings : Settings) (classes : List SourceClass) (progress : Progress) :
    Progress :=
  if settings.recoverEnumConstants then classes.foldl recoverConstants progress else progress

/-- Names of all classes. -/
def classesPass (conventions : Conventions) (settings : Settings) (classes : List SourceClass)
    (progress : Progress) : Option Progress :=
  match settings.classes with
  | some naming => classes.foldlM (nameClass conventions naming) progress
  | none => some progress

/-- Members that the classes define (Pass 1, §4.3). -/
def definitionPass (conventions : Conventions) (hierarchy : Hierarchy) (settings : Settings)
    (classes : List SourceClass) (progress : Progress) : Option Progress := do
  let progress ← classes.foldlM (defineClass conventions hierarchy settings) progress
  return progress.note (.definitionsDone classes.length progress.tally.namedFields
    progress.tally.namedMethods progress.nextMember)

/-- Methods that override another (Pass 2, §4.3). -/
def propagationPass (hierarchy : Hierarchy) (settings : Settings) (classes : List SourceClass)
    (progress : Progress) : Progress :=
  let progress :=
    if settings.mapMethods then classes.foldl (propagateClass hierarchy) progress else progress
  progress.note (.propagationDone progress.tally.propagatedMethods)

/-- A whole run. It fails when a counter cannot go on. -/
def run (conventions : Conventions) (hierarchy : Hierarchy) (settings : Settings)
    (classes : List SourceClass) (renames : Renames) : Option Progress := do
  let ordered := classesInOrder conventions settings classes
  let progress := rulesPass settings ordered (start settings renames)
  let progress := constantsPass settings ordered progress
  let progress ← classesPass conventions settings ordered progress
  let progress ← definitionPass conventions hierarchy settings ordered progress
  return propagationPass hierarchy settings ordered progress

/-- The outcome of a finished run. -/
def outcome (progress : Progress) : Outcome :=
  ⟨UInt32.ofNat progress.nextMember, UInt32.ofNat progress.nextClass, progress.tally⟩

end Progress

/-- How runs compare letters and count: Unicode lower case, 32 bits. -/
def Conventions.standard : Conventions := ⟨Text.lowercase, Conventions.advance32⟩

/-- A run over the given hierarchy. -/
def synthesizeWith (hierarchy : Hierarchy) (settings : Settings) (classes : List SourceClass)
    (renames : Renames) : Option Progress :=
  Progress.run .standard hierarchy settings classes renames

/-- The hierarchy of the classes themselves and behind them the platform. -/
def hierarchyOf (classes : List SourceClass) : Hierarchy :=
  Hierarchy.cascade
    [(SourceSet.ofList (classes.map (·.shape))).hierarchy, PlatformIndex.standard.hierarchy]

/-- A run over the classes themselves and the platform (`synthesize`, §4.3). -/
def synthesize (settings : Settings) (classes : List SourceClass) (renames : Renames) :
    Option Progress :=
  synthesizeWith (hierarchyOf classes) settings classes renames

/-! ## Single steps -/

/-- Only field rules, for classes in the order given. -/
def applyFieldRules (rules : List FieldRule) (classes : List SourceClass) (renames : Renames) :
    Progress :=
  classes.foldl (Progress.applyRulesToClass rules) { renames }

/-- Only the enumeration constants of one class. -/
def recoverEnumConstants (source : SourceClass) (renames : Renames) : Progress :=
  Progress.recoverConstants { renames } source

end Nomenclator
