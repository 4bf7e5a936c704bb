import ClassHierarchy.CallTarget.Figures

/-!
# Requests, answers and events

Everything that can be asked of a program and of the hierarchy built from it, the shapes that answers
have, and what is reported while a hierarchy is built and queried. Events never change an answer.
-/

namespace ClassHierarchy

/-! ## Requests -/

/-- A request to a session. -/
inductive Request where
  /-- Check the program. -/
  | validate
  /-- The first definition of a type in the program. -/
  | classNamed (t : TypeName)
  /-- The types of all definitions of the program. -/
  | programTypes
  | superclass (t : TypeName)
  | subclasses (t : TypeName)
  | allSubclasses (t : TypeName)
  | properSubclasses (t : TypeName)
  | implementations (t : TypeName)
  | subinterfaces (t : TypeName)
  | allImplementations (t : TypeName)
  | definition (t : TypeName)
  | superclassDefinition (t : TypeName)
  | isInterface (t : TypeName)
  | isFinal (t : TypeName)
  /-- The types without a parent. -/
  | roots
  /-- The types of the hierarchy. -/
  | types
  /-- The size of the hierarchy and of the memo. -/
  | stats
  /-- The options of the hierarchy. -/
  | options
  /-- The method that a type itself defines. -/
  | declared (t : TypeName) (s : Signature)
  | resolve (t : TypeName) (s : Signature)
  | resolveSuper (t : TypeName) (s : Signature)
  | anyTarget (kind : InvokeKind) (s : Signature) (t : TypeName)
  | implementationsOf (t : TypeName) (s : Signature)
  | dispatch (site : CallSite)
  | isPolymorphic (site : CallSite)
  | callTarget (site : CallSite)
  /-- Dispatch two sites and compare what becomes of them. -/
  | sameTarget (a b : CallSite)
  /-- Dispatch many sites, shared among workers. A fault in one of them abandons all, and the session
  with them. -/
  | callTargets (sites : List CallSite) (sharing : Sharing := {})
  /-- Ask the memo. -/
  | consult (t : TypeName) (s : Signature)
  /-- Tell the memo. -/
  | remember (t : TypeName) (s : Signature) (answer : Option Method)
  /-- Empty the memo and zero its counters. -/
  | forget
  /-- Build the hierarchy anew, with an empty memo. -/
  | rebuild (options : Options)
  deriving DecidableEq, Repr

/-- The size of a hierarchy and of its memo. -/
structure Stats extends Counts where
  entries : Nat := 0
  hits : Nat := 0
  misses : Nat := 0
  deriving DecidableEq, Repr

/-- The sizes of a hierarchy and of a memo. -/
def Stats.of (h : Hierarchy) (memo : Memo) : Stats :=
  { h.counts with entries := memo.size, hits := memo.hits, misses := memo.misses }

/-- Every number is zero. -/
def Stats.isZero (s : Stats) : Bool :=
  s = {}

/-- The answer to a request. -/
inductive Answer where
  | done
  | valid
  | flag (b : Bool)
  | type? (t : Option TypeName)
  | types (ts : List TypeName)
  | programTypes (ts : List TypeName)
  | definition? (c : Option ClassDef)
  | stats (s : Stats)
  | options (o : Options)
  | method? (m : Option Method)
  | methods (ms : List Method)
  | targets (ts : Targets)
  | callTarget (call : CallTarget)
  | callTargets (calls : List CallTarget) (figures : SiteFigures)
  | remembered (answer : Option (Option Method))

/-- Why a request has no answer. -/
inductive Failure where
  | program (error : ProgramError)
  | fault (cause : Fault)
  deriving DecidableEq, Repr

/-- The failure in words. -/
def Failure.message : Failure → String
  | program error => error.message
  | fault cause => cause.message

/-! ## Events -/

/-- How much an event matters. -/
inductive Level where
  | warn
  | debug
  | trace
  deriving DecidableEq, Repr

/-- The word for a level. -/
def Level.word : Level → String
  | warn => "WARN"
  | debug => "DEBUG"
  | trace => "TRACE"

/-- Something worth reporting. -/
inductive Event where
  /-- A hierarchy is being built from so many definitions. -/
  | building (definitions : Nat)
  /-- A later definition of a type was skipped. -/
  | skipped (type : TypeName)
  /-- A hierarchy was built. -/
  | built (counts : Counts)
  /-- A call site is about to be dispatched. -/
  | dispatching (site : CallSite)
  /-- A search for implementors went down from so many roots and found so many methods. -/
  | searched (type : TypeName) (signature : Signature) (roots methods : Nat)
  deriving DecidableEq, Repr

namespace Event

def level : Event → Level
  | skipped _ => .warn
  | building _ | built _ | searched .. => .debug
  | dispatching _ => .trace

/-- The event opens a piece of work. -/
def isSpan : Event → Bool
  | building _ => true
  | _ => false

def message : Event → String
  | building _ => "with_config"
  | skipped _ => "duplicate class definition skipped"
  | built _ => "built class hierarchy index"
  | dispatching _ => "dispatching call site"
  | searched .. => "searched implementors"

end Event

/-- The events of building a hierarchy from a program: one for each skipped definition stands between
the first and the last. -/
def Hierarchy.buildEvents (p : Program) (h : Hierarchy) : List Event :=
  .building p.classes.length :: h.skipped.toList.map .skipped ++ [.built h.counts]

end ClassHierarchy
