import ClassHierarchy.Method

/-!
# Call sites

A call site is an invocation at a place in the body of a method: the kind of the invocation, the
signature that it names and the value it is made on. What matters of the value is how much is known of
its runtime type: an allocation makes an instance of one known class, a parameter or a caught exception
may be an instance of any subtype of its declared type. A cast checks a value and narrows its static
type; it never changes the instance, so a question about the runtime type looks through all casts.

The `Policy` of a call site says which types can be the runtime type of the receiver, and so where the
search for targets starts. Only the kind of a super call matters; the other kinds dispatch alike.

* `castTo_origin_casts`: a value is determined by what lies under its casts and the list of these.
-/

namespace ClassHierarchy

/-! ## Values -/

/-- The diagnostic text of a value with named fields, on one line: the name of the shape, then the
fields between braces, each as `field: text`. The texts of the fields are taken as they are. -/
def describeFields (shape : String) (fields : List (String × String)) : String :=
  shape ++ " \x7b " ++ ", ".intercalate (fields.map fun f => f.1 ++ ": " ++ f.2) ++ " \x7d"

/-- A value on which a method is invoked. -/
inductive Value where
  /-- A parameter of the calling method, by position. -/
  | parameter (index : Nat) (type : TypeName)
  /-- The exception that a handler caught. -/
  | caught (type : TypeName)
  /-- A fresh instance of a class. -/
  | allocated (type : TypeName)
  /-- Any other value with a declared type. -/
  | other (type : TypeName)
  /-- A checked cast of another value. -/
  | cast (source : Value) (type : TypeName)
  deriving DecidableEq, Repr, Inhabited

namespace Value

/-- The static type of the value; of a cast, the type it checks. -/
def type : Value → TypeName
  | parameter _ t | caught t | allocated t | other t | cast _ t => t

/-- The value under all casts. -/
def origin : Value → Value
  | cast source _ => source.origin
  | v => v

/-- The types of the casts, the innermost first. -/
def casts : Value → List TypeName
  | cast source t => source.casts ++ [t]
  | _ => []

/-- The value under further casts, the first of them innermost. -/
def castTo (v : Value) (ts : List TypeName) : Value :=
  ts.foldl cast v

/-- A cast changes what is known of a value, and not where it comes from. -/
@[simp] theorem origin_castTo (v : Value) (ts : List TypeName) :
    (v.castTo ts).origin = v.origin := by
  induction ts generalizing v with
  | nil => rfl
  | cons t ts ih => exact ih (v.cast t)

@[simp] theorem casts_castTo (v : Value) (ts : List TypeName) :
    (v.castTo ts).casts = v.casts ++ ts := by
  induction ts generalizing v with
  | nil => simp [castTo]
  | cons t ts ih =>
    rw [show v.castTo (t :: ts) = (v.cast t).castTo ts from rfl, ih]
    simp [casts]

/-- A value is its origin under its casts. -/
theorem castTo_origin_casts (v : Value) : v.origin.castTo v.casts = v := by
  induction v with
  | cast source t ih => simpa [origin, casts, castTo] using ih
  | _ => rfl

/-- The runtime type may be any subtype of the static one. -/
def hasUnknownType (v : Value) : Bool :=
  match v.origin with
  | parameter _ _ | caught _ => true
  | _ => false

/-- The value in words. -/
def describe : Value → String
  | parameter i t => describeFields "Parameter" [("index", toString i), ("ty", t.describe)]
  | caught t => describeFields "MoveException" [("ty", t.describe)]
  | allocated t => describeFields "NewInstance" [("ty", t.describe)]
  | other t => describeFields "Other" [("ty", t.describe)]
  | cast source t => describeFields "CheckCast" [("source", source.describe), ("ty", t.describe)]

end Value

/-! ## Invocations -/

/-- The kinds of invocation. -/
inductive InvokeKind where
  | virtual
  | super
  | direct
  | static
  | interface
  deriving DecidableEq, Repr, Inhabited

namespace InvokeKind

/-- All kinds, in the order in which they are listed. -/
def all : List InvokeKind := [virtual, super, direct, static, interface]

def isSuper (k : InvokeKind) : Bool :=
  k = super

/-- The word for a kind. -/
def word : InvokeKind → String
  | virtual => "virtual"
  | super => "super"
  | direct => "direct"
  | static => "static"
  | interface => "interface"

end InvokeKind

/-- A place in the body of a method. -/
structure Location where
  caller : Method
  offset : Nat := 0
  deriving DecidableEq, Repr, Inhabited

namespace Location

/-- The class that declares the enclosing method. -/
def declaring (l : Location) : TypeName :=
  l.caller.owner

/-- The same offset in the same method, whatever the method's modifiers. -/
def same (l l' : Location) : Bool :=
  l.offset = l'.offset && l.caller.same l'.caller

end Location

/-- An invocation. -/
structure CallSite where
  location : Location
  kind : InvokeKind := .virtual
  signature : Signature
  receiver : Value
  deriving DecidableEq, Repr, Inhabited

/-- Sites agree when all their parts do, locations up to the caller's modifiers. -/
def CallSite.same (a b : CallSite) : Bool :=
  a.location.same b.location && a.kind = b.kind && a.signature = b.signature
    && a.receiver = b.receiver

/-! ## Policies -/

/-- Where the targets of a call are looked for. -/
inductive Policy where
  /-- Above the class that declares the calling method. -/
  | above (declaring : TypeName)
  /-- At this type, which is the runtime type of the receiver. -/
  | exact (receiver : TypeName)
  /-- At every subtype of this type. -/
  | below (bound : TypeName)
  deriving DecidableEq, Repr, Inhabited

namespace Policy

/-- A super call leaves out the receiver. Otherwise a receiver of unknown runtime type is bounded by
its static type; an allocation keeps the type it was made with under any casts, and of any other
value the outermost type is the best one known. -/
def classify (location : Location) (kind : InvokeKind) (receiver : Value) : Policy :=
  if kind.isSuper then
    above location.declaring
  else if receiver.hasUnknownType then
    below receiver.type
  else
    match receiver.origin with
    | .allocated t => exact t
    | _ => exact receiver.type

/-- The type that the policy carries. -/
def type : Policy → TypeName
  | above t | exact t | below t => t

/-- The word for a policy. -/
def word : Policy → String
  | above _ => "super"
  | exact _ => "exact"
  | below _ => "over-approximate"

/-- The policy in words. -/
def describe : Policy → String
  | above t => describeFields "Super" [("declaring", t.describe)]
  | exact t => describeFields "Exact" [("receiver", t.describe)]
  | below t => describeFields "OverApproximate" [("bound", t.describe)]

end Policy

/-- The policy of a call site. -/
def CallSite.policy (site : CallSite) : Policy :=
  .classify site.location site.kind site.receiver

end ClassHierarchy
