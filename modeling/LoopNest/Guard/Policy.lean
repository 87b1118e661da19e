/-
# Guard policy

Which guards are generated is a matter of policy. By default every index that may
leave its range is guarded. Each knob drops guards that the caller knows to be
unnecessary, or puts them back.
-/

namespace LoopNest

/-- The knobs of guard generation, all off by default. -/
structure GuardPolicy where
  /-- Do not guard a loop whose parent or grandparent is guarded already. -/
  elideRedundant : Bool
  /-- Do not guard the declared ranges of cache axes in local memory. -/
  elideLocal : Bool
  /-- Guard cache axes in local memory nevertheless. -/
  keepLocal : Bool
  /-- Do not guard declared ranges at all. -/
  skipDeclared : Bool
  deriving DecidableEq, Repr

namespace GuardPolicy

/-- The policy with every knob off. -/
def standard : GuardPolicy := ⟨false, false, false, false⟩

instance : Inhabited GuardPolicy := ⟨standard⟩

/-- The policy that the environment variables of an application select. Their names
start with the name of the application. A knob is on when its variable is set,
whatever the value. -/
def ofEnvironment (application : String) (isSet : String → Bool) : GuardPolicy where
  elideRedundant := isSet (application ++ "_ELIDE_REDUNDANT")
  elideLocal := isSet (application ++ "_LOCAL_PADDING")
  keepLocal := isSet (application ++ "_NO_LOCAL_PADDING")
  skipDeclared := isSet (application ++ "_SKIP_ITER_VAR_DOMAIN")

/-- Whether guards of cache axes in local memory are dropped. -/
def elidesLocal (policy : GuardPolicy) : Bool :=
  policy.elideLocal && !policy.keepLocal

end GuardPolicy

end LoopNest
