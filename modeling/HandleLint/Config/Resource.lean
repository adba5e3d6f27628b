import HandleLint.Text.Cut

/-!
# Which handles are watched

The type of the handles that must be released, the type that creates them, and the calls that
release them.
-/

namespace HandleLint

structure ResourceConfig where
  /-- The qualified type of a handle. -/
  handleType : String := "org.apache.sling.api.resource.ResourceResolver"
  /-- The qualified type whose methods create handles. -/
  factoryType : String := "org.apache.sling.api.resource.ResourceResolverFactory"
  /-- Methods without arguments that release the handle they are called on. -/
  releaseMethods : List String := ["close"]
  /-- Methods that release a handle passed to them. -/
  releaseHelpers : List String := ["closeQuietly"]
  deriving DecidableEq, Repr, Inhabited

namespace ResourceConfig

/-- The type of a handle without its package. -/
def handleName (c : ResourceConfig) : String :=
  Text.simpleName c.handleType

def isRelease (c : ResourceConfig) (method : String) : Bool :=
  c.releaseMethods.contains method

/-- Whether a call releases what is passed to it: a release method does so too. -/
def isReleaseHelper (c : ResourceConfig) (method : String) : Bool :=
  c.isRelease method || c.releaseHelpers.contains method

end ResourceConfig

end HandleLint
